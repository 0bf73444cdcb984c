import Scoping.Proofs.Nesting.Bindings
import Scoping.Proofs.Nesting.Once

/-! Where identifiers are bound and used. All that binds or uses the identifier at one
place is part of the work at one node, as the walk visits that. -/

namespace Scoping

variable {settings : Settings} {root node other inner name again : Node}
  {past begun later started : List Event} {event found : Event} {inMethod flag : Bool}
  {before after first last : List Task} {usage : Use}

/-- What the work at a node uses is in the node, but in nothing that is visited there. -/
theorem Walker.not_below_of_use (hCustom : settings.keys.custom = []) (hNames : node.NamesOnce)
    (hUse : Walker.tasks { settings, inMethod } node = before ++ .emit (.use usage) :: after)
    (hVisit : Walker.tasks { settings, inMethod } node = first ++ .visit flag inner :: last) :
    ¬ inner.location <:+ usage.identifier.location := by
  have hOrderly : Walker.Orderly node.location (Walker.tasks { settings, inMethod } node) :=
    Walker.orderly_tasks hCustom hNames
  have hOrder := hOrderly.order
  rcases cases_of_append_cons_eq (hUse.symm.trans hVisit) with
    ⟨middle, rfl, -⟩ | ⟨-, hSame⟩ | ⟨middle, rfl, -⟩
  · rw [hUse] at hOrder
    exact (List.pairwise_append.1 hOrder).2.2 _ (List.mem_append_right _ List.mem_cons_self) _
      List.mem_cons_self
  · cases hSame
  · rw [hVisit] at hOrder
    exact (List.pairwise_append.1 hOrder).2.2 _ (List.mem_append_right _ List.mem_cons_self) _
      List.mem_cons_self

namespace Occurs

theorem contains (h : Occurs settings root past event begun inMethod node before after) :
    root.Contains node := by
  obtain ⟨rest, hVisit⟩ := h.visit
  exact hVisit.contains

theorem leads (h : Occurs settings root past event begun inMethod node before after) :
    Leads settings root root node := by
  obtain ⟨rest, hVisit⟩ := h.visit
  exact hVisit.leads

variable (hCustom : settings.keys.custom = []) (hNames : root.NamesOnce)

include hCustom hNames

/-- The identifier of an event is in the node at which it comes, but in nothing that is
visited there. -/
theorem place (h : Occurs settings root past event begun inMethod node before after)
    (hName : event.identifier? = some name) :
    node.location <:+ name.location ∧
      ∀ inner, Goes settings root node inner → ¬ inner.location <:+ name.location := by
  have hHere := hNames.of_holds (.inr h.contains)
  cases hBinding : event.binding? with
  | some binding =>
      obtain rfl := Option.some.inj ((Event.identifier?_of_binding? hBinding).symm.trans hName)
      obtain ⟨hBelow, hApart⟩ := apart_of_mem_bindings hCustom hHere (h.mem_bindings hBinding)
      refine ⟨hBelow, fun inner hGoes => ?_⟩
      cases hGoes with
      | program => exact absurd (List.suffix_refl _) h.contains.not_below
      | inside _ hInner => exact (hApart inner hInner).2
  | none =>
      cases event with
      | use usage =>
          cases hName
          refine ⟨(Walker.orderly_tasks hCustom hHere).within _ h.mem_tasks, fun inner hGoes => ?_⟩
          obtain ⟨first, flag, last, hVisit⟩ := hGoes.exists_split h.contains inMethod
          exact Walker.not_below_of_use hCustom hHere h.split hVisit
      | _ => cases (congrArg (Option.map Binding.identifier) hBinding).symm.trans hName

/-- All that names the identifier at one place is part of the work at one node, as the
walk visits it. -/
theorem same (h : Occurs settings root past event begun inMethod node before after)
    (hOther : Occurs settings root later found started flag other first last)
    (hName : event.identifier? = some name) (hAgain : found.identifier? = some again)
    (hSame : name.location = again.location) :
    begun = started ∧ inMethod = flag ∧ node = other := by
  obtain ⟨hBelow, hOutside⟩ := h.place hCustom hNames hName
  obtain ⟨hBeneath, hBeyond⟩ := hOther.place hCustom hNames hAgain
  rw [← hSame] at hBeneath hBeyond
  have hNode : node = other := by
    rcases List.suffix_or_suffix_of_suffix hBelow hBeneath with hAround | hAround
    · rcases Relation.ReflTransGen.cases_head (h.leads.through hOther.leads hAround) with
        hEq | ⟨next, hNext, hRest⟩
      · exact hEq
      · have hRest : Leads settings root next other := hRest
        exact absurd (hRest.below.trans hBeneath) (hOutside next hNext)
    · rcases Relation.ReflTransGen.cases_head (hOther.leads.through h.leads hAround) with
        hEq | ⟨next, hNext, hRest⟩
      · exact hEq.symm
      · have hRest : Leads settings root next node := hRest
        exact absurd (hRest.below.trans hBelow) (hBeyond next hNext)
  subst hNode
  obtain ⟨rest, hVisit⟩ := h.visit
  obtain ⟨more, hAlso⟩ := hOther.visit
  obtain ⟨hBegun, hTask, -⟩ := hVisit.visit_unique hCustom hNames hAlso rfl
  cases hTask
  exact ⟨hBegun, rfl, rfl⟩

end Occurs

end Scoping
