import Scoping.Proofs.Nesting.Mirror
import Scoping.Proofs.Walk.Ways

/-! Each node is visited once. The work at a node visits nodes that stand apart, so
two visits at one place are the same step of the walk. -/

namespace Scoping

variable {settings : Settings} {root node inner other : Node} {past future begun rest : List Event}
  {inMethod flag : Bool} {tasks before after first last : List Task} {task : Task}

/-- The visits of work that stand apart are told by their places. -/
theorem Walker.Orderly.visit_unique {place : Location} (h : Orderly place tasks)
    (hSplit : tasks = before ++ .visit inMethod node :: after)
    (hOther : tasks = first ++ .visit flag other :: last) (hSame : node.location = other.location) :
    before = first ∧ Task.visit inMethod node = .visit flag other ∧ after = last := by
  have hApart : ∀ {ahead middle behind : List Task} {inMethod flag : Bool} {node other : Node},
      tasks = (ahead ++ .visit inMethod node :: middle) ++ .visit flag other :: behind →
        node.location ≠ other.location := by
    intro ahead middle behind inMethod flag node other hTasks hEq
    have hOrder := h.order
    rw [hTasks] at hOrder
    have hBefore : Location.Apart node.location other.location :=
      (List.pairwise_append.1 hOrder).2.2 _ (List.mem_append_right _ List.mem_cons_self) _
        List.mem_cons_self
    exact hBefore.1 (hEq ▸ List.suffix_refl _)
  rcases cases_of_append_cons_eq (hSplit.symm.trans hOther) with
    ⟨middle, rfl, -⟩ | ⟨rfl, hTask⟩ | ⟨middle, rfl, -⟩
  · exact absurd hSame.symm (hApart hSplit)
  · rw [hSplit] at hOther
    exact ⟨rfl, hTask, (List.cons.inj (List.append_cancel_left hOther)).2⟩
  · exact absurd hSame (hApart hOther)

/-- Of two nodes from which the walk goes to one place, the outer is the inner. -/
theorem Leads.eq_of_goes (hOuter : Leads settings root root node)
    (hInner : Leads settings root root other) (hFirst : Goes settings root node inner)
    {found : Node} (hSecond : Goes settings root other found) (hSame : inner.location = found.location)
    (hBelow : node.location <:+ other.location) : node = other := by
  rcases Relation.ReflTransGen.cases_head (hOuter.through hInner hBelow) with
    hEq | ⟨next, hNext, hRest⟩
  · exact hEq
  · have hRest : Leads settings root next other := hRest
    have hFound : next.location <:+ found.location := hRest.below.trans hSecond.contains.below
    rcases hFirst.eq_or_apart hNext with rfl | hApart
    · exact absurd (hSame ▸ hRest.below) hSecond.contains.not_below
    · exact absurd (hSame ▸ hFound) hApart.2

/-- The walk goes to a place from one node only. -/
theorem Leads.parent_unique (hLeads : Leads settings root root node)
    (hOther : Leads settings root root other) (hFirst : Goes settings root node inner)
    {found : Node} (hSecond : Goes settings root other found)
    (hSame : inner.location = found.location) : node = other := by
  have hBelow : other.location <:+ inner.location := hSame ▸ hSecond.contains.below
  rcases List.suffix_or_suffix_of_suffix hFirst.contains.below hBelow with hOuter | hInner
  · exact hLeads.eq_of_goes hOther hFirst hSecond hSame hOuter
  · exact (hOther.eq_of_goes hLeads hSecond hFirst hSame.symm hInner).symm

/-- The walk visits each node once. The induction is on the way to the one visit, and the
other comes the same way. -/
theorem Arrives.visit_unique (hCustom : settings.keys.custom = []) (hNames : root.NamesOnce)
    (h : Arrives settings root past (.visit inMethod node) future)
    (hOther : Arrives settings root begun (.visit flag other) rest)
    (hSame : node.location = other.location) :
    past = begun ∧ Task.visit inMethod node = .visit flag other ∧ future = rest := by
  generalize hTask : Task.visit inMethod node = task at h
  generalize hAgain : Task.visit flag other = again at hOther
  -- By induction on the way to the first visit. The node above it is the one above the
  -- second.
  induction h generalizing inMethod node begun flag other rest again with
  | program split =>
      subst hTask
      cases hOther with
      | program same =>
          subst hAgain
          obtain ⟨rfl, hVisit, rfl⟩ :=
            (Walker.orderly_program hCustom hNames).visit_unique split same hSame
          exact ⟨rfl, hVisit, rfl⟩
      | inside visit inside =>
          subst hAgain
          obtain rfl := Leads.parent_unique .refl visit.leads (goes_of_program split)
            (visit.goes inside) hSame
          exact absurd (List.suffix_refl _) visit.contains.not_below
  | inside visit split ih =>
      subst hTask
      cases hOther with
      | program same =>
          subst hAgain
          obtain rfl := Leads.parent_unique .refl visit.leads (goes_of_program same)
            (visit.goes split) hSame.symm
          exact absurd (List.suffix_refl _) visit.contains.not_below
      | inside again inside =>
          subst hAgain
          obtain rfl := Leads.parent_unique visit.leads again.leads (visit.goes split)
            (again.goes inside) hSame
          obtain ⟨rfl, hVisit, rfl⟩ := ih rfl rfl _ rfl again
          cases hVisit
          obtain ⟨rfl, hInner, rfl⟩ := (Walker.orderly_tasks hCustom
            (hNames.of_holds (.inr visit.contains))).visit_unique split inside hSame
          exact ⟨rfl, hInner, rfl⟩

end Scoping
