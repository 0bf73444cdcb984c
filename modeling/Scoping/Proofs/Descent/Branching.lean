import Mathlib.Data.List.Pairwise
import Mathlib.Logic.Relation
import Scoping.Tree.Apart

/-! Ways from a node to what is inside it. Where each step goes to one of several nodes that
stand apart, the way to a node is told by the place of that node. -/

namespace Scoping.Node

/-- A relation that goes from a node into it. The nodes that it goes to from one node stand
apart. -/
structure Branching (Goes : Node → Node → Prop) : Prop where
  contains : ∀ {node inner : Node}, Goes node inner → node.Contains inner
  eq_or_apart : ∀ {node first second : Node}, Goes node first → Goes node second →
    first = second ∨ Location.Apart first.location second.location

variable {Goes : Node → Node → Prop} {node inner other first second root : Node}

/-- Of two nodes that fields of a node hold, none is inside the other. -/
theorem HasChild.eq_or_apart (hFirst : node.HasChild first) (hSecond : node.HasChild second) :
    first = second ∨ Location.Apart first.location second.location := by
  obtain ⟨name, hName⟩ := hFirst
  obtain ⟨field, hField⟩ := hSecond
  by_cases hSame : name = field
  · subst hSame
    by_cases hEq : first = second
    · exact .inl hEq
    · have hSymm : Std.Symm fun first second : Node =>
          Location.Apart first.location second.location := ⟨fun _ _ => Location.Apart.symm⟩
      exact .inr (List.Pairwise.forall (scattered_children node name) hName hField hEq)
  · exact .inr ((Location.apart_fields hSame node.location).mono (below_field hName)
      (below_field hField))

theorem branching_hasChild : Branching HasChild where
  contains := .single
  eq_or_apart := HasChild.eq_or_apart

namespace Branching

theorem mono {Steps : Node → Node → Prop} (h : Branching Goes)
    (hSteps : ∀ {node inner : Node}, Steps node inner → Goes node inner) : Branching Steps where
  contains hStep := h.contains (hSteps hStep)
  eq_or_apart hFirst hSecond := h.eq_or_apart (hSteps hFirst) (hSteps hSecond)

theorem holds (h : Branching Goes) (hWay : Relation.ReflTransGen Goes node inner) :
    node.Holds inner := by
  induction hWay with
  | refl => exact node.holds_self
  | tail _ hStep ih => exact ih.trans (.inr (h.contains hStep))

theorem below (h : Branching Goes) (hWay : Relation.ReflTransGen Goes node inner) :
    node.location <:+ inner.location :=
  (h.holds hWay).below

/-- Of two nodes that a way gets to, one around the other, the way gets from the one to the
other. The induction is on the way to the outer one, and both ways keep together up to it. -/
theorem through (h : Branching Goes) (hOuter : Relation.ReflTransGen Goes node inner)
    (hInner : Relation.ReflTransGen Goes node other) (hBelow : inner.location <:+ other.location) :
    Relation.ReflTransGen Goes inner other := by
  induction hOuter using Relation.ReflTransGen.head_induction_on with
  | refl => exact hInner
  | @head node next hNext hRest ih =>
      refine ih ?_
      rcases Relation.ReflTransGen.cases_head hInner with rfl | ⟨same, hSame, hOther⟩
      · exact absurd ((h.below hRest).trans hBelow) (h.contains hNext).not_below
      · rcases h.eq_or_apart hNext hSame with rfl | hApart
        · exact hOther
        · exact absurd (h.below hOther) (hApart.not_below ((h.below hRest).trans hBelow))

end Branching

theorem holds_iff_reflTransGen : root.Holds node ↔ Relation.ReflTransGen HasChild root node := by
  rw [Relation.reflTransGen_iff_eq_or_transGen]
  rfl

theorem Contains.trans_holds (h : node.Contains inner) (hHeld : inner.Holds other) :
    node.Contains other := by
  rcases hHeld with rfl | hContains
  · exact h
  · exact h.trans hContains

/-- What is around a place in a child of a node, and is in the node but not the node itself, is
in the child. -/
theorem Contains.holds_of_below {place : Location} {child : Node} {name : String}
    (h : node.Contains inner) (hChild : child ∈ node.children name)
    (hInner : inner.location <:+ place) (hPlace : child.location <:+ place) : child.Holds inner := by
  obtain ⟨first, hFirst, hRest⟩ := Relation.TransGen.head'_iff.1 h
  rcases hFirst.eq_or_apart ⟨name, hChild⟩ with rfl | hApart
  · exact holds_iff_reflTransGen.2 hRest
  · exact absurd hPlace (hApart.not_below ((branching_hasChild.below hRest).trans hInner))

/-- A way from child to child gets to what is around the node at its end, and is in the node
that it starts at. -/
theorem exists_way {around : Node} (hStep : ∀ {node inner : Node}, Goes node inner → node.HasChild inner)
    (hWay : Relation.ReflTransGen Goes root inner) (hHeld : root.Holds around)
    (hBelow : around.location <:+ inner.location) :
    Relation.ReflTransGen Goes root around ∧ Relation.ReflTransGen Goes around inner := by
  have hBranching : Branching Goes := branching_hasChild.mono hStep
  induction hWay using Relation.ReflTransGen.head_induction_on with
  | refl =>
      rcases hHeld with rfl | hContains
      · exact ⟨.refl, .refl⟩
      · exact absurd hBelow hContains.not_below
  | @head root next hNext hRest ih =>
      rcases hHeld with rfl | hContains
      · exact ⟨.refl, .head hNext hRest⟩
      · obtain ⟨name, hChild⟩ := hStep hNext
        obtain ⟨hTo, hFrom⟩ := ih (hContains.holds_of_below hChild hBelow (hBranching.below hRest))
        exact ⟨.head hNext hTo, hFrom⟩

end Scoping.Node
