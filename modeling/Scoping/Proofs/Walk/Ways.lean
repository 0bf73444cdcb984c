import Scoping.Proofs.Walk.Visiting

/-! The way on which a walk comes to a node. Each visited node around another is on the way
to it, and the same way is taken however the walk has come to where the way begins. -/

namespace Scoping

/-- The walk of a program comes to visit a node. -/
def Visits (settings : Settings) (root node : Node) : Prop :=
  ∃ past inMethod future, Arrives settings root past (.visit inMethod node) future

/-- The walk of a program goes from a node to one that it visits there. The root counts as a
program whatever kind of node it is. -/
inductive Goes (settings : Settings) (root : Node) : Node → Node → Prop where
  | program {inner : Node} (mem : inner ∈ settings.keys.children root) : Goes settings root root inner
  | inside {node inner : Node} (contains : root.Contains node) (mem : inner ∈ visited settings node) :
      Goes settings root node inner

/-- The walk gets from a node to another, or stays there. -/
def Leads (settings : Settings) (root : Node) : Node → Node → Prop :=
  Relation.ReflTransGen (Goes settings root)

variable {settings : Settings} {root node inner other : Node} {past future : List Event}
  {inMethod flag : Bool} {before after : List Task}

theorem Visits.contains (h : Visits settings root node) : root.Contains node := by
  obtain ⟨past, inMethod, future, hArrives⟩ := h
  exact hArrives.contains

namespace Goes

theorem contains (h : Goes settings root node inner) : node.Contains inner := by
  cases h with
  | program mem => exact ChildKeys.contains_of_mem_children mem
  | inside _ mem =>
      rw [← Walker.visits_tasks { settings }] at mem
      obtain ⟨flag, hTask⟩ := Task.mem_visits.1 mem
      exact Walker.contained_tasks.contains hTask

/-- Of the nodes that the walk goes to from one, none is inside another. -/
theorem eq_or_apart (hFirst : Goes settings root node inner) (hSecond : Goes settings root node other) :
    inner = other ∨ Location.Apart inner.location other.location := by
  cases hFirst with
  | program hFirst =>
      cases hSecond with
      | program hSecond => exact (Node.branches_descent settings.keys root).apart _ hFirst _ hSecond
      | inside hInside => exact absurd (List.suffix_refl _) hInside.not_below
  | inside hInside hFirst =>
      cases hSecond with
      | program => exact absurd (List.suffix_refl _) hInside.not_below
      | inside _ hSecond => exact (branches_visited settings node).apart _ hFirst _ hSecond

end Goes

theorem branching_goes (settings : Settings) (root : Node) : Node.Branching (Goes settings root) where
  contains := Goes.contains
  eq_or_apart := Goes.eq_or_apart

namespace Leads

theorem trans (hFirst : Leads settings root node inner) (hSecond : Leads settings root inner other) :
    Leads settings root node other :=
  Relation.ReflTransGen.trans hFirst hSecond

theorem below (h : Leads settings root node inner) : node.location <:+ inner.location :=
  (branching_goes settings root).below h

/-- Of two nodes that the walk gets to, one around the other, the walk gets from the one to
the other. -/
theorem through (hOuter : Leads settings root node inner) (hInner : Leads settings root node other)
    (hBelow : inner.location <:+ other.location) : Leads settings root inner other :=
  (branching_goes settings root).through hOuter hInner hBelow

end Leads

theorem goes_of_program (h : Walker.program { settings } root = before ++ .visit inMethod inner :: after) :
    Goes settings root root inner := by
  refine .program ?_
  rw [← Walker.visits_program { settings }]
  exact Task.mem_visits.2 ⟨inMethod, h ▸ List.mem_append_right _ List.mem_cons_self⟩

theorem Arrives.goes (h : Arrives settings root past (.visit inMethod node) future)
    (hSplit : Walker.tasks { settings, inMethod } node = before ++ .visit flag inner :: after) :
    Goes settings root node inner := by
  refine .inside h.contains ?_
  rw [← Walker.visits_tasks { settings, inMethod }]
  exact Task.mem_visits.2 ⟨flag, hSplit ▸ List.mem_append_right _ List.mem_cons_self⟩

/-- What is visited is got to from the root. -/
theorem Arrives.leads (h : Arrives settings root past (.visit inMethod node) future) :
    Leads settings root root node := by
  generalize hTask : Task.visit inMethod node = task at h
  induction h generalizing inMethod node with
  | program split =>
      subst hTask
      exact .single (goes_of_program split)
  | inside visit split ih =>
      subst hTask
      exact .tail (ih rfl) (visit.goes split)

theorem Visits.leads (h : Visits settings root node) : Leads settings root root node := by
  obtain ⟨past, inMethod, future, hArrives⟩ := h
  exact hArrives.leads

/-- The work at a node visits all that the walk goes to from there. -/
theorem Goes.exists_split (h : Goes settings root node inner) (hContains : root.Contains node)
    (inMethod : Bool) :
    ∃ before flag after, Walker.tasks { settings, inMethod } node =
      before ++ .visit flag inner :: after := by
  cases h with
  | program => exact absurd (List.suffix_refl _) hContains.not_below
  | inside _ mem =>
      rw [← Walker.visits_tasks { settings, inMethod }] at mem
      obtain ⟨flag, hTask⟩ := Task.mem_visits.1 mem
      obtain ⟨before, after, hSplit⟩ := List.append_of_mem hTask
      exact ⟨before, flag, after, hSplit⟩

/-- A visited node that is around another is on the way to it. -/
theorem Visits.through (h : Visits settings root node) (hInner : Visits settings root inner)
    (hBelow : node.location <:+ inner.location) : Leads settings root node inner :=
  h.leads.through hInner.leads hBelow

end Scoping
