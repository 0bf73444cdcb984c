import Scoping.Tree.Node

/-! Which nodes a document holds, and where they stand. A place tells the node at
it, and the node and the field that hold it. -/

namespace Scoping

/-- The ways in which a field holds a node: by itself, or as an item. -/
theorem Node.mem_children {node child : Node} {name : String} (h : child ∈ node.children name) :
    (∃ value, node.value? name = some value ∧
      Node.ofJson? (.field name :: node.location) value = some child) ∨
    ∃ items position item, node.value? name = some (.array items) ∧
      items[position]? = some item ∧
      Node.ofJson? (.index position :: .field name :: node.location) item = some child := by
  unfold children at h
  split at h
  · next items hItems =>
      obtain ⟨⟨item, position⟩, hMem, hNode⟩ := List.mem_filterMap.1 h
      exact .inr ⟨items, position, item, hItems, List.mk_mem_zipIdx_iff_getElem?.1 hMem, hNode⟩
  · obtain ⟨value, hValue, hNode⟩ := Option.bind_eq_some_iff.1 (Option.mem_toList.1 h)
    exact .inl ⟨value, hValue, hNode⟩

/-- A node that is the root of another, or somewhere inside it. -/
def Node.Holds (root node : Node) : Prop :=
  node = root ∨ root.Contains node

theorem Node.Holds.contains {root node inner : Node} (h : root.Holds node)
    (hInner : node.Contains inner) : root.Contains inner := by
  rcases h with rfl | hContains
  · exact hInner
  · exact hContains.trans hInner

/-- At a location stands one node at most. -/
theorem Node.Holds.eq_of_location {root first second : Node} (hFirst : root.Holds first)
    (hSecond : root.Holds second) (hLocation : first.location = second.location) :
    first = second := by
  have hRoot : ∀ {inner : Node}, root.Contains inner → inner.location ≠ root.location := by
    intro inner hInner hEq
    obtain ⟨steps, hSteps, hBelow⟩ := hInner.location
    exact hSteps (List.self_eq_append_left.1 (hEq.symm.trans hBelow))
  -- One step at the end of a place: a field, or an item of the array that a field holds.
  have hChild : ∀ {parent other child node : Node} {name field : String},
      (parent.location = other.location → parent = other) → child ∈ parent.children name →
      node ∈ other.children field → child.location = node.location → child = node := by
    intro parent other child node name field hParents hMem hOther hEq
    rcases mem_children hMem with ⟨value, hValue, hNode⟩ | ⟨items, position, item, hItems, hItem, hNode⟩ <;>
      rcases mem_children hOther with ⟨value', hValue', hNode'⟩ |
        ⟨items', position', item', hItems', hItem', hNode'⟩ <;>
      rw [(ofJson?_eq_some hNode).1, (ofJson?_eq_some hNode').1] at hEq <;>
      simp only [List.cons.injEq, Step.field.injEq, Step.index.injEq, reduceCtorEq, false_and] at hEq
    · obtain ⟨rfl, hAround⟩ := hEq
      cases hParents hAround
      cases hValue.symm.trans hValue'
      exact Option.some.inj (hNode.symm.trans hNode')
    · obtain ⟨rfl, rfl, hAround⟩ := hEq
      cases hParents hAround
      cases hItems.symm.trans hItems'
      cases hItem.symm.trans hItem'
      exact Option.some.inj (hNode.symm.trans hNode')
  -- By induction on the way to the first node. The way to the second has to end with the
  -- same step.
  rcases hFirst with rfl | hFirst
  · rcases hSecond with rfl | hSecond
    · rfl
    · exact absurd hLocation.symm (hRoot hSecond)
  · induction hFirst generalizing second with
    | single hParent =>
        obtain ⟨name, hMem⟩ := hParent
        rcases hSecond with rfl | hSecond
        · exact absurd hLocation (hRoot (.single ⟨name, hMem⟩))
        · cases hSecond with
          | single hOther =>
              obtain ⟨field, hOther⟩ := hOther
              exact hChild (fun _ => rfl) hMem hOther hLocation
          | tail hAbove hOther =>
              obtain ⟨field, hOther⟩ := hOther
              exact hChild (fun hEq => absurd hEq.symm (hRoot hAbove)) hMem hOther hLocation
    | tail hAbove hParent ih =>
        obtain ⟨name, hMem⟩ := hParent
        rcases hSecond with rfl | hSecond
        · exact absurd hLocation (hRoot (.tail hAbove ⟨name, hMem⟩))
        · cases hSecond with
          | single hOther =>
              obtain ⟨field, hOther⟩ := hOther
              exact hChild (fun hEq => absurd hEq (hRoot hAbove)) hMem hOther hLocation
          | tail hBelow hOther =>
              obtain ⟨field, hOther⟩ := hOther
              exact hChild (ih (.inr hBelow)) hMem hOther hLocation

theorem Node.holds_self (node : Node) : node.Holds node :=
  .inl rfl

theorem Node.Holds.trans {root node inner : Node} (h : root.Holds node) (hInner : node.Holds inner) :
    root.Holds inner := by
  rcases hInner with rfl | hContains
  · exact h
  · exact .inr (h.contains hContains)

theorem Node.location_cases {node child : Node} {name : String} (h : child ∈ node.children name) :
    child.location = .field name :: node.location ∨
      ∃ position, child.location = .index position :: .field name :: node.location := by
  rcases mem_children h with ⟨value, -, hNode⟩ | ⟨items, position, item, -, -, hNode⟩
  · exact .inl (ofJson?_eq_some hNode).1
  · exact .inr ⟨position, (ofJson?_eq_some hNode).1⟩

/-- The place of a node tells where the node around it stands, and which field
of that holds it. -/
theorem Node.eq_of_same_location {node other child found : Node} {name field : String}
    (h : child ∈ node.children name) (hOther : found ∈ other.children field)
    (hSame : child.location = found.location) : node.location = other.location ∧ name = field := by
  rcases location_cases h with hFirst | ⟨position, hFirst⟩ <;>
    rcases location_cases hOther with hSecond | ⟨place, hSecond⟩ <;>
    rw [hFirst, hSecond] at hSame <;>
    simp only [List.cons.injEq, Step.field.injEq, Step.index.injEq, reduceCtorEq, false_and] at hSame
  · exact ⟨hSame.2, hSame.1⟩
  · exact ⟨hSame.2.2, hSame.2.1⟩

/-- The nodes of two fields stand apart. -/
theorem Node.ne_of_child? {node child other : Node} {name field : String}
    (h : node.child? name = some child) (hOther : node.child? field = some other)
    (hName : name ≠ field) : child ≠ other := by
  rintro rfl
  exact hName (eq_of_same_location (mem_children_of_child? h) (mem_children_of_child? hOther) rfl).2

theorem Node.not_contains_of_child? {node child other : Node} {name field : String}
    (h : node.child? name = some child) (hOther : node.child? field = some other) :
    ¬ child.Contains other := by
  intro hContains
  obtain ⟨steps, hSteps, hBelow⟩ := hContains.location
  rw [child?_location h, child?_location hOther] at hBelow
  have hLength := congrArg List.length hBelow
  rw [List.length_append, List.length_cons, List.length_cons] at hLength
  exact hSteps (List.length_eq_zero_iff.1 (by omega))

end Scoping
