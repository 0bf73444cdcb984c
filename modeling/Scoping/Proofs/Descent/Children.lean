import Mathlib.Data.List.Basic
import Scoping.Proofs.Descent.Branching

/-! What a descent goes into from one node, and what it passes by: holes, objects that
are no nodes, and arrays inside arrays. -/

namespace Scoping

namespace Json

/-- What a value holds after one step. -/
def step? (value : Json) : Step → Option Json
  | .field name =>
      match value with
      | .object entries => entries.lookup name
      | _ => none
  | .index position =>
      match value with
      | .array items => items[position]?
      | _ => none

/-- What a value holds after some steps, the last of which comes first. -/
def at? (value : Json) : Location → Option Json
  | [] => some value
  | step :: around => (value.at? around).bind (step? · step)

theorem at?_append (value : Json) (inner outer : Location) :
    value.at? (inner ++ outer) = (value.at? outer).bind (at? · inner) := by
  induction inner with
  | nil => exact (Option.bind_fun_some _).symm
  | cons step inner ih =>
      rw [List.cons_append, at?, ih, Option.bind_assoc]
      rfl

end Json

namespace Node

variable {node child inner start : Node} {name : String}

/-- The ways in which a field holds a node: by itself, or as an item of an array. -/
inductive FieldHolds (node : Node) (name : String) (child : Node) : Prop where
  | alone (value : Json) (field : node.value? name = some value)
      (here : ofJson? (.field name :: node.location) value = some child)
  | item (items : List Json) (position : Nat) (value : Json)
      (field : node.value? name = some (.array items)) (listed : items[position]? = some value)
      (here : ofJson? (.index position :: .field name :: node.location) value = some child)

theorem FieldHolds.exists_ofJson? (h : node.FieldHolds name child) :
    ∃ location, ofJson? location (.object child.entries) = some child := by
  cases h with
  | alone value _ hNode | item _ _ value _ _ hNode =>
      obtain ⟨-, rfl⟩ := ofJson?_eq_some hNode
      exact ⟨_, hNode⟩

theorem mem_children_iff : child ∈ node.children name ↔ node.FieldHolds name child := by
  constructor
  · intro h
    rcases mem_children h with ⟨value, hValue, hNode⟩ | ⟨items, position, item, hItems, hItem, hNode⟩
    · exact .alone value hValue hNode
    · exact .item items position item hItems hItem hNode
  · rintro (⟨value, hValue, hNode⟩ | ⟨items, position, item, hItems, hItem, hNode⟩)
    · exact mem_children_of_child? (Option.bind_eq_some_iff.2 ⟨value, hValue, hNode⟩)
    · simp only [children, hItems]
      exact List.mem_filterMap.2
        ⟨(item, position), List.mk_mem_zipIdx_iff_getElem?.2 hItem, hNode⟩

/-- What the document holds at a place in a node. -/
def valueAt? (node : Node) (steps : Location) : Option Json :=
  Json.at? (.object node.entries) steps

/-- A value that a descent does not go into: one that is no node, and no array that
a field of an object holds. -/
def PassedBy (step : Step) (value : Json) : Prop :=
  (∀ location, ofJson? location value = none) ∧
    ∀ items, value = .array items → ∃ position, step = .index position

variable {step : Step} {around place outer : Location} {value : Json}

/-- The place of a child in its node, with what the document holds there. -/
theorem FieldHolds.valueAt?_eq (h : node.FieldHolds name child)
    (hOuter : child.location = outer ++ node.location) :
    node.valueAt? outer = some (.object child.entries) ∧
      (outer = [.field name] ∨ ∃ position items, outer = [.index position, .field name] ∧
        node.valueAt? [.field name] = some (.array items)) := by
  have hPlace : ∀ steps : Location, child.location = steps ++ node.location → outer = steps :=
    fun steps hSteps => List.append_cancel_right (hOuter.symm.trans hSteps)
  cases h with
  | alone value hField hNode =>
      obtain ⟨hLocation, rfl⟩ := ofJson?_eq_some hNode
      obtain rfl := hPlace [_] hLocation
      exact ⟨hField, .inl rfl⟩
  | item items position item hField hItem hNode =>
      obtain ⟨hLocation, rfl⟩ := ofJson?_eq_some hNode
      obtain rfl := hPlace [_, _] hLocation
      have hItems : node.valueAt? [.field name] = some (.array items) := hField
      refine ⟨?_, .inr ⟨position, items, rfl, hItems⟩⟩
      exact (congrArg (Option.bind · (Json.step? · (.index position))) hItems).trans hItem

/-- What is at a place in a child is at the place in the node. -/
theorem FieldHolds.valueAt?_append (h : node.FieldHolds name child)
    (hOuter : child.location = outer ++ node.location) (steps : Location) :
    node.valueAt? (steps ++ outer) = child.valueAt? steps :=
  (Json.at?_append _ steps outer).trans
    (congrArg (Option.bind · (Json.at? · steps)) (h.valueAt?_eq hOuter).1)

/-- No value that is passed by is a child, or holds one. -/
theorem FieldHolds.not_passedBy (h : node.FieldHolds name child)
    (hOuter : child.location = outer ++ node.location) (hBelow : step :: around <:+ outer)
    (hValue : node.valueAt? (step :: around) = some value) : ¬ PassedBy step value := by
  rintro ⟨hNone, hArray⟩
  obtain ⟨hObject, hPlace⟩ := h.valueAt?_eq hOuter
  have hNe : step :: around ≠ outer := by
    intro hEq
    obtain ⟨location, hNode⟩ := h.exists_ofJson?
    rw [← hEq, hValue] at hObject
    rw [← Option.some.inj hObject, hNone] at hNode
    cases hNode
  rcases hPlace with rfl | ⟨position, items, rfl, hItems⟩
  · exact (List.suffix_cons_iff.1 hBelow).elim hNe fun hNil => nomatch List.suffix_nil.1 hNil
  · rcases List.suffix_cons_iff.1 hBelow with hEq | hField
    · exact hNe hEq
    · rcases List.suffix_cons_iff.1 hField with hEq | hNil
      · obtain ⟨rfl, rfl⟩ := List.cons.inj hEq
        obtain ⟨position, hStep⟩ := hArray items (Option.some.inj (hValue.symm.trans hItems))
        cases hStep
      · exact nomatch List.suffix_nil.1 hNil

/-- Where a value that is passed by is around a place in a child, it is in the child. -/
theorem FieldHolds.exists_lower (h : node.FieldHolds name child)
    (hValue : node.valueAt? (step :: around) = some value) (hPassed : PassedBy step value)
    (hPlace : step :: around ++ node.location <:+ place) (hBelow : child.location <:+ place) :
    ∃ lower, step :: around ++ node.location = step :: lower ++ child.location ∧
      child.valueAt? (step :: lower) = some value := by
  obtain ⟨outer, -, hOuter⟩ := location_of_mem_children (mem_children_iff.2 h)
  rw [hOuter] at hBelow ⊢
  rcases List.suffix_or_suffix_of_suffix hPlace hBelow with hAround | hInside
  · exact absurd hPassed (h.not_passedBy hOuter (List.suffix_append_self_iff.1 hAround) hValue)
  · obtain ⟨steps, hSteps⟩ := List.suffix_append_self_iff.1 hInside
    cases steps with
    | nil => exact absurd hPassed (h.not_passedBy hOuter (hSteps ▸ List.suffix_refl _) hValue)
    | cons first lower =>
        rw [← hSteps, h.valueAt?_append hOuter] at hValue
        obtain ⟨rfl, rfl⟩ := List.cons.inj hSteps
        exact ⟨lower, by simp, hValue⟩

/-- Nothing in a node stands at, or inside, a value that is passed by. The induction is on
the way to what is in the node, the place of the value gets shorter with each step. -/
theorem Holds.not_below_passedBy (h : start.Holds inner)
    (hValue : start.valueAt? (step :: around) = some value) (hPassed : PassedBy step value) :
    ¬ step :: around ++ start.location <:+ inner.location := by
  rw [holds_iff_reflTransGen] at h
  induction h using Relation.ReflTransGen.head_induction_on generalizing around with
  | refl =>
      intro hBelow
      have hLength := hBelow.length_le
      rw [List.length_append, List.length_cons] at hLength
      omega
  | @head start child hChild hRest ih =>
      intro hBelow
      obtain ⟨name, hMem⟩ := hChild
      obtain ⟨lower, hPlace, hLower⟩ :=
        (mem_children_iff.1 hMem).exists_lower hValue hPassed hBelow (branching_hasChild.below hRest)
      exact ih hLower (hPlace ▸ hBelow)

end Node

namespace ChildKeys

variable {copied : List (String × List String)}

theorem lookup_knownFields : ∀ entry ∈ knownFields, knownFields.lookup entry.1 = some entry.2 := by
  decide +kernel

/-- Lists that are given as they are known change nothing. -/
theorem fields_copied (hCopied : copied ⊆ knownFields) (fallback : Fallback) (node : Node) :
    fields ⟨copied, fallback⟩ node = fields ⟨[], fallback⟩ node := by
  have hLookup : (copied.lookup node.kind).or (knownFields.lookup node.kind) =
      knownFields.lookup node.kind := by
    cases hFound : copied.lookup node.kind with
    | none => exact Option.none_or
    | some names =>
        obtain ⟨before, after, hSplit, -⟩ := List.lookup_eq_some_iff.1 hFound
        have hMem : (node.kind, names) ∈ copied :=
          hSplit ▸ List.mem_append_right _ List.mem_cons_self
        rw [lookup_knownFields _ (hCopied hMem)]
        rfl
  unfold fields
  rw [hLookup, List.lookup_nil, Option.none_or]

theorem children_copied (hCopied : copied ⊆ knownFields) (fallback : Fallback) (node : Node) :
    children ⟨copied, fallback⟩ node = children ⟨[], fallback⟩ node := by
  rw [children, children, fields_copied hCopied]

theorem walk_copied (hCopied : copied ⊆ knownFields) (fallback : Fallback) (node : Node) :
    walk ⟨copied, fallback⟩ node = walk ⟨[], fallback⟩ node := by
  induction node using walk.induct ⟨[], fallback⟩ with
  | case1 node ih =>
      rw [walk_eq, walk_eq, children_copied hCopied]
      exact congrArg (node :: ·) (List.flatMap_congr fun child hChild => ih child hChild)

end ChildKeys

end Scoping
