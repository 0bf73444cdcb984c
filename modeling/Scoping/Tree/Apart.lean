import Scoping.Tree.ChildKeys
import Scoping.Tree.Holding

/-! Places in a document of which neither is inside the other. What the fields of
a node hold stands apart, and so does all that is inside it. -/

namespace Scoping

namespace Location

/-- Neither place is the other, or inside it. -/
def Apart (first second : Location) : Prop :=
  ¬ first <:+ second ∧ ¬ second <:+ first

variable {first second third fourth place : Location}

theorem Apart.symm (h : Apart first second) : Apart second first :=
  ⟨h.2, h.1⟩

/-- No place is inside both. -/
theorem Apart.not_below (h : Apart first second) (hBelow : first <:+ place) : ¬ second <:+ place :=
  fun hOther => (List.suffix_or_suffix_of_suffix hBelow hOther).elim h.1 h.2

/-- What is inside two places that stand apart stands apart. -/
theorem Apart.mono (h : Apart first second) (hFirst : first <:+ third) (hSecond : second <:+ fourth) :
    Apart third fourth :=
  ⟨fun hBelow => h.not_below (hFirst.trans hBelow) hSecond,
    fun hBelow => h.not_below hFirst (hSecond.trans hBelow)⟩

/-- Two steps from one place that differ lead to places that stand apart. -/
theorem apart_of_ne {step other : Step} (h : step ≠ other) (around : Location) :
    Apart (step :: around) (other :: around) := by
  have hNot : ∀ {step other : Step}, step ≠ other → ¬ (step :: around) <:+ (other :: around) := by
    intro step other hNe hBelow
    exact hNe (List.cons.inj (hBelow.eq_of_length rfl)).1
  exact ⟨hNot h, hNot h.symm⟩

theorem apart_fields {name field : String} (h : name ≠ field) (around : Location) :
    Apart (.field name :: around) (.field field :: around) :=
  apart_of_ne (fun hEq => h (Step.field.inj hEq)) around

/-- A place inside one of these fields of a node. -/
def InFields (around : Location) (names : List String) (place : Location) : Prop :=
  ∃ name ∈ names, .field name :: around <:+ place

variable {around : Location} {names others : List String}

theorem inFields_singleton {name : String} :
    around.InFields [name] place ↔ .field name :: around <:+ place := by
  simp [InFields]

theorem inFields_append :
    around.InFields (names ++ others) place ↔ around.InFields names place ∨ around.InFields others place := by
  simp [InFields, or_and_right, exists_or]

theorem InFields.below (h : around.InFields names place) : around <:+ place := by
  obtain ⟨name, -, hBelow⟩ := h
  exact (List.suffix_cons _ _).trans hBelow

/-- What is inside different fields of a node stands apart. -/
theorem InFields.apart (hFirst : around.InFields names first) (hSecond : around.InFields others second)
    (hDisjoint : ∀ name ∈ names, name ∉ others) : Apart first second := by
  obtain ⟨name, hName, hFirst⟩ := hFirst
  obtain ⟨field, hField, hSecond⟩ := hSecond
  have hNe : name ≠ field := fun hEq => hDisjoint name hName (hEq ▸ hField)
  exact (apart_fields hNe around).mono hFirst hSecond

end Location

namespace Node

/-- No two of these nodes stand inside one another, or at the same place. -/
def Scattered (nodes : List Node) : Prop :=
  nodes.Pairwise fun first second => Location.Apart first.location second.location

variable {node child : Node} {name : String}

/-- A node that is found in a field is at the field or inside it. -/
theorem below_field (h : child ∈ node.children name) :
    .field name :: node.location <:+ child.location := by
  rcases location_cases h with hEq | ⟨position, hEq⟩
  · exact hEq ▸ List.suffix_refl _
  · exact hEq ▸ List.suffix_cons _ _

theorem below_field_of_child? (h : node.child? name = some child) :
    .field name :: node.location <:+ child.location :=
  below_field (mem_children_of_child? h)

theorem Contains.below (h : node.Contains child) : node.location <:+ child.location := by
  obtain ⟨steps, -, hEq⟩ := h.location
  exact ⟨steps, hEq.symm⟩

theorem Holds.below (h : node.Holds child) : node.location <:+ child.location := by
  rcases h with rfl | hContains
  · exact List.suffix_refl _
  · exact hContains.below

/-- A node is never inside what it contains. -/
theorem Contains.not_below (h : node.Contains child) : ¬ child.location <:+ node.location := by
  obtain ⟨steps, hSteps, hEq⟩ := h.location
  intro hBelow
  have hLength := hBelow.length_le
  rw [hEq, List.length_append] at hLength
  exact hSteps (List.length_eq_zero_iff.1 (by omega))

/-- The items of an array stand apart. -/
theorem scattered_children (node : Node) (name : String) : Scattered (node.children name) := by
  unfold children
  split
  · next items _ =>
      have hPositions : items.zipIdx.Pairwise fun first second => first.2 ≠ second.2 := by
        rw [← List.pairwise_map (f := Prod.snd) (R := (· ≠ ·)), List.zipIdx_map_snd]
        exact List.nodup_range'
      refine List.pairwise_filterMap.2 (hPositions.imp fun hNe first hFirst second hSecond => ?_)
      rw [(ofJson?_eq_some hFirst).1, (ofJson?_eq_some hSecond).1]
      exact Location.apart_of_ne (fun hEq => hNe (Step.index.inj hEq)) _
  · cases node.child? name with
    | none => exact .nil
    | some child => exact List.pairwise_singleton _ _

/-- Scattered nodes are different from one another. -/
theorem Scattered.nodup {nodes : List Node} (h : Scattered nodes) : nodes.Nodup := by
  refine List.Pairwise.imp (fun hApart hEq => ?_) h
  subst hEq
  exact hApart.1 (List.suffix_refl _)

theorem Scattered.zipIdx {nodes : List Node} (h : Scattered nodes) (start : Nat) :
    (nodes.zipIdx start).Pairwise fun first second =>
      Location.Apart first.1.location second.1.location := by
  rw [← List.pairwise_map (f := Prod.fst) (R := fun first second : Node =>
    Location.Apart first.location second.location), List.zipIdx_map_fst]
  exact h

/-- No node in this one has two fields of one name. -/
def NamesOnce (node : Node) : Prop :=
  ∀ inner, node.Holds inner → inner.fieldNames.Nodup

/-- What is asked of a document is asked of all nodes in it. -/
theorem NamesOnce.of_holds (h : node.NamesOnce) (hChild : node.Holds child) : child.NamesOnce :=
  fun inner hInner => h inner (hChild.trans hInner)

end Node

/-- The fields that are known of a kind are listed once. -/
theorem nodup_of_mem_knownFields : ∀ entry ∈ knownFields, entry.2.Nodup := by
  decide +kernel

namespace ChildKeys

variable {keys : ChildKeys} {node : Node}

/-- No list of fields that is given for a kind has one of them twice. -/
def ListsOnce (keys : ChildKeys) : Prop :=
  ∀ entry ∈ keys.custom, entry.2.Nodup

theorem listsOnce_of_nil (h : keys.custom = []) : keys.ListsOnce := by
  rw [ListsOnce, h]
  exact List.forall_mem_nil _

/-- A descent goes into each field once. -/
theorem nodup_fields (hCustom : keys.ListsOnce) (hNames : node.fieldNames.Nodup) :
    (keys.fields node).Nodup := by
  unfold fields
  split
  · next names hListed =>
      rcases Option.or_eq_some_iff.1 hListed with hGiven | ⟨-, hKnown⟩
      · obtain ⟨before, after, hSplit, -⟩ := List.lookup_eq_some_iff.1 hGiven
        exact hCustom (node.kind, names) (hSplit ▸ List.mem_append_right _ List.mem_cons_self)
      · obtain ⟨before, after, hSplit, -⟩ := List.lookup_eq_some_iff.1 hKnown
        exact nodup_of_mem_knownFields (node.kind, names)
          (hSplit ▸ List.mem_append_right _ List.mem_cons_self)
  · exact hNames.filter _
  · exact List.nodup_nil

theorem scattered_children (hCustom : keys.ListsOnce) (hNames : node.fieldNames.Nodup) :
    Node.Scattered (keys.children node) := by
  refine List.pairwise_flatMap.2 ⟨fun name _ => Node.scattered_children node name, ?_⟩
  refine (nodup_fields hCustom hNames).imp fun hNe first hFirst second hSecond => ?_
  exact (Location.apart_fields hNe node.location).mono (Node.below_field hFirst)
    (Node.below_field hSecond)

end ChildKeys

end Scoping
