import Mathlib.Data.List.Perm.Basic
import Mathlib.Logic.Equiv.Basic
import Scoping.Tree.Basic

/-! A document with the items of one array in another order. Every node goes
with the item that it stands in, and keeps all that it says. -/

namespace Scoping

/-- A new order for the items of the array at `place`. -/
structure Rearrangement where
  place : Location
  order : Equiv.Perm Nat

namespace Rearrangement

variable (r : Rearrangement)

/-- Where an item of the array at a location goes. -/
def position (location : Location) (position : Nat) : Nat :=
  if location = r.place then r.order position else position

/-- Where what stands at a location goes. -/
def location : Location → Location
  | [] => []
  | .field name :: around => .field name :: location around
  | .index position :: around => .index (r.position around position) :: location around

/-- The items of the array at a location, in their new order. -/
def arranged (location : Location) (items : List Json) : List Json :=
  if location = r.place then
    (List.range items.length).map fun position => items.getD (r.order.symm position) .null
  else items

mutual

def json (location : Location) : Json → Json
  | .array values => .array (r.arranged location (items location 0 values))
  | .object fields => .object (entries location fields)
  | .null => .null
  | .bool value => .bool value
  | .number value => .number value
  | .string value => .string value

def items (location : Location) (position : Nat) : List Json → List Json
  | [] => []
  | item :: rest =>
      json (.index position :: location) item :: items location (position + 1) rest

def entries (location : Location) : List (String × Json) → List (String × Json)
  | [] => []
  | (name, value) :: rest => (name, json (.field name :: location) value) :: entries location rest

end

/-- What becomes of a node of the document. -/
def node (node : Node) : Node where
  location := r.location node.location
  kind := node.kind
  entries := r.entries node.location node.entries

def tree (tree : Tree) : Tree where
  root := r.node tree.root

variable {r} {node child : Node} {name : String}

@[simp] theorem kind_node : (r.node node).kind = node.kind :=
  rfl

/-- Only the items of the array are moved, and no two to one position. -/
theorem location_injective : Function.Injective r.location := by
  have hPosition : ∀ around, Function.Injective (r.position around) := by
    intro around
    unfold Rearrangement.position
    split
    · exact r.order.injective
    · exact Function.injective_id
  intro first
  induction first with
  | nil =>
      intro second hEq
      cases second with
      | nil => rfl
      | cons step around => cases step <;> cases hEq
  | cons step around ih =>
      intro second hEq
      cases second with
      | nil => cases step <;> cases hEq
      | cons other further =>
          cases step <;> cases other <;>
            simp only [location, List.cons.injEq, Step.field.injEq, Step.index.injEq,
              reduceCtorEq, false_and] at hEq ⊢
          · exact ⟨hEq.1, ih hEq.2⟩
          · obtain ⟨hPlace, hAround⟩ := hEq
            cases ih hAround
            exact ⟨hPosition _ hPlace, rfl⟩

/-- Two nodes are the same just if they have become the same. -/
theorem beq_node {first second : Node} : (r.node first == r.node second) = (first == second) := by
  rw [Bool.eq_iff_iff, Node.beq_iff, Node.beq_iff]
  exact r.location_injective.eq_iff

/-- A field holds what it held. Fields are never put in another order, only items of the one
array are. -/
theorem lookup_entries (location : Location) (entries : List (String × Json)) (name : String) :
    (r.entries location entries).lookup name =
      (entries.lookup name).map (r.json (.field name :: location)) := by
  induction entries with
  | nil => rfl
  | cons entry rest ih =>
      obtain ⟨key, value⟩ := entry
      rw [Rearrangement.entries, List.lookup_cons, List.lookup_cons]
      by_cases hName : name = key
      · simp [hName]
      · simp only [beq_eq_false_iff_ne.2 hName, ih]

@[simp] theorem value?_node :
    (r.node node).value? name = (node.value? name).map (r.json (.field name :: node.location)) :=
  lookup_entries _ _ _

@[simp] theorem fieldNames_node : (r.node node).fieldNames = node.fieldNames := by
  simp only [Node.fieldNames, Rearrangement.node]
  generalize node.entries = entries
  induction entries with
  | nil => rfl
  | cons entry rest ih => rw [Rearrangement.entries, List.map_cons, List.map_cons, ih]

@[simp] theorem string?_json (location : Location) (value : Json) :
    (r.json location value).string? = value.string? := by
  cases value <;> rfl

@[simp] theorem text?_node : (r.node node).text? name = node.text? name := by
  simp [Node.text?, Option.bind_map]

@[simp] theorem flag_node : (r.node node).flag name = node.flag name := by
  simp only [Node.flag, value?_node]
  cases node.value? name with
  | none => rfl
  | some value => cases value <;> rfl

@[simp] theorem name_node : (r.node node).name = node.name := by
  simp [Node.name]

@[simp] theorem isIdentifier_node : (r.node node).isIdentifier = node.isIdentifier :=
  rfl

/-- A value is a node just if it was one, at the place where it has gone. -/
theorem ofJson?_json (location : Location) (value : Json) :
    Node.ofJson? (r.location location) (r.json location value) =
      (Node.ofJson? location value).map r.node := by
  cases value with
  | object entries =>
      simp only [Node.ofJson?, json, lookup_entries]
      cases hKind : entries.lookup "type" with
      | none => rfl
      | some kind => cases kind <;> rfl
  | _ => rfl

@[simp] theorem child?_node : (r.node node).child? name = (node.child? name).map r.node := by
  simp only [Node.child?, value?_node]
  cases node.value? name with
  | none => rfl
  | some value => exact ofJson?_json _ _

/-- A child that is there is there after the rearrangement. What is missing says where, and
that may have changed. -/
theorem child_node_of_eq_ok (h : node.child name = .ok child) :
    (r.node node).child name = .ok (r.node child) := by
  rw [Node.child_eq_ok, child?_node, Node.child_eq_ok.1 h, Option.map_some]

/-- Items are rearranged on the inside before they change places. -/
theorem getElem?_items (location : Location) (start : Nat) (items : List Json) (position : Nat) :
    (r.items location start items)[position]? =
      items[position]?.map (r.json (.index (start + position) :: location)) := by
  induction items generalizing start position with
  | nil => rfl
  | cons item rest ih =>
      rw [Rearrangement.items]
      cases position with
      | zero => rfl
      | succ position =>
          rw [List.getElem?_cons_succ, List.getElem?_cons_succ, ih, Nat.succ_add_eq_add_succ]

theorem length_items (location : Location) (start : Nat) (items : List Json) :
    (r.items location start items).length = items.length := by
  induction items generalizing start with
  | nil => rfl
  | cons item rest ih => rw [Rearrangement.items, List.length_cons, List.length_cons, ih]

theorem length_json (location : Location) (items : List Json) :
    (r.arranged location (r.items location 0 items)).length = items.length := by
  unfold arranged
  split
  · rw [List.length_map, List.length_range, length_items]
  · exact length_items _ _ _

/-- No position past the end of an array is moved, if it is the one in question. -/
def Fits (r : Rearrangement) (location : Location) (items : List Json) : Prop :=
  location = r.place → ∀ position, r.order position ≠ position → position < items.length

/-- Positions past the end stay past the end. -/
theorem Fits.lt_iff {location : Location} {items : List Json} (h : r.Fits location items)
    (position : Nat) : r.position location position < items.length ↔ position < items.length := by
  unfold Rearrangement.position
  split
  · next hPlace =>
      by_cases hMoved : r.order position = position
      · rw [hMoved]
      · have hAgain : r.order (r.order position) ≠ r.order position :=
          fun hEq => hMoved (r.order.injective hEq)
        exact iff_of_true (h hPlace _ hAgain) (h hPlace _ hMoved)
  · exact Iff.rfl

/-- An item is found where its position has gone. -/
theorem getElem?_arranged {location : Location} {items : List Json} (h : r.Fits location items)
    (position : Nat) :
    (r.arranged location items)[r.position location position]? = items[position]? := by
  have hBound := h.lt_iff position
  unfold arranged Rearrangement.position at *
  split
  · next hPlace =>
      rw [if_pos hPlace] at hBound
      by_cases hPosition : position < items.length
      · rw [List.getElem?_map, List.getElem?_range (hBound.2 hPosition)]
        simp [hPosition]
      · rw [List.getElem?_eq_none (Nat.le_of_not_lt hPosition), List.getElem?_eq_none]
        rw [List.length_map, List.length_range]
        exact Nat.le_of_not_lt fun hLt => hPosition (hBound.1 hLt)
  · rfl

/-- The items of an array, each where it goes. -/
theorem getElem?_json {location : Location} {items : List Json} (h : r.Fits location items)
    (position : Nat) :
    (r.arranged location (r.items location 0 items))[r.position location position]? =
      items[position]?.map (r.json (.index position :: location)) := by
  have hItems : r.Fits location (r.items location 0 items) := fun hPlace moved hMoved => by
    rw [length_items]
    exact h hPlace moved hMoved
  rw [getElem?_arranged hItems, getElem?_items, Nat.zero_add]

theorem not_below_cons {location : Location} (h : ∀ steps, r.place ≠ steps ++ location)
    (step : Step) : ∀ steps, r.place ≠ steps ++ step :: location := fun steps => by
  rw [List.append_cons]
  exact h (steps ++ [step])

mutual

/-- What does not hold the array is as it was. -/
theorem json_eq_self {location : Location} (h : ∀ steps, r.place ≠ steps ++ location) :
    ∀ value, r.json location value = value
  | .array values => by
      rw [json, items_eq_self h, arranged, if_neg fun hEq => h [] hEq.symm]
  | .object fields => by rw [json, entries_eq_self h]
  | .null | .bool _ | .number _ | .string _ => by rw [json]

/-- What stands apart from the array is left alone, item by item. -/
theorem items_eq_self {location : Location} (h : ∀ steps, r.place ≠ steps ++ location)
    {position : Nat} : ∀ values, r.items location position values = values
  | [] => rfl
  | value :: rest => by
      rw [items, json_eq_self (not_below_cons h _), items_eq_self h]

theorem entries_eq_self {location : Location} (h : ∀ steps, r.place ≠ steps ++ location) :
    ∀ fields, r.entries location fields = fields
  | [] => rfl
  | (name, value) :: rest => by
      rw [Rearrangement.entries, json_eq_self (not_below_cons h _), entries_eq_self h]

end

/-- The array holds the items that it held, each where it goes. -/
theorem exists_value?_node {items : List Json} (hPlace : r.place = .field name :: node.location)
    (hItems : node.value? name = some (.array items))
    (hFits : r.Fits (.field name :: node.location) items) :
    ∃ moved, (r.node node).value? name = some (.array moved) ∧ moved.length = items.length ∧
      ∀ position, moved[r.order position]? = items[position]? := by
  have hInside : ∀ position steps, r.place ≠ steps ++ .index position :: .field name :: node.location := by
    intro position steps hEq
    rw [hPlace] at hEq
    have hLength := congrArg List.length hEq
    simp at hLength
    omega
  refine ⟨r.arranged (.field name :: node.location) (r.items (.field name :: node.location) 0 items),
    by rw [value?_node, hItems, Option.map_some, json], length_json _ _, fun position => ?_⟩
  have hMoves := getElem?_json hFits position
  rw [Rearrangement.position, if_pos hPlace.symm] at hMoves
  rw [hMoves]
  cases items[position]? with
  | none => rfl
  | some item => rw [Option.map_some, json_eq_self (hInside position)]

end Rearrangement

end Scoping
