import Mathlib.Data.List.Basic
import Scoping.Tree.ChildKeys
import Scoping.Tree.Directive
import Scoping.Tree.Nodes

/-! A document whose objects have been revised, each at its place. A walk of the
document reads fields by their names, so that it finds the same in the revised
one, at the same places. -/

namespace Scoping

/-- The fields that hold the name of a member or of a property. -/
def nameFields : List String :=
  ["property", "key"]

/-- The field of an object that holds no more than the name of a member or of a
property, and so no code. -/
def Json.IsPlainName (fields : List (String × Json)) (name : String) : Prop :=
  (Json.kind? fields = some "MemberExpression" ∧ name = "property" ∨
      Json.kind? fields = some "Property" ∧ name = "key") ∧
    (fields.lookup "computed").bind Json.bool? ≠ some true

instance (fields : List (String × Json)) (name : String) :
    Decidable (Json.IsPlainName fields name) :=
  inferInstanceAs (Decidable (_ ∧ _))

/-- A descent goes into an object in the order of its entries. -/
def ChildKeys.Iterates (keys : ChildKeys) (fields : List (String × Json)) : Prop :=
  keys.fallback = .iteration ∧ ∃ kind, Json.kind? fields = some kind ∧
    keys.custom.lookup kind = none ∧ knownFields.lookup kind = none

instance (keys : ChildKeys) (fields : List (String × Json)) : Decidable (keys.Iterates fields) :=
  decidable_of_iff (keys.fallback = .iteration ∧ (Json.kind? fields).any fun kind =>
      (keys.custom.lookup kind).isNone && (knownFields.lookup kind).isNone) (by
    simp [ChildKeys.Iterates, Option.any_eq_true])

/-- A change of the entries of each object. It keeps what the fields hold, all but
plain names, and the order of the entries where that decides what is met first. -/
structure Revision (keys : ChildKeys) where
  change : Location → List (String × Json) → List (String × Json)
  lookup_change : ∀ location fields name, ¬ Json.IsPlainName fields name →
    (change location fields).lookup name = fields.lookup name
  names_change : ∀ location fields, keys.Iterates fields →
    (change location fields).map Prod.fst = fields.map Prod.fst

namespace Revision

variable {keys : ChildKeys} (r : Revision keys)

mutual

/-- What becomes of a value at a place. What is inside is revised first. -/
def json (location : Location) : Json → Json
  | .array values => .array (items location 0 values)
  | .object fields => .object (r.change location (entries location fields))
  | .null => .null
  | .bool value => .bool value
  | .number value => .number value
  | .string value => .string value

def items (location : Location) (position : Nat) : List Json → List Json
  | [] => []
  | item :: rest =>
      json (.index position :: location) item :: items location (position + 1) rest

def entries (location : Location) : List (String × Json) → List (String × Json)
  | [] => []
  | (name, value) :: rest => (name, json (.field name :: location) value) :: entries location rest

end

/-- What becomes of a node. It stays where it is. -/
def node (node : Node) : Node :=
  { node with entries := r.change node.location (r.entries node.location node.entries) }

def tree (tree : Tree) : Tree where
  root := r.node tree.root

/-- A field of a node that the revision of the node itself leaves alone. -/
def Keeps (node : Node) (name : String) : Prop :=
  (r.change node.location (r.entries node.location node.entries)).lookup name =
    (r.entries node.location node.entries).lookup name

/-- All fields of a node are left alone. -/
def KeepsAll (node : Node) : Prop :=
  ∀ name, r.Keeps node name

variable {r} {node child : Node} {name : String} {location : Location}
  {fields : List (String × Json)}

@[simp] theorem kind_node : (r.node node).kind = node.kind :=
  rfl

@[simp] theorem location_node : (r.node node).location = node.location :=
  rfl

@[simp] theorem beq_node {first second : Node} :
    (r.node first == r.node second) = (first == second) :=
  rfl

@[simp] theorem isIdentifier_node : (r.node node).isIdentifier = node.isIdentifier :=
  rfl

/-- What is inside of a field is revised, and the fields are those they were. -/
theorem lookup_entries (location : Location) (fields : List (String × Json)) (name : String) :
    (r.entries location fields).lookup name =
      (fields.lookup name).map (r.json (.field name :: location)) := by
  induction fields with
  | nil => rfl
  | cons entry rest ih =>
      obtain ⟨key, value⟩ := entry
      rw [Revision.entries, List.lookup_cons, List.lookup_cons]
      by_cases hName : name = key
      · simp [hName]
      · simp only [beq_eq_false_iff_ne.2 hName, ih]

/-- The names of the fields of an object are kept, and so is their order. -/
theorem names_entries (location : Location) (fields : List (String × Json)) :
    (r.entries location fields).map Prod.fst = fields.map Prod.fst := by
  induction fields with
  | nil => rfl
  | cons entry rest ih => rw [Revision.entries, List.map_cons, List.map_cons, ih]

@[simp] theorem string?_json (location : Location) (value : Json) :
    (r.json location value).string? = value.string? := by
  cases value <;> rfl

@[simp] theorem bool?_json (location : Location) (value : Json) :
    (r.json location value).bool? = value.bool? := by
  cases value <;> rfl

@[simp] theorem kind?_entries : Json.kind? (r.entries location fields) = Json.kind? fields := by
  rw [Json.kind?, Json.kind?, lookup_entries, Option.bind_map]
  exact Option.bind_congr fun value _ => string?_json _ value

@[simp] theorem isPlainName_entries :
    Json.IsPlainName (r.entries location fields) name ↔ Json.IsPlainName fields name := by
  have hComputed : ((r.entries location fields).lookup "computed").bind Json.bool? =
      (fields.lookup "computed").bind Json.bool? := by
    rw [lookup_entries, Option.bind_map]
    exact Option.bind_congr fun value _ => bool?_json _ value
  rw [Json.IsPlainName, Json.IsPlainName, kind?_entries, hComputed]

@[simp] theorem iterates_entries :
    keys.Iterates (r.entries location fields) ↔ keys.Iterates fields := by
  simp [ChildKeys.Iterates]

/-- The name of a node that holds what it says, and no more. -/
theorem keeps_of_not_isPlainName (h : ¬ Json.IsPlainName node.entries name) : r.Keeps node name :=
  r.lookup_change _ _ _ (mt isPlainName_entries.1 h)

/-- A field that is never a plain name. -/
theorem keeps (node : Node) (h : name ∉ nameFields) : r.Keeps node name :=
  keeps_of_not_isPlainName fun hPlain => h (by rcases hPlain.1 with hName | hName <;>
    simp [nameFields, hName.2])

/-- The name of a member is code if it is computed, and then it is kept like all other code.
-/
theorem keeps_of_computed (name : String) (h : node.flag "computed" = true) :
    r.Keeps node name := by
  refine keeps_of_not_isPlainName fun hPlain => hPlain.2 ?_
  unfold Node.flag Node.value? at h
  split at h
  · next value hValue =>
      rw [hValue, h]
      rfl
  · cases h

/-- A field that is kept holds what it held, revised on the inside. -/
theorem value?_node (h : r.Keeps node name) :
    (r.node node).value? name = (node.value? name).map (r.json (.field name :: node.location)) :=
  h.trans (lookup_entries _ _ _)

/-- Text has no inside, so it is read as it was. -/
theorem text?_node (h : r.Keeps node name) : (r.node node).text? name = node.text? name := by
  rw [Node.text?, Node.text?, value?_node h, Option.bind_map]
  exact Option.bind_congr fun value _ => string?_json _ value

theorem flag_node (h : r.Keeps node name) : (r.node node).flag name = node.flag name := by
  simp only [Node.flag, value?_node h]
  cases node.value? name with
  | none => rfl
  | some value => cases value <;> rfl

@[simp] theorem name_node : (r.node node).name = node.name := by
  rw [Node.name, Node.name, text?_node (keeps node (by decide))]

/-- An object is a node just if it was one, of the same kind. -/
theorem ofJson?_json (location : Location) (value : Json) :
    Node.ofJson? location (r.json location value) = (Node.ofJson? location value).map r.node := by
  cases value with
  | object fields =>
      have hType : (r.change location (r.entries location fields)).lookup "type" =
          (fields.lookup "type").map (r.json (.field "type" :: location)) := by
        rw [← lookup_entries]
        exact keeps (r := r) ⟨location, "", fields⟩ (by decide)
      simp only [json, Node.ofJson?, hType]
      cases fields.lookup "type" with
      | none => rfl
      | some kind => cases kind <;> rfl
  | _ => rfl

/-- What becomes of a document is a document if it was one. -/
theorem ofJson?_tree {value : Json} {tree : Tree} (h : Tree.ofJson? value = .ok tree) :
    Tree.ofJson? (r.json [] value) = .ok (r.tree tree) := by
  rw [Tree.ofJson?, ofJson?_json, Tree.ofJson?_eq_ok h]
  rfl

/-- The child in a field that is kept is the revised child. -/
theorem child?_node (h : r.Keeps node name) :
    (r.node node).child? name = (node.child? name).map r.node := by
  simp only [Node.child?, value?_node h]
  cases node.value? name with
  | none => rfl
  | some value => exact ofJson?_json _ _

theorem child_node (h : r.Keeps node name) :
    (r.node node).child name = (node.child name).map r.node := by
  simp only [Node.child, child?_node h]
  cases node.child? name <;> rfl

theorem zipIdx_items (location : Location) (start : Nat) (values : List Json) :
    (r.items location start values).zipIdx start =
      (values.zipIdx start).map fun (item, position) =>
        (r.json (.index position :: location) item, position) := by
  induction values generalizing start with
  | nil => rfl
  | cons item rest ih =>
      rw [Revision.items, List.zipIdx_cons, List.zipIdx_cons, List.map_cons, ih]

/-- The nodes in a field are revised one by one, at the places where they were. -/
theorem children_node (h : r.Keeps node name) :
    (r.node node).children name = (node.children name).map r.node := by
  unfold Node.children
  rw [value?_node h, child?_node h]
  cases hValue : node.value? name with
  | none => simp [Node.child?, hValue]
  | some value =>
      cases value with
      | array values =>
          simp only [Option.map_some, json, location_node]
          rw [zipIdx_items, List.filterMap_map, List.map_filterMap]
          exact List.filterMap_congr fun (item, position) _ => ofJson?_json _ _
      | object entries =>
          simp only [Option.map_some, json]
          cases node.child? name <;> rfl
      | _ => simp [Node.child?, hValue, Node.ofJson?, json]

/-- A descent goes into the same fields as before. -/
theorem fields_node (hTyped : node.IsTyped) : keys.fields (r.node node) = keys.fields node := by
  unfold ChildKeys.fields
  rw [kind_node]
  cases hListed : (keys.custom.lookup node.kind).or (knownFields.lookup node.kind) with
  | some names => rfl
  | none =>
      obtain ⟨hCustom, hKnown⟩ := Option.or_eq_none_iff.1 hListed
      cases hFallback : keys.fallback with
      | leaf => rfl
      | iteration =>
          have hNames := r.names_change node.location (r.entries node.location node.entries)
            (iterates_entries.2 ⟨hFallback, node.kind, hTyped, hCustom, hKnown⟩)
          rw [names_entries] at hNames
          exact congrArg (List.filter _) hNames

/-- A descent comes to the nodes that it came to. -/
theorem keyed_node (hTyped : node.IsTyped) (h : ∀ name, r.Keeps node name) :
    keys.children (r.node node) = (keys.children node).map r.node := by
  rw [ChildKeys.children, ChildKeys.children, fields_node hTyped, List.map_flatMap]
  exact List.flatMap_congr fun name _ => children_node (h name)

/-- Plain names are only found in members and in properties, so that all other nodes are
kept whole. -/
theorem keepsAll_of_kind (hTyped : node.IsTyped) (hMember : node.kind ≠ "MemberExpression")
    (hProperty : node.kind ≠ "Property") : r.KeepsAll node := by
  refine fun name => keeps_of_not_isPlainName fun hPlain => ?_
  rcases hPlain.1 with ⟨hKind, -⟩ | ⟨hKind, -⟩
  · exact hMember (Option.some.inj (hTyped.symm.trans hKind))
  · exact hProperty (Option.some.inj (hTyped.symm.trans hKind))

@[simp] theorem directive?_node : (r.node node).directive? = node.directive? := by
  unfold Node.directive?
  rw [kind_node, text?_node (keeps node (by decide)), child?_node (keeps node (by decide))]
  cases node.text? "directive" with
  | some text => rfl
  | none =>
      cases node.child? "expression" with
      | none => rfl
      | some expression =>
          have hValue : r.Keeps expression "value" := keeps expression (by decide)
          have hRaw : r.Keeps expression "raw" := keeps expression (by decide)
          simp only [Option.map_some, kind_node, text?_node hValue, text?_node hRaw]

/-- A prologue is read through directives alone, and those are kept. -/
theorem prologueIsStrict_map (statements : List Node) :
    Node.prologueIsStrict (statements.map r.node) = Node.prologueIsStrict statements := by
  induction statements with
  | nil => rfl
  | cons statement rest ih =>
      rw [List.map_cons, Node.prologueIsStrict, Node.prologueIsStrict, directive?_node, ih]

@[simp] theorem saysStrict_node : (r.node node).saysStrict = node.saysStrict := by
  rw [Node.saysStrict, Node.saysStrict, children_node (keeps node (by decide)), prologueIsStrict_map]

end Revision

end Scoping
