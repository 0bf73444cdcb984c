import Mathlib.Data.List.Flatten
import Scoping.Proofs.Descent.Preorder
import Scoping.Proofs.Descent.Targets
import Scoping.Proofs.Nesting.Patterns

/-! Which identifiers a pattern binds, and which nodes in it are ordinary code, told by where
they stand: outside or inside of the right sides of defaults, the keys of properties and the
members that are assigned. -/

namespace Scoping.Pattern

/-- The fields of a node in a pattern that hold ordinary code. -/
def codeFields : String → List String
  | "AssignmentPattern" => ["right"]
  | "Property" => ["key"]
  | "MemberExpression" => ["object", "property"]
  | _ => []

/-- A node is in the right side of this default, in the key of this property, or in this
member expression. -/
def SetAside (around node : Node) : Prop :=
  ∃ name ∈ codeFields around.kind, ∃ child ∈ around.children name, child.Holds node

/-- A node of a pattern that is no ordinary code, and in none. -/
structure InBindingPosition (keys : ChildKeys) (pattern node : Node) : Prop where
  reached : keys.Reaches pattern node
  outside : ∀ around, keys.Reaches pattern around → ¬ SetAside around node

/-- A node that a node in a pattern evaluates as ordinary code. -/
inductive Evaluates (node inner : Node) : Prop where
  | default (kind : node.kind = "AssignmentPattern") (right : node.child? "right" = some inner)
  | key (kind : node.kind = "Property") (computed : node.flag "computed" = true)
      (key : node.child? "key" = some inner)
  | object (kind : node.kind = "MemberExpression") (object : node.child? "object" = some inner)
  | property (kind : node.kind = "MemberExpression") (computed : node.flag "computed" = true)
      (property : node.child? "property" = some inner)

/-- The children of a node that are no ordinary code. -/
def partsOf (keys : ChildKeys) (node : Node) : List Node :=
  ((keys.fields node).filter fun name => name ∉ codeFields node.kind).flatMap node.children

/-- A step to a child that is no ordinary code. -/
def Onward (keys : ChildKeys) (node child : Node) : Prop :=
  child ∈ partsOf keys node

variable {keys : ChildKeys} {pattern node child inner around : Node} {kind name : String}
  {names : List String} {nodes : List Node} {found : Pattern} {place : Place}

/-- The parts of a pattern are children of it, in the order of those. -/
theorem sublist_partsOf (keys : ChildKeys) (node : Node) :
    (partsOf keys node).Sublist (keys.children node) :=
  List.filter_sublist.flatMap node.children

/-- A step onward goes into a field that does not hold ordinary code. -/
theorem onward_iff : Onward keys node child ↔
    ∃ name ∈ keys.fields node, name ∉ codeFields node.kind ∧ child ∈ node.children name := by
  simp only [Onward, partsOf, List.mem_flatMap, List.mem_filter, decide_eq_true_eq, and_assoc]

theorem Onward.isChild (h : Onward keys node child) : keys.Child node child :=
  (sublist_partsOf keys node).subset h

theorem Onward.hasChild (h : Onward keys node child) : node.HasChild child :=
  h.isChild.hasChild

/-- Different steps onward lead to nodes that stand apart. -/
theorem branching_onward (keys : ChildKeys) : Node.Branching (Onward keys) :=
  (ChildKeys.branching_child keys).mono Onward.isChild

/-- The nodes in binding position are those that a way gets to that never goes into
ordinary code. -/
theorem inBindingPosition_iff :
    InBindingPosition keys pattern node ↔ Relation.ReflTransGen (Onward keys) pattern node := by
  constructor
  · rintro ⟨hReached, hOutside⟩
    induction hReached using Relation.ReflTransGen.head_induction_on with
    | refl => exact .refl
    | @head pattern child hChild hRest ih =>
        obtain ⟨name, hName, hField⟩ := List.mem_flatMap.1 hChild
        have hCode : name ∉ codeFields pattern.kind := fun hCode =>
          hOutside pattern .refl ⟨name, hCode, child, hField, ChildKeys.Reaches.holds hRest⟩
        exact .head (onward_iff.2 ⟨name, hName, hCode, hField⟩)
          (ih fun around hAround => hOutside around (.head hChild hAround))
  · intro hWay
    refine ⟨hWay.lift id fun _ _ => Onward.isChild, ?_⟩
    rintro around hAround ⟨name, hCode, child, hChild, hHeld⟩
    have hInside := (Node.contains_of_mem_children hChild).trans_holds hHeld
    obtain ⟨-, hFrom⟩ := Node.exists_way Onward.hasChild hWay hAround.holds hInside.below
    rcases Relation.ReflTransGen.cases_head hFrom with rfl | ⟨first, hFirst, hRest⟩
    · exact hInside.not_below (List.suffix_refl _)
    · -- A place is in one field of a node only.
      obtain ⟨field, -, hPlain, hField⟩ := onward_iff.1 hFirst
      have hFirst := (Node.below_field hField).trans ((branching_onward keys).below hRest)
      have hSecond := (Node.below_field hChild).trans hHeld.below
      by_cases hSame : field = name
      · exact hPlain (hSame ▸ hCode)
      · exact (Location.apart_fields hSame around.location).not_below hFirst hSecond

/-- A pattern built of identifiers, members, objects, arrays, rest elements and defaults. It
is left open which of these an object or an array holds, as holes are in an array. -/
inductive Built : Node → Prop where
  | identifier {node : Node} (kind : node.kind = "Identifier") : Built node
  | member {node object : Node} (kind : node.kind = "MemberExpression")
      (hasObject : node.child? "object" = some object)
      (hasName : node.flag "computed" = true → ∃ name, node.child? "property" = some name) : Built node
  | object {node : Node} (kind : node.kind = "ObjectPattern")
      (each : ∀ child ∈ node.children "properties", Built child) : Built node
  | property {node value : Node} (kind : node.kind = "Property")
      (hasName : node.flag "computed" = true → ∃ name, node.child? "key" = some name)
      (hasValue : node.child? "value" = some value) (value : Built value) : Built node
  | array {node : Node} (kind : node.kind = "ArrayPattern")
      (each : ∀ child ∈ node.children "elements", Built child) : Built node
  | rest {node argument : Node} (kind : node.kind = "RestElement")
      (hasArgument : node.child? "argument" = some argument) (argument : Built argument) : Built node
  | default {node left right : Node} (kind : node.kind = "AssignmentPattern")
      (hasLeft : node.child? "left" = some left) (hasRight : node.child? "right" = some right)
      (left : Built left) : Built node

/-- What a pattern binds and what it evaluates, by where the nodes stand. -/
structure Splits (keys : ChildKeys) (node : Node) (found : Pattern) : Prop where
  identifiers : ∀ inner, (∃ target ∈ found.targets, target.identifier = inner) ↔
    inner.kind = "Identifier" ∧ Relation.ReflTransGen (Onward keys) node inner
  evaluated : ∀ inner, inner ∈ found.evaluated ↔
    ∃ around, Relation.ReflTransGen (Onward keys) node around ∧ Evaluates around inner
  ordered : (found.targets.map Target.identifier).Sublist (keys.walk node)

/-- A node binds what the parts of it bind. -/
theorem splits_of_parts (find : Node → Pattern) {code : List Node} (hKind : node.kind ≠ "Identifier")
    (hCode : ∀ inner, inner ∈ code ↔ Evaluates node inner)
    (hParts : ∀ child ∈ partsOf keys node, Splits keys child (find child))
    (hTargets : found.targets = (partsOf keys node).flatMap fun child => (find child).targets)
    (hEvaluated : found.evaluated.Perm
      (code ++ (partsOf keys node).flatMap fun child => (find child).evaluated)) :
    Splits keys node found where
  identifiers inner := by
    simp only [hTargets, List.mem_flatMap]
    constructor
    · rintro ⟨target, ⟨child, hChild, hTarget⟩, hIdentifier⟩
      obtain ⟨hInner, hWay⟩ := ((hParts child hChild).identifiers inner).1 ⟨target, hTarget, hIdentifier⟩
      exact ⟨hInner, .head hChild hWay⟩
    · rintro ⟨hInner, hWay⟩
      rcases Relation.ReflTransGen.cases_head hWay with rfl | ⟨child, hChild, hRest⟩
      · exact absurd hInner hKind
      · obtain ⟨target, hTarget, hIdentifier⟩ :=
          ((hParts child hChild).identifiers inner).2 ⟨hInner, hRest⟩
        exact ⟨target, ⟨child, hChild, hTarget⟩, hIdentifier⟩
  evaluated inner := by
    rw [hEvaluated.mem_iff, List.mem_append, hCode, List.mem_flatMap]
    constructor
    · rintro (hHere | ⟨child, hChild, hInner⟩)
      · exact ⟨node, .refl, hHere⟩
      · obtain ⟨around, hWay, hAround⟩ := ((hParts child hChild).evaluated inner).1 hInner
        exact ⟨around, .head hChild hWay, hAround⟩
    · rintro ⟨around, hWay, hAround⟩
      rcases Relation.ReflTransGen.cases_head hWay with rfl | ⟨child, hChild, hRest⟩
      · exact .inl hAround
      · exact .inr ⟨child, hChild, ((hParts child hChild).evaluated inner).2 ⟨around, hRest, hAround⟩⟩
  ordered := by
    rw [hTargets, List.map_flatMap, ChildKeys.walk_eq]
    refine .cons _ (.trans ?_ ((sublist_partsOf keys node).flatMap keys.walk))
    exact List.Sublist.flatMap_right _ fun child hChild => (hParts child hChild).ordered

/-- The parts of a node of a known kind are found in the fields that hold no ordinary code.
-/
theorem partsOf_eq (hCustom : keys.custom = []) (hKind : node.kind = kind)
    (hFields : (knownFields.lookup kind).map (List.filter (· ∉ codeFields kind)) = some names) :
    partsOf keys node = names.flatMap node.children := by
  obtain ⟨known, hKnown, rfl⟩ := Option.map_eq_some_iff.1 hFields
  have hAll : keys.fields node = known := by
    unfold ChildKeys.fields
    rw [hCustom, List.lookup_nil, Option.none_or, hKind, hKnown]
  rw [partsOf, hAll, hKind]

theorem partsOf_eq_children (hCustom : keys.custom = []) (hKind : node.kind = kind)
    (hField : (knownFields.lookup kind).map (List.filter (· ∉ codeFields kind)) = some [name]) :
    partsOf keys node = node.children name :=
  (partsOf_eq hCustom hKind hField).trans (List.flatMap_singleton _ _)

theorem children_eq_of_child? (h : node.child? name = some child) : node.children name = [child] := by
  obtain ⟨value, hValue, hNode⟩ := Option.bind_eq_some_iff.1 h
  obtain ⟨-, rfl⟩ := Node.ofJson?_eq_some hNode
  simp only [Node.children, hValue, h, Option.toList_some]

/-- A name is evaluated only if it is computed. -/
theorem mem_computedName_iff (h : computedName node name = .ok nodes) :
    inner ∈ nodes ↔ node.flag "computed" = true ∧ node.child? name = some inner := by
  unfold computedName at h
  split at h
  · next hComputed =>
      split at h
      · cases h
      · next key hKey =>
          cases h
          rw [Node.child_eq_ok.1 hKey, List.mem_singleton]
          simp [hComputed, eq_comm]
  · next hPlain =>
      cases h
      simp [hPlain]

theorem exists_computedName
    (h : node.flag "computed" = true → ∃ key, node.child? name = some key) :
    ∃ key, computedName node name = .ok key := by
  unfold computedName
  split
  · next hComputed =>
      obtain ⟨key, hKey⟩ := h hComputed
      exact ⟨[key], by rw [Node.child_eq_ok.2 hKey]⟩
  · exact ⟨[], rfl⟩

/-- The patterns of nodes that are all patterns. -/
theorem exists_concat {find : Node → Except Failure Pattern}
    (h : ∀ child ∈ nodes, ∃ part, find child = .ok part ∧ Splits keys child part) :
    ∃ parts : Node → Pattern, (∀ child ∈ nodes, Splits keys child (parts child)) ∧
      concat (nodes.map find) = .ok ⟨nodes.flatMap fun child => (parts child).targets,
        nodes.flatMap fun child => (parts child).evaluated⟩ := by
  refine ⟨fun child => (find child).toOption.getD {}, fun child hChild => ?_, ?_⟩
  · obtain ⟨part, hPart, hSplits⟩ := h child hChild
    change Splits keys child ((find child).toOption.getD {})
    rw [hPart]
    exact hSplits
  · have hMap : nodes.map find = (nodes.map fun child => (find child).toOption.getD {}).map .ok := by
      rw [List.map_map]
      refine List.map_congr_left fun child hChild => ?_
      obtain ⟨part, hPart, -⟩ := h child hChild
      rw [Function.comp_apply, hPart]
      rfl
    rw [hMap, concat_map_ok, List.flatMap_map, List.flatMap_map]

/-- The four ways in which a node of a pattern evaluates another. -/
theorem evaluates_iff : Evaluates node inner ↔
    node.kind = "AssignmentPattern" ∧ node.child? "right" = some inner ∨
    node.kind = "Property" ∧ node.flag "computed" = true ∧ node.child? "key" = some inner ∨
    node.kind = "MemberExpression" ∧ (node.child? "object" = some inner ∨
      node.flag "computed" = true ∧ node.child? "property" = some inner) := by
  constructor
  · rintro (⟨hKind, hRight⟩ | ⟨hKind, hKey⟩ | ⟨hKind, hObject⟩ | ⟨hKind, hName⟩)
    · exact .inl ⟨hKind, hRight⟩
    · exact .inr (.inl ⟨hKind, hKey, ‹_›⟩)
    · exact .inr (.inr ⟨hKind, .inl hObject⟩)
    · exact .inr (.inr ⟨hKind, .inr ⟨hName, ‹_›⟩⟩)
  · rintro (⟨hKind, hRight⟩ | ⟨hKind, hComputed, hKey⟩ | ⟨hKind, hObject | ⟨hComputed, hName⟩⟩)
    · exact .default hKind hRight
    · exact .key hKind hComputed hKey
    · exact .object hKind hObject
    · exact .property hKind hComputed hName

/-- A node with one part. -/
theorem splits_of_part {code : List Node} {part : Node} {inside : Pattern}
    (hKind : node.kind ≠ "Identifier") (hCode : ∀ inner, inner ∈ code ↔ Evaluates node inner)
    (hPart : partsOf keys node = [part]) (h : Splits keys part inside)
    (hTargets : found.targets = inside.targets)
    (hEvaluated : found.evaluated.Perm (code ++ inside.evaluated)) : Splits keys node found := by
  refine splits_of_parts (fun _ => inside) hKind hCode (fun child hChild => ?_) ?_ ?_
  · rw [hPart, List.mem_singleton] at hChild
    exact hChild ▸ h
  · rw [hPart, hTargets, List.flatMap_singleton]
  · rw [hPart, List.flatMap_singleton]
    exact hEvaluated

/-- A node that holds no ordinary code, and whose children are all patterns. -/
theorem exists_splits_of_parts (hPart : Part.ofKind node.kind = .other)
    (hPlain : codeFields node.kind = []) (hNone : ∀ inner, ¬ Evaluates node inner)
    (hEach : ∀ child ∈ partsOf keys node, ∃ part, collect keys place child = .ok part ∧
      Splits keys child part) :
    ∃ found, collect keys place node = .ok found ∧ Splits keys node found := by
  obtain ⟨parts, hSplits, hConcat⟩ := exists_concat hEach
  have hKind : node.kind ≠ "Identifier" := by
    intro hKind
    rw [part_eq_identifier_iff.2 hKind] at hPart
    cases hPart
  have hParts : partsOf keys node = keys.children node := by
    rw [partsOf, hPlain, List.filter_eq_self.2 (by simp), ChildKeys.children]
  have hCode : ∀ inner, inner ∈ [] ↔ Evaluates node inner := by
    simpa using hNone
  refine ⟨⟨(partsOf keys node).flatMap fun child => (parts child).targets,
    (partsOf keys node).flatMap fun child => (parts child).evaluated⟩, ?_,
    splits_of_parts parts hKind hCode hSplits rfl (.refl _)⟩
  rw [collect_eq, hPart]
  dsimp only
  rw [← hParts, hConcat]

/-- An identifier binds itself. -/
theorem splits_identifier (hKind : node.kind = "Identifier") (hParts : partsOf keys node = []) :
    Splits keys node ⟨[place.target node], []⟩ := by
  have hOnly : ∀ {inner}, Relation.ReflTransGen (Onward keys) node inner ↔ node = inner := by
    intro inner
    refine ⟨fun hWay => ?_, fun hEq => hEq ▸ .refl⟩
    rcases Relation.ReflTransGen.cases_head hWay with hEq | ⟨child, hChild, -⟩
    · exact hEq
    · rw [Onward, hParts] at hChild
      cases hChild
  refine ⟨fun inner => ?_, fun inner => ?_, ?_⟩
  · rw [hOnly]
    constructor
    · rintro ⟨target, hTarget, rfl⟩
      obtain rfl := List.mem_singleton.1 hTarget
      exact ⟨hKind, rfl⟩
    · rintro ⟨-, rfl⟩
      exact ⟨_, List.mem_singleton_self _, rfl⟩
  · refine ⟨fun hMem => absurd hMem List.not_mem_nil, ?_⟩
    rintro ⟨around, hWay, hAround⟩
    rw [hOnly] at hWay
    subst hWay
    simp [evaluates_iff, hKind] at hAround
  · rw [ChildKeys.walk_eq]
    exact (List.nil_sublist _).cons_cons node

/-- A member binds nothing, and its object and a computed name are evaluated. -/
theorem exists_splits_member {object : Node} (hCustom : keys.custom = [])
    (hKind : node.kind = "MemberExpression") (hObject : node.child? "object" = some object)
    (hName : node.flag "computed" = true → ∃ name, node.child? "property" = some name) :
    ∃ found, collect keys place node = .ok found ∧ Splits keys node found := by
  have hPart : Part.ofKind node.kind = .member := hKind ▸ rfl
  have hParts : partsOf keys node = [] := partsOf_eq hCustom hKind rfl
  obtain ⟨name, hComputed⟩ := exists_computedName hName
  have hCode : ∀ inner, inner ∈ name ++ [object] ↔ Evaluates node inner := fun inner => by
    have hSame : node.child? "object" = some inner ↔ inner = object := by
      rw [hObject, Option.some.injEq]
      exact eq_comm
    rw [evaluates_iff, List.mem_append, mem_computedName_iff hComputed, List.mem_singleton, hSame]
    simp [hKind, or_comm]
  refine ⟨evaluating (name ++ [object]), ?_, splits_of_parts (fun _ => {}) (by simp [hKind]) hCode
    (by simp [hParts]) (by rw [hParts]; rfl) (by rw [hParts, List.flatMap_nil, List.append_nil]; rfl)⟩
  rw [collect_eq, hPart, hComputed, Node.child_eq_ok.2 hObject]

/-- Every such pattern is collected, wherever it stands. -/
theorem exists_splits (hCustom : keys.custom = []) (h : Built node) (place : Place) :
    ∃ found, collect keys place node = .ok found ∧ Splits keys node found := by
  -- Rest elements and defaults change the place on the way down, so the induction is for
  -- all places.
  induction h generalizing place with
  | @identifier node hKind =>
      have hPart : Part.ofKind node.kind = .identifier := hKind ▸ rfl
      refine ⟨⟨[place.target node], []⟩, ?_, splits_identifier hKind (partsOf_eq hCustom hKind rfl)⟩
      rw [collect_eq, hPart]
  | member hKind hObject hName => exact exists_splits_member hCustom hKind hObject hName
  | @object node hKind hEach ih =>
      have hParts : partsOf keys node = node.children "properties" := partsOf_eq_children hCustom hKind rfl
      refine exists_splits_of_parts (hKind ▸ rfl) (hKind ▸ rfl) (by simp [evaluates_iff, hKind]) ?_
      exact hParts ▸ fun child hChild => ih child hChild place
  | @property node value hKind hName hValue hInner ih =>
      have hPart : Part.ofKind node.kind = .property := hKind ▸ rfl
      have hParts : partsOf keys node = node.children "value" := partsOf_eq_children hCustom hKind rfl
      obtain ⟨name, hComputed⟩ := exists_computedName hName
      obtain ⟨inside, hCollect, hSplits⟩ := ih place
      have hCode : ∀ inner, inner ∈ name ↔ Evaluates node inner := fun inner => by
        rw [evaluates_iff]
        simpa [hKind] using mem_computedName_iff hComputed
      refine ⟨evaluating name ++ inside, ?_, splits_of_part (by simp [hKind]) hCode
        (hParts.trans (children_eq_of_child? hValue)) hSplits rfl (.refl _)⟩
      rw [collect_eq, hPart, hComputed, hValue]
      dsimp only
      rw [hCollect]
  | @array node hKind hEach ih =>
      have hParts : partsOf keys node = node.children "elements" := partsOf_eq_children hCustom hKind rfl
      refine exists_splits_of_parts (hKind ▸ rfl) (hKind ▸ rfl) (by simp [evaluates_iff, hKind]) ?_
      exact hParts ▸ fun child hChild => ih child hChild place
  | @rest node argument hKind hArgument hInner ih =>
      have hPart : Part.ofKind node.kind = .rest := hKind ▸ rfl
      have hParts : partsOf keys node = node.children "argument" := partsOf_eq_children hCustom hKind rfl
      obtain ⟨inside, hCollect, hSplits⟩ := ih { place with innermostRest := some node }
      have hCode : ∀ inner, inner ∈ [] ↔ Evaluates node inner := by
        simp [evaluates_iff, hKind]
      refine ⟨inside, ?_, splits_of_part (by simp [hKind]) hCode
        (hParts.trans (children_eq_of_child? hArgument)) hSplits rfl (.refl _)⟩
      rw [collect_eq, hPart, hArgument]
      exact hCollect
  | @default node left right hKind hLeft hRight hInner ih =>
      have hPart : Part.ofKind node.kind = .default := hKind ▸ rfl
      have hParts : partsOf keys node = node.children "left" := partsOf_eq_children hCustom hKind rfl
      obtain ⟨inside, hCollect, hSplits⟩ := ih { place with defaults := place.defaults ++ [node] }
      have hCode : ∀ inner, inner ∈ [right] ↔ Evaluates node inner := fun inner => by
        rw [evaluates_iff, List.mem_singleton]
        simpa [hKind, hRight] using eq_comm
      refine ⟨inside ++ evaluating [right], ?_, splits_of_part (by simp [hKind]) hCode
        (hParts.trans (children_eq_of_child? hLeft)) hSplits (List.append_nil _) List.perm_append_comm⟩
      rw [collect_eq, hPart, hLeft, Node.child_eq_ok.2 hRight]
      dsimp only
      rw [hCollect]

/-- What such a pattern holds besides ordinary code is such a pattern. -/
theorem Built.of_onward (hCustom : keys.custom = []) (h : Built node) (hChild : Onward keys node child) :
    Built child := by
  rw [Onward] at hChild
  cases h with
  | identifier hKind =>
      rw [partsOf_eq hCustom hKind rfl] at hChild
      cases hChild
  | member hKind =>
      rw [partsOf_eq hCustom hKind rfl] at hChild
      cases hChild
  | object hKind hEach => exact hEach child (partsOf_eq_children hCustom hKind rfl ▸ hChild)
  | array hKind hEach => exact hEach child (partsOf_eq_children hCustom hKind rfl ▸ hChild)
  | property hKind _ hValue hInner | rest hKind hValue hInner | default hKind hValue _ hInner =>
      rw [partsOf_eq_children hCustom hKind rfl, children_eq_of_child? hValue, List.mem_singleton] at hChild
      exact hChild ▸ hInner

/-- All that a pattern is built of is built in the same way. -/
theorem Built.of_way (hCustom : keys.custom = []) (h : Built pattern)
    (hWay : Relation.ReflTransGen (Onward keys) pattern node) : Built node := by
  induction hWay with
  | refl => exact h
  | tail _ hChild ih => exact ih.of_onward hCustom hChild

/-- Of the kinds that give a default, patterns are built with one only. -/
theorem Built.kind_of_mem_defaultKinds (h : Built node) (hKind : node.kind ∈ defaultKinds) :
    node.kind = "AssignmentPattern" := by
  cases h <;> simp_all [defaultKinds]

/-- In such a pattern the values by default are all given by patterns. -/
theorem Tells.of_built {target : Target} (h : Tells defaultKinds pattern target)
    (hCustom : keys.custom = []) (hBuilt : Built pattern)
    (hWay : Relation.ReflTransGen (Onward keys) pattern target.identifier) :
    Tells ["AssignmentPattern"] pattern target where
  whole := h.whole
  rest := h.rest
  defaults := by
    refine ⟨fun node => (h.defaults.mem_iff node).trans ⟨?_, ?_⟩, h.defaults.ordered⟩
    · rintro ⟨hHeld, hKind, left, hLeft, hInner⟩
      have hInside := (Node.contains_of_child? hLeft).trans_holds hInner
      obtain ⟨hTo, -⟩ := Node.exists_way Onward.hasChild hWay hHeld hInside.below
      have hPattern := (hBuilt.of_way hCustom hTo).kind_of_mem_defaultKinds hKind
      exact ⟨hHeld, List.mem_singleton.2 hPattern, left, hLeft, hInner⟩
    · rintro ⟨hHeld, hKind, hRest⟩
      rw [List.mem_singleton] at hKind
      exact ⟨hHeld, hKind ▸ List.mem_cons_self, hRest⟩

/-- What is collected from a pattern: the identifiers in binding position, from left to right,
with what is told of each, and the ordinary code that is evaluated for it. -/
structure Collected (keys : ChildKeys) (pattern : Node) (found : Pattern) : Prop where
  identifiers : ∀ node, (∃ target ∈ found.targets, target.identifier = node) ↔
    node.kind = "Identifier" ∧ InBindingPosition keys pattern node
  identifiersOnce : (found.targets.map Target.identifier).Nodup
  identifiersOrdered : (found.targets.map Target.identifier).Sublist (keys.walk pattern)
  tells : ∀ target ∈ found.targets, Tells ["AssignmentPattern"] pattern target
  evaluated : ∀ node, node ∈ found.evaluated ↔
    ∃ around, InBindingPosition keys pattern around ∧ Evaluates around node
  evaluatedOnce : found.evaluated.Nodup
  separate : ∀ node ∈ found.evaluated, (∀ target ∈ found.targets, ¬ node.Holds target.identifier) ∧
    ∀ other ∈ found.evaluated, ¬ node.Contains other

/-- Every pattern is split into the identifiers that it binds and the code that it evaluates,
by where they stand in it. No document that was read has two entries of one name in an
object, see Tree.namesOnce_of_ofText?. -/
theorem exists_collected (hCustom : keys.custom = []) (hNames : pattern.NamesOnce)
    (hBuilt : Built pattern) : ∃ found, ofNode keys pattern = .ok found ∧ Collected keys pattern found := by
  obtain ⟨found, hFound, hSplits⟩ := exists_splits hCustom hBuilt { root := pattern }
  have hScattered := scattered_collect hCustom hNames hFound
  have hLies := lies_collect hCustom hNames hFound
  refine ⟨found, hFound, ?_, hScattered.nodup, hSplits.ordered, ?_, ?_, hLies.scattered.nodup, ?_⟩
  · simpa only [inBindingPosition_iff] using hSplits.identifiers
  · intro target hTarget
    have hWay := ((hSplits.identifiers target.identifier).1 ⟨target, hTarget, rfl⟩).2
    exact (tells_ofNode hFound hTarget).of_built hCustom hBuilt hWay
  · simpa only [inBindingPosition_iff] using hSplits.evaluated
  · refine fun node hNode => ⟨fun target hTarget hHeld => ?_, fun other hOther hInside => ?_⟩
    · exact (hLies.apart node hNode target hTarget).2 hHeld.below
    · have hNe : node ≠ other := by
        rintro rfl
        exact hInside.not_below (List.suffix_refl _)
      have hSymm : Std.Symm fun first second : Node =>
          Location.Apart first.location second.location := ⟨fun _ _ => Location.Apart.symm⟩
      exact (List.Pairwise.forall hLies.scattered hNode hOther hNe).1 hInside.below

/-- The pattern `[, a = b, ...{ [k]: c, d: e.f = g }]`. -/
def restOfObject : Node where
  location := []
  kind := "ArrayPattern"
  entries := [("type", .string "ArrayPattern"), ("elements", .array [.null,
    .object [("type", .string "AssignmentPattern"), ("left", name "a"), ("right", name "b")],
    .object [("type", .string "RestElement"), ("argument",
      .object [("type", .string "ObjectPattern"), ("properties", .array [
        .object [("type", .string "Property"), ("computed", .bool true), ("key", name "k"),
          ("value", name "c")],
        .object [("type", .string "Property"), ("key", name "d"), ("value",
          .object [("type", .string "AssignmentPattern"), ("left",
            .object [("type", .string "MemberExpression"), ("object", name "e"),
              ("property", name "f")]), ("right", name "g")])]])])]])]
where
  name (text : String) : Json := .object [("type", .string "Identifier"), ("name", .string text)]

theorem built_restOfObject : Built restOfObject := by
  refine .array rfl (List.forall_mem_cons.2 ⟨?_, List.forall_mem_singleton.2 ?_⟩)
  · exact .default rfl rfl rfl (.identifier rfl)
  · refine .rest rfl rfl (.object rfl (List.forall_mem_cons.2 ⟨?_, List.forall_mem_singleton.2 ?_⟩))
    · exact .property rfl (fun _ => ⟨_, rfl⟩) rfl (.identifier rfl)
    · exact .property rfl nofun rfl (.default rfl rfl rfl (.member rfl rfl nofun))

/-- The computed key and the object of the member are evaluated, the other key is not. -/
theorem exists_collected_restOfObject :
    restOfObject.NamesOnce ∧ Built restOfObject ∧ ∃ found, ofNode {} restOfObject = .ok found ∧
      found.targets.map (fun target => (target.identifier.name, target.defaults.length)) =
        [("a", 1), ("c", 0)] ∧
      found.evaluated.map Node.name = ["b", "k", "e", "g"] ∧ Collected {} restOfObject found := by
  have hNames : restOfObject.NamesOnce := by
    have hValue : Json.NamesOnce (.object restOfObject.entries) := by
      simp [restOfObject, restOfObject.name, Json.NamesOnce.null, Json.NamesOnce.bool]
    exact Node.namesOnce_of_ofJson? hValue rfl
  have hParts : (ofNode {} restOfObject).toOption.map (fun found =>
      (found.targets.map (fun target => (target.identifier.name, target.defaults.length)),
        found.evaluated.map Node.name)) = some ([("a", 1), ("c", 0)], ["b", "k", "e", "g"]) := by
    decide +kernel
  have hCustom : ({} : ChildKeys).custom = [] := rfl
  obtain ⟨found, hFound, hCollected⟩ := exists_collected hCustom hNames built_restOfObject
  rw [hFound] at hParts
  obtain ⟨hTargets, hEvaluated⟩ := Prod.mk.inj (Option.some.inj hParts)
  exact ⟨hNames, built_restOfObject, found, hFound, hTargets, hEvaluated, hCollected⟩

end Scoping.Pattern
