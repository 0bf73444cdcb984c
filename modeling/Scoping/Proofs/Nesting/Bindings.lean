import Scoping.Proofs.Nesting.Patterns
import Scoping.Proofs.Walk.Bindings

/-! Where the identifiers stand that a node binds: apart from each other, unless the
node is a class, and apart from all that is visited there. -/

namespace Scoping

/-- Names and code at places of this kind. No two names stand together, and none
stands together with code. -/
structure Node.Layout (Here : Location → Prop) (names code : List Node) : Prop where
  here : ∀ name ∈ names, Here name.location
  inside : ∀ inner ∈ code, Here inner.location
  scattered : Node.Scattered names
  apart : ∀ name ∈ names, ∀ inner ∈ code, Location.Apart name.location inner.location

namespace Node

variable {Here There : Location → Prop} {node child : Node} {names others code more : List Node}
  {name : String} {front back : List String} {keys : ChildKeys}

theorem Layout.mono (h : Layout Here names code) (hPlaces : ∀ place, Here place → There place) :
    Layout There names code where
  here := fun name hName => hPlaces _ (h.here name hName)
  inside := fun inner hInner => hPlaces _ (h.inside inner hInner)
  scattered := h.scattered
  apart := h.apart

theorem layout_code (h : ∀ inner ∈ code, Here inner.location) : Layout Here [] code :=
  ⟨fun _ hName => (nomatch hName), h, .nil, fun _ hName => nomatch hName⟩

/-- Names stand apart whether or not code is asked about. -/
theorem Layout.without_code (h : Layout Here names code) : Layout Here names [] :=
  ⟨h.here, fun _ hInner => (nomatch hInner), h.scattered, fun _ _ _ hInner => nomatch hInner⟩

/-- Names and code in two sets of places of which each is apart from the other. -/
theorem Layout.append (hFirst : Layout Here names code) (hSecond : Layout There others more)
    (hApart : ∀ place other, Here place → There other → Location.Apart place other) :
    Layout (fun place => Here place ∨ There place) (names ++ others) (code ++ more) where
  here := fun name hName => (List.mem_append.1 hName).imp (hFirst.here name) (hSecond.here name)
  inside := fun inner hInner =>
    (List.mem_append.1 hInner).imp (hFirst.inside inner) (hSecond.inside inner)
  scattered := List.pairwise_append.2 ⟨hFirst.scattered, hSecond.scattered,
    fun name hName other hOther => hApart _ _ (hFirst.here name hName) (hSecond.here other hOther)⟩
  apart := fun name hName inner hInner => by
    rcases List.mem_append.1 hName with hName | hName <;>
      rcases List.mem_append.1 hInner with hInner | hInner
    · exact hFirst.apart name hName inner hInner
    · exact hApart _ _ (hFirst.here name hName) (hSecond.inside inner hInner)
    · exact (hApart _ _ (hFirst.inside inner hInner) (hSecond.here name hName)).symm
    · exact hSecond.apart name hName inner hInner

/-- What is in some fields of a node, and what is in others. -/
theorem Layout.fields (hFirst : Layout (node.location.InFields front) names code)
    (hSecond : Layout (node.location.InFields back) others more)
    (hDisjoint : ∀ name ∈ front, name ∉ back) :
    Layout (node.location.InFields (front ++ back)) (names ++ others) (code ++ more) :=
  (hFirst.append hSecond fun _ _ hPlace hOther => hPlace.apart hOther hDisjoint).mono
    fun _ => Location.inFields_append.2

/-- What is in some fields of a node, and code in others. -/
theorem Layout.with_code (h : Layout (node.location.InFields front) names code)
    (hMore : ∀ inner ∈ more, node.location.InFields back inner.location)
    (hDisjoint : ∀ name ∈ front, name ∉ back) :
    Layout (node.location.InFields (front ++ back)) names (code ++ more) := by
  have hBoth := h.fields (layout_code hMore) hDisjoint
  rwa [List.append_nil] at hBoth

theorem Layout.below (h : Layout (node.location.InFields front) names code) :
    Layout (node.location <:+ ·) names code :=
  h.mono fun _ => Location.InFields.below

/-- What stands in a child stands in the field of the child. -/
theorem Layout.of_child? (h : Layout (child.location <:+ ·) names code)
    (hChild : node.child? name = some child) : Layout (node.location.InFields [name]) names code :=
  h.mono fun _ hPlace =>
    Location.inFields_singleton.2 ((below_field_of_child? hChild).trans hPlace)

/-- What is in scattered nodes. -/
theorem layout_flatMap {nodes : List Node} {find search : Node → List Node} (h : Scattered nodes)
    (hEach : ∀ node ∈ nodes, Layout (node.location <:+ ·) (find node) (search node)) :
    Layout (fun place => ∃ node ∈ nodes, node.location <:+ place) (nodes.flatMap find)
      (nodes.flatMap search) := by
  induction nodes with
  | nil => exact layout_code fun _ hInner => nomatch hInner
  | cons node nodes ih =>
      obtain ⟨hApart, hRest⟩ := List.pairwise_cons.1 h
      refine ((hEach node List.mem_cons_self).append (ih hRest fun other hOther =>
        hEach other (List.mem_cons_of_mem _ hOther)) ?_).mono
          fun _ => by simp
      rintro place other hPlace ⟨found, hFound, hOther⟩
      exact (hApart found hFound).mono hPlace hOther

theorem layout_flatMap_nil {nodes : List Node} {find : Node → List Node} (h : Scattered nodes)
    (hEach : ∀ node ∈ nodes, Layout (node.location <:+ ·) (find node) []) :
    Layout (fun place => ∃ node ∈ nodes, node.location <:+ place) (nodes.flatMap find) [] := by
  have hBoth := @layout_flatMap nodes find (fun _ => []) h hEach
  rwa [List.flatMap_eq_nil_iff.2 fun _ _ => rfl] at hBoth

/-- What is in the nodes of a field. -/
theorem layout_children {find search : Node → List Node} (hEach : ∀ child ∈ node.children name,
    Layout (child.location <:+ ·) (find child) (search child)) :
    Layout (node.location.InFields [name]) ((node.children name).flatMap find)
      ((node.children name).flatMap search) := by
  refine (layout_flatMap (scattered_children node name) hEach).mono ?_
  rintro place ⟨child, hChild, hPlace⟩
  exact Location.inFields_singleton.2 ((below_field hChild).trans hPlace)

theorem layout_child? {find search : Node → List Node} (hEach : ∀ child, node.child? name = some child →
    Layout (child.location <:+ ·) (find child) (search child)) :
    Layout (node.location.InFields [name]) ((node.child? name).toList.flatMap find)
      ((node.child? name).toList.flatMap search) := by
  cases hChild : node.child? name with
  | none => exact layout_code fun _ hInner => nomatch hInner
  | some child => simpa using (hEach child hChild).of_child? hChild

end Node

variable {settings : Settings} {keys : ChildKeys} {node pattern : Node} {binding : Binding}

/-- The places of what is bound. -/
def Binding.identifiers (bindings : List Binding) : List Node :=
  bindings.map Binding.identifier

/-- The identifiers of the targets of a pattern. -/
def Pattern.identifiersIn (keys : ChildKeys) (pattern : Node) : List Node :=
  (targetsIn keys pattern).map Target.identifier

open Binding (identifiers)

/-- The identifiers that a pattern binds stand apart from one another, and apart from the
code in it. -/
theorem Pattern.layout (hCustom : keys.custom = []) (hNames : pattern.NamesOnce) :
    Node.Layout (pattern.location <:+ ·) (identifiersIn keys pattern) (evaluatedIn keys pattern) := by
  unfold identifiersIn targetsIn evaluatedIn
  cases hFound : ofNode keys pattern with
  | error failure => exact Node.layout_code fun _ hInner => nomatch hInner
  | ok found =>
      have hLies := lies_collect hCustom hNames hFound
      refine ⟨fun name hName => ?_, hLies.evaluated, scattered_collect hCustom hNames hFound,
        fun name hName inner hInner => ?_⟩
      · obtain ⟨target, hTarget, rfl⟩ := List.mem_map.1 hName
        exact hLies.targets target hTarget
      · obtain ⟨target, hTarget, rfl⟩ := List.mem_map.1 hName
        exact hLies.apart inner hInner target hTarget

theorem identifiers_parameters : identifiers (node.parameters keys) =
    (node.children "params").flatMap (Pattern.identifiersIn keys) := by
  rw [← flatMap_fst_zipIdx _ _ 0, identifiers, Node.parameters, List.map_flatMap]
  simp only [List.map_map]
  rfl

theorem identifiers_declarations : identifiers (node.declarations keys) =
    (node.children "declarations").flatMap fun declarator =>
      (declarator.child? "id").toList.flatMap (Pattern.identifiersIn keys) := by
  rw [← flatMap_fst_zipIdx _ _ 0, identifiers, Node.declarations, List.map_flatMap]
  simp only [List.map_flatMap, List.map_map]
  rfl

theorem identifiers_caught : identifiers (node.caught keys) =
    (node.child? "param").toList.flatMap (Pattern.identifiersIn keys) := by
  simp only [identifiers, Node.caught, List.map_flatMap, List.map_map]
  rfl

theorem identifiers_imports : identifiers (node.imports keys) =
    (Walker.importSpecifiers keys node).flatMap fun specifier =>
      (Walker.importedName? specifier).toList.flatMap (Pattern.identifiersIn keys) := by
  simp only [identifiers, Node.imports, List.map_flatMap, List.map_map]
  rfl

theorem identifiers_named (kind : DefinitionKind) : identifiers (node.named kind) =
    (node.child? "id").toList := by
  simp only [identifiers, Node.named, List.map_map]
  exact List.map_id _

theorem layout_named (kind : DefinitionKind) (node : Node) :
    Node.Layout (node.location.InFields ["id"]) (identifiers (node.named kind)) [] := by
  rw [identifiers_named]
  cases hName : node.child? "id" with
  | none => exact Node.layout_code fun _ hInner => nomatch hInner
  | some name =>
      refine ⟨fun found hFound => ?_, fun _ hInner => (nomatch hInner), List.pairwise_singleton _ _,
        fun _ _ _ hInner => nomatch hInner⟩
      rw [List.mem_singleton.1 hFound]
      exact Location.inFields_singleton.2 (Node.below_field_of_child? hName)

/-- Parameters are scattered over their function, and each is a pattern. -/
theorem layout_parameters (hCustom : keys.custom = []) (hNames : node.NamesOnce) :
    Node.Layout (node.location.InFields ["params"]) (identifiers (node.parameters keys))
      ((node.children "params").flatMap (Pattern.evaluatedIn keys)) := by
  rw [identifiers_parameters]
  exact Node.layout_children fun parameter hParameter =>
    Pattern.layout hCustom (hNames.of_holds (.inr (Node.contains_of_mem_children hParameter)))

/-- The parameter of a clause that catches is one pattern. -/
theorem layout_caught (hCustom : keys.custom = []) (hNames : node.NamesOnce) :
    Node.Layout (node.location.InFields ["param"]) (identifiers (node.caught keys))
      ((node.child? "param").toList.flatMap (Pattern.evaluatedIn keys)) := by
  rw [identifiers_caught]
  exact Node.layout_child? fun parameter hParameter =>
    Pattern.layout hCustom (hNames.of_holds (.inr (Node.contains_of_child? hParameter)))

/-- Declarators are scattered over their declaration, each with a pattern and a value. -/
theorem layout_declarations (hCustom : keys.custom = []) (hNames : node.NamesOnce) :
    Node.Layout (node.location.InFields ["declarations"]) (identifiers (node.declarations keys))
      (node.declared keys) := by
  rw [identifiers_declarations]
  refine Node.layout_children fun declarator hDeclarator => ?_
  have hDeclaratorNames := hNames.of_holds (.inr (Node.contains_of_mem_children hDeclarator))
  have hId : Node.Layout (declarator.location.InFields ["id"]) _ _ := Node.layout_child? fun id hId =>
    Pattern.layout hCustom (hDeclaratorNames.of_holds (.inr (Node.contains_of_child? hId)))
  exact (hId.with_code (Node.branches_child? declarator "init").here (by decide)).below

/-- The specifiers of an import are scattered over it. -/
theorem layout_importSpecifiers (hCustom : keys.custom = []) (hNames : node.NamesOnce) :
    Node.Layout (node.location <:+ ·) (Walker.importSpecifiers keys node) [] ∧
      ∀ specifier ∈ Walker.importSpecifiers keys node, node.Holds specifier := by
  induction hSize : sizeOf node.entries using Nat.strongRecOn generalizing node with
  | ind size ih =>
      have hEach : ∀ child ∈ keys.children node, _ := fun child hChild =>
        ih _ (hSize ▸ ChildKeys.sizeOf_mem_children hChild)
          (hNames.of_holds (.inr (ChildKeys.contains_of_mem_children hChild))) rfl
      rw [Walker.importSpecifiers_eq]
      split
      · refine ⟨⟨fun found hFound => ?_, fun _ hInner => (nomatch hInner), List.pairwise_singleton _ _,
          fun _ _ _ hInner => nomatch hInner⟩, fun specifier hMem => ?_⟩
        · cases List.mem_singleton.1 hFound
          exact List.suffix_refl _
        · rw [List.mem_singleton.1 hMem]
          exact node.holds_self
      · constructor
        · refine (Node.layout_flatMap_nil
            (ChildKeys.scattered_children (ChildKeys.listsOnce_of_nil hCustom)
              (hNames node node.holds_self))
            fun child hChild => (hEach child hChild).1).mono ?_
          rintro place ⟨child, hChild, hPlace⟩
          exact (ChildKeys.contains_of_mem_children hChild).below.trans hPlace
        · intro specifier hMem
          obtain ⟨child, hChild, hInner⟩ := List.mem_flatMap.1 hMem
          exact Node.Holds.trans (.inr (ChildKeys.contains_of_mem_children hChild))
            ((hEach child hChild).2 specifier hInner)

/-- An import binds identifiers in its specifiers, and visits nothing. -/
theorem layout_imports (hCustom : keys.custom = []) (hNames : node.NamesOnce) :
    Node.Layout (node.location <:+ ·) (identifiers (node.imports keys)) [] := by
  obtain ⟨hSpecifiers, hHolds⟩ := layout_importSpecifiers hCustom hNames
  rw [identifiers_imports]
  refine (Node.layout_flatMap_nil hSpecifiers.scattered fun specifier hSpecifier => ?_).mono ?_
  · cases hName : Walker.importedName? specifier with
    | none => exact Node.layout_code fun _ hInner => nomatch hInner
    | some name =>
        have hContains := Walker.contains_importedName? hName
        have hPattern := Pattern.layout hCustom
          ((hNames.of_holds (hHolds specifier hSpecifier)).of_holds (.inr hContains))
        simpa using hPattern.without_code.mono fun _ => hContains.below.trans
  · rintro place ⟨specifier, hSpecifier, hPlace⟩
    exact (hHolds specifier hSpecifier).below.trans hPlace

/-- A function binds its name and its parameters, and its body is visited. -/
theorem layout_function (hCustom : settings.keys.custom = []) (hNames : node.NamesOnce)
    (hRole : Role.ofKind node.kind = .function) :
    Node.Layout (node.location <:+ ·) (identifiers (bindings settings node)) (visited settings node) := by
  have hName : Node.Layout (node.location.InFields ["id"]) (identifiers
      (if node.kind = "FunctionDeclaration" ∨ node.kind = "FunctionExpression" then
        node.named .functionName
      else [])) [] := by
    split
    · exact layout_named _ node
    · exact Node.layout_code fun _ hInner => nomatch hInner
  have hAll := (hName.fields (layout_parameters hCustom hNames) (by decide)).with_code
    (Node.branches_child? node "body").here (by decide)
  rw [bindings, visited, hRole]
  simpa only [identifiers, List.map_append, List.nil_append] using hAll.below

/-- A loop over values binds what its head declares. Nothing is bound or visited where the loop
does not say which values. -/
theorem layout_loop (hCustom : settings.keys.custom = []) (hNames : node.NamesOnce)
    (hRole : Role.ofKind node.kind = .forEach) :
    Node.Layout (node.location <:+ ·) (identifiers (bindings settings node)) (visited settings node) := by
  have hHead : Node.Layout (node.location.InFields ["left"])
      (identifiers ((node.child? "left").toList.flatMap fun left =>
        if left.kind = "VariableDeclaration" then left.declarations settings.keys else []))
      ((node.child? "left").toList.flatMap (Node.looped settings.keys)) := by
    rw [identifiers, List.map_flatMap]
    refine Node.layout_child? fun left hLeft => ?_
    unfold Node.looped
    split
    · exact (layout_declarations hCustom
        (hNames.of_holds (.inr (Node.contains_of_child? hLeft)))).below
    · exact Node.layout_code (Pattern.branches_evaluatedIn settings.keys left).here
  have hAll := ((hHead.with_code (Node.branches_child? node "right").here (by decide)).with_code
    (Node.branches_child? node "body").here (by decide)).below
  rw [bindings, visited, hRole]
  dsimp only
  by_cases hBoth : (node.child? "left").isSome ∧ (node.child? "right").isSome
  · rw [if_pos hBoth, if_pos hBoth.2]
    exact hAll
  · rw [if_neg hBoth]
    by_cases hRight : (node.child? "right").isSome
    · have hLeft : node.child? "left" = none := by
        rw [← Option.not_isSome_iff_eq_none]
        exact fun hLeft => hBoth ⟨hLeft, hRight⟩
      rw [if_pos hRight, hLeft]
      exact Node.layout_code fun _ hInner => nomatch hInner
    · rw [if_neg hRight]
      exact Node.layout_code fun _ hInner => nomatch hInner

/-- What a node binds stands apart, and apart from what is visited there. Only a class
may bind one name twice. -/
theorem layout_bindings (hCustom : settings.keys.custom = []) (hNames : node.NamesOnce)
    (hRole : Role.ofKind node.kind ≠ .classDefinition) :
    Node.Layout (node.location <:+ ·) (identifiers (bindings settings node)) (visited settings node) := by
  have hNone : Node.Layout (node.location <:+ ·) [] (visited settings node) :=
    Node.layout_code (branches_visited settings node).here
  cases hKind : Role.ofKind node.kind
  case classDefinition => exact absurd hKind hRole
  case function => exact layout_function hCustom hNames hKind
  case catchClause =>
    rw [bindings, visited, hKind]
    exact ((layout_caught hCustom hNames).with_code (Node.branches_child? node "body").here
      (by decide)).below
  case variableDeclaration =>
    rw [bindings, visited, hKind]
    exact (layout_declarations hCustom hNames).below
  case importDeclaration =>
    rw [bindings, visited, hKind]
    dsimp only
    split
    · exact layout_imports hCustom hNames
    · exact Node.layout_code fun _ hInner => nomatch hInner
  case forEach => exact layout_loop hCustom hNames hKind
  all_goals
    rw [bindings, hKind]
    exact hNone

/-- All that a class binds is its one name. -/
theorem child?_of_mem_bindings (hRole : Role.ofKind node.kind = .classDefinition)
    (h : binding ∈ bindings settings node) : node.child? "id" = some binding.identifier := by
  have hNamed : binding ∈ node.named .className → node.child? "id" = some binding.identifier := by
    intro hMem
    obtain ⟨name, hName, rfl⟩ := List.mem_map.1 hMem
    exact Option.mem_toList.1 hName
  rw [bindings, hRole] at h
  rcases List.mem_append.1 h with hOuter | hInner
  · split at hOuter
    · exact hNamed hOuter
    · cases hOuter
  · exact hNamed hInner

/-- What a node binds is in it, and apart from what is visited there. -/
theorem apart_of_mem_bindings (hCustom : settings.keys.custom = []) (hNames : node.NamesOnce)
    (h : binding ∈ bindings settings node) :
    node.location <:+ binding.identifier.location ∧ ∀ inner ∈ visited settings node,
      Location.Apart binding.identifier.location inner.location := by
  by_cases hRole : Role.ofKind node.kind = .classDefinition
  · have hName := child?_of_mem_bindings hRole h
    have hId := Location.inFields_singleton.2 (Node.below_field_of_child? hName)
    refine ⟨hId.below, fun inner hInner => ?_⟩
    have hCode : node.location.InFields ["superClass", "body"] inner.location := by
      rw [visited, hRole] at hInner
      exact ((Node.branches_child? node "superClass").fields (Node.branches_child? node "body")
        (by decide)).here inner hInner
    exact hId.apart hCode (by decide)
  · have hLayout := layout_bindings hCustom hNames hRole
    have hMem : binding.identifier ∈ identifiers (bindings settings node) :=
      List.mem_map_of_mem h
    exact ⟨hLayout.here _ hMem, hLayout.apart _ hMem⟩

end Scoping
