import Scoping.Proofs.Descent.Branching
import Scoping.Proofs.Placement.Visited

/-! Where the nodes stand that a walk visits at one. Two of them are the same or stand apart. -/

namespace Scoping

/-- Nodes at places of this kind, of which any two are the same or stand apart. -/
structure Node.Branches (Here : Location → Prop) (nodes : List Node) : Prop where
  here : ∀ node ∈ nodes, Here node.location
  apart : ∀ first ∈ nodes, ∀ second ∈ nodes,
    first = second ∨ Location.Apart first.location second.location

namespace Node

variable {Here There : Location → Prop} {node child : Node} {nodes others : List Node}
  {name : String} {names more : List String} {keys : ChildKeys}

theorem branches_nil : Branches Here [] :=
  ⟨fun _ hNode => (nomatch hNode), fun _ hNode => nomatch hNode⟩

theorem branches_singleton (h : Here node.location) : Branches Here [node] where
  here := List.forall_mem_singleton.2 h
  apart := fun _ hFirst _ hSecond =>
    .inl ((List.mem_singleton.1 hFirst).trans (List.mem_singleton.1 hSecond).symm)

theorem Branches.mono (h : Branches Here nodes) (hPlaces : ∀ place, Here place → There place) :
    Branches There nodes :=
  ⟨fun node hNode => hPlaces _ (h.here node hNode), h.apart⟩

theorem Branches.append (hFirst : Branches Here nodes) (hSecond : Branches There others)
    (hApart : ∀ place other, Here place → There other → Location.Apart place other) :
    Branches (fun place => Here place ∨ There place) (nodes ++ others) where
  here := fun node hNode => (List.mem_append.1 hNode).imp (hFirst.here node) (hSecond.here node)
  apart := fun first hMem second hOther => by
    rcases List.mem_append.1 hMem with hMem | hMem <;>
      rcases List.mem_append.1 hOther with hOther | hOther
    · exact hFirst.apart first hMem second hOther
    · exact .inr (hApart _ _ (hFirst.here first hMem) (hSecond.here second hOther))
    · exact .inr (hApart _ _ (hFirst.here second hOther) (hSecond.here first hMem)).symm
    · exact hSecond.apart first hMem second hOther

/-- What is in some fields of a node, and what is in others. -/
theorem Branches.fields (hFirst : Branches (node.location.InFields names) nodes)
    (hSecond : Branches (node.location.InFields more) others)
    (hDisjoint : ∀ name ∈ names, name ∉ more) :
    Branches (node.location.InFields (names ++ more)) (nodes ++ others) :=
  (hFirst.append hSecond fun _ _ hPlace hOther => hPlace.apart hOther hDisjoint).mono
    fun _ => Location.inFields_append.2

theorem Branches.below (h : Branches (node.location.InFields names) nodes) :
    Branches (node.location <:+ ·) nodes :=
  h.mono fun _ => Location.InFields.below

theorem Branches.of_mem_children (h : Branches (child.location <:+ ·) nodes)
    (hChild : child ∈ node.children name) : Branches (node.location.InFields [name]) nodes :=
  h.mono fun _ hPlace => Location.inFields_singleton.2 ((below_field hChild).trans hPlace)

/-- What is in nodes that branch. -/
theorem Branches.flatMap {find : Node → List Node} (h : Branches Here nodes)
    (hFind : ∀ node ∈ nodes, Branches (node.location <:+ ·) (find node)) :
    Branches (fun place => ∃ node ∈ nodes, node.location <:+ place) (nodes.flatMap find) where
  here := fun inner hInner => by
    obtain ⟨node, hNode, hFound⟩ := List.mem_flatMap.1 hInner
    exact ⟨node, hNode, (hFind node hNode).here inner hFound⟩
  apart := fun first hFirst second hSecond => by
    obtain ⟨node, hNode, hFound⟩ := List.mem_flatMap.1 hFirst
    obtain ⟨other, hOther, hAgain⟩ := List.mem_flatMap.1 hSecond
    rcases h.apart node hNode other hOther with rfl | hApart
    · exact (hFind node hNode).apart first hFound second hAgain
    · exact .inr (hApart.mono ((hFind node hNode).here first hFound)
        ((hFind other hOther).here second hAgain))

theorem branches_children (node : Node) (name : String) :
    Branches (node.location.InFields [name]) (node.children name) where
  here := fun _ hChild => Location.inFields_singleton.2 (below_field hChild)
  apart := fun _ hFirst _ hSecond => HasChild.eq_or_apart ⟨name, hFirst⟩ ⟨name, hSecond⟩

theorem branches_child? (node : Node) (name : String) :
    Branches (node.location.InFields [name]) (node.child? name).toList where
  here := fun _ hChild => Location.inFields_singleton.2
    (below_field_of_child? (Option.mem_toList.1 hChild))
  apart := fun _ hFirst _ hSecond =>
    .inl (Option.some.inj ((Option.mem_toList.1 hFirst).symm.trans (Option.mem_toList.1 hSecond)))

/-- What is in the nodes of a field. -/
theorem branches_flatMap_children {find : Node → List Node} (hFind : ∀ child ∈ node.children name,
    Branches (child.location <:+ ·) (find child)) :
    Branches (node.location.InFields [name]) ((node.children name).flatMap find) := by
  refine ((branches_children node name).flatMap hFind).mono ?_
  rintro place ⟨child, hChild, hPlace⟩
  exact Location.inFields_singleton.2 ((below_field hChild).trans hPlace)

/-- A field that is gone into twice is gone into at the same nodes. -/
theorem branches_descent (keys : ChildKeys) (node : Node) :
    Branches (node.location <:+ ·) (keys.children node) where
  here := fun _ hChild => (ChildKeys.contains_of_mem_children hChild).below
  apart := fun _ hFirst _ hSecond => (ChildKeys.hasChild_of_mem_children hFirst).eq_or_apart
    (ChildKeys.hasChild_of_mem_children hSecond)

end Node

namespace Pattern

variable {node : Node} {name : String} {keys : ChildKeys}

theorem branches_child {child : Node} (h : node.child name = .ok child) :
    Node.Branches (node.location.InFields [name]) [child] :=
  Node.branches_singleton
    (Location.inFields_singleton.2 (Node.below_field_of_child? (Node.child_eq_ok.1 h)))

theorem branches_computedName {nodes : List Node} (h : computedName node name = .ok nodes) :
    Node.Branches (node.location.InFields [name]) nodes := by
  rcases computedName_eq_ok h with rfl | ⟨key, hKey, rfl⟩
  · exact Node.branches_nil
  · exact branches_child (Node.child_eq_ok.2 hKey)

theorem branches_concat {nodes : List Node} {find : Node → Except Failure Pattern} {all : Pattern}
    {Here : Location → Prop} (h : concat (nodes.map find) = .ok all) (hNodes : Node.Branches Here nodes)
    (hEach : ∀ node ∈ nodes, ∀ pattern, find node = .ok pattern →
      Node.Branches (node.location <:+ ·) pattern.evaluated) :
    Node.Branches (fun place => ∃ node ∈ nodes, node.location <:+ place) all.evaluated := by
  have hAll : all.evaluated =
      nodes.flatMap fun node => ((find node).toOption.map Pattern.evaluated).getD [] := by
    clear hNodes hEach
    induction nodes generalizing all with
    | nil =>
        cases h
        rfl
    | cons node nodes ih =>
        rw [List.map_cons] at h
        cases hFind : find node with
        | error failure =>
            rw [hFind] at h
            cases h
        | ok pattern =>
            rw [hFind, concat] at h
            split at h
            · cases h
            · next others hOthers =>
                cases h
                rw [List.flatMap_cons, ← ih hOthers, hFind]
                rfl
  rw [hAll]
  refine hNodes.flatMap fun node hNode => ?_
  cases hFind : find node with
  | error failure => exact Node.branches_nil
  | ok pattern => exact hEach node hNode pattern hFind

/-- The ordinary code in a pattern branches, whatever the pattern is. -/
theorem branches_collect {place : Place} {found : Pattern} (h : collect keys place node = .ok found) :
    Node.Branches (node.location <:+ ·) found.evaluated := by
  fun_induction collect keys place node generalizing found with
  | case1 =>
      cases h
      exact Node.branches_nil
  | case3 place node _ key _ hKey =>
      cases h
      exact (branches_computedName hKey).below
  | case5 place node _ key value hValue hKey inner hInner ih =>
      cases h
      exact ((branches_computedName hKey).fields
        ((ih hInner).of_mem_children (Node.mem_children_of_child? hValue)) (by decide)).below
  | case9 place node _ left hLeft inner right hRight hInner ih =>
      cases h
      exact (((ih hInner).of_mem_children (Node.mem_children_of_child? hLeft)).fields
        (branches_child hRight) (by decide)).below
  | case11 place node _ argument hArgument ih =>
      exact ((ih h).of_mem_children (Node.mem_children_of_child? hArgument)).below
  | case14 place node _ key object hObject hKey =>
      cases h
      exact ((branches_computedName hKey).fields (branches_child hObject) (by decide)).below
  | case17 place node _ callee hCallee inner hInner ih =>
      cases h
      exact ((Node.branches_children node "arguments").fields
        ((ih hInner).of_mem_children (Node.mem_children_of_child? hCallee)) (by decide)).below
  | case18 place node _ ih =>
      rw [List.attach_map_val] at h
      refine (branches_concat h (Node.branches_descent keys node) fun child hChild pattern hPattern =>
        ih child hChild hPattern).mono ?_
      rintro place ⟨child, hChild, hPlace⟩
      exact (ChildKeys.contains_of_mem_children hChild).below.trans hPlace
  | case2 | case4 | case6 | case7 | case8 | case10 | case12 | case13 | case15 | case16 => cases h

theorem branches_evaluatedIn (keys : ChildKeys) (pattern : Node) :
    Node.Branches (pattern.location <:+ ·) (evaluatedIn keys pattern) := by
  unfold evaluatedIn
  split
  · exact Node.branches_nil
  · next found hFound => exact branches_collect hFound

end Pattern

namespace Node

theorem branches_computed (node : Node) (name : String) :
    Branches (node.location.InFields [name]) (node.computed name) := by
  unfold computed
  split
  · exact branches_child? node name
  · exact branches_nil

theorem branches_assigned (keys : ChildKeys) (node left : Node) :
    Branches (left.location <:+ ·) (node.assigned keys left) := by
  unfold assigned
  split
  · exact branches_singleton (List.suffix_refl _)
  · split
    · exact Pattern.branches_evaluatedIn keys left
    · exact branches_nil

theorem branches_evaluatedIn_child? (keys : ChildKeys) (node : Node) (name : String) :
    Branches (node.location.InFields [name])
      ((node.child? name).toList.flatMap (Pattern.evaluatedIn keys)) := by
  refine ((branches_child? node name).flatMap fun child _ =>
    Pattern.branches_evaluatedIn keys child).mono ?_
  rintro place ⟨child, hChild, hPlace⟩
  exact Location.inFields_singleton.2
    ((below_field_of_child? (Option.mem_toList.1 hChild)).trans hPlace)

theorem branches_declared (keys : ChildKeys) (declaration : Node) :
    Branches (declaration.location.InFields ["declarations"]) (declaration.declared keys) :=
  branches_flatMap_children fun declarator _ =>
    ((branches_evaluatedIn_child? keys declarator "id").fields (branches_child? declarator "init")
      (by decide)).below

theorem branches_looped (keys : ChildKeys) (left : Node) :
    Branches (left.location <:+ ·) (left.looped keys) := by
  unfold looped
  split
  · exact (branches_declared keys left).below
  · exact Pattern.branches_evaluatedIn keys left

end Node

/-- What is visited at a node branches. -/
theorem branches_visited (settings : Settings) (node : Node) :
    Node.Branches (node.location <:+ ·) (visited settings node) := by
  have hChild := fun name => Node.branches_child? node name
  have hComputed := fun name => Node.branches_computed node name
  have hFound := fun name => Node.branches_evaluatedIn_child? settings.keys node name
  have hDescent := Node.branches_descent settings.keys node
  have hLeft : ∀ {find : Node → List Node},
      (∀ left, Node.Branches (left.location <:+ ·) (find left)) →
        Node.Branches (node.location.InFields ["left"]) ((node.child? "left").toList.flatMap find) := by
    intro find hFind
    refine ((hChild "left").flatMap fun left _ => hFind left).mono ?_
    rintro place ⟨left, hMem, hPlace⟩
    exact Location.inFields_singleton.2
      ((Node.below_field_of_child? (Option.mem_toList.1 hMem)).trans hPlace)
  unfold visited
  cases Role.ofKind node.kind <;> dsimp only
  case identifier | silent | thisExpression | importDeclaration => exact Node.branches_nil
  case program | staticBlock | forLoop | call | block | plain => exact hDescent
  case assignment =>
    exact ((hLeft (Node.branches_assigned settings.keys node)).fields (hChild _) (by decide)).below
  case update =>
    split
    · exact Node.branches_nil
    · exact hDescent
  case member => exact ((hChild _).fields (hComputed _) (by decide)).below
  case property | field | method => exact ((hComputed _).fields (hChild _) (by decide)).below
  case labelled => exact (hChild _).below
  case forEach =>
    split
    · exact (((hLeft (Node.branches_looped settings.keys)).fields (hChild _) (by decide)).fields
        (hChild _) (by decide)).below
    · exact Node.branches_nil
  case classDefinition | withStatement => exact ((hChild _).fields (hChild _) (by decide)).below
  case variableDeclaration => exact (Node.branches_declared settings.keys node).below
  case switchStatement =>
    exact ((hChild _).fields (Node.branches_children node _) (by decide)).below
  case function =>
    exact ((Node.branches_flatMap_children fun parameter _ =>
      Pattern.branches_evaluatedIn settings.keys parameter).fields (hChild _) (by decide)).below
  case catchClause => exact ((hFound _).fields (hChild _) (by decide)).below
  case exportDeclaration =>
    split
    · exact Node.branches_nil
    · split
      · next declaration hDeclaration =>
          exact Node.branches_singleton (Node.contains_of_child? hDeclaration).below
      · exact hDescent
  case exportSpecifier => exact (hChild _).below

end Scoping
