import Scoping.Tree.Pattern

namespace Scoping.Pattern

/-- All of these nodes are inside `node`. -/
def Inside (node : Node) (nodes : List Node) : Prop :=
  ∀ inner ∈ nodes, node.Contains inner

theorem inside_append {node : Node} {a b : List Node} :
    Inside node (a ++ b) ↔ Inside node a ∧ Inside node b := by
  simp only [Inside, List.mem_append, or_imp, forall_and]

/-- What is inside a child is inside the node. -/
theorem Inside.trans {node child : Node} {nodes : List Node} (hInside : Inside child nodes)
    (h : node.Contains child) : Inside node nodes :=
  fun inner hInner => h.trans (hInside inner hInner)

/-- What a field holds is inside the node. -/
theorem inside_children (node : Node) (name : String) : Inside node (node.children name) :=
  fun _ h => Node.contains_of_mem_children h

/-- What is evaluated for a name is its node, if the name is computed. -/
theorem computedName_eq_ok {node : Node} {name : String} {nodes : List Node}
    (h : computedName node name = .ok nodes) :
    nodes = [] ∨ ∃ key, node.child? name = some key ∧ nodes = [key] := by
  unfold computedName at h
  split at h
  · split at h
    · cases h
    · next key hKey =>
        cases h
        exact .inr ⟨key, Node.child_eq_ok.1 hKey, rfl⟩
  · cases h
    exact .inl rfl

theorem inside_of_child {node child : Node} {name : String} (h : node.child name = .ok child) :
    Inside node [child] := by
  intro inner hInner
  rw [List.mem_singleton.1 hInner]
  exact Node.contains_of_child? (Node.child_eq_ok.1 h)

theorem inside_of_computedName {node : Node} {name : String} {nodes : List Node}
    (h : computedName node name = .ok nodes) : Inside node nodes := by
  intro inner hInner
  rcases computedName_eq_ok h with rfl | ⟨key, hKey, rfl⟩
  · cases hInner
  · rw [List.mem_singleton.1 hInner]
    exact Node.contains_of_child? hKey

/-- Patterns that stay inside a node stay there together. -/
theorem inside_concat {node : Node} {patterns : List (Except Failure Pattern)} {all : Pattern}
    (h : concat patterns = .ok all)
    (hInside : ∀ pattern, .ok pattern ∈ patterns → Inside node pattern.evaluated) :
    Inside node all.evaluated := by
  fun_induction concat patterns generalizing all with
  | case1 =>
      cases h
      exact fun _ h => nomatch h
  | case2 => cases h
  | case3 => cases h
  | case4 pattern rest others hRest ih =>
      cases h
      exact inside_append.2 ⟨hInside pattern List.mem_cons_self,
        ih hRest fun p hp => hInside p (List.mem_cons_of_mem _ hp)⟩

/-- The ordinary code in a pattern stands inside the node of the pattern, and
never is that node. -/
theorem inside_collect {keys : ChildKeys} {place : Place} {node : Node} {found : Pattern}
    (h : collect keys place node = .ok found) : Inside node found.evaluated := by
  fun_induction collect keys place node generalizing found with
  | case1 =>
      cases h
      exact fun _ h => nomatch h
  | case3 place node _ key _ hKey =>
      cases h
      exact inside_of_computedName hKey
  | case5 place node _ key value hValue hKey inner hInner ih =>
      cases h
      exact inside_append.2
        ⟨inside_of_computedName hKey, (ih hInner).trans (Node.contains_of_child? hValue)⟩
  | case9 place node _ left hLeft inner right hRight hInner ih =>
      cases h
      exact inside_append.2
        ⟨(ih hInner).trans (Node.contains_of_child? hLeft), inside_of_child hRight⟩
  | case11 place node _ argument hArgument ih =>
      exact (ih h).trans (Node.contains_of_child? hArgument)
  | case14 place node _ key object hObject hKey =>
      cases h
      exact inside_append.2 ⟨inside_of_computedName hKey, inside_of_child hObject⟩
  | case17 place node _ callee hCallee inner hInner ih =>
      cases h
      exact inside_append.2
        ⟨inside_children node "arguments", (ih hInner).trans (Node.contains_of_child? hCallee)⟩
  | case18 place node _ ih =>
      refine inside_concat h fun pattern hPattern => ?_
      obtain ⟨⟨child, hChild⟩, _, hCollect⟩ := List.mem_map.1 hPattern
      exact (ih child hChild hCollect).trans (ChildKeys.contains_of_mem_children hChild)
  | case2 | case4 | case6 | case7 | case8 | case10 | case12 | case13 | case15 | case16 => cases h

/-- The code in a pattern is inside of it. -/
theorem inside_ofNode {keys : ChildKeys} {node : Node} {found : Pattern}
    (h : ofNode keys node = .ok found) : Inside node found.evaluated :=
  inside_collect h

theorem isMissingField_of_child {node : Node} {name : String} {failure : Failure}
    (h : node.child name = .error failure) : failure.IsMissingField := by
  unfold Node.child at h
  split at h
  · cases h
  · cases h
    exact ⟨_, _, rfl⟩

theorem isMissingField_of_computedName {node : Node} {name : String} {failure : Failure}
    (h : computedName node name = .error failure) : failure.IsMissingField := by
  unfold computedName at h
  split at h
  · split at h
    · next hKey =>
        cases h
        exact isMissingField_of_child hKey
    · cases h
  · cases h

/-- If one of several patterns cannot be read, it is for a field that is missing. -/
theorem isMissingField_of_concat {patterns : List (Except Failure Pattern)} {failure : Failure}
    (h : concat patterns = .error failure)
    (hEach : ∀ failure, .error failure ∈ patterns → failure.IsMissingField) :
    failure.IsMissingField := by
  fun_induction concat patterns generalizing failure with
  | case1 => cases h
  | case2 =>
      cases h
      exact hEach _ List.mem_cons_self
  | case3 pattern rest found hRest ih =>
      cases h
      exact ih hRest fun other hOther => hEach other (List.mem_cons_of_mem _ hOther)
  | case4 => cases h

/-- Only a missing child keeps a node from being a pattern. -/
theorem isMissingField_of_collect {keys : ChildKeys} {place : Place} {node : Node}
    {failure : Failure} (h : collect keys place node = .error failure) :
    failure.IsMissingField := by
  fun_induction collect keys place node generalizing failure with
  | case2 place node _ found hKey =>
      cases h
      exact isMissingField_of_computedName hKey
  | case4 place node _ key value hValue hKey found hInner ih =>
      cases h
      exact ih hInner
  | case6 | case10 | case15 =>
      cases h
      exact ⟨_, _, rfl⟩
  | case7 place node _ left hLeft found hInner ih =>
      cases h
      exact ih hInner
  | case8 place node _ left hLeft inner found hRight hInner ih =>
      cases h
      exact isMissingField_of_child hRight
  | case11 place node _ argument hArgument ih => exact ih h
  | case12 place node _ found hKey =>
      cases h
      exact isMissingField_of_computedName hKey
  | case13 place node _ key found hObject hKey =>
      cases h
      exact isMissingField_of_child hObject
  | case16 place node _ callee hCallee found hInner ih =>
      cases h
      exact ih hInner
  | case18 place node _ ih =>
      refine isMissingField_of_concat h fun found hFound => ?_
      obtain ⟨⟨child, hChild⟩, _, hCollect⟩ := List.mem_map.1 hFound
      exact ih child hChild hCollect
  | case1 | case3 | case5 | case9 | case14 | case17 => cases h

/-- Nothing but a missing field keeps a pattern from being read. -/
theorem isMissingField_of_ofNode {keys : ChildKeys} {node : Node} {failure : Failure}
    (h : ofNode keys node = .error failure) : failure.IsMissingField :=
  isMissingField_of_collect h

/-- How a pattern is collected, without the proofs that the nodes become smaller. -/
theorem collect_eq {keys : ChildKeys} {place : Place} {node : Node} :
    collect keys place node =
      match Part.ofKind node.kind with
      | .identifier => .ok ⟨[place.target node], []⟩
      | .property =>
          match computedName node "key", node.child? "value" with
          | .error failure, _ => .error failure
          | .ok key, none => .ok (evaluating key)
          | .ok key, some value =>
              match collect keys place value with
              | .error failure => .error failure
              | .ok inner => .ok (evaluating key ++ inner)
      | .default =>
          match node.child? "left" with
          | none => .error (.missingField node.kind "left")
          | some left =>
              match collect keys { place with defaults := place.defaults ++ [node] } left,
                  node.child "right" with
              | .error failure, _ => .error failure
              | .ok _, .error failure => .error failure
              | .ok inner, .ok right => .ok (inner ++ evaluating [right])
      | .rest =>
          match node.child? "argument" with
          | none => .error (.missingField node.kind "argument")
          | some argument => collect keys { place with innermostRest := some node } argument
      | .member =>
          match computedName node "property", node.child "object" with
          | .error failure, _ => .error failure
          | .ok _, .error failure => .error failure
          | .ok key, .ok object => .ok (evaluating (key ++ [object]))
      | .call =>
          match node.child? "callee" with
          | none => .error (.missingField node.kind "callee")
          | some callee =>
              match collect keys place callee with
              | .error failure => .error failure
              | .ok inner => .ok (evaluating (node.children "arguments") ++ inner)
      | .other => concat ((keys.children node).map (collect keys place)) := by
  rw [collect]
  cases Part.ofKind node.kind with
  | identifier => rfl
  | property => cases computedName node "key" <;> cases node.child? "value" <;> rfl
  | default => cases node.child? "left" <;> rfl
  | rest => cases node.child? "argument" <;> rfl
  | member => cases computedName node "property" <;> cases node.child "object" <;> rfl
  | call => cases node.child? "callee" <;> rfl
  | other => simp

/-- Patterns that are all found make one of all their parts. -/
theorem concat_map_ok (patterns : List Pattern) :
    concat (patterns.map .ok) =
      .ok ⟨patterns.flatMap Pattern.targets, patterns.flatMap Pattern.evaluated⟩ := by
  induction patterns with
  | nil => rfl
  | cons pattern rest ih =>
      rw [List.map_cons, concat, ih]
      rfl

/-- Patterns that can be read together can each be read. -/
theorem exists_of_concat_eq_ok {patterns : List (Except Failure Pattern)} {all : Pattern}
    (h : concat patterns = .ok all) : ∃ found : List Pattern, patterns = found.map .ok := by
  fun_induction concat patterns generalizing all with
  | case1 => exact ⟨[], rfl⟩
  | case2 => cases h
  | case3 => cases h
  | case4 pattern rest others hRest ih =>
      obtain ⟨found, hFound⟩ := ih hRest
      exact ⟨pattern :: found, by rw [hFound, List.map_cons]⟩

end Scoping.Pattern
