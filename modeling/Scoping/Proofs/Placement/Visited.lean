import Scoping.Proofs.Walk.Arriving
import Scoping.Proofs.Walk.Visits
import Scoping.Tree.Holding

/-! A walk visits no declarator: what it does at one belongs to the declaration
around it. So no node is both a declarator and a declaration. -/

namespace Scoping

/-- A node holds another, though not as a declarator of a declaration. -/
def Node.HoldsApart (node inner : Node) : Prop :=
  ∃ holder name, node.Holds holder ∧ inner ∈ holder.children name ∧
    ¬ (holder.kind = "VariableDeclaration" ∧ name = "declarations")

/-- What a child holds otherwise than as a declarator, the node does as well. -/
theorem Node.HoldsApart.of_holds {node child inner : Node} (h : child.HoldsApart inner)
    (hChild : node.Holds child) : node.HoldsApart inner := by
  obtain ⟨holder, name, hHolds, hMem, hNot⟩ := h
  exact ⟨holder, name, hChild.trans hHolds, hMem, hNot⟩

/-- All of these nodes are held by a node, none of them as a declarator. -/
def Node.AllApart (node : Node) (nodes : List Node) : Prop :=
  ∀ inner ∈ nodes, node.HoldsApart inner

theorem Node.allApart_append {node : Node} {first rest : List Node} :
    node.AllApart (first ++ rest) ↔ node.AllApart first ∧ node.AllApart rest := by
  simp only [AllApart, List.mem_append, or_imp, forall_and]

theorem Node.AllApart.of_holds {node child : Node} {nodes : List Node} (h : child.AllApart nodes)
    (hChild : node.Holds child) : node.AllApart nodes :=
  fun inner hInner => (h inner hInner).of_holds hChild

/-- The children in a field are declarators only in the one field of a declaration. -/
theorem Node.allApart_children {node : Node} {name : String}
    (h : ¬ (node.kind = "VariableDeclaration" ∧ name = "declarations")) :
    node.AllApart (node.children name) :=
  fun _ hInner => ⟨node, name, node.holds_self, hInner, h⟩

theorem Node.allApart_child {node child : Node} {name : String} (hName : name ≠ "declarations")
    (h : node.child? name = some child) : node.HoldsApart child :=
  ⟨node, name, node.holds_self, mem_children_of_child? h, fun hBoth => hName hBoth.2⟩

namespace Pattern

theorem allApart_child {node child : Node} {name : String} (hName : name ≠ "declarations")
    (h : node.child name = .ok child) : node.AllApart [child] := by
  intro inner hInner
  rw [List.mem_singleton.1 hInner]
  exact Node.allApart_child hName (Node.child_eq_ok.1 h)

theorem allApart_computedName {node : Node} {name : String} {nodes : List Node}
    (hName : name ≠ "declarations") (h : computedName node name = .ok nodes) :
    node.AllApart nodes := by
  intro inner hInner
  rcases computedName_eq_ok h with rfl | ⟨key, hKey, rfl⟩
  · cases hInner
  · rw [List.mem_singleton.1 hInner]
    exact Node.allApart_child hName hKey

/-- What is found in several patterns is found apart if it is in each. -/
theorem allApart_concat {node : Node} {patterns : List (Except Failure Pattern)} {all : Pattern}
    (h : concat patterns = .ok all)
    (hEach : ∀ pattern, .ok pattern ∈ patterns → node.AllApart pattern.evaluated) :
    node.AllApart all.evaluated := by
  fun_induction concat patterns generalizing all with
  | case1 =>
      cases h
      exact fun _ h => absurd h List.not_mem_nil
  | case2 => cases h
  | case3 => cases h
  | case4 pattern rest others hRest ih =>
      cases h
      exact Node.allApart_append.2 ⟨hEach pattern List.mem_cons_self,
        ih hRest fun other hOther => hEach other (List.mem_cons_of_mem _ hOther)⟩

theorem holds_of_child? {node child : Node} {name : String} (h : node.child? name = some child) :
    node.Holds child :=
  .inr (Node.contains_of_child? h)

/-- Only certain kinds of node hold the ordinary code in a pattern, and a
declaration is none of them. -/
theorem allApart_collect {keys : ChildKeys} {place : Place} {node : Node} {found : Pattern}
    (h : collect keys place node = .ok found) : node.AllApart found.evaluated := by
  fun_induction collect keys place node generalizing found with
  | case1 =>
      cases h
      exact fun _ h => absurd h List.not_mem_nil
  | case3 place node _ key _ hKey =>
      cases h
      exact allApart_computedName (by decide) hKey
  | case5 place node _ key value hValue hKey inner hInner ih =>
      cases h
      exact Node.allApart_append.2 ⟨allApart_computedName (by decide) hKey,
        (ih hInner).of_holds (holds_of_child? hValue)⟩
  | case9 place node _ left hLeft inner right hRight hInner ih =>
      cases h
      exact Node.allApart_append.2 ⟨(ih hInner).of_holds (holds_of_child? hLeft),
        allApart_child (by decide) hRight⟩
  | case11 place node _ argument hArgument ih =>
      exact (ih h).of_holds (holds_of_child? hArgument)
  | case14 place node _ key object hObject hKey =>
      cases h
      exact Node.allApart_append.2 ⟨allApart_computedName (by decide) hKey,
        allApart_child (by decide) hObject⟩
  | case17 place node _ callee hCallee inner hInner ih =>
      cases h
      exact Node.allApart_append.2 ⟨Node.allApart_children fun hBoth => absurd hBoth.2 (by decide),
        (ih hInner).of_holds (holds_of_child? hCallee)⟩
  | case18 place node _ ih =>
      refine allApart_concat h fun pattern hPattern => ?_
      obtain ⟨⟨child, hChild⟩, _, hCollect⟩ := List.mem_map.1 hPattern
      exact (ih child hChild hCollect).of_holds (.inr (ChildKeys.contains_of_mem_children hChild))
  | case2 | case4 | case6 | case7 | case8 | case10 | case12 | case13 | case15 | case16 => cases h

end Pattern

namespace Node

variable {node child : Node} {name : String} {keys : ChildKeys}

theorem allApart_nil : node.AllApart [] :=
  fun _ h => nomatch h

theorem allApart_child? (hName : name ≠ "declarations") : node.AllApart (node.child? name).toList :=
  fun _ hInner => allApart_child hName (Option.mem_toList.1 hInner)

theorem allApart_computed (hName : name ≠ "declarations") : node.AllApart (node.computed name) := by
  unfold computed
  split
  · exact allApart_child? hName
  · exact allApart_nil

/-- What is found at some of the nodes that a node holds. -/
theorem allApart_flatMap {nodes : List Node} {find : Node → List Node}
    (h : ∀ inner ∈ nodes, node.AllApart (find inner)) : node.AllApart (nodes.flatMap find) := by
  intro inner hInner
  obtain ⟨found, hFound, hMem⟩ := List.mem_flatMap.1 hInner
  exact h found hFound inner hMem

/-- The ordinary code in a pattern is never a declarator. -/
theorem allApart_evaluatedIn (keys : ChildKeys) (pattern : Node) :
    pattern.AllApart (Pattern.evaluatedIn keys pattern) := by
  unfold Pattern.evaluatedIn
  split
  · exact allApart_nil
  · next found hFound => exact Pattern.allApart_collect hFound

theorem allApart_evaluatedIn_child? :
    node.AllApart ((node.child? name).toList.flatMap (Pattern.evaluatedIn keys)) :=
  allApart_flatMap fun child hChild => (allApart_evaluatedIn keys child).of_holds
    (Pattern.holds_of_child? (Option.mem_toList.1 hChild))

/-- The code left of an assignment is that of a pattern, or the left side itself. -/
theorem allApart_assigned {left : Node} (h : node.child? "left" = some left) :
    node.AllApart (node.assigned keys left) := by
  unfold assigned
  split
  · exact fun inner hInner => List.mem_singleton.1 hInner ▸ allApart_child (by decide) h
  · split
    · exact (allApart_evaluatedIn keys left).of_holds (Pattern.holds_of_child? h)
    · exact allApart_nil

/-- A declaration visits the code in its declarators, but not the declarators. -/
theorem allApart_declared (keys : ChildKeys) (declaration : Node) :
    declaration.AllApart (declaration.declared keys) := by
  refine allApart_flatMap fun declarator hMem => AllApart.of_holds ?_
    (.inr (contains_of_mem_children hMem))
  exact allApart_append.2 ⟨allApart_evaluatedIn_child?, allApart_child? (by decide)⟩

theorem allApart_looped (keys : ChildKeys) (left : Node) : left.AllApart (left.looped keys) := by
  unfold looped
  split
  · exact allApart_declared keys left
  · exact allApart_evaluatedIn keys left

/-- In no other kind of node than a declaration a child counts as a declarator. -/
theorem allApart_descent (h : node.kind ≠ "VariableDeclaration") : node.AllApart (keys.children node) := by
  intro inner hInner
  obtain ⟨name, -, hMem⟩ := List.mem_flatMap.1 hInner
  exact allApart_children (fun hBoth => h hBoth.1) inner hMem

end Node

/-- No declarator of a node is visited at the node. -/
theorem allApart_visited (settings : Settings) (node : Node) : node.AllApart (visited settings node) := by
  have hDescent : ∀ {role : Role}, Role.ofKind node.kind = role → role ≠ .variableDeclaration →
      node.AllApart (settings.keys.children node) := fun hRole hOther =>
    Node.allApart_descent fun hKind => hOther (by rw [← hRole, hKind]; rfl)
  have hChild : ∀ {name : String}, name ≠ "declarations" → node.AllApart (node.child? name).toList :=
    Node.allApart_child?
  unfold visited
  cases hRole : Role.ofKind node.kind <;> dsimp only
  case identifier | silent | thisExpression | importDeclaration => exact Node.allApart_nil
  case program | staticBlock | forLoop | call | block | plain => exact hDescent hRole (by decide)
  case assignment =>
    exact Node.allApart_append.2 ⟨Node.allApart_flatMap fun left hLeft =>
      Node.allApart_assigned (Option.mem_toList.1 hLeft), hChild (by decide)⟩
  case update =>
    split
    · exact Node.allApart_nil
    · exact hDescent hRole (by decide)
  case member =>
    exact Node.allApart_append.2 ⟨hChild (by decide), Node.allApart_computed (by decide)⟩
  case property | field | method =>
    exact Node.allApart_append.2 ⟨Node.allApart_computed (by decide), hChild (by decide)⟩
  case labelled | exportSpecifier => exact hChild (by decide)
  case forEach =>
    split
    · refine Node.allApart_append.2 ⟨Node.allApart_append.2 ⟨Node.allApart_flatMap fun left hLeft => ?_,
        hChild (by decide)⟩, hChild (by decide)⟩
      exact (Node.allApart_looped settings.keys left).of_holds
        (Pattern.holds_of_child? (Option.mem_toList.1 hLeft))
    · exact Node.allApart_nil
  case classDefinition | withStatement =>
    exact Node.allApart_append.2 ⟨hChild (by decide), hChild (by decide)⟩
  case variableDeclaration => exact Node.allApart_declared settings.keys node
  case switchStatement =>
    exact Node.allApart_append.2 ⟨hChild (by decide),
      Node.allApart_children fun hBoth => absurd hBoth.2 (by decide)⟩
  case function =>
    refine Node.allApart_append.2 ⟨Node.allApart_flatMap fun parameter hMem => ?_, hChild (by decide)⟩
    exact (Node.allApart_evaluatedIn settings.keys parameter).of_holds
      (.inr (Node.contains_of_mem_children hMem))
  case catchClause =>
    exact Node.allApart_append.2 ⟨Node.allApart_evaluatedIn_child?, hChild (by decide)⟩
  case exportDeclaration =>
    split
    · exact Node.allApart_nil
    · split
      · next declaration hDeclaration =>
          exact fun inner hInner => List.mem_singleton.1 hInner ▸
            Node.allApart_child (by decide) hDeclaration
      · exact hDescent hRole (by decide)

variable {settings : Settings} {root node inner : Node} {past future : List Event}
  {inMethod : Bool}

theorem Node.Contains.location_ne (h : root.Contains node) : node.location ≠ root.location := by
  intro hEq
  obtain ⟨steps, hSteps, hBelow⟩ := h.location
  exact hSteps (List.self_eq_append_left.1 (hEq.symm.trans hBelow))

/-- A program visits what its fields hold. -/
theorem exists_of_visit_mem_program
    (h : .visit inMethod inner ∈ Walker.program { settings } root) :
    ∃ name, inner ∈ root.children name := by
  have hVisits := Task.mem_visits.2 ⟨inMethod, h⟩
  rw [Walker.visits_program] at hVisits
  obtain ⟨name, -, hMem⟩ := List.mem_flatMap.1 hVisits
  exact ⟨name, hMem⟩

/-- What is visited at a node is no declarator of it. -/
theorem holdsApart_of_visit_mem_tasks {walker : Walker} (h : .visit inMethod inner ∈ walker.tasks node) :
    node.HoldsApart inner := by
  have hVisits := Task.mem_visits.2 ⟨inMethod, h⟩
  rw [Walker.visits_tasks] at hVisits
  exact allApart_visited walker.settings node inner hVisits

/-- What is visited is inside the root. -/
theorem Arrives.contains (h : Arrives settings root past (.visit inMethod inner) future) :
    root.Contains inner := by
  generalize hTask : Task.visit inMethod inner = task at h
  induction h generalizing inMethod inner with
  | program split =>
      subst hTask
      obtain ⟨name, hMem⟩ :=
        exists_of_visit_mem_program (split ▸ List.mem_append_right _ List.mem_cons_self)
      exact Node.contains_of_mem_children hMem
  | inside _ split ih =>
      subst hTask
      exact (ih rfl).trans (Walker.contained_tasks.contains
        (split ▸ List.mem_append_right _ List.mem_cons_self))

/-- What is visited is no declarator of a declaration inside the root. -/
theorem Arrives.location_ne_declarator {declaration declarator : Node}
    (h : Arrives settings root past (.visit inMethod inner) future)
    (hDeclaration : root.Contains declaration) (hKind : declaration.kind = "VariableDeclaration")
    (hDeclarator : declarator ∈ declaration.children "declarations") :
    inner.location ≠ declarator.location := by
  intro hSame
  cases h with
  | program split =>
      obtain ⟨name, hMem⟩ :=
        exists_of_visit_mem_program (split ▸ List.mem_append_right _ List.mem_cons_self)
      exact hDeclaration.location_ne (Node.eq_of_same_location hMem hDeclarator hSame).1.symm
  | inside hVisit split =>
      obtain ⟨holder, name, hHolds, hMem, hNot⟩ := holdsApart_of_visit_mem_tasks
        (split ▸ List.mem_append_right _ List.mem_cons_self)
      obtain ⟨hLocation, hName⟩ := Node.eq_of_same_location hMem hDeclarator hSame
      have hHolder : root.Holds holder := Node.Holds.trans (.inr hVisit.contains) hHolds
      rw [hHolder.eq_of_location (.inr hDeclaration) hLocation] at hNot
      exact hNot ⟨hKind, hName⟩

end Scoping
