import Mathlib.Data.List.Chain
import Scoping.Proofs.Nesting.OpenedKinds
import Scoping.Proofs.Options.Bands
import Scoping.Proofs.Placement.Strictness

/-! The scopes that one node has. Each is right inside the one before it, and their kinds
are those of one visit. -/

namespace Scoping

/-- What opens at an event, and for which node. -/
def Event.opening? : Event → Option (ScopeKind × Node)
  | .enter kind block _ => some (kind, block)
  | _ => none

def Scope.opening (scope : Scope) : ScopeKind × Node :=
  (scope.kind, scope.block)

variable {settings : Settings} {root : Node} {options : Options}

theorem filterMap_range {α : Type} (items : List α) :
    (List.range items.length).filterMap (items[·]?) = items := by
  induction items with
  | nil => rfl
  | cons item items ih =>
      rw [List.length_cons, List.range_succ_eq_map, List.filterMap_cons, List.filterMap_map]
      exact congrArg (item :: ·) ih

theorem countP_opens (events : List Event) :
    events.countP Event.opens = (events.filterMap Event.opening?).length := by
  rw [List.length_filterMap_eq_countP]
  exact List.countP_congr fun event _ => by cases event <;> rfl

theorem openedAt_eq_filterMap (place : Location) (events : List Event) :
    openedAt place events = (events.filterMap Event.opening?).filterMap fun (kind, block) =>
      if block.location = place then some kind else none := by
  rw [openedAt, List.filterMap_filterMap]
  exact List.filterMap_congr fun event _ => by cases event <;> rfl

/-- For its own node a program opens what it opens first. -/
theorem openedAt_programEvents_root :
    openedAt root.location (programEvents settings root) =
      openedAt root.location (programOpenings settings root) := by
  have hInside : ∀ flag inner, .visit flag inner ∈ Walker.descend { settings } root →
      ¬ inner.location <:+ root.location :=
    fun _ _ hInner => Node.Contains.not_below (Walker.neutral_descend _ hInner)
  rw [programEvents_eq_openings, openedAt_append, openedAt_append, Walker.openedAt_flatMap hInside,
    Walker.neutral_descend.kindsAt_eq]
  exact List.append_nil _

/-- A module is not the body of a function. -/
theorem Settings.isModule_of_ofOptions? (hOptions : Settings.ofOptions? options = .ok settings)
    (hReturn : settings.globalReturn = true) : settings.isModule = false := by
  obtain ⟨edition, -, hModule, rfl⟩ := exists_of_ofOptions?_eq_ok hOptions
  cases hType : options.sourceType <;> simp_all [globalReturn, isModule]

theorem openedAt_programOpenings (hOptions : Settings.ofOptions? options = .ok settings) (root : Node) :
    openedAt root.location (programOpenings settings root) ∈
      [[ScopeKind.global], [.global, .function], [.global, .esModule]] := by
  unfold programOpenings
  cases hReturn : settings.globalReturn with
  | true =>
      rw [Settings.isModule_of_ofOptions? hOptions hReturn]
      cases settings.knowsStrict && settings.options.impliedStrict <;> simp
  | false =>
      cases settings.hasBlockScopes && settings.isModule <;>
        cases settings.knowsStrict && settings.options.impliedStrict <;> simp

namespace SymbolTable

variable {table : SymbolTable} {tree : Tree} {node : Node} {outer middle inner : ScopeId}

/-- The kinds of the scopes that a node has, outermost first. -/
def kindsOf (table : SymbolTable) (node : Node) : List ScopeKind :=
  (table.scopesOf node).filterMap fun scope => table.scopes[scope]?.map Scope.kind

/-- The scopes of a table are those that its program opens, in that order. -/
theorem map_opening (hOk : analyze settings tree = .ok table) :
    table.scopes.toList.map Scope.opening =
      (programEvents settings tree.root).filterMap Event.opening? := by
  have hSize := (sizes_after (spec_of_analyze_eq_ok hOk).2.2.2).1
  refine map_toList_eq_filterMap (hSize.trans (countP_opens _)) fun position scope hScope => ?_
  obtain ⟨past, future, told, hArrives, rfl⟩ := exists_opening hOk hScope
  exact ⟨past, _, future, hArrives.events_eq, countP_opens past, rfl⟩

theorem Registered.kindsOf_eq_filterMap (h : table.Registered) (node : Node) :
    table.kindsOf node = (table.scopes.toList.map Scope.opening).filterMap fun (kind, block) =>
      if block.location = node.location then some kind else none := by
  have hAll : table.scopes.toList = (List.range table.scopes.size).filterMap (table.scopes[·]?) := by
    simpa using (filterMap_range table.scopes.toList).symm
  rw [hAll, List.filterMap_map, List.filterMap_filterMap, kindsOf, h.scopesOf_eq, List.filterMap_filter]
  refine List.filterMap_congr fun position _ => ?_
  cases table.scopes[position]? with
  | none => rfl
  | some scope =>
      by_cases hBlock : scope.block.location = node.location <;> simp [Scope.opening, Node.beq_iff, hBlock]

/-- The kinds of the scopes of a node are those that open for it in the program. -/
theorem kindsOf_eq (hOk : analyze settings tree = .ok table) (node : Node) :
    table.kindsOf node = openedAt node.location (programEvents settings tree.root) := by
  rw [(registered_of_analyze_eq_ok hOk).kindsOf_eq_filterMap, map_opening hOk, openedAt_eq_filterMap]

/-- The kinds of scope that a node inside a program can have. -/
theorem nodeKinds_kindsOf (hOk : analyze settings tree = .ok table)
    (hKeys : settings.options.childVisitorKeys = none) (hNames : tree.root.NamesOnce)
    (hPlace : tree.root.location ≠ node.location) : NodeKinds (table.kindsOf node) := by
  have hCustom := Settings.keys_eq_of_none hKeys
  have hVisits : ∀ flag inner, .visit flag inner ∈ Walker.program { settings } tree.root →
      (inner.location = node.location →
        OwnKinds (openedAt node.location (Task.events settings (.visit flag inner)))) ∧
        NodeKinds (openedAt node.location (Task.events settings (.visit flag inner))) := by
    intro flag inner hInner
    obtain ⟨before, after, hSplit⟩ := List.append_of_mem hInner
    have hArrives : Arrives settings tree.root _ (.visit flag inner) _ := .program hSplit
    exact nodeKinds_visit hCustom (hNames.of_holds (.inr hArrives.contains))
      (enterGlobal_not_mem_visit hOk hArrives)
  obtain ⟨rest, hProgram, hContained⟩ := Walker.exists_contained_program { settings } tree.root
  have hOrder : (Walker.program { settings } tree.root).Pairwise Task.Before :=
    (Walker.orderly_program hCustom hNames).order
  rw [hProgram] at hVisits hOrder
  rw [kindsOf_eq hOk, programEvents, hProgram, Walker.openedAt_emit_cons, Event.opensAt?, if_neg hPlace]
  exact hContained.nodeKinds hOrder.of_cons hPlace fun flag inner hInner =>
    hVisits flag inner (List.mem_cons_of_mem _ hInner)

/-- What is between two scopes of a node is a scope of that node. -/
theorem mem_scopesOf_of_between (hOk : analyze settings tree = .ok table)
    (hKeys : settings.options.childVisitorKeys = none) (hNames : tree.root.NamesOnce)
    (hOuter : outer ∈ table.scopesOf node) (hInner : inner ∈ table.scopesOf node)
    (hAround : outer ∈ table.enclosing middle) (hInside : middle ∈ table.enclosing inner) :
    middle ∈ table.scopesOf node := by
  by_cases hFirst : outer = middle
  · exact hFirst ▸ hOuter
  by_cases hLast : middle = inner
  · exact hLast ▸ hInner
  have hRegistered := registered_of_analyze_eq_ok hOk
  obtain ⟨last, hFound, hLastBlock⟩ := hRegistered.mem_scopesOf.1 hInner
  obtain ⟨-, scope, hScope, hAbove⟩ := (mem_enclosing_scope_iff hOk hKeys hNames hFound).1 ⟨hInside, hLast⟩
  obtain ⟨-, first, hFound, hBelow⟩ := (mem_enclosing_scope_iff hOk hKeys hNames hScope).1 ⟨hAround, hFirst⟩
  obtain ⟨same, hSame, hFirstBlock⟩ := hRegistered.mem_scopesOf.1 hOuter
  cases hSame.symm.trans hFound
  have hAbove := hAbove.below
  have hBelow := hBelow.below
  rw [hLastBlock] at hAbove
  rw [hFirstBlock] at hBelow
  exact hRegistered.mem_scopesOf.2 ⟨scope, hScope, hAbove.eq_of_length_le hBelow.length_le⟩

/-- Of the scopes of a node each is inside the earlier ones. -/
theorem mem_enclosing_of_le (hOk : analyze settings tree = .ok table)
    (hKeys : settings.options.childVisitorKeys = none) (hNames : tree.root.NamesOnce)
    (hOuter : outer ∈ table.scopesOf node) (hInner : inner ∈ table.scopesOf node) (hLe : outer ≤ inner) :
    outer ∈ table.enclosing inner := by
  rcases Nat.eq_or_lt_of_le hLe with rfl | hLt
  · exact mem_enclosing_self
  have hRegistered := registered_of_analyze_eq_ok hOk
  obtain ⟨first, hFirst, hFirstBlock⟩ := hRegistered.mem_scopesOf.1 hOuter
  obtain ⟨last, hLast, hLastBlock⟩ := hRegistered.mem_scopesOf.1 hInner
  refine ((mem_enclosing_scope_iff hOk hKeys hNames hLast).2 ⟨hLt, first, hFirst, ?_⟩).1
  rw [hLastBlock, ← hFirstBlock]
  exact surrounds_self _ _

/-- Each scope of a node is right inside the one before it. -/
theorem isChain_scopesOf (hOk : analyze settings tree = .ok table)
    (hKeys : settings.options.childVisitorKeys = none) (hNames : tree.root.NamesOnce) (node : Node) :
    (table.scopesOf node).IsChain fun outer inner => table.upper? inner = some outer := by
  rw [List.isChain_iff_forall_rel_of_append_cons_cons]
  intro outer inner before after hSplit
  have hOrder := (registered_of_analyze_eq_ok hOk).pairwise_scopesOf node
  have hOuter : outer ∈ table.scopesOf node := hSplit ▸ List.mem_append_right _ List.mem_cons_self
  have hInner : inner ∈ table.scopesOf node :=
    hSplit ▸ List.mem_append_right _ (List.mem_cons_of_mem _ List.mem_cons_self)
  rw [hSplit, List.pairwise_append] at hOrder
  obtain ⟨-, hRest, hCross⟩ := hOrder
  obtain ⟨hFirst, hRest⟩ := List.pairwise_cons.1 hRest
  have hLt := hFirst inner List.mem_cons_self
  rcases mem_enclosing_cases (mem_enclosing_of_le hOk hKeys hNames hOuter hInner (Nat.le_of_lt hLt)) with
    hSame | ⟨upper, hUpper, hAround⟩
  · exact absurd hSame (Nat.ne_of_lt hLt)
  -- The scope right around the inner one is of the node too, and not before the outer one.
  have hFall := (spec_of_analyze_eq_ok hOk).2.1.upper_lt
  have hMem := mem_scopesOf_of_between hOk hKeys hNames hOuter hInner hAround
    (upper_mem_enclosing hFall hUpper)
  rw [hSplit, List.mem_append, List.mem_cons, List.mem_cons] at hMem
  rcases hMem with hBefore | rfl | rfl | hAfter
  · exact absurd (le_of_mem_enclosing hAround)
      (Nat.not_le.2 (hCross upper hBefore outer List.mem_cons_self))
  · exact hUpper
  · exact absurd (hFall _ _ hUpper) (Nat.lt_irrefl _)
  · exact absurd (hFall _ _ hUpper) (Nat.lt_asymm ((List.pairwise_cons.1 hRest).1 upper hAfter))

theorem kindsOf_root (hOptions : Settings.ofOptions? options = .ok settings)
    (hOk : analyze settings tree = .ok table) :
    table.kindsOf tree.root ∈ [[.global], [.global, .function], [.global, .esModule]] := by
  rw [kindsOf_eq hOk, openedAt_programEvents_root]
  exact openedAt_programOpenings hOptions tree.root

/-- The first and the last scope of a node are around all of them, and inside all of them. -/
theorem exists_acquire (hOk : analyze settings tree = .ok table)
    (hKeys : settings.options.childVisitorKeys = none) (hNames : tree.root.NamesOnce)
    (hScopes : table.scopesOf node ≠ []) :
    ∃ outer inner, table.acquire node false = some outer ∧ (table.scopesOf node).head? = some outer ∧
      table.acquire node true = some inner ∧ (table.scopesOf node).getLast? = some inner ∧
      ∀ scope ∈ table.scopesOf node, outer ∈ table.enclosing scope ∧ scope ∈ table.enclosing inner := by
  have hRegistered := registered_of_analyze_eq_ok hOk
  obtain ⟨outer, hFirst⟩ : ∃ outer, (table.scopesOf node).head? = some outer :=
    ⟨_, List.head?_eq_some_head hScopes⟩
  obtain ⟨inner, hLast⟩ : ∃ inner, (table.scopesOf node).getLast? = some inner :=
    ⟨_, List.getLast?_eq_some_getLast hScopes⟩
  have hAcquireOuter := (hRegistered.acquire_outer node).trans hFirst
  have hAcquireInner := (hRegistered.acquire_inner node).trans hLast
  have hOuter : outer ∈ table.scopesOf node := List.mem_of_mem_head? hFirst
  obtain ⟨hInner, hLatest⟩ := hRegistered.acquire_inner_eq_some_iff.1 hAcquireInner
  exact ⟨outer, inner, hAcquireOuter, hFirst, hAcquireInner, hLast, fun scope hScope =>
    ⟨mem_enclosing_of_le hOk hKeys hNames hOuter hScope
        (hRegistered.le_of_acquire_outer hAcquireOuter hScope),
      mem_enclosing_of_le hOk hKeys hNames hScope hInner (hLatest scope hScope)⟩⟩

/-- How the scopes are nested that one node has, and of which kinds they are. -/
structure ScopesOfNodes (root : Node) (table : SymbolTable) : Prop where
  chain : ∀ node, (table.scopesOf node).IsChain fun outer inner => table.upper? inner = some outer
  ends : ∀ node, table.scopesOf node ≠ [] → ∃ outer inner,
    table.acquire node false = some outer ∧ (table.scopesOf node).head? = some outer ∧
    table.acquire node true = some inner ∧ (table.scopesOf node).getLast? = some inner ∧
    ∀ scope ∈ table.scopesOf node, outer ∈ table.enclosing scope ∧ scope ∈ table.enclosing inner
  inside : ∀ node, root.location ≠ node.location → NodeKinds (table.kindsOf node)
  program : table.kindsOf root ∈ [[.global], [.global, .function], [.global, .esModule]]

/-- Each scope of a node is right inside the one before it. A node inside the program has
what its visit opens, at most one scope but for a function expression with a name, and
before that the scope of the field whose value it may be. The program has its global
scope, and in it at most that of a function or of a module. -/
theorem scopes_nest_in_nodes (hOptions : Settings.ofOptions? options = .ok settings)
    (hOk : analyze settings tree = .ok table) (hKeys : settings.options.childVisitorKeys = none)
    (hNames : tree.root.NamesOnce) : ScopesOfNodes tree.root table where
  chain := isChain_scopesOf hOk hKeys hNames
  ends := fun _ => exists_acquire hOk hKeys hNames
  inside := fun _ => nodeKinds_kindsOf hOk hKeys hNames
  program := kindsOf_root hOptions hOk

/-- The program `class C { f = function g() {}; }`. -/
def namedFunctionInField : Tree where
  root := {
    location := []
    kind := "Program"
    entries := [("type", .string "Program"), ("body", .array [
      .object [("type", .string "ClassDeclaration"), ("id", name "C"), ("body",
        .object [("type", .string "ClassBody"), ("body", .array [
          .object [("type", .string "PropertyDefinition"), ("key", name "f"), ("value",
            .object [("type", .string "FunctionExpression"), ("id", name "g"), ("params", .array []),
              ("body", .object [("type", .string "BlockStatement"), ("body", .array [])])])]])])]])] }
where
  name (text : String) : Json := .object [("type", .string "Identifier"), ("name", .string text)]

/-- The function has the scope of the field, that of its name, and its own. -/
theorem scopes_nest_in_nodes_namedFunctionInField :
    ∃ table, analyze ⟨{}, 9⟩ namedFunctionInField = .ok table ∧
      table.scopes.map (fun scope => (scope.kind, table.scopesOf scope.block)) =
        #[(.global, [0]), (.classBody, [1]), (.fieldInitializer, [2, 3, 4]),
          (.functionName, [2, 3, 4]), (.function, [2, 3, 4]), (.block, [5])] ∧
      ScopesOfNodes namedFunctionInField.root table := by
  have hAnalyze : (analyze ⟨{}, 9⟩ namedFunctionInField).toOption.map (fun table =>
      table.scopes.map fun scope => (scope.kind, table.scopesOf scope.block)) =
        some #[(.global, [0]), (.classBody, [1]), (.fieldInitializer, [2, 3, 4]),
          (.functionName, [2, 3, 4]), (.function, [2, 3, 4]), (.block, [5])] := by
    decide +kernel
  have hNames : namedFunctionInField.root.NamesOnce := by
    have hValue : Json.NamesOnce (.object namedFunctionInField.root.entries) := by
      simp [namedFunctionInField, namedFunctionInField.name]
    exact Node.namesOnce_of_ofJson? hValue rfl
  obtain ⟨table, hOk, hScopes⟩ := exists_of_map_toOption _ hAnalyze
  have hOptions : Settings.ofOptions? {} = .ok ⟨{}, 9⟩ := rfl
  exact ⟨table, hOk, hScopes, scopes_nest_in_nodes hOptions hOk rfl hNames⟩

end SymbolTable

end Scoping
