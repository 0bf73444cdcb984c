import Scoping.Proofs.Placement.NodeScopes

/-! The scope around those that a node opens, found again from the node that it belongs to.
That node can have more scopes than this one, and a part of it can be outside of those. -/

namespace Scoping

variable {kinds : List ScopeKind} {first second : ScopeKind}

/-- Of two scopes that a visit opens for its node, the second is around all of the node. -/
theorem OwnKinds.outside?_eq (h : OwnKinds kinds) (hPair : [first, second].Sublist kinds) :
    second.outside? = none := by
  cases h with
  | nothing => cases hPair
  | one => exact absurd hPair.length_le (by simp)
  | namedFunction =>
      obtain ⟨rfl, rfl⟩ : first = .functionName ∧ second = .function := by
        simpa using hPair.eq_of_length rfl
      rfl

theorem NodeKinds.eq_fieldInitializer (h : NodeKinds kinds) (hPair : [first, second].Sublist kinds)
    (hOutside : second.outside? ≠ none) : first = .fieldInitializer := by
  cases h with
  | own hOwn => exact absurd (hOwn.outside?_eq hPair) hOutside
  | ofField hOwn =>
      cases hPair with
      | cons _ hRest => exact absurd (hOwn.outside?_eq hRest) hOutside
      | cons_cons => rfl

namespace SymbolTable

variable {options : Options} {settings : Settings} {table : SymbolTable} {tree : Tree} {node : Node}
  {outermost upper inner : ScopeId} {around scope : Scope}

/-- A node lies in the value of a field, in the part that is outside of the scope which the
value opens: what a class extends, for one. -/
def LiesOutside (table : SymbolTable) (around : Scope) (node : Node) : Prop :=
  around.kind = .fieldInitializer ∧ ∃ (inner : ScopeId) (scope : Scope), table.scopes[inner]? = some scope ∧
    scope.block.location = around.block.location ∧ ∃ field ∈ scope.kind.outside?,
      .field field :: around.block.location <:+ node.location

theorem sublist_of_lt {scopes : List ScopeId} (hOrder : scopes.Pairwise (· < ·)) (hUpper : upper ∈ scopes)
    (hInner : inner ∈ scopes) (hLt : upper < inner) : [upper, inner].Sublist scopes := by
  obtain ⟨before, after, rfl⟩ := List.append_of_mem hUpper
  have hBefore := (List.pairwise_append.1 hOrder).2.2
  rcases List.mem_append.1 hInner with hEarlier | hRest
  · exact absurd (hBefore inner hEarlier upper List.mem_cons_self) (Nat.lt_asymm hLt)
  · have hAfter : inner ∈ after := (List.mem_cons.1 hRest).resolve_left (Nat.ne_of_gt hLt)
    exact ((List.singleton_sublist.2 hAfter).cons_cons upper).trans (List.sublist_append_right before _)

/-- Of two scopes of a node the second has a part of the node outside of it only if the first
is that of a field. -/
theorem kind_eq_fieldInitializer (hOptions : Settings.ofOptions? options = .ok settings)
    (hOk : analyze settings tree = .ok table) (hKeys : settings.options.childVisitorKeys = none)
    (hNames : tree.root.NamesOnce) (hAround : table.scopes[upper]? = some around)
    (hScope : table.scopes[inner]? = some scope) (hBlock : scope.block.location = around.block.location)
    (hLt : upper < inner) (hOutside : scope.kind.outside? ≠ none) : around.kind = .fieldInitializer := by
  have hRegistered := registered_of_analyze_eq_ok hOk
  have hUpper : upper ∈ table.scopesOf around.block := hRegistered.mem_scopesOf.2 ⟨around, hAround, rfl⟩
  have hInner : inner ∈ table.scopesOf around.block :=
    hRegistered.mem_scopesOf.2 ⟨scope, hScope, hBlock⟩
  have hKinds : [around.kind, scope.kind].Sublist (table.kindsOf around.block) := by
    have hPair := (sublist_of_lt (hRegistered.pairwise_scopesOf around.block) hUpper hInner hLt).filterMap
      fun scope => table.scopes[scope]?.map Scope.kind
    simpa [kindsOf, hAround, hScope] using hPair
  by_cases hPlace : tree.root.location = around.block.location
  · have hRoot := kindsOf_root hOptions hOk
    have hMem := hKinds.subset (List.mem_cons_of_mem _ List.mem_cons_self)
    rw [kindsOf_eq hOk, hPlace, ← kindsOf_eq hOk] at hRoot
    generalize table.kindsOf around.block = kinds at hRoot hMem
    have hNone : ∀ kinds ∈ [[.global], [.global, .function], [.global, .esModule]], ∀ kind ∈ kinds,
        ScopeKind.outside? kind = none := by decide
    exact absurd (hNone kinds hRoot _ hMem) hOutside
  · exact (nodeKinds_kindsOf hOk hKeys hNames hPlace).eq_fieldInitializer hKinds hOutside

theorem Registered.release_eq (h : table.Registered)
    (hOuter : table.acquire node false = some outermost) (hUpper : table.upper? outermost = some upper)
    (hAround : table.scopes[upper]? = some around) (last : Bool) :
    table.release node last = table.acquire around.block last := by
  have hFirst := (h.acquire_outer node).symm.trans hOuter
  simp [release, hFirst, hUpper, hAround]

/-- The scopes around the first one of a node are around the node. -/
theorem mem_enclosing_upper_iff (hOk : analyze settings tree = .ok table)
    (hKeys : settings.options.childVisitorKeys = none) (hNames : tree.root.NamesOnce)
    (hOuter : table.acquire node false = some outermost) (hUpper : table.upper? outermost = some upper)
    (hScope : table.scopes[inner]? = some scope) :
    inner ∈ table.enclosing upper ↔
      scope.block.location ≠ node.location ∧ Surrounds scope.kind scope.block node.location := by
  have hFall := (spec_of_analyze_eq_ok hOk).2.1.upper_lt
  have hBefore : upper < outermost := hFall _ _ hUpper
  have hRegistered := registered_of_analyze_eq_ok hOk
  have hHead := (hRegistered.acquire_outer node).symm.trans hOuter
  obtain ⟨own, hOwn, hBlock⟩ := hRegistered.mem_scopesOf.1 (List.mem_of_mem_head? hHead)
  rw [← hBlock]
  constructor
  · intro hInner
    have hLt : inner < outermost := Nat.lt_of_le_of_lt (le_of_mem_enclosing hInner) hBefore
    have hMem := enclosing_subset_of_mem (upper_mem_enclosing hFall hUpper) hInner
    obtain ⟨-, same, hSame, hSurrounds⟩ :=
      (mem_enclosing_scope_iff hOk hKeys hNames hOwn).1 ⟨hMem, Nat.ne_of_lt hLt⟩
    cases hSame.symm.trans hScope
    refine ⟨fun hEq => Nat.not_le.2 hLt (hRegistered.le_of_acquire_outer hOuter ?_), hSurrounds⟩
    exact hRegistered.mem_scopesOf.2 ⟨scope, hScope, hEq.trans hBlock⟩
  · rintro ⟨hNe, hSurrounds⟩
    have hLt := lt_of_surrounds_scope hOk hKeys hNames hScope hOwn hSurrounds hNe
    obtain ⟨hMem, hOther⟩ :=
      (mem_enclosing_scope_iff hOk hKeys hNames hOwn).2 ⟨hLt, scope, hScope, hSurrounds⟩
    obtain ⟨next, hNext, hInner⟩ := (mem_enclosing_cases hMem).resolve_left hOther
    cases hUpper.symm.trans hNext
    exact hInner

/-- The scope around those of a node is found if all scopes of its own node are around the
node. -/
theorem release_eq_upper_iff_surrounds (hOk : analyze settings tree = .ok table)
    (hKeys : settings.options.childVisitorKeys = none) (hNames : tree.root.NamesOnce)
    (hOuter : table.acquire node false = some outermost) (hUpper : table.upper? outermost = some upper)
    (hAround : table.scopes[upper]? = some around) :
    table.release node true = some upper ↔
      ∀ (inner : ScopeId) (scope : Scope), table.scopes[inner]? = some scope →
        scope.block.location = around.block.location → Surrounds scope.kind scope.block node.location := by
  have hRegistered := registered_of_analyze_eq_ok hOk
  have hMem : upper ∈ table.scopesOf around.block := hRegistered.mem_scopesOf.2 ⟨around, hAround, rfl⟩
  have hApart : around.block.location ≠ node.location :=
    ((mem_enclosing_upper_iff hOk hKeys hNames hOuter hUpper hAround).1 mem_enclosing_self).1
  rw [hRegistered.release_eq hOuter hUpper hAround, hRegistered.acquire_inner_eq_some_iff,
    and_iff_right hMem]
  constructor
  · intro hLatest inner scope hScope hBlock
    have hInner : inner ∈ table.scopesOf around.block :=
      hRegistered.mem_scopesOf.2 ⟨scope, hScope, hBlock⟩
    exact ((mem_enclosing_upper_iff hOk hKeys hNames hOuter hUpper hScope).1
      (mem_enclosing_of_le hOk hKeys hNames hInner hMem (hLatest inner hInner))).2
  · intro hAll inner hInner
    obtain ⟨scope, hScope, hBlock⟩ := hRegistered.mem_scopesOf.1 hInner
    exact le_of_mem_enclosing ((mem_enclosing_upper_iff hOk hKeys hNames hOuter hUpper hScope).2
      ⟨hBlock ▸ hApart, hAll inner scope hScope hBlock⟩)

/-- From the node of the scope around it, a node gives back that scope, unless the node lies
outside of another scope that opens there. Its outermost scope it gives back in any case. -/
theorem release_eq_upper_iff (hOptions : Settings.ofOptions? options = .ok settings)
    (hOk : analyze settings tree = .ok table) (hKeys : settings.options.childVisitorKeys = none)
    (hNames : tree.root.NamesOnce) (hOuter : table.acquire node false = some outermost)
    (hUpper : table.upper? outermost = some upper) :
    ∃ around, table.scopes[upper]? = some around ∧
      (table.release node true = some upper ↔ ¬ LiesOutside table around node) ∧
      ∃ first, table.release node false = some first ∧ first ∈ table.scopesOf around.block ∧
        ∀ scope ∈ table.scopesOf around.block, first ∈ table.enclosing scope := by
  have hBefore : upper < outermost :=
    (spec_of_analyze_eq_ok hOk).2.1.upper_lt _ _ hUpper
  have hRegistered := registered_of_analyze_eq_ok hOk
  have hHead := (hRegistered.acquire_outer node).symm.trans hOuter
  obtain ⟨own, hOwn, -⟩ := hRegistered.mem_scopesOf.1 (List.mem_of_mem_head? hHead)
  obtain ⟨around, hAround⟩ : ∃ around, table.scopes[upper]? = some around :=
    ⟨_, Array.getElem?_eq_getElem (Nat.lt_trans hBefore (lt_of_getElem?_scopes hOwn))⟩
  have hMem : upper ∈ table.scopesOf around.block := hRegistered.mem_scopesOf.2 ⟨around, hAround, rfl⟩
  refine ⟨around, hAround, ?_, ?_⟩
  · rw [release_eq_upper_iff_surrounds hOk hKeys hNames hOuter hUpper hAround]
    constructor
    · rintro hAll ⟨-, inner, scope, hScope, hBlock, field, hField, hInside⟩
      exact (hAll inner scope hScope hBlock).inside field hField (hBlock ▸ hInside)
    · intro hNot inner scope hScope hBlock
      -- A later scope of the same node may leave the node out, an earlier one is around the
      -- upper scope.
      rcases Nat.lt_or_ge upper inner with hLater | hLe
      · have hBelow := ((mem_enclosing_upper_iff hOk hKeys hNames hOuter hUpper hAround).1
          mem_enclosing_self).2.below
        refine ⟨hBlock ▸ hBelow, fun field hField hInside => hNot ⟨?_, inner, scope, hScope, hBlock, field,
          hField, hBlock ▸ hInside⟩⟩
        exact kind_eq_fieldInitializer hOptions hOk hKeys hNames hAround hScope hBlock hLater
          (Option.ne_none_iff_exists'.2 ⟨field, hField⟩)
      · have hInner : inner ∈ table.scopesOf around.block :=
          hRegistered.mem_scopesOf.2 ⟨scope, hScope, hBlock⟩
        exact ((mem_enclosing_upper_iff hOk hKeys hNames hOuter hUpper hScope).1
          (mem_enclosing_of_le hOk hKeys hNames hInner hMem hLe)).2
  · obtain ⟨first, _, hFirst, hHead, -, -, hEnds⟩ :=
      exists_acquire hOk hKeys hNames (List.ne_nil_of_mem hMem)
    exact ⟨first, (hRegistered.release_eq hOuter hUpper hAround false).trans hFirst, List.mem_of_mem_head? hHead,
      fun scope hScope => (hEnds scope hScope).1⟩

/-- The program `class C { f = class extends (function () {}) {}; }`. -/
def functionInHeritage : Tree where
  root := {
    location := []
    kind := "Program"
    entries := [("type", .string "Program"), ("body", .array [
      .object [("type", .string "ClassDeclaration"), ("id", name "C"), ("body",
        .object [("type", .string "ClassBody"), ("body", .array [
          .object [("type", .string "PropertyDefinition"), ("key", name "f"), ("value",
            .object [("type", .string "ClassExpression"), ("superClass",
              .object [("type", .string "FunctionExpression"), ("params", .array []), ("body",
                .object [("type", .string "BlockStatement"), ("body", .array [])])]),
              ("body", .object [("type", .string "ClassBody"), ("body", .array [])])])]])])]])] }
where
  name (text : String) : Json := .object [("type", .string "Identifier"), ("name", .string text)]

/-- The scope of the function is in that of the field. The class that the field has as its
value opens its own after that, and they belong to the same node. -/
theorem exists_functionInHeritage :
    ∃ table scope, analyze ⟨{}, 9⟩ functionInHeritage = .ok table ∧ table.scopes[3]? = some scope ∧
      table.acquire scope.block false = some 3 ∧ table.upper? 3 = some 2 ∧
      table.release scope.block false = some 2 ∧ table.release scope.block true = some 5 := by
  have hAnalyze : (analyze ⟨{}, 9⟩ functionInHeritage).toOption.map (fun table =>
      table.scopes[3]?.map fun scope => (table.acquire scope.block false, table.upper? 3,
        table.release scope.block false, table.release scope.block true)) =
          some (some (some 3, some 2, some 2, some 5)) := by
    decide +kernel
  obtain ⟨table, hOk, hSeen⟩ := exists_of_map_toOption _ hAnalyze
  obtain ⟨scope, hScope, hSeen⟩ := Option.map_eq_some_iff.1 hSeen
  simp only [Prod.mk.injEq] at hSeen
  exact ⟨table, scope, hOk, hScope, hSeen⟩

theorem release_eq_upper_iff_functionInHeritage :
    ∃ table scope, analyze ⟨{}, 9⟩ functionInHeritage = .ok table ∧ table.scopes[3]? = some scope ∧
      table.acquire scope.block false = some 3 ∧ table.upper? 3 = some 2 ∧
      ∃ around, table.scopes[2]? = some around ∧
        (table.release scope.block true = some 2 ↔ ¬ LiesOutside table around scope.block) ∧
        ∃ first, table.release scope.block false = some first ∧ first ∈ table.scopesOf around.block ∧
          ∀ scope ∈ table.scopesOf around.block, first ∈ table.enclosing scope := by
  have hNames : functionInHeritage.root.NamesOnce := by
    have hValue : Json.NamesOnce (.object functionInHeritage.root.entries) := by
      simp [functionInHeritage, functionInHeritage.name]
    exact Node.namesOnce_of_ofJson? hValue rfl
  obtain ⟨table, scope, hOk, hScope, hOuter, hUpper, -⟩ := exists_functionInHeritage
  have hOptions : Settings.ofOptions? {} = .ok ⟨{}, 9⟩ := rfl
  exact ⟨table, scope, hOk, hScope, hOuter, hUpper,
    release_eq_upper_iff hOptions hOk rfl hNames hOuter hUpper⟩

/-- The function is in the scope 2, that of the field, and is said to be in 5, that of the class. -/
theorem release_misses_functionInHeritage :
    ∃ table, analyze ⟨{}, 9⟩ functionInHeritage = .ok table ∧
      ¬ ∀ node outermost upper, table.acquire node false = some outermost →
        table.upper? outermost = some upper → table.release node true = some upper := by
  obtain ⟨table, scope, hOk, -, hOuter, hUpper, -, hRelease⟩ := exists_functionInHeritage
  refine ⟨table, hOk, fun hAll => ?_⟩
  have hSame := hRelease.symm.trans (hAll scope.block 3 2 hOuter hUpper)
  exact absurd (Option.some.inj hSame) (by decide)

end SymbolTable

end Scoping
