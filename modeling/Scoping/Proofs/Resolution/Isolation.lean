import Scoping.Proofs.Options.Bands
import Scoping.Proofs.Placement.Strictness
import Scoping.Proofs.Resolution.Finished

/-! A program that is the body of a function, or a module, has a scope of its own
inside its global scope. That scope stays open as long as the program is visited,
and so nothing is declared or used in the global one. -/

namespace Scoping

variable {options : Options} {settings : Settings} {root : Node} {past future : List Event}
  {event : Event}

/-- A program has just one scope of its own inside its global scope. -/
def Settings.HasBody (settings : Settings) : Prop :=
  settings.globalReturn ≠ (settings.hasBlockScopes && settings.isModule)

/-- The kind of that scope. -/
def Settings.bodyKind (settings : Settings) : ScopeKind :=
  if settings.globalReturn then .function else .esModule

theorem Settings.hasBody_of_ofOptions? (hOptions : Settings.ofOptions? options = .ok settings)
    (hBody : options.globalReturn = true ∨ options.sourceType = .commonJS ∨
      options.sourceType = .esModule) : settings.HasBody := by
  obtain ⟨edition, -, hModule, rfl⟩ := exists_of_ofOptions?_eq_ok hOptions
  cases hType : options.sourceType <;> simp_all [HasBody, globalReturn, isModule, hasBlockScopes]

theorem Settings.HasBody.countP_openings (h : settings.HasBody) (root : Node) :
    (programOpenings settings root).countP Event.opens = 2 := by
  rw [countP_programOpenings]
  cases hReturn : settings.globalReturn <;>
    cases hModule : (settings.hasBlockScopes && settings.isModule) <;> simp_all [HasBody]

theorem Settings.HasBody.programTrail_eq (h : settings.HasBody) (root : Node)
    (asks asksFunction : Bool) :
    ∃ strict outer, outer.scope = 0 ∧ programTrail settings root asks asksFunction =
      [{ scope := 1, kind := settings.bodyKind, block := root, upper := some 0, holder := 1, strict },
        outer] := by
  unfold programTrail bodyKind
  cases hReturn : settings.globalReturn <;>
    cases hModule : (settings.hasBlockScopes && settings.isModule) <;> simp_all [HasBody]

namespace SymbolTable

variable {table : SymbolTable} {tree : Tree} {position : ScopeId} {scope : Scope}

/-- Where the walk of a program is visiting, the body of the program is around. -/
theorem exists_current_inside (hBody : settings.HasBody) (hOk : analyze settings tree = .ok table)
    (hArrives : Arrives settings tree.root past (.emit event) future)
    (hVisits : ¬ past ++ [event] <+: programOpenings settings tree.root) :
    ∃ head rest, Trail.after settings past = head :: rest ∧ 1 ∈ table.enclosing head.scope := by
  obtain ⟨opened, hOpened⟩ := exists_run_openings hOk
  obtain ⟨asks, asksFunction, -, -, hTrail⟩ := exists_programTrail_of_run hOpened
  obtain ⟨strict, outer, -, hFrames⟩ := hBody.programTrail_eq tree.root asks asksFunction
  rcases hArrives.openings_cases with hOpening | ⟨ahead, -, hSuffix⟩
  · exact absurd hOpening hVisits
  · rw [hTrail, hFrames] at hSuffix
    obtain ⟨around, hAround⟩ := hSuffix
    obtain ⟨head, rest, hHead⟩ := List.exists_cons_of_ne_nil
      (show Trail.after settings past ≠ [] by rw [← hAround]; simp)
    refine ⟨head, rest, hHead, ?_⟩
    rw [(chronicle_of_analyze_eq_ok hOk).surrounded _ (entry_mem_programLog hArrives) head
      (by rw [hHead]; rfl), ← hAround]
    simp

/-- Every scope but the global one is inside the body of the program. -/
theorem one_mem_enclosing (hBody : settings.HasBody) (hOk : analyze settings tree = .ok table)
    (hScope : table.scopes[position]? = some scope) (hPosition : position ≠ 0) :
    1 ∈ table.enclosing position := by
  have hOpenings := (chronicle_of_analyze_eq_ok hOk).openings
  obtain ⟨entry, hEntry, hOpens⟩ := hOpenings.known position scope hScope
  obtain ⟨same, hSame, -, -, hUpper⟩ := hOpenings.opened entry hEntry position _ _ hOpens
  cases hSame.symm.trans hScope
  obtain ⟨past, future, event, hArrives, rfl⟩ := mem_programLog.1 hEntry
  obtain ⟨hNumber, inMethod, rfl : event = _⟩ := hOpens
  by_cases hVisits : past ++ [.enter scope.kind scope.block inMethod] <+:
      programOpenings settings tree.root
  · have hCount := hVisits.sublist.countP_le (p := Event.opens)
    rw [hBody.countP_openings, List.countP_append, List.countP_cons_of_pos rfl, List.countP_nil,
      show past.countP Event.opens = position from hNumber] at hCount
    obtain rfl : position = 1 :=
      Nat.le_antisymm (Nat.le_of_succ_le_succ hCount) (Nat.pos_of_ne_zero hPosition)
    exact mem_enclosing_self
  · obtain ⟨head, rest, hTrail, hInside⟩ := exists_current_inside hBody hOk hArrives hVisits
    have hAround : table.upper? position = some head.scope := by
      rw [upper?_of_getElem? hScope, hUpper, Trail.current?, hTrail]
      rfl
    rw [enclosing_of_upper hAround ((spec_of_analyze_eq_ok hOk).2.1.upper_lt _ _ hAround)]
    exact List.mem_cons_of_mem _ hInside

/-- The global scope is opened as such, and as nothing else. -/
theorem kind_of_opens_zero (hOk : analyze settings tree = .ok table) {entry : Entry} (hEntry : entry ∈ programLog settings tree.root)
    {kind : ScopeKind} {block : Node} (hOpens : Entry.Opens entry 0 kind block) : kind = .global := by
  obtain ⟨global, hGlobal, hKind⟩ := (spec_of_analyze_eq_ok hOk).2.2.1.global
  obtain ⟨same, hSame, hSort, -⟩ :=
    (chronicle_of_analyze_eq_ok hOk).openings.opened entry hEntry 0 kind block hOpens
  cases hSame.symm.trans hGlobal
  exact hSort.symm.trans hKind

section Body

variable {global : Scope} (hBody : settings.HasBody) (hOk : analyze settings tree = .ok table)
include hBody hOk

/-- The body of the program is right inside its global scope. -/
theorem exists_body : ∃ body, table.scopes[(1 : ScopeId)]? = some body ∧
    body.kind = settings.bodyKind ∧ body.block = tree.root ∧ body.upper = some 0 := by
  obtain ⟨asks, asksFunction, -, -, hFrames⟩ := exists_programTrail hOk
  obtain ⟨strict, outer, -, hTrail⟩ := hBody.programTrail_eq tree.root asks asksFunction
  obtain ⟨body, hFound, hDescribes⟩ := hFrames _ (hTrail ▸ List.mem_cons_self)
  exact ⟨body, hFound, hDescribes.kind, hDescribes.block, hDescribes.upper⟩

theorem upper?_eq_zero_iff : table.upper? position = some 0 ↔ position = 1 := by
  constructor
  · intro hUpper
    obtain ⟨scope, hScope, -⟩ := upper?_eq_some.1 hUpper
    have hLt := (spec_of_analyze_eq_ok hOk).2.1.upper_lt _ _ hUpper
    have hInside := one_mem_enclosing hBody hOk hScope (Nat.ne_of_gt hLt)
    rw [enclosing_of_upper hUpper hLt, enclosing_zero] at hInside
    simpa [eq_comm] using hInside
  · rintro rfl
    obtain ⟨body, hFound, -, -, hUpper⟩ := exists_body hBody hOk
    rw [upper?_of_getElem? hFound, hUpper]

/-- The global scope has no child but the body of the program. -/
theorem children_global (hGlobal : table.scopes[(0 : ScopeId)]? = some global) :
    global.children = #[1] := by
  refine Array.toList_inj.1 (List.perm_singleton.1 (List.perm_iff_count.2 fun child => ?_))
  rw [Array.count_toList, parented_of_analyze_eq_ok hOk 0 global hGlobal,
    count_singleton_eq_ite]
  simp only [upper?_eq_zero_iff hBody hOk]

/-- What a scope inside the body of the program declares with `var` stays inside it. -/
theorem variableScope_ne_zero (hScope : table.scopes[position]? = some scope)
    (hPosition : position ≠ 0) : scope.variableScope ≠ 0 := by
  obtain ⟨-, hNested, hRooted, -⟩ := spec_of_analyze_eq_ok hOk
  induction position using Nat.strongRecOn generalizing scope with
  | ind position ih =>
      obtain ⟨hHolds, hPasses⟩ := (chronicle_of_analyze_eq_ok hOk).holding position scope hScope
      cases hKind : scope.kind.holdsVars with
      | true => exact hHolds hKind ▸ hPosition
      | false =>
          -- The body of the program would hold them itself.
          obtain ⟨upper, hUpper⟩ := Option.ne_none_iff_exists'.1
            fun hNone => hPosition (hRooted.upper position scope hScope hNone)
          have hAround := (upper?_of_getElem? hScope).trans hUpper
          have hInner : upper ≠ 0 := by
            rintro rfl
            obtain rfl := (upper?_eq_zero_iff hBody hOk).1 hAround
            obtain ⟨body, hFound, hBodyKind, -⟩ := exists_body hBody hOk
            cases hFound.symm.trans hScope
            rw [hBodyKind, Settings.bodyKind] at hKind
            split at hKind <;> cases hKind
          have hLt := hNested.upper_lt position upper hAround
          have hFound := Array.getElem?_eq_getElem (Nat.lt_trans hLt (lt_of_getElem?_scopes hScope))
          rw [hPasses hKind upper hUpper, variableScope_of_getElem? hFound]
          exact ih upper hLt hFound hInner

/-- Nothing that the program defines goes to the global scope. -/
theorem note_scope_ne_zero {entry : Entry} (hEntry : entry ∈ programLog settings tree.root)
    {note : Note} (hNote : entry.note? settings = some note) : note.scope ≠ 0 := by
  rcases Entry.note_cases hNote with ⟨destination, frame, hEvent, hFrame, hGoes⟩ |
    ⟨block, inMethod, hEvent, hNumber, -⟩
  · obtain ⟨past, future, event, hArrives, rfl⟩ := mem_programLog.1 hEntry
    obtain rfl : event = _ := hEvent
    obtain ⟨current, around, hCurrent, hInside⟩ :=
      exists_current_inside hBody hOk hArrives (not_prefix_openings nofun nofun)
    obtain ⟨head, ⟨rest, hTrail⟩, ⟨scope, hScope, -⟩, hCases⟩ := exists_goes hOk hArrives hFrame
    obtain rfl : current = head := (List.cons.inj (hCurrent.symm.trans hTrail)).1
    have hHead : current.scope ≠ 0 := by
      intro hZero
      rw [hZero, enclosing_zero] at hInside
      simp at hInside
    rw [hGoes]
    rcases hCases with ⟨rfl, -⟩ | ⟨hHolder, -⟩
    · exact hHead
    · rw [hHolder, variableScope_of_getElem? hScope]
      exact variableScope_ne_zero hBody hOk hScope hHead
  · intro hZero
    cases kind_of_opens_zero hOk hEntry ⟨hNumber.symm.trans hZero, inMethod, hEvent⟩

/-- The global scope has no name but those that are made global by assignments. -/
theorem variables_global (hGlobal : table.scopes[(0 : ScopeId)]? = some global) :
    global.variables = #[] := by
  have hChronicle := chronicle_of_analyze_eq_ok hOk
  refine Array.eq_empty_iff_forall_not_mem.2 fun var hVar => ?_
  obtain ⟨declared, hDeclared, -⟩ :=
    (spec_of_analyze_eq_ok hOk).2.1.listed 0 global hGlobal var (.inl hVar)
  have hFound := hChronicle.named.indexed.found 0 global hGlobal var hVar declared hDeclared
  have hNaming : (table.namingIn Scope.variables 0 declared.name).isSome = true := by
    simp [namingIn, hFound, hDeclared]
  rcases (hChronicle.noted.isSome 0 declared.name).1 hNaming with
    hNotes | ⟨-, entry, hEntry, hNumber, block, inMethod, hEvent, -⟩
  · obtain ⟨note, hNote⟩ := List.exists_mem_of_ne_nil _ hNotes
    obtain ⟨hMem, hZero⟩ := List.mem_filter.1 hNote
    obtain ⟨entry, hEntry, hMakes⟩ := List.mem_filterMap.1 hMem
    exact note_scope_ne_zero hBody hOk hEntry hMakes (by simpa using And.left (of_decide_eq_true hZero))
  · cases kind_of_opens_zero hOk hEntry ⟨hNumber, inMethod, hEvent⟩

/-- No name is used right in the global scope. -/
theorem references_global (hGlobal : table.scopes[(0 : ScopeId)]? = some global) :
    global.references = #[] := by
  have hRecordings := (chronicle_of_analyze_eq_ok hOk).recordings
  refine Array.eq_empty_iff_forall_not_mem.2 fun id hId => ?_
  obtain ⟨reference, hFound, hZero⟩ :=
    (accounted_of_analyze_eq_ok hOk).scope_of_mem (spec_of_analyze_eq_ok hOk).2.1 hGlobal hId
  obtain ⟨entry, hEntry, rfl, frame, use, hRecords⟩ := hRecordings.known id reference hFound
  obtain ⟨same, hSame, -, hScope⟩ := hRecordings.recorded entry hEntry frame use hRecords
  cases hSame.symm.trans hFound
  obtain ⟨past, future, event, hArrives, rfl⟩ := mem_programLog.1 hEntry
  obtain ⟨rfl : event = _, -, hCurrent⟩ := hRecords
  obtain ⟨head, rest, hTrail, hInside⟩ :=
    exists_current_inside hBody hOk hArrives (not_prefix_openings nofun nofun)
  obtain rfl : head = frame := Option.some.inj ((congrArg List.head? hTrail).symm.trans hCurrent)
  rw [← hScope, hZero, enclosing_zero] at hInside
  simp at hInside

/-- What defines a name of the global scope is an assignment. -/
theorem definitions_global {var : VariableId} {declared : Variable}
    (hDeclared : table.variables[var]? = some declared) (hZero : declared.scope = 0) :
    ∀ definition ∈ declared.definitions, definition.kind = .implicitGlobal := by
  have hChronicle := chronicle_of_analyze_eq_ok hOk
  obtain ⟨global, hGlobal, hOwns⟩ := hChronicle.named.owned var declared hDeclared
  rw [hZero] at hGlobal
  rw [variables_global hBody hOk hGlobal] at hOwns
  have hImplicit := hOwns.resolve_left (Array.not_mem_empty var)
  exact (hChronicle.assigned var ⟨0, global, hGlobal, hImplicit⟩).kind declared hDeclared

/-- No reference means a name of the global scope. -/
theorem exists_resolved_scope_ne_zero {id : ReferenceId} {reference : Reference} {var : VariableId}
    (hFound : table.references[id]? = some reference) (hResolved : reference.resolved = some var) :
    ∃ declared, table.variables[var]? = some declared ∧ declared.scope ≠ 0 := by
  cases settled_of_analyze_eq_ok hOk hFound with
  | lost passed hidden course stops unresolved foot => cases unresolved.symm.trans hResolved
  | resolved passed around scope other course binds resolved foot =>
      cases resolved.symm.trans hResolved
      obtain ⟨found, declared, -, hLookup, -⟩ := exists_of_verdict_binds binds
      obtain ⟨declared, hDeclared, hScope, -⟩ :=
        (spec_of_analyze_eq_ok hOk).2.1.exists_of_lookup? hLookup
      refine ⟨declared, hDeclared, ?_⟩
      rintro hZero
      obtain rfl : scope = 0 := hScope.symm.trans hZero
      obtain ⟨global, hGlobal, hFind⟩ := Option.bind_eq_some_iff.1 hLookup
      have hCatalogs := (spec_of_analyze_eq_ok hOk).2.1.catalogs 0 global hGlobal
      have hMem := hCatalogs.1.mem_of_lookup hFind
      rw [variables_global hBody hOk hGlobal] at hMem
      exact Array.not_mem_empty var hMem

/-- What the body of the program lets out passes through the global scope. -/
theorem mem_through_global {body : Scope} (hGlobal : table.scopes[(0 : ScopeId)]? = some global)
    (hInner : table.scopes[(1 : ScopeId)]? = some body) {id : ReferenceId}
    (hThrough : id ∈ body.through) : id ∈ global.through := by
  obtain ⟨-, hNested, hRooted, -⟩ := spec_of_analyze_eq_ok hOk
  have hCount := Array.count_pos_iff.2 hThrough
  cases hFound : table.references[id]? with
  | none =>
      rw [(accounted_of_analyze_eq_ok hOk).count_through hInner hFound] at hCount
      cases hCount
  | some reference =>
      have hHeld := (settled_of_analyze_eq_ok hOk hFound).heldOnce hNested.toPlaced
      cases hResolved : reference.resolved with
      | none =>
          rw [← Array.count_pos_iff, (hHeld.unresolved hResolved).1 0 global hGlobal,
            if_pos (hRooted.zero_mem_enclosing hNested.upper_lt hHeld.placed)]
          exact Nat.one_pos
      | some var =>
          -- It would mean a name of a scope outside the body, and only the global one is there.
          obtain ⟨declared, passed, around, hDeclared, -, hWay, hPassed, -⟩ :=
            hHeld.resolved var hResolved
          rw [hPassed 1 body hInner] at hCount
          split at hCount
          · next hMem =>
              have hFalls : (passed ++ declared.scope :: around).Pairwise (· > ·) :=
                hWay ▸ enclosing_sortedGT
              have hLt := (List.pairwise_append.1 hFalls).2.2 1 hMem declared.scope List.mem_cons_self
              obtain ⟨same, hSame, hNe⟩ := exists_resolved_scope_ne_zero hBody hOk hFound hResolved
              cases hSame.symm.trans hDeclared
              exact absurd (Nat.lt_one_iff.1 hLt) hNe
          · cases hCount

end Body

/-- Nothing of a program stands in its global scope: that has one child, and what the
program declares and uses is all inside it. -/
structure Isolated (table : SymbolTable) (global body : Scope) : Prop where
  names : global.variables = #[]
  uses : global.references = #[]
  child : global.children = #[1]
  inside : ∀ scope < table.scopes.size, scope ≠ 0 → 1 ∈ table.enclosing scope
  /-- Only an assignment to a name that nothing declares defines something global. -/
  assigned : ∀ (var : VariableId) (declared : Variable), table.variables[var]? = some declared →
    declared.scope = 0 → ∀ definition ∈ declared.definitions, definition.kind = .implicitGlobal
  resolved : ∀ (id : ReferenceId) (reference : Reference) (var : VariableId),
    table.references[id]? = some reference → reference.resolved = some var →
      ∃ declared, table.variables[var]? = some declared ∧ declared.scope ≠ 0
  through : ∀ id ∈ body.through, id ∈ global.through

/-- If a program can return, or is a module, its global scope is kept apart from all that
it declares and uses. What nothing in it declares still passes through that scope. -/
theorem global_isolated (hOptions : Settings.ofOptions? options = .ok settings)
    (hBody : options.globalReturn = true ∨ options.sourceType = .commonJS ∨
      options.sourceType = .esModule) (hOk : analyze settings tree = .ok table) :
    ∃ global body, table.globalScope = some 0 ∧ table.scopes[(0 : ScopeId)]? = some global ∧
      global.kind = .global ∧ table.scopes[(1 : ScopeId)]? = some body ∧
      body.kind = settings.bodyKind ∧ body.block = tree.root ∧ body.upper = some 0 ∧
      Isolated table global body := by
  have hBody := Settings.hasBody_of_ofOptions? hOptions hBody
  obtain ⟨-, -, hRooted, -⟩ := spec_of_analyze_eq_ok hOk
  obtain ⟨global, hGlobal, hKind⟩ := hRooted.global
  obtain ⟨body, hInner, hBodyKind, hBlock, hUpper⟩ := exists_body hBody hOk
  refine ⟨global, body, hRooted.globalScope, hGlobal, hKind, hInner, hBodyKind, hBlock, hUpper, ?_⟩
  exact {
    names := variables_global hBody hOk hGlobal
    uses := references_global hBody hOk hGlobal
    child := children_global hBody hOk hGlobal
    inside := fun scope hScope =>
      one_mem_enclosing hBody hOk (Array.getElem?_eq_getElem hScope)
    assigned := fun var declared => definitions_global hBody hOk
    resolved := fun id reference var => exists_resolved_scope_ne_zero hBody hOk
    through := fun id => mem_through_global hBody hOk hGlobal hInner }

/-- The program `{ var x } function f() { y = x }`. -/
def hoistedAndAssigned : Tree where
  root := {
    location := []
    kind := "Program"
    entries := [("type", .string "Program"), ("body", .array [
      block [.object [("type", .string "VariableDeclaration"), ("kind", .string "var"),
        ("declarations", .array [.object [("type", .string "VariableDeclarator"),
          ("id", identifier "x")]])]],
      .object [("type", .string "FunctionDeclaration"), ("id", identifier "f"),
        ("params", .array []), ("body", block [.object [("type", .string "ExpressionStatement"),
          ("expression", .object [("type", .string "AssignmentExpression"),
            ("operator", .string "="), ("left", identifier "y"), ("right", identifier "x")])]])]])] }
where
  identifier (name : String) : Json :=
    .object [("type", .string "Identifier"), ("name", .string name)]
  block (body : List Json) : Json :=
    .object [("type", .string "BlockStatement"), ("body", .array body)]

/-- The variable and the function are declared in the body of the program, and only the
name that is assigned to is made global. -/
theorem global_isolated_hoistedAndAssigned :
    ∃ table global body, Settings.ofOptions? { sourceType := .commonJS } =
        .ok ⟨{ sourceType := .commonJS }, 9⟩ ∧
      analyze ⟨{ sourceType := .commonJS }, 9⟩ hoistedAndAssigned = .ok table ∧
      table.variables.map (fun var => (var.name, var.scope)) =
        #[("arguments", 1), ("x", 1), ("f", 1), ("arguments", 3), ("y", 0)] ∧
      table.globalScope = some 0 ∧ table.scopes[(0 : ScopeId)]? = some global ∧
      global.kind = .global ∧ table.scopes[(1 : ScopeId)]? = some body ∧
      body.kind = .function ∧ body.block = hoistedAndAssigned.root ∧ body.upper = some 0 ∧
      Isolated table global body := by
  have hAnalyze : (analyze ⟨{ sourceType := .commonJS }, 9⟩ hoistedAndAssigned).toOption.map
      (fun table => table.variables.map fun var => (var.name, var.scope)) =
        some #[("arguments", 1), ("x", 1), ("f", 1), ("arguments", 3), ("y", 0)] := by
    decide +kernel
  obtain ⟨table, hOk, hNames⟩ := exists_of_map_toOption _ hAnalyze
  have hOptions : Settings.ofOptions? { sourceType := .commonJS } =
      .ok ⟨{ sourceType := .commonJS }, 9⟩ := rfl
  obtain ⟨global, body, hIsolated⟩ := global_isolated hOptions (.inr (.inl rfl)) hOk
  exact ⟨table, global, body, hOptions, hOk, hNames, hIsolated⟩

end SymbolTable

end Scoping
