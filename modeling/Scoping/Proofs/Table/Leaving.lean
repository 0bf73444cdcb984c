import Scoping.Proofs.Table.Globals

/-! What closing the global scope leaves behind: what waited in it, and the globals
that the assignments among that make. No scope has a global while it is open. -/

namespace Scoping

namespace SymbolTable

/-- The assignments to names that a scope does not declare, among what was left in
it: each is the identifier that is written, with the node that assigns to it. -/
def leftAssignments (table : SymbolTable) (scope : ScopeId) : List (Node × Node) :=
  ((table.scopes[scope]?.map Scope.implicitPending).getD #[]).toList.filterMap fun id => do
    let reference ← table.references[id]?
    let node ← reference.implicitGlobal
    if (table.lookup? scope reference.identifier.name).isSome then none
    else some (reference.identifier, node)

/-- No scope that is open has names that are made global. -/
def Pristine (table : SymbolTable) : Prop :=
  ∀ (position : ScopeId) (entry : Scope), table.scopes[position]? = some entry →
    entry.pending.isSome = true → entry.implicitVariables = #[]

/-- The globals of a scope are those that the assignments make which were left in
it: one for each name, in the order in which the names come first, and each is
defined by the assignments of its name. -/
structure MakesGlobals (table : SymbolTable) (scope : ScopeId) : Prop where
  names : table.namesIn Scope.implicitVariables scope =
    ((table.leftAssignments scope).map fun assignment => assignment.1.name).eraseDups.map some
  pairs : ∀ name, Naming.pairs (table.namingIn Scope.implicitVariables scope name) =
    (table.leftAssignments scope).filter fun assignment => assignment.1.name = name

variable {settings : Settings} {table next : SymbolTable} {stack : List ScopeId}
  {scope position : ScopeId} {event : Event} {entry before : Scope}

theorem mem_leftAssignments (hEntry : table.scopes[scope]? = some entry) {found : Node × Node} :
    found ∈ table.leftAssignments scope ↔ ∃ id ∈ entry.implicitPending, ∃ reference,
      table.references[id]? = some reference ∧ reference.implicitGlobal = some found.2 ∧
        reference.identifier = found.1 ∧ table.lookup? scope found.1.name = none := by
  obtain ⟨identifier, node⟩ := found
  simp only [leftAssignments, hEntry, Option.map_some, Option.getD_some, List.mem_filterMap,
    Array.mem_toList_iff, Option.bind_eq_bind, Option.bind_eq_some_iff]
  refine exists_congr fun id => and_congr_right fun _ => exists_congr fun reference =>
    and_congr_right fun _ => ?_
  constructor
  · rintro ⟨source, hSource, hFound⟩
    split at hFound
    · cases hFound
    · next hUnknown =>
        cases hFound
        exact ⟨hSource, rfl, by simpa using hUnknown⟩
  · rintro ⟨hSource, rfl, hUnknown⟩
    exact ⟨node, hSource, by simp [hUnknown]⟩

theorem exists_scope_modifyScope {change : Scope → Scope}
    (hChange : ∀ entry, Scope.HandsOn entry (change entry))
    (hBefore : table.scopes[position]? = some before) :
    ∃ after, (table.modifyScope scope change).scopes[position]? = some after ∧
      before.HandsOn after := by
  rw [getElem?_modifyScope, hBefore]
  split
  · exact ⟨change before, rfl, hChange before⟩
  · exact ⟨before, rfl, rfl⟩

theorem exists_scope_closeReference {closing : Closing} {id : ReferenceId}
    (hBefore : table.scopes[position]? = some before)
    (hOk : table.closeReference settings scope closing id = .ok next) :
    ∃ after, next.scopes[position]? = some after ∧ before.HandsOn after :=
  closeReference_induction (P := fun next => ∃ after, next.scopes[position]? = some after ∧
      before.HandsOn after)
    (fun table scope change hChange h => by
      obtain ⟨passed, hPassed, hFirst⟩ := h
      obtain ⟨after, hAfter, hLast⟩ := exists_scope_modifyScope hChange hPassed
      exact ⟨after, hAfter, hFirst.trans hLast⟩)
    (fun _ _ _ _ h => h) (fun _ _ _ _ h => h) ⟨before, hBefore, rfl⟩ hOk

theorem exists_scope_closeReferences {closing : Closing} (ids : List ReferenceId)
    (hBefore : table.scopes[position]? = some before)
    (hOk : ids.foldlM (closeReference settings scope closing) table = .ok next) :
    ∃ after, next.scopes[position]? = some after ∧ before.HandsOn after := by
  refine foldlM_induction (P := fun next => ∃ after, next.scopes[position]? = some after ∧
    before.HandsOn after) (fun middle next id h hOk => ?_) ids ⟨before, hBefore, rfl⟩ hOk
  obtain ⟨between, hBetween, hFirst⟩ := h
  obtain ⟨after, hAfter, hLater⟩ := exists_scope_closeReference hBetween hOk
  exact ⟨after, hAfter, hFirst.trans hLater⟩

/-- A scope that does not close keeps the names that are made global in it. -/
theorem implicitVariables_close (hEntry : table.scopes[scope]? = some entry)
    (hOk : table.close settings scope = .ok next) (hNe : position ≠ scope)
    (hBefore : table.scopes[position]? = some before) :
    ∃ after, next.scopes[position]? = some after ∧
      after.implicitVariables = before.implicitVariables := by
  rw [close_eq settings hEntry] at hOk
  have hImplicit : (if entry.kind = .global then table.defineImplicit scope else table).scopes[
      position]? = some before := by
    split
    · obtain ⟨after, hAfter, -, hSame⟩ :=
        exists_scope_defineGlobals hBefore (table.globalsToDefine scope)
      rw [defineImplicit_eq, getElem?_modifyScope, if_neg (Ne.symm hNe), hAfter, hSame hNe]
    · exact hBefore
  obtain ⟨after, hAfter, hHandsOn⟩ := exists_scope_closeReferences _
    (by rw [closeHead, getElem?_modifyScope, if_neg (Ne.symm hNe), hImplicit]) hOk
  exact ⟨after, hAfter, by rw [hHandsOn]⟩

/-- What closes stays as it was but for what is made global, so that it finds the
same names. -/
theorem lookup?_close (hNested : Nested table (scope :: stack))
    (hOk : table.close settings scope = .ok next) (position : ScopeId) (name : String) :
    next.lookup? position name = table.lookup? position name := by
  obtain ⟨found, hFound, hCloses⟩ := exists_close settings hNested
  cases hFound.symm.trans hOk
  unfold lookup?
  cases hBefore : table.scopes[position]? with
  | some before =>
      obtain ⟨after, hAfter, hSettles⟩ := hCloses.scope position before hBefore
      rw [hAfter, Option.bind_some, Option.bind_some, hSettles]
  | none =>
      have hSize := Array.getElem?_eq_none_iff.1 hBefore
      rw [Array.getElem?_eq_none (hCloses.scopesSize ▸ hSize)]

theorem getElem?_references_close (hNested : Nested table (scope :: stack))
    (hOk : table.close settings scope = .ok next) (id : ReferenceId) :
    next.references[id]?.map Reference.toUse = table.references[id]?.map Reference.toUse := by
  obtain ⟨found, hFound, hCloses⟩ := exists_close settings hNested
  cases hFound.symm.trans hOk
  cases hBefore : table.references[id]? with
  | some before =>
      obtain ⟨after, hAfter, hSettles⟩ := hCloses.reference id before hBefore
      rw [hAfter, Option.map_some, Option.map_some, hSettles]
  | none =>
      have hSize := Array.getElem?_eq_none_iff.1 hBefore
      rw [Array.getElem?_eq_none (hCloses.referencesSize ▸ hSize)]

theorem Stays.map_implicitVariables (h : Stays table next) (position : ScopeId) :
    next.scopes[position]?.map Scope.implicitVariables =
      table.scopes[position]?.map Scope.implicitVariables := by
  have hRoster := congrArg (Option.map fun roster => roster.2.2.1) (h.scopes position)
  rw [Option.map_map, Option.map_map] at hRoster
  exact hRoster

/-- If names and definitions stay, so do those of the implicit globals. -/
theorem Stays.implicit_eq (h : Stays table next) (hHomes : table.Homes Scope.implicitVariables)
    (position : ScopeId) :
    next.namesIn Scope.implicitVariables position =
        table.namesIn Scope.implicitVariables position ∧
      ∀ name, next.namingIn Scope.implicitVariables position name =
        table.namingIn Scope.implicitVariables position name := by
  have hVariable : ∀ (var : VariableId) (before : Variable), table.variables[var]? = some before →
      ∃ after, next.variables[var]? = some after ∧ after.name = before.name ∧
        after.naming = before.naming := by
    intro var before hBefore
    obtain ⟨after, hAfter, hSame⟩ := h.symm.exists_variable hBefore
    simp only [Variable.record, Prod.mk.injEq] at hSame
    obtain ⟨hName, -, hDefinitions, hIdentifiers⟩ := hSame
    refine ⟨after, hAfter, hName.symm, ?_⟩
    rw [Variable.naming, Variable.naming, hDefinitions, hIdentifiers]
  have hLists := h.map_implicitVariables position
  refine ⟨namesIn_congr hHomes hLists fun var before hBefore => ?_, fun name =>
    namingIn_congr hHomes hLists (fun var before _ hBefore => ?_) fun var before _ hBefore => ?_⟩
  · obtain ⟨after, hAfter, hName, -⟩ := hVariable var before hBefore
    exact ⟨after, hAfter, hName⟩
  · obtain ⟨after, hAfter, hName, -⟩ := hVariable var before hBefore
    exact ⟨after, hAfter, hName⟩
  · obtain ⟨after, hAfter, -, hNaming⟩ := hVariable var before hBefore
    exact ⟨after, hAfter, hNaming⟩

/-- A scope that keeps what waited in it shows later which assignments made globals. -/
theorem leftAssignments_close (hNested : Nested table (scope :: stack))
    (hEntry : table.scopes[scope]? = some entry) (hOk : table.close settings scope = .ok next)
    {after : Scope} (hAfter : next.scopes[scope]? = some after)
    (hPending : after.implicitPending = entry.waiting) :
    next.leftAssignments scope = (table.implicitGlobals scope).toList := by
  rw [leftAssignments, implicitGlobals, hAfter, hEntry, Option.map_some, Option.getD_some,
    hPending, Option.bind_some, Array.toList_filterMap]
  refine List.filterMap_congr fun id _ => ?_
  have hUse := getElem?_references_close hNested hOk id
  cases hBefore : table.references[id]? with
  | none =>
      rw [hBefore, Option.map_none, Option.map_eq_none_iff] at hUse
      rw [hUse]
      rfl
  | some before =>
      rw [hBefore, Option.map_some, Option.map_eq_some_iff] at hUse
      obtain ⟨later, hLater, hSame⟩ := hUse
      simp only [hLater, Option.bind_eq_bind, Option.bind_some, hSame, lookup?_close hNested hOk]

/-- The global scope keeps what waited in it, and its globals are those of the
assignments among that, if they are all to identifiers. -/
theorem makesGlobals_close (hNested : Nested table (scope :: stack))
    (hEntry : table.scopes[scope]? = some entry) (hKind : entry.kind = .global)
    (hNone : entry.implicitVariables = #[]) (hOk : table.close settings scope = .ok next)
    (hIdentified : ∀ assignment ∈ next.leftAssignments scope, assignment.1.isIdentifier = true) :
    MakesGlobals next scope ∧
      ∃ after, next.scopes[scope]? = some after ∧ after.implicitPending = entry.waiting := by
  have hClose := hOk
  rw [close_eq settings hEntry, if_pos hKind, defineImplicit_eq] at hClose
  -- The names are defined before any reference is dealt with, and what follows spares them.
  generalize hFound : table.globalsToDefine scope = found at hClose
  have hHomes := (nested_defineGlobals hNested List.mem_cons_self found).homes_implicit
  obtain ⟨hNames, hPairs⟩ := names_defineGlobals hNested List.mem_cons_self hEntry hNone found
  obtain ⟨defined, hDefined, hKept, -⟩ := exists_scope_defineGlobals hEntry found
  have hWaiting : ∃ after, next.scopes[scope]? = some after ∧ after.implicitPending = entry.waiting := by
    obtain ⟨after, hAfter, hHandsOn⟩ := exists_scope_closeReferences _
      (by rw [closeHead, getElem?_modifyScope, if_pos rfl, getElem?_modifyScope, if_pos rfl,
        hDefined]; rfl)
      hClose
    refine ⟨after, hAfter, ?_⟩
    rw [hHandsOn, hKept]
    rfl
  obtain ⟨after, hAfter, hPending⟩ := hWaiting
  have hLeft : next.leftAssignments scope = found := by
    rw [← hFound, globalsToDefine, ← leftAssignments_close hNested hEntry hOk hAfter hPending,
      List.filter_eq_self.2 hIdentified]
  have hStays : Stays (found.foldl (defineGlobal scope) table) next := by
    refine .trans (.trans (stays_modifyScope ?_) (stays_modifyScope ?_))
      (stays_closeReferences _ hClose)
    · exact fun _ => rfl
    · exact fun _ => rfl
  obtain ⟨hSameNames, hSameNaming⟩ := hStays.implicit_eq hHomes scope
  refine ⟨⟨?_, fun name => ?_⟩, after, hAfter, hPending⟩
  · rw [hLeft, ← hNames]
    exact hSameNames
  · rw [hLeft, ← hPairs]
    exact congrArg Naming.pairs (hSameNaming name)

theorem Stays.lookup?_eq (h : Stays table next) (position : ScopeId) (name : String) :
    next.lookup? position name = table.lookup? position name := by
  have hFound := congrArg (Option.bind · fun roster => roster.2.1.2.lookup name) (h.scopes position)
  rw [Option.bind_map, Option.bind_map] at hFound
  exact hFound

/-- A scope does not resolve a name that it does not declare. -/
theorem resolved_closeReference {closing : Closing} {id moved : ReferenceId} {before : Reference}
    (hBefore : table.references[id]? = some before)
    (hUnknown : table.lookup? scope before.identifier.name = none)
    (hOk : table.closeReference settings scope closing moved = .ok next) :
    ∃ after, next.references[id]? = some after ∧ after.identifier = before.identifier ∧
      after.resolved = before.resolved := by
  rcases closeReference_cases hOk with ⟨var, hVar, rfl⟩ | hPassed | hPassed | ⟨-, rfl⟩
  · have hNe : moved ≠ id := by
      rintro rfl
      obtain ⟨reference, hReference, hFound⟩ := exists_of_resolution? hVar
      cases hReference.symm.trans hBefore
      rw [hUnknown] at hFound
      cases hFound
    refine ⟨before, ?_, rfl, rfl⟩
    unfold resolve
    split
    · rw [getElem?_modifyReference, if_neg hNe]
      exact hBefore
    · exact hBefore
  · exact ⟨before, references_delegate hPassed ▸ hBefore, rfl, rfl⟩
  · rw [references_delegate hPassed, getElem?_modifyReference, hBefore]
    split
    · exact ⟨_, rfl, rfl, rfl⟩
    · exact ⟨before, rfl, rfl, rfl⟩
  · exact ⟨before, by rw [references_abandon, hBefore], rfl, rfl⟩

theorem resolved_closeReferences {closing : Closing} {id : ReferenceId} {before : Reference}
    (ids : List ReferenceId) (hBefore : table.references[id]? = some before)
    (hUnknown : table.lookup? scope before.identifier.name = none)
    (hOk : ids.foldlM (closeReference settings scope closing) table = .ok next) :
    ∃ after, next.references[id]? = some after ∧ after.resolved = before.resolved := by
  obtain ⟨after, hAfter, -, hResolved⟩ := foldlM_induction (P := fun next => ∃ after,
    next.references[id]? = some after ∧
      next.lookup? scope after.identifier.name = none ∧ after.resolved = before.resolved)
    (fun middle next moved h hOk => by
      obtain ⟨between, hBetween, hNone, hSame⟩ := h
      obtain ⟨after, hAfter, hName, hLater⟩ := resolved_closeReference hBetween hNone hOk
      exact ⟨after, hAfter, by rw [(stays_closeReference hOk).lookup?_eq, hName, hNone],
        hLater.trans hSame⟩)
    ids ⟨before, hBefore, hUnknown, rfl⟩ hOk
  exact ⟨after, hAfter, hResolved⟩

theorem resolved_close (hNested : Nested table (scope :: stack))
    (hOk : table.close settings scope = .ok next) {id : ReferenceId} {reference : Reference}
    (hFound : table.references[id]? = some reference)
    (hUnknown : table.lookup? scope reference.identifier.name = none) :
    ∃ after, next.references[id]? = some after ∧ after.resolved = reference.resolved := by
  obtain ⟨entry, middle, hFrom⟩ := exists_closesFrom hNested
  have hClose := hOk
  rw [hFrom.close] at hClose
  refine resolved_closeReferences _ ?_ ?_ hClose
  · rw [closeHead, references_modifyScope, hFrom.advances.references, hFound]
  · rw [← (stays_closeReferences _ hClose).lookup?_eq, lookup?_close hNested hOk, hUnknown]

theorem pristine_empty : Pristine {} := fun _ _ h => by simp at h

theorem Pristine.of_eq (h : table.Pristine) (hScopes : next.scopes = table.scopes) :
    next.Pristine :=
  fun position entry hEntry => h position entry (hScopes ▸ hEntry)

/-- A scope that closes is open no more, and no other one has names made global. -/
theorem Pristine.close (h : table.Pristine) (hNested : Nested table (scope :: stack))
    (hOk : table.close settings scope = .ok next) : next.Pristine := by
  intro position after hAfter hOpen
  obtain ⟨found, hFound, hCloses⟩ := exists_close settings hNested
  cases hFound.symm.trans hOk
  have hMem := (hCloses.nested.open_iff position after hAfter).1 hOpen
  obtain ⟨entry, hEntry, -⟩ := hNested.chain scope stack (List.suffix_refl _)
  have hNe : position ≠ scope := fun hEq =>
    (List.nodup_cons.1 hNested.nodup).1 (hEq ▸ hMem)
  obtain ⟨before, hBefore⟩ := hNested.exists_of_mem (List.mem_cons_of_mem scope hMem)
  obtain ⟨same, hSame, hImplicit⟩ := implicitVariables_close hEntry hOk hNe hBefore
  cases hSame.symm.trans hAfter
  rw [hImplicit]
  exact h position before hBefore
    ((hNested.open_iff position before hBefore).2 (List.mem_cons_of_mem scope hMem))

/-- A change that opens and closes nothing, and makes no name global. -/
theorem Pristine.of_same (h : table.Pristine) (hNested : Nested table table.stack)
    (hNext : Nested next next.stack) (hStack : next.stack = table.stack)
    (hScopes : ∀ (position : ScopeId) (before : Scope), table.scopes[position]? = some before →
      ∃ after, next.scopes[position]? = some after ∧
        after.implicitVariables = before.implicitVariables) : next.Pristine := by
  intro position after hAfter hOpen
  have hMem := (hNext.open_iff position after hAfter).1 hOpen
  rw [hStack] at hMem
  obtain ⟨before, hBefore⟩ := hNested.exists_of_mem hMem
  obtain ⟨same, hSame, hImplicit⟩ := hScopes position before hBefore
  cases hSame.symm.trans hAfter
  rw [hImplicit]
  exact h position before hBefore ((hNested.open_iff position before hBefore).2 hMem)

/-- Names are made global only when a scope closes. -/
theorem pristine_apply (h : table.Pristine) (hNested : Nested table table.stack)
    (hOk : table.apply settings event = .ok next) : next.Pristine := by
  have hNext := nested_apply hNested hOk
  cases event with
  | enter kind block inMethod =>
      intro position after hAfter hOpen
      -- A scope that opens has no implicit globals.
      rcases cases_of_enter hNested hOk hAfter with ⟨-, strict, hEq⟩ | ⟨before, hBefore, hEq⟩
      · rw [hEq]
        rfl
      · rw [hEq] at hOpen ⊢
        exact h position before hBefore hOpen
  | leave block =>
      obtain ⟨found, hFound, -, -, hPristine⟩ := exists_leaveAll settings (P := Pristine)
        (fun _ _ h _ => h.of_eq rfl) (fun _ _ _ _ h hNested hClose => h.close hNested hClose)
        hNested h block
      cases hFound.symm.trans hOk
      exact hPristine
  | define destination identifier definition =>
      have hStack := (advances_apply hNested (by trivial) hOk).stack
      obtain ⟨scope, -, hDefine⟩ := exists_of_bind_ok hOk
      cases hDefine
      refine h.of_same hNested hNext hStack fun position before hBefore => ?_
      obtain ⟨after, hAfter, hEq, -⟩ :=
        (names_define table _ identifier definition).scope position before hBefore
      exact ⟨after, hAfter, by rw [hEq]⟩
  | use use =>
      obtain ⟨scope, -, hRecord⟩ := exists_record_of_apply hOk
      refine h.of_same hNested hNext (spares_record hNested hRecord).2.2
        fun position before hBefore => ?_
      obtain ⟨after, hAfter, hEq⟩ := getElem?_record hRecord hBefore
      exact ⟨after, hAfter, by rw [hEq]⟩
  | fail failure => cases hOk
  | setStrict | directEval | thisExpression | bodyStart | endDeclaration =>
      have hStack := (advances_apply hNested (by trivial) hOk).stack
      refine h.of_same hNested hNext hStack fun position before hBefore => ?_
      have hLists := (still_apply (by trivial) hOk).1.lists position
      rw [hBefore, Option.map_some, Option.map_eq_some_iff] at hLists
      obtain ⟨after, hAfter, hSame⟩ := hLists
      exact ⟨after, hAfter, congrArg (fun lists => lists.2.1) hSame⟩

end SymbolTable

end Scoping
