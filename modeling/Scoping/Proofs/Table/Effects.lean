import Scoping.Proofs.Table.Events

namespace Scoping.SymbolTable

variable {settings : Settings} {table next : SymbolTable} {scope position : ScopeId}

/-- A change of a table that gives names to one scope, and is no other change of
a scope. -/
structure Names (scope : ScopeId) (table next : SymbolTable) : Prop where
  size : next.scopes.size = table.scopes.size
  scope : ∀ (position : ScopeId) (before : Scope), table.scopes[position]? = some before →
    ∃ after, next.scopes[position]? = some after ∧
      after = { before with «variables» := after.variables, names := after.names } ∧
      (position ≠ scope → after = before)

theorem Names.refl (scope : ScopeId) (table : SymbolTable) : Names scope table table :=
  ⟨rfl, fun _ before h => ⟨before, h, rfl, fun _ => rfl⟩⟩

theorem names_declare (table : SymbolTable) (scope : ScopeId) (name : String) :
    Names scope table (table.declare scope name).2 := by
  unfold declare
  split
  · exact .refl scope table
  · refine ⟨Array.size_modify, fun position before h => ?_⟩
    have hAdd : (table.addVariable scope name).2.scopes[position]? = some before := h
    rw [getElem?_modifyScope, hAdd]
    split
    · next hEq => exact ⟨_, rfl, rfl, fun hNe => absurd hEq.symm hNe⟩
    · exact ⟨before, rfl, rfl, fun _ => rfl⟩

theorem names_define (table : SymbolTable) (scope : ScopeId) (identifier : Node)
    (definition : Definition) : Names scope table (table.define scope identifier definition) := by
  unfold define
  split
  · exact ⟨(names_declare table scope identifier.name).size,
      (names_declare table scope identifier.name).scope⟩
  · exact .refl scope table

theorem names_declareOwn {kind : ScopeKind} {block : Node}
    (hOk : table.declareOwn scope kind block = .ok next) : Names scope table next := by
  unfold declareOwn at hOk
  split at hOk
  · split at hOk
    · cases hOk
      exact .refl scope table
    · cases hOk
      exact names_declare table scope "arguments"
  · obtain ⟨name, -, hNext⟩ := exists_of_bind_ok hOk
    cases hNext
    exact names_define table scope _ _
  · cases hOk
    exact .refl scope table

/-- What an index has for a location is what it had, changed if it is the one. -/
theorem lookup_changeAt {α : Type} (change : Array α → Array α) (location place : Location)
    (index : List (Location × Array α)) :
    ((changeAt location change index).lookup place).getD #[] =
      if place = location then change ((index.lookup location).getD #[])
      else (index.lookup place).getD #[] := by
  induction index with
  | nil =>
      by_cases hEq : place = location
      · simp [changeAt, hEq]
      · have hNe : (place == location) = false := by simpa using hEq
        simp [changeAt, List.lookup_cons, hNe, hEq]
  | cons entry rest ih =>
      obtain ⟨here, items⟩ := entry
      rw [changeAt]
      by_cases hHere : here = location
      · subst hHere
        rw [if_pos rfl]
        by_cases hEq : place = here
        · simp [hEq]
        · have hNe : (place == here) = false := by simpa using hEq
          simp [List.lookup_cons, hNe, hEq]
      · rw [if_neg hHere]
        by_cases hEq : place = here
        · subst hEq
          simp [hHere]
        · have hNe : (place == here) = false := by simpa using hEq
          have hOther : (location == here) = false := by simpa using Ne.symm hHere
          rw [List.lookup_cons, List.lookup_cons, List.lookup_cons, hNe, hOther]
          exact ih

theorem scopes_endDeclaration (table : SymbolTable) (node : Node) :
    (table.endDeclaration node).scopes = table.scopes :=
  endDeclaration_induction (P := fun next => next.scopes = table.scopes) (fun _ _ h => h) rfl node

/-- One change of several scopes, each of which is met once. -/
theorem getElem?_foldl_modifyScope {change : Scope → Scope} (scopes : List ScopeId)
    (hNodup : scopes.Nodup) (position : ScopeId) :
    (scopes.foldl (fun table scope => table.modifyScope scope change) table).scopes[position]? =
      if position ∈ scopes then table.scopes[position]?.map change else table.scopes[position]? := by
  induction scopes generalizing table with
  | nil => simp
  | cons scope scopes ih =>
      obtain ⟨hScope, hRest⟩ := List.nodup_cons.1 hNodup
      rw [List.foldl_cons, ih hRest, getElem?_modifyScope]
      by_cases hEq : scope = position
      · subst hEq
        simp [hScope]
      · simp [hEq, Ne.symm hEq]

/-- A direct eval makes a scope and all the scopes around it dynamic. -/
theorem getElem?_detectEval (table : SymbolTable) (scope position : ScopeId) :
    (table.detectEval scope).scopes[position]? = table.scopes[position]?.map fun entry =>
      { entry with
        directEval := entry.directEval || decide (scope = position)
        dynamic := entry.dynamic || decide (position ∈ table.enclosing scope) } := by
  have hSame : (table.modifyScope scope fun entry => { entry with directEval := true }).enclosing
      scope = table.enclosing scope := by
    refine enclosing_modifyScope ?_ scope
    exact fun _ => rfl
  unfold detectEval
  dsimp only
  rw [hSame, getElem?_foldl_modifyScope _ enclosing_nodup, getElem?_modifyScope]
  cases table.scopes[position]? with
  | none => simp
  | some entry =>
      by_cases hMem : position ∈ table.enclosing scope
      · rw [if_pos hMem]
        by_cases hEq : scope = position
        · simp [hEq, hEq ▸ hMem]
        · simp [hEq, hMem]
      · have hNe : scope ≠ position := fun hEq => hMem (hEq ▸ mem_enclosing_self)
        simp [hNe, hMem]

theorem foldl_modifyScope_eq (change : Scope → Scope) (scopes : List ScopeId)
    (table : SymbolTable) :
    scopes.foldl (fun table scope => table.modifyScope scope change) table =
      { table with scopes :=
        (scopes.foldl (fun table scope => table.modifyScope scope change) table).scopes } := by
  induction scopes generalizing table with
  | nil => rfl
  | cons scope scopes ih =>
      rw [List.foldl_cons, ih]
      rfl

/-- A direct eval changes scopes only. -/
theorem detectEval_eq (table : SymbolTable) (scope : ScopeId) :
    table.detectEval scope = { table with scopes := (table.detectEval scope).scopes } := by
  unfold detectEval
  dsimp only
  rw [foldl_modifyScope_eq]
  rfl

theorem getElem?_addScope (h : Nested table table.stack) (kind : ScopeKind) (block : Node)
    (strict : Bool) (position : ScopeId) :
    (table.addScope kind block strict).2.scopes[position]? =
      if position = table.scopes.size then some (table.freshScope kind block strict)
      else table.scopes[position]?.map fun before => { before with
        children := if table.stack.head? = some position then
            before.children.push table.scopes.size
          else before.children } := by
  rw [addScope_snd]
  by_cases hNew : position = table.scopes.size
  · subst hNew
    rw [if_pos rfl]
    split
    · next upper hHead =>
        have hLt := h.lt_of_mem (List.mem_of_mem_head? hHead)
        rw [getElem?_modifyScope, if_neg (Nat.ne_of_lt hLt), getElem?_pushScope, if_pos rfl]
    · rw [getElem?_pushScope, if_pos rfl]
  · rw [if_neg hNew]
    split
    · next upper hHead =>
        rw [getElem?_modifyScope, getElem?_pushScope, if_neg hNew, hHead]
        by_cases hEq : upper = position
        · simp [hEq]
        · cases table.scopes[position]? <;> simp [hEq]
    · next hHead =>
        rw [getElem?_pushScope, if_neg hNew, hHead]
        cases table.scopes[position]? <;> simp

theorem size_addScope (table : SymbolTable) (kind : ScopeKind) (block : Node) (strict : Bool) :
    (table.addScope kind block strict).2.scopes.size = table.scopes.size + 1 := by
  rw [addScope_snd]
  split <;> simp [modifyScope, pushScope]

/-- What opening a scope does to the scopes: there is one more, and the current
one has it as a child. -/
theorem scopes_enter (h : Nested table table.stack) {kind : ScopeKind} {block : Node}
    {inMethod : Bool} (hOk : table.enter settings kind block inMethod = .ok next) :
    next.scopes.size = table.scopes.size + 1 ∧
      (∃ strict, table.opensStrict settings kind block inMethod = .ok strict ∧
        ∃ after, next.scopes[table.scopes.size]? = some after ∧
          after = { table.freshScope kind block strict with
            «variables» := after.variables, names := after.names }) ∧
      ∀ (position : ScopeId) (before : Scope), table.scopes[position]? = some before →
        next.scopes[position]? = some { before with
          children := if table.stack.head? = some position then
              before.children.push table.scopes.size
            else before.children } := by
  obtain ⟨strict, own, hStrict, hOwn, -, rfl⟩ := enter_eq_ok hOk
  have hNames := names_declareOwn hOwn
  refine ⟨hNames.size.trans (size_addScope table kind block strict), ⟨strict, hStrict, ?_⟩, ?_⟩
  · have hFresh := getElem?_addScope h kind block strict table.scopes.size
    rw [if_pos rfl] at hFresh
    obtain ⟨after, hAfter, hEq, -⟩ := hNames.scope _ _ hFresh
    exact ⟨after, hAfter, hEq⟩
  · intro position before hBefore
    have hNe : position ≠ table.scopes.size := Nat.ne_of_lt (lt_of_getElem?_scopes hBefore)
    have hOld := getElem?_addScope h kind block strict position
    rw [if_neg hNe, hBefore, Option.map_some] at hOld
    obtain ⟨after, hAfter, -, hSame⟩ := hNames.scope _ _ hOld
    rw [← hSame hNe]
    exact hAfter

/-- Once a scope has opened, each scope is that one or was there before. -/
theorem cases_of_enter (h : Nested table table.stack) {kind : ScopeKind} {block : Node}
    {inMethod : Bool} (hOk : table.enter settings kind block inMethod = .ok next) {after : Scope}
    (hAfter : next.scopes[position]? = some after) :
    (position = table.scopes.size ∧ ∃ strict,
      after = { table.freshScope kind block strict with
        «variables» := after.variables, names := after.names }) ∨
    ∃ before, table.scopes[position]? = some before ∧
      after = { before with
        children := if table.stack.head? = some position then
            before.children.push table.scopes.size
          else before.children } := by
  obtain ⟨hSize, ⟨strict, -, fresh, hFresh, hEq⟩, hOld⟩ := scopes_enter h hOk
  rcases Nat.lt_succ_iff_lt_or_eq.1 (hSize ▸ lt_of_getElem?_scopes hAfter) with hLt | rfl
  · have hBefore := Array.getElem?_eq_getElem hLt
    exact .inr ⟨_, hBefore, Option.some.inj (hAfter.symm.trans (hOld position _ hBefore))⟩
  · cases hFresh.symm.trans hAfter
    exact .inl ⟨rfl, strict, hEq⟩

theorem getElem?_record {use : Use} (hOk : table.record scope use = .ok next) {before : Scope}
    (hBefore : table.scopes[position]? = some before) :
    ∃ after, next.scopes[position]? = some after ∧
      after = { before with references := after.references, pending := after.pending } := by
  rcases record_eq_ok hOk with ⟨-, rfl⟩ | ⟨-, -, rfl⟩
  · exact ⟨before, hBefore, rfl⟩
  · have hPush : (SymbolTable.scopes { table with
        references := table.references.push { use with scope } })[position]? = some before := hBefore
    rw [getElem?_modifyScope, hPush]
    split
    · exact ⟨_, rfl, rfl⟩
    · exact ⟨before, rfl, rfl⟩

end Scoping.SymbolTable
