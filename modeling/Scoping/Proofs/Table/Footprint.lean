import Scoping.Proofs.Table.Closing

namespace Scoping.SymbolTable

/-- How often a reference stands in a list of a scope. -/
def occurrences (table : SymbolTable) (list : Scope → Array ReferenceId) (scope : ScopeId)
    (id : ReferenceId) : Nat :=
  (table.scopes[scope]?.map fun entry => (list entry).count id).getD 0

/-- How often a variable lists a reference. -/
def mentions (table : SymbolTable) (var : VariableId) (id : ReferenceId) : Nat :=
  (table.variables[var]?.map fun entry => entry.references.count id).getD 0

/-- Everywhere that a table holds a reference: the scopes that recorded it,
those that it waits in, those that it has passed through, and the variables
that list it. Each is named as often as it holds the reference. -/
structure Footprint (table : SymbolTable) (id : ReferenceId)
    (recorded waiting through : List ScopeId) (listed : List VariableId) : Prop where
  recorded : ∀ scope, table.occurrences Scope.references scope id = recorded.count scope
  waiting : ∀ scope, table.occurrences Scope.waiting scope id = waiting.count scope
  through : ∀ scope, table.occurrences Scope.through scope id = through.count scope
  listed : ∀ var, table.mentions var id = listed.count var

variable {table next : SymbolTable} {stack : List ScopeId} {scope : ScopeId}
  {id moved : ReferenceId} {list : Scope → Array ReferenceId} {change : Scope → Scope}
  {recorded waiting through : List ScopeId} {listed : List VariableId}

theorem occurrences_of_getElem? {entry : Scope} (h : table.scopes[scope]? = some entry) :
    table.occurrences list scope id = (list entry).count id := by
  simp [occurrences, h]

theorem occurrences_of_none (h : table.scopes[scope]? = none) :
    table.occurrences list scope id = 0 := by
  simp [occurrences, h]

theorem mentions_of_getElem? {var : VariableId} {entry : Variable}
    (h : table.variables[var]? = some entry) :
    table.mentions var id = entry.references.count id := by
  simp [mentions, h]

/-- What is moved elsewhere leaves a reference where it was. -/
theorem Spares.occurrences_eq (h : Spares moved table next)
    (hOld : ∀ before after : Scope, before.Spares moved after →
      (list after).count id = (list before).count id)
    (hNew : ∀ after : Scope, table.scopes[scope]? = none → next.scopes[scope]? = some after →
      (list after).count id = 0) :
    next.occurrences list scope id = table.occurrences list scope id := by
  cases hBefore : table.scopes[scope]? with
  | some before =>
      obtain ⟨after, hAfter, hSpares⟩ := h.scope scope before hBefore
      rw [occurrences_of_getElem? hBefore, occurrences_of_getElem? hAfter, hOld _ _ hSpares]
  | none =>
      rw [occurrences_of_none hBefore]
      cases hAfter : next.scopes[scope]? with
      | none => exact occurrences_of_none hAfter
      | some after => rw [occurrences_of_getElem? hAfter, hNew after hBefore hAfter]

theorem Footprint.of_spares (hFoot : Footprint table id recorded waiting through listed)
    (h : Spares moved table next) (hId : id ≠ moved) :
    Footprint next id recorded waiting through listed where
  recorded := fun scope => by
    rw [h.occurrences_eq (fun _ _ hSpares => hSpares.recorded id hId)
      fun after hNone hAfter => (h.newScope scope after hNone hAfter id hId).1]
    exact hFoot.recorded scope
  waiting := fun scope => by
    rw [h.occurrences_eq (fun _ _ hSpares => hSpares.waiting id hId)
      fun after hNone hAfter => (h.newScope scope after hNone hAfter id hId).2.1]
    exact hFoot.waiting scope
  through := fun scope => by
    rw [h.occurrences_eq (fun _ _ hSpares => hSpares.through id hId)
      fun after hNone hAfter => (h.newScope scope after hNone hAfter id hId).2.2]
    exact hFoot.through scope
  listed := fun var => by
    rw [← hFoot.listed var]
    cases hBefore : table.variables[var]? with
    | some before =>
        obtain ⟨after, hAfter, -, -, hCount, -⟩ := h.variable_ var before hBefore
        rw [mentions_of_getElem? hBefore, mentions_of_getElem? hAfter, hCount id hId]
    | none =>
        cases hAfter : next.variables[var]? with
        | none => simp [mentions, hBefore, hAfter]
        | some after =>
            rw [mentions_of_getElem? hAfter, h.newVariable var after hBefore hAfter id hId]
            simp [mentions, hBefore]

/-- A change of a scope that leaves a list of it alone. -/
theorem occurrences_modifyScope_of_eq (h : ∀ entry, list (change entry) = list entry)
    {scopes : List ScopeId}
    (hCount : ∀ position, table.occurrences list position id = scopes.count position)
    (position : ScopeId) :
    (table.modifyScope scope change).occurrences list position id = scopes.count position := by
  rw [← hCount position]
  simp only [occurrences, getElem?_modifyScope]
  split
  · cases table.scopes[position]? <;> simp [h]
  · rfl

/-- A change of a scope that adds a reference to a list of it. -/
theorem occurrences_modifyScope_of_push {entry : Scope}
    (hEntry : table.scopes[scope]? = some entry)
    (h : list (change entry) = (list entry).push id) {scopes : List ScopeId}
    (hCount : ∀ position, table.occurrences list position id = scopes.count position)
    (position : ScopeId) :
    (table.modifyScope scope change).occurrences list position id =
      (scope :: scopes).count position := by
  rw [List.count_cons, ← hCount position]
  simp only [occurrences, getElem?_modifyScope]
  by_cases hEq : scope = position
  · subst hEq
    simp [hEntry, h]
  · simp [hEq]

theorem Footprint.through_push (hFoot : Footprint table id recorded waiting through listed)
    {entry : Scope} (hEntry : table.scopes[scope]? = some entry) :
    Footprint (table.modifyScope scope fun entry =>
      { entry with through := entry.through.push id }) id recorded waiting (scope :: through)
      listed where
  recorded := by
    refine occurrences_modifyScope_of_eq ?_ hFoot.recorded
    exact fun _ => rfl
  waiting := by
    refine occurrences_modifyScope_of_eq ?_ hFoot.waiting
    exact fun _ => rfl
  through := by
    refine occurrences_modifyScope_of_push hEntry ?_ hFoot.through
    rfl
  listed := hFoot.listed

theorem Footprint.pending_push (hFoot : Footprint table id recorded waiting through listed)
    {entry : Scope} (hEntry : table.scopes[scope]? = some entry)
    (hOpen : entry.pending.isSome = true) :
    Footprint (table.modifyScope scope fun entry =>
      { entry with pending := entry.pending.map fun pending => pending.push id }) id recorded
      (scope :: waiting) through listed where
  recorded := by
    refine occurrences_modifyScope_of_eq ?_ hFoot.recorded
    exact fun _ => rfl
  waiting := by
    obtain ⟨pending, hPending⟩ := Option.isSome_iff_exists.1 hOpen
    refine occurrences_modifyScope_of_push hEntry ?_ hFoot.waiting
    simp [Scope.waiting, hPending]
  through := by
    refine occurrences_modifyScope_of_eq ?_ hFoot.through
    exact fun _ => rfl
  listed := hFoot.listed

/-- A scope that closes lets go of what waits in it. -/
theorem Footprint.closeHead (hFoot : Footprint table id recorded waiting through listed)
    (scope : ScopeId) :
    Footprint (table.closeHead scope) id recorded
      (waiting.filter (· ≠ scope)) through listed where
  recorded := by
    refine occurrences_modifyScope_of_eq ?_ hFoot.recorded
    exact fun _ => rfl
  waiting := fun position => by
    by_cases hEq : scope = position
    · subst hEq
      rw [List.count_eq_zero.2 (by simp)]
      cases hEntry : table.scopes[scope]? <;> simp [SymbolTable.closeHead, occurrences, hEntry, Scope.waiting]
    · rw [List.count_filter (by simpa using Ne.symm hEq), ← hFoot.waiting position]
      simp [SymbolTable.closeHead, occurrences, hEq]
  through := by
    refine occurrences_modifyScope_of_eq ?_ hFoot.through
    exact fun _ => rfl
  listed := hFoot.listed

theorem Footprint.modifyReference (hFoot : Footprint table id recorded waiting through listed)
    (moved : ReferenceId) (change : Reference → Reference) :
    Footprint (table.modifyReference moved change) id recorded waiting through listed :=
  ⟨hFoot.recorded, hFoot.waiting, hFoot.through, hFoot.listed⟩

/-- A reference that is recorded waits in its own scope. -/
theorem Footprint.record (hFoot : Footprint table id [] [] [] []) {entry : Scope}
    (hEntry : table.scopes[scope]? = some entry) (hOpen : entry.pending.isSome = true) :
    Footprint (table.modifyScope scope fun entry =>
      { entry with
        references := entry.references.push id
        pending := entry.pending.map fun pending => pending.push id }) id [scope] [scope] []
      [] where
  recorded := by
    refine occurrences_modifyScope_of_push hEntry ?_ hFoot.recorded
    rfl
  waiting := by
    obtain ⟨pending, hPending⟩ := Option.isSome_iff_exists.1 hOpen
    refine occurrences_modifyScope_of_push hEntry ?_ hFoot.waiting
    simp [Scope.waiting, hPending]
  through := by
    refine occurrences_modifyScope_of_eq ?_ hFoot.through
    exact fun _ => rfl
  listed := hFoot.listed

/-- A reference that is handed to the scope around waits there. Past the
outermost scope it waits nowhere. -/
theorem Footprint.delegate (hFoot : Footprint table id recorded waiting through listed)
    {entry : Scope} (hEntry : table.scopes[scope]? = some entry)
    (hOk : table.delegate scope id = .ok next) :
    Footprint next id recorded ((table.upper? scope).toList ++ waiting) (scope :: through)
      listed := by
  have hThrough := hFoot.through_push hEntry
  unfold SymbolTable.delegate at hOk
  split at hOk
  · next hNone =>
      cases hOk
      rw [hNone]
      exact hThrough
  · next upper hUpper =>
      split at hOk
      · cases hOk
      · next pending hPending =>
          cases hOk
          rw [hUpper]
          obtain ⟨around, hAround, hSome⟩ := Option.bind_eq_some_iff.1 hPending
          have hStill : (table.modifyScope scope fun entry =>
              { entry with through := entry.through.push id }).scopes[upper]? = some
                (if scope = upper then { around with through := around.through.push id }
                else around) := by
            rw [getElem?_modifyScope, hAround]
            split <;> rfl
          refine hThrough.pending_push hStill ?_
          split <;> simp [hSome]

/-- A reference that is abandoned passes through all the scopes around. -/
theorem Footprint.abandon (hFoot : Footprint table id recorded waiting through listed)
    (hScopes : ∀ position ∈ table.enclosing scope, position < table.scopes.size) :
    Footprint (table.abandon scope id) id recorded waiting
      ((table.enclosing scope).reverse ++ through) listed := by
  unfold SymbolTable.abandon
  generalize table.enclosing scope = scopes at hScopes
  induction scopes generalizing table through with
  | nil => exact hFoot
  | cons scope scopes ih =>
      have hEntry := Array.getElem?_eq_getElem (hScopes scope List.mem_cons_self)
      have hRest := ih (hFoot.through_push hEntry) fun position hMem => by
        simpa [SymbolTable.modifyScope] using hScopes position (List.mem_cons_of_mem _ hMem)
      simpa using hRest

/-- A reference that is resolved is listed by its variable. -/
theorem Footprint.resolve (hFoot : Footprint table id recorded waiting through listed)
    {var : VariableId} {entry : Variable} {reference : Reference}
    (hReference : table.references[id]? = some reference)
    (hEntry : table.variables[var]? = some entry) :
    Footprint (table.resolve scope id var) id recorded waiting through (var :: listed) := by
  simp only [SymbolTable.resolve, hReference, hEntry]
  refine ⟨hFoot.recorded, hFoot.waiting, hFoot.through, fun position => ?_⟩
  rw [List.count_cons, ← hFoot.listed position]
  by_cases hEq : var = position
  · subst hEq
    simp [mentions, SymbolTable.modifyReference, hEntry]
  · simp [mentions, SymbolTable.modifyReference, hEq]

end Scoping.SymbolTable
