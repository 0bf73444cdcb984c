import Scoping.Proofs.Table.Ledger
import Scoping.Proofs.Walk.Balance

/-! A use before the end of the declaration of its name is judged as the scope of
the name closes. What comes later does not change the verdict: the scope takes no
more definitions, and a declaration that ends then ends after the use. -/

namespace Scoping.SymbolTable

variable {settings : Settings} {table next : SymbolTable} {stack : List ScopeId}
  {scope : ScopeId} {id moved : ReferenceId} {reference : Reference} {event : Event}

/-- A reference is in the dead zone of its variable as far as the table can tell.
Of one that means nothing this is never said. -/
structure Judged (table : SymbolTable) (id : ReferenceId) (reference : Reference) : Prop where
  placed : ∃ home, table.scopes[reference.scope]? = some home
  unresolved : reference.resolved = none → reference.inDeadZone = false
  resolved : ∀ var, reference.resolved = some var → ∃ declared owner,
    table.variables[var]? = some declared ∧ table.scopes[declared.scope]? = some owner ∧
      owner.pending = none ∧
        reference.inDeadZone = table.isInDeadZone declared.scope id reference declared

/-- Every reference of a table is judged right. -/
def AllJudged (table : SymbolTable) : Prop :=
  ∀ (id : ReferenceId) (reference : Reference), table.references[id]? = some reference →
    Judged table id reference

theorem allJudged_empty : AllJudged {} :=
  fun _ _ h => by simp at h

/-- What matters for the dead zone: where the scopes belong, what defines the
variable, and whether its declaration had ended before. -/
theorem isInDeadZone_congr {later : Reference} {before after : Variable}
    (hInit : later.init = reference.init) (hScope : later.scope = reference.scope)
    (hHome : next.variableScope reference.scope = table.variableScope reference.scope)
    (hOwner : next.variableScope scope = table.variableScope scope)
    (hDefinitions : after.definitions = before.definitions)
    (hEnded : (after.initializedAt.all fun count => id < count) =
      before.initializedAt.all fun count => id < count) :
    next.isInDeadZone scope id later after = table.isInDeadZone scope id reference before := by
  simp only [isInDeadZone, sameFunction, Variable.hasDeadZone, hInit, hScope, hHome, hOwner,
    hDefinitions, hEnded]

theorem variableScope_of_spares (h : Spares moved table next)
    (hScope : ∃ entry, table.scopes[scope]? = some entry) :
    next.variableScope scope = table.variableScope scope := by
  obtain ⟨before, hBefore⟩ := hScope
  obtain ⟨after, hAfter, hSpares⟩ := h.scope scope before hBefore
  rw [variableScope_of_getElem? hAfter, variableScope_of_getElem? hBefore, hSpares.variableScope]

/-- A verdict stays right while declarations end after the reference. -/
theorem Judged.of_spares (h : Judged table id reference) (hSpares : Spares moved table next)
    (hEnded : ∀ var, next.endedAt var = table.endedAt var ∨
      (table.endedAt var = none ∧ ∃ count, next.endedAt var = some count ∧ id < count)) :
    Judged next id reference := by
  obtain ⟨home, hHome⟩ := h.placed
  obtain ⟨later, hLater, -⟩ := hSpares.scope _ home hHome
  refine ⟨⟨later, hLater⟩, h.unresolved, fun var hVar => ?_⟩
  obtain ⟨before, owner, hBefore, hOwner, hClosed, hVerdict⟩ := h.resolved var hVar
  obtain ⟨after, hAfter, -, hScope, -, hDefinitions⟩ := hSpares.variable_ var before hBefore
  obtain ⟨kept, hKept, hSame⟩ := hSpares.scope _ owner hOwner
  refine ⟨after, kept, hAfter, hScope ▸ hKept, hSame.pending_eq_none hClosed, ?_⟩
  rw [hVerdict, hScope]
  refine (isInDeadZone_congr rfl rfl (variableScope_of_spares hSpares ⟨home, hHome⟩)
    (variableScope_of_spares hSpares ⟨owner, hOwner⟩) (hDefinitions ⟨owner, hOwner, hClosed⟩)
    ?_).symm
  have hVarEnded := hEnded var
  rw [endedAt_of_getElem? hAfter, endedAt_of_getElem? hBefore] at hVarEnded
  rcases hVarEnded with hEq | ⟨hNone, count, hSome, hLt⟩
  · rw [hEq]
  · simp [hNone, hSome, hLt]

/-- What happens to one reference leaves the verdicts on the others right. -/
theorem AllJudged.of_spares (h : AllJudged table) (hSpares : Spares moved table next)
    (hEnded : ∀ id reference, table.references[id]? = some reference → ∀ var,
      next.endedAt var = table.endedAt var ∨
        (table.endedAt var = none ∧ ∃ count, next.endedAt var = some count ∧ id < count))
    (hMoved : ∀ reference, next.references[moved]? = some reference → Judged next moved reference) :
    AllJudged next := by
  intro id reference hReference
  by_cases hEq : id = moved
  · subst hEq
    exact hMoved reference hReference
  · rw [hSpares.reference id hEq] at hReference
    exact (h id reference hReference).of_spares hSpares (hEnded id reference hReference)

/-- Where nothing happens to references, and no declaration ends. -/
theorem AllJudged.of_advances (h : AllJudged table) (hAdvances : Advances stack table next)
    (hEnded : ∀ var, next.endedAt var = table.endedAt var) : AllJudged next := by
  refine h.of_spares (hAdvances.spares table.references.size) (fun _ _ _ var => .inl (hEnded var))
    fun reference hReference => ?_
  rw [hAdvances.references, Array.getElem?_eq_none (Nat.le_refl _)] at hReference
  cases hReference

/-- The reference that closing deals with, where it does not resolve it: only the
taint of the reference may be new. -/
theorem AllJudged.of_moves (h : AllJudged table) (hMoves : Moves moved stack table next)
    (hSame : SameLedger table next)
    (hMoved : ∀ later, next.references[moved]? = some later → ∃ reference,
      table.references[moved]? = some reference ∧
        later = { reference with tainted := later.tainted }) : AllJudged next := by
  refine h.of_spares hMoves.spares (fun _ _ _ var => .inl (hSame.endedAt var)) fun later hLater => ?_
  obtain ⟨reference, hReference, hEq⟩ := hMoved later hLater
  have hJudged := (h moved reference hReference).of_spares hMoves.spares
    fun var => .inl (hSame.endedAt var)
  rw [hEq]
  exact ⟨hJudged.placed, hJudged.unresolved, fun var hVar => hJudged.resolved var hVar⟩

theorem allJudged_delegate (h : AllJudged table) (hNested : Nested table stack)
    (hUpper : ∀ upper ∈ table.upper? scope, upper ∈ stack)
    (hOk : table.delegate scope id = .ok next) : AllJudged next := by
  obtain ⟨found, hFound, hMoves⟩ := exists_delegate hNested id hUpper
  cases hFound.symm.trans hOk
  refine h.of_moves hMoves (sameLedger_delegate hOk) fun later hLater => ?_
  rw [references_delegate hOk] at hLater
  exact ⟨later, hLater, rfl⟩

theorem allJudged_abandon (h : AllJudged table) (hNested : Nested table stack) (scope : ScopeId)
    (id : ReferenceId) : AllJudged (table.abandon scope id) := by
  refine h.of_moves (moves_abandon hNested scope id) (sameLedger_abandon table scope id)
    fun later hLater => ?_
  rw [references_abandon] at hLater
  exact ⟨later, hLater, rfl⟩

/-- A reference is judged as it is resolved. -/
theorem allJudged_resolve (h : AllJudged table) (hNested : Nested table stack) {owner : Scope}
    (hOwner : table.scopes[scope]? = some owner) (hClosed : owner.pending = none)
    {var : VariableId} {declared : Variable} (hDeclared : table.variables[var]? = some declared)
    (hScope : declared.scope = scope) (hReference : table.references[id]? = some reference) :
    AllJudged (table.resolve scope id var) := by
  have hMoves := moves_resolve hNested scope id var
  refine h.of_spares hMoves.spares
    (fun _ _ _ other => .inl ((sameLedger_resolve table scope id var).endedAt other))
    fun later hLater => ?_
  have hAfter : (table.resolve scope id var).references[id]? = some
      { reference with
        resolved := some var
        inDeadZone := table.isInDeadZone scope id reference declared } := by
    simp [SymbolTable.resolve, hReference, hDeclared, modifyVariable]
  have hScopes : (table.resolve scope id var).scopes = table.scopes := by
    simp [SymbolTable.resolve, hReference, hDeclared, modifyVariable, modifyReference]
  have hHolder : ∀ position, (table.resolve scope id var).variableScope position =
      table.variableScope position := fun _ => by rw [variableScope, hScopes, variableScope]
  cases hAfter.symm.trans hLater
  refine ⟨by rw [hScopes]; exact (h id reference hReference).placed, fun hNone => (by cases hNone),
    fun found hFound => ?_⟩
  cases hFound
  obtain ⟨after, hVariable, hSettled⟩ : ∃ after,
      (table.resolve scope id var).variables[var]? = some after ∧ declared.Settles after := by
    simp [SymbolTable.resolve, hReference, hDeclared, modifyReference, Variable.Settles]
  have hHome : after.scope = scope := by rw [hSettled]; exact hScope
  refine ⟨after, owner, hVariable, by rw [hHome, hScopes]; exact hOwner, hClosed, ?_⟩
  rw [hHome]
  refine (isInDeadZone_congr rfl rfl (hHolder _) (hHolder _) ?_ ?_).symm
  · rw [hSettled]
  · rw [hSettled]

theorem allJudged_closeReference (h : AllJudged table) (hNested : Nested table stack)
    {owner : Scope} (hOwner : table.scopes[scope]? = some owner) (hClosed : owner.pending = none)
    (hUpper : ∀ upper ∈ table.upper? scope, upper ∈ stack) {closing : Closing}
    (hOk : table.closeReference settings scope closing id = .ok next) : AllJudged next := by
  rcases closeReference_cases hOk with ⟨var, hVar, rfl⟩ | hPassed | hPassed | ⟨-, rfl⟩
  · obtain ⟨reference, hReference, hLookup⟩ := exists_of_resolution? hVar
    obtain ⟨declared, hDeclared, hHome, -⟩ := hNested.exists_of_lookup? hLookup
    exact allJudged_resolve h hNested hOwner hClosed hDeclared hHome hReference
  · exact allJudged_delegate h hNested hUpper hPassed
  · have hTaint : Moves id stack table (table.modifyReference id fun reference =>
      { reference with tainted := true }) := moves_modifyReference hNested id fun _ => rfl
    have hTainted := h.of_moves hTaint (sameLedger_of_eq rfl rfl rfl) fun later hLater => by
      rw [getElem?_modifyReference, if_pos rfl] at hLater
      obtain ⟨reference, hReference, rfl⟩ := Option.map_eq_some_iff.1 hLater
      exact ⟨reference, hReference, rfl⟩
    exact allJudged_delegate hTainted hTaint.nested
      (fun upper hOut => hUpper upper (hTaint.upper? scope ▸ hOut)) hPassed
  · exact allJudged_abandon h hNested scope id

theorem allJudged_closeReferences {closing : Closing} (ids : List ReferenceId)
    (h : AllJudged table) (hNested : Nested table stack) {owner : Scope}
    (hOwner : table.scopes[scope]? = some owner) (hClosed : owner.pending = none)
    (hUpper : ∀ upper ∈ table.upper? scope, upper ∈ stack)
    (hOk : ids.foldlM (closeReference settings scope closing) table = .ok next) :
    AllJudged next := by
  obtain ⟨hJudged, -⟩ := closeReferences_induction (P := fun table => AllJudged table ∧
    ∃ owner, table.scopes[scope]? = some owner ∧ owner.pending = none)
    (fun table next id hNested hUpper hTable hMoves hOk => by
      obtain ⟨h, owner, hOwner, hClosed⟩ := hTable
      obtain ⟨later, hLater, hSpares⟩ := hMoves.spares.scope scope owner hOwner
      exact ⟨allJudged_closeReference h hNested hOwner hClosed hUpper hOk, later, hLater,
        hSpares.pending_eq_none hClosed⟩)
    ids hNested hUpper ⟨h, owner, hOwner, hClosed⟩ hOk
  exact hJudged

theorem AllJudged.of_eq (h : AllJudged table) (hScopes : next.scopes = table.scopes)
    (hVariables : next.variables = table.variables)
    (hReferences : next.references = table.references) : AllJudged next := by
  have hSpares : ∀ moved, Spares moved table next := fun _ =>
    spares_of_eq hScopes hVariables hReferences
  intro id reference hReference
  rw [hReferences] at hReference
  exact (h id reference hReference).of_spares (hSpares id)
    fun var => .inl (by rw [endedAt, endedAt, hVariables])

theorem endedAt_defineImplicit (hNested : Nested table stack) (hScope : scope ∈ stack)
    (var : VariableId) : (table.defineImplicit scope).endedAt var = table.endedAt var :=
  ledger_defineImplicit (P := fun next => next.endedAt var = table.endedAt var)
    (Q := fun _ => True) (fun _ _ hSame hTable => (hSame.endedAt var).trans hTable)
    (fun _ _ _ _ _ _ hTable => (endedAt_addDefinition _ _ var).trans hTable) (fun _ _ => trivial)
    hNested hScope rfl

/-- A scope that closes has judged nothing yet. -/
theorem AllJudged.closeHead (h : AllJudged table) (scope : ScopeId) :
    AllJudged (table.closeHead scope) := by
  have hSame : ∀ {position : ScopeId} {entry : Scope}, table.scopes[position]? = some entry →
      ∃ later, (table.closeHead scope).scopes[position]? = some later ∧
        later.variableScope = entry.variableScope ∧
        (entry.pending = none → later.pending = none) := by
    intro position entry hAt
    rw [SymbolTable.closeHead, getElem?_modifyScope, hAt]
    split
    · exact ⟨_, rfl, rfl, fun _ => rfl⟩
    · exact ⟨entry, rfl, rfl, fun hNone => hNone⟩
  have hHolder : ∀ {position : ScopeId} {entry : Scope}, table.scopes[position]? = some entry →
      (table.closeHead scope).variableScope position = table.variableScope position := fun hAt => by
    obtain ⟨later, hLater, hEq, -⟩ := hSame hAt
    rw [variableScope_of_getElem? hLater, variableScope_of_getElem? hAt, hEq]
  intro id reference hReference
  have hJudged := h id reference hReference
  obtain ⟨home, hHome⟩ := hJudged.placed
  obtain ⟨later, hLater, -⟩ := hSame hHome
  refine ⟨⟨later, hLater⟩, hJudged.unresolved, fun var hVar => ?_⟩
  obtain ⟨declared, owner, hDeclared, hOwner, hClosed, hVerdict⟩ := hJudged.resolved var hVar
  obtain ⟨kept, hKept, -, hStill⟩ := hSame hOwner
  refine ⟨declared, kept, hDeclared, hKept, hStill hClosed, ?_⟩
  rw [hVerdict]
  exact (isInDeadZone_congr rfl rfl (hHolder hHome) (hHolder hOwner) rfl rfl).symm

theorem allJudged_close (h : AllJudged table) (hNested : Nested table (scope :: stack))
    (hOk : table.close settings scope = .ok next) : AllJudged next := by
  obtain ⟨entry, middle, hFrom⟩ := exists_closesFrom hNested
  rw [hFrom.close] at hOk
  have hEnded : ∀ var, middle.endedAt var = table.endedAt var := fun var =>
    hFrom.cases (P := fun middle => middle.endedAt var = table.endedAt var)
      (fun _ => endedAt_defineImplicit hNested List.mem_cons_self var) rfl
  have hMiddle : AllJudged middle := h.of_advances hFrom.advances hEnded
  obtain ⟨before, hBefore, -⟩ := hFrom.closes.scope scope entry hFrom.found
  have hHead : (middle.closeHead scope).scopes[scope]? = some { before with pending := none } := by
    simp [closeHead, hBefore]
  exact allJudged_closeReferences entry.waiting.toList (hMiddle.closeHead scope)
    hFrom.closesHead.nested hHead rfl hFrom.upper hOk

theorem allJudged_record (h : AllJudged table) (hNested : Nested table stack) {use : Use}
    (hOk : table.record scope use = .ok next) : AllJudged next := by
  have hSpares := (spares_record hNested hOk).2.1
  rcases record_eq_ok hOk with ⟨-, rfl⟩ | ⟨-, ⟨entry, hEntry, -⟩, rfl⟩
  · exact h
  · refine h.of_spares hSpares (fun _ _ _ _ => .inl rfl) fun reference hReference => ?_
    obtain ⟨later, hLater, -⟩ := hSpares.scope scope entry hEntry
    have hNew : reference = { use with scope } := by
      simpa [modifyScope, eq_comm] using hReference
    subst hNew
    exact ⟨⟨later, hLater⟩, fun _ => rfl, fun var hVar => (by cases hVar)⟩

/-- Every event of a walk leaves all references judged right. -/
theorem allJudged_apply (h : AllJudged table) (hNested : Nested table table.stack)
    (hOk : table.apply settings event = .ok next) : AllJudged next := by
  have hEnded : (∀ node, event ≠ .endDeclaration node) → ∀ var,
      next.endedAt var = table.endedAt var := fun hEvent var =>
    ledger_apply (P := fun next => next.endedAt var = table.endedAt var)
      (fun _ _ hSame hTable => (hSame.endedAt var).trans hTable)
      (fun _ _ _ _ _ _ hTable => (endedAt_addDefinition _ _ var).trans hTable) hNested rfl hEvent
      (fun _ => id) hOk
  cases event with
  | enter kind block inMethod =>
      obtain ⟨-, hSpares, hReferences, -⟩ := nested_enter hNested hOk
      refine h.of_spares (hSpares table.references.size) (fun _ _ _ var => .inl (hEnded nofun var))
        fun reference hReference => ?_
      rw [hReferences, Array.getElem?_eq_none (Nat.le_refl _)] at hReference
      cases hReference
  | leave block =>
      obtain ⟨found, hFound, -, -, hJudged⟩ := exists_leaveAll settings (P := AllJudged)
        (fun _ _ hTable _ => hTable.of_eq rfl rfl rfl)
        (fun _ _ _ _ hTable hNested hClose => allJudged_close hTable hNested hClose) hNested h block
      cases hFound.symm.trans hOk
      exact hJudged
  | use use =>
      obtain ⟨scope, -, hRecord⟩ := exists_record_of_apply hOk
      exact allJudged_record h hNested hRecord
  | fail failure => cases hOk
  | endDeclaration node =>
      have hAdvances := advances_apply hNested (by trivial) hOk
      cases hOk
      have hNotes := notesEnds_endDeclaration table node
      intro id reference hReference
      rw [hNotes.references] at hReference
      have hLt : id < table.references.size := (Array.getElem?_eq_some_iff.1 hReference).1
      refine (h id reference hReference).of_spares (hAdvances.spares id) fun var => ?_
      rw [hNotes.endedAt]
      split
      · cases hVar : table.endedAt var with
        | some count => exact .inl rfl
        | none => exact .inr ⟨rfl, _, rfl, hLt⟩
      · exact .inl rfl
  | setStrict | define | directEval | thisExpression | bodyStart =>
      exact h.of_advances (advances_apply hNested (by trivial) hOk) (hEnded nofun)

theorem allJudged_of_analyze_eq_ok {tree : Tree} (hOk : analyze settings tree = .ok table) :
    AllJudged table :=
  (run_induction (fun _ _ _ hNested hTable hApply => allJudged_apply hTable hNested hApply)
    nested_empty allJudged_empty (spec_of_analyze_eq_ok hOk).2.2.2).2

end Scoping.SymbolTable
