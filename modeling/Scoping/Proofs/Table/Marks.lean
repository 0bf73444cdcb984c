import Scoping.Proofs.Table.Ledger

/-! What a variable notes of its references: which they are, whether one has left
the body of a `with`, and whether all stand in its own function. Only resolution
changes that. -/

namespace Scoping

/-- What a variable notes of its references. -/
structure Variable.Marks where
  references : Array ReferenceId := #[]
  tainted : Bool := false
  stack : Bool := true
  deriving Inhabited

def Variable.marks (var : Variable) : Variable.Marks :=
  ⟨var.references, var.tainted, var.stack⟩

namespace SymbolTable

/-- What a variable notes; nothing if it is still to come. -/
def marksOf (table : SymbolTable) (var : VariableId) : Variable.Marks :=
  (table.variables[var]?.map Variable.marks).getD {}

/-- Two tables whose variables note the same. -/
def SameMarks (table next : SymbolTable) : Prop :=
  ∀ var, next.marksOf var = table.marksOf var

variable {settings : Settings} {table next : SymbolTable} {stack : List ScopeId} {scope : ScopeId}
  {id : ReferenceId} {var : VariableId} {event : Event}

theorem marksOf_of_getElem? {declared : Variable} (h : table.variables[var]? = some declared) :
    table.marksOf var = declared.marks := by
  rw [marksOf, h]
  rfl

theorem SameMarks.refl (table : SymbolTable) : SameMarks table table :=
  fun _ => rfl

theorem SameMarks.trans {third : SymbolTable} (hFirst : SameMarks table next)
    (hSecond : SameMarks next third) : SameMarks table third :=
  fun var => (hSecond var).trans (hFirst var)

/-- Scopes and references have no part in what variables note. -/
theorem sameMarks_of_eq (hVariables : next.variables = table.variables) : SameMarks table next :=
  fun _ => by rw [marksOf, hVariables, marksOf]

theorem sameMarks_modifyVariable {change : Variable → Variable}
    (hChange : ∀ entry, (change entry).marks = entry.marks) :
    SameMarks table (table.modifyVariable var change) := fun position => by
  rw [marksOf, marksOf, getElem?_modifyVariable]
  split
  · cases table.variables[position]? <;> simp [hChange]
  · rfl

/-- A new variable notes nothing, as one does that is still to come. -/
theorem sameMarks_addVariable (table : SymbolTable) (scope : ScopeId) (name : String) :
    SameMarks table (table.addVariable scope name).2 := fun position => by
  simp only [marksOf, addVariable, Array.getElem?_push]
  split
  · next hNew =>
      rw [Array.getElem?_eq_none (Nat.le_of_eq hNew.symm)]
      rfl
  · rfl

theorem sameMarks_declare (table : SymbolTable) (scope : ScopeId) (name : String) :
    SameMarks table (table.declare scope name).2 := by
  unfold declare
  split
  · exact .refl table
  · exact (sameMarks_addVariable table scope name).trans (sameMarks_of_eq rfl)

theorem sameMarks_declareImplicit (table : SymbolTable) (scope : ScopeId) (name : String) :
    SameMarks table (table.declareImplicit scope name).2 := by
  unfold declareImplicit
  split
  · exact .refl table
  · exact (sameMarks_addVariable table scope name).trans (sameMarks_of_eq rfl)

/-- A definition is no reference to the variable. -/
theorem sameMarks_addDefinition (table : SymbolTable) (var : VariableId) (identifier : Node)
    (definition : Definition) : SameMarks table (table.addDefinition var identifier definition) := by
  have hNoted : SameMarks table (table.modifyVariable var fun entry =>
      { entry with
        definitions := entry.definitions.push { definition with serial := table.definitionCount }
        identifiers := entry.identifiers.push identifier }) := sameMarks_modifyVariable fun _ => rfl
  exact hNoted.trans (sameMarks_of_eq rfl)

theorem sameMarks_define (table : SymbolTable) (scope : ScopeId) (identifier : Node)
    (definition : Definition) : SameMarks table (table.define scope identifier definition) := by
  unfold define
  split
  · exact (sameMarks_declare table scope identifier.name).trans (sameMarks_addDefinition _ _ _ _)
  · exact .refl table

theorem sameMarks_defineImplicit (table : SymbolTable) (scope : ScopeId) :
    SameMarks table (table.defineImplicit scope) := by
  rw [defineImplicit_eq]
  refine SameMarks.trans ?_ (sameMarks_of_eq rfl)
  generalize table.globalsToDefine scope = found
  induction found generalizing table with
  | nil => exact .refl table
  | cons first found ih =>
      exact ((sameMarks_declareImplicit table scope first.1.name).trans
        (sameMarks_addDefinition _ _ _ _)).trans (ih _)

theorem sameMarks_enter {kind : ScopeKind} {block : Node} {inMethod : Bool}
    (hOk : table.enter settings kind block inMethod = .ok next) : SameMarks table next := by
  obtain ⟨strict, own, -, hOwn, -, rfl⟩ := enter_eq_ok hOk
  have hFresh : SameMarks table (table.addScope kind block strict).2 := by
    refine sameMarks_of_eq ?_
    rw [addScope_snd]
    split <;> rfl
  suffices hDeclares : SameMarks table own from hDeclares.trans (sameMarks_of_eq rfl)
  unfold declareOwn at hOwn
  split at hOwn
  · split at hOwn
    · cases hOwn
      exact hFresh
    · cases hOwn
      exact hFresh.trans (sameMarks_declare _ _ _)
  · obtain ⟨name, -, hNext⟩ := exists_of_bind_ok hOwn
    cases hNext
    exact hFresh.trans (sameMarks_define _ _ _ _)
  · cases hOwn
    exact hFresh

theorem sameMarks_endDeclaration (table : SymbolTable) (node : Node) :
    SameMarks table (table.endDeclaration node) :=
  endDeclaration_induction (P := SameMarks table)
    (fun _ _ h => h.trans (sameMarks_modifyVariable fun _ => rfl)) (.refl table) node

/-- A reference that is resolved is noted by its variable, and by no other. -/
theorem marksOf_resolve {reference : Reference} {declared : Variable}
    (hReference : table.references[id]? = some reference)
    (hDeclared : table.variables[var]? = some declared) (scope : ScopeId) (other : VariableId) :
    (table.resolve scope id var).marksOf other =
      if var = other then
        { references := (table.marksOf var).references.push id
          tainted := (table.marksOf var).tainted || reference.tainted
          stack := (table.marksOf var).stack && table.sameFunction reference.scope scope }
      else table.marksOf other := by
  have hModified : (table.resolve scope id var).variables[other]? =
      if var = other then (table.variables[other]?).map fun entry => { entry with
        references := entry.references.push id
        stack := entry.stack && table.sameFunction reference.scope scope
        tainted := entry.tainted || reference.tainted }
      else table.variables[other]? := by
    simp [SymbolTable.resolve, hReference, hDeclared, modifyReference]
  rw [marksOf, hModified]
  split
  · next hEq =>
      subst hEq
      rw [marksOf_of_getElem? hDeclared, hDeclared]
      rfl
  · rfl

theorem sameMarks_abandon (table : SymbolTable) (scope : ScopeId) (id : ReferenceId) :
    SameMarks table (table.abandon scope id) :=
  abandon_induction (P := SameMarks table) (fun _ _ _ _ h => h.trans (sameMarks_of_eq rfl))
    (.refl table) scope id

/-- A reference that is handed on has not reached a variable. -/
theorem sameMarks_delegate (hOk : table.delegate scope id = .ok next) : SameMarks table next :=
  delegate_induction (P := SameMarks table) (fun _ _ _ _ h => h.trans (sameMarks_of_eq rfl))
    (.refl table) hOk

/-- A use that is recorded has not reached a variable. -/
theorem sameMarks_record {use : Use} (hOk : table.record scope use = .ok next) :
    SameMarks table next := by
  rcases record_eq_ok hOk with ⟨-, rfl⟩ | ⟨-, -, rfl⟩
  · exact .refl _
  · exact sameMarks_of_eq rfl

/-- Only as a scope closes a variable notes anything. -/
theorem sameMarks_apply (hEvent : ∀ block, event ≠ .leave block)
    (hOk : table.apply settings event = .ok next) : SameMarks table next := by
  cases event with
  | enter kind block inMethod => exact sameMarks_enter hOk
  | leave block => exact absurd rfl (hEvent block)
  | define destination identifier definition =>
      obtain ⟨scope, -, hNext⟩ := exists_of_bind_ok hOk
      cases hNext
      exact sameMarks_define _ _ _ _
  | use use =>
      obtain ⟨scope, -, hRecord⟩ := exists_record_of_apply hOk
      exact sameMarks_record hRecord
  | directEval =>
      obtain ⟨scope, -, hNext⟩ := exists_of_bind_ok hOk
      cases hNext
      rw [detectEval_eq]
      exact sameMarks_of_eq rfl
  | setStrict | thisExpression | bodyStart =>
      obtain ⟨scope, -, hNext⟩ := exists_of_bind_ok hOk
      cases hNext
      exact sameMarks_of_eq rfl
  | endDeclaration node =>
      cases hOk
      exact sameMarks_endDeclaration table node
  | fail failure => cases hOk

end SymbolTable

end Scoping
