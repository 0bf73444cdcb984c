import Scoping.Proofs.Revision.Tasks
import Scoping.Proofs.Table.Enclosing

/-! The table of a revised document. Each event does to it what it does to the
table of the document before. -/

namespace Scoping.Revision

open SymbolTable

variable {keys : ChildKeys}

def «variable» (r : Revision keys) (var : Variable) : Variable :=
  { var with
    definitions := var.definitions.map r.definition
    identifiers := var.identifiers.map r.node }

def reference (r : Revision keys) (reference : Reference) : Reference :=
  { reference with toUse := r.use reference.toUse }

def scope (r : Revision keys) (scope : Scope) : Scope :=
  { scope with block := r.node scope.block }

def table (r : Revision keys) (table : SymbolTable) : SymbolTable :=
  { table with
    scopes := table.scopes.map r.scope
    «variables» := table.variables.map r.variable
    references := table.references.map r.reference }

variable {r : Revision keys} {table : SymbolTable} {scope : ScopeId} {id : ReferenceId}
  {name : String}

/-! What can be read off a table. -/

@[simp] theorem getElem?_scopes (position : ScopeId) :
    (r.table table).scopes[position]? = table.scopes[position]?.map r.scope :=
  Array.getElem?_map

@[simp] theorem getElem?_variables (position : VariableId) :
    (r.table table).variables[position]? = table.variables[position]?.map r.variable :=
  Array.getElem?_map

@[simp] theorem getElem?_references (position : ReferenceId) :
    (r.table table).references[position]? = table.references[position]?.map r.reference :=
  Array.getElem?_map

@[simp] theorem current_table : (r.table table).current = table.current :=
  rfl

@[simp] theorem stack_table : (r.table table).stack = table.stack :=
  rfl

@[simp] theorem declaredBy_table (node : Node) :
    (r.table table).declaredBy (r.node node) = table.declaredBy node :=
  rfl

@[simp] theorem upper?_table : (r.table table).upper? scope = table.upper? scope := by
  simp only [upper?, getElem?_scopes, Option.bind_map]
  rfl

@[simp] theorem variableScope_table : (r.table table).variableScope scope = table.variableScope scope := by
  simp only [SymbolTable.variableScope, getElem?_scopes, Option.map_map]
  rfl

@[simp] theorem enclosing_table : (r.table table).enclosing scope = table.enclosing scope :=
  enclosing_congr fun _ _ => upper?_table

@[simp] theorem lookup?_table : (r.table table).lookup? scope name = table.lookup? scope name := by
  simp only [lookup?, getElem?_scopes, Option.bind_map]
  rfl

@[simp] theorem lookupImplicit?_table :
    (r.table table).lookupImplicit? scope name = table.lookupImplicit? scope name := by
  simp only [lookupImplicit?, getElem?_scopes, Option.bind_map]
  rfl

@[simp] theorem pending_table :
    (r.table table).scopes[scope]?.bind Scope.pending = table.scopes[scope]?.bind Scope.pending := by
  rw [getElem?_scopes, Option.bind_map]
  rfl

@[simp] theorem sameFunction_table (first second : ScopeId) :
    (r.table table).sameFunction first second = table.sameFunction first second := by
  simp only [sameFunction, variableScope_table]

theorem isEmpty_map {α β : Type} (f : α → β) (items : Array α) :
    (items.map f).isEmpty = items.isEmpty := by
  simp [Array.isEmpty]

@[simp] theorem hasDeadZone_variable (var : Variable) :
    (r.variable var).hasDeadZone = var.hasDeadZone := by
  simp only [Variable.hasDeadZone, Revision.variable, isEmpty_map, Array.all_map]
  rfl

@[simp] theorem declaresTooLate_scope (owner : Scope) (var : Variable) :
    (r.scope owner).declaresTooLate id (r.variable var) = owner.declaresTooLate id var := by
  simp only [Scope.declaresTooLate, Revision.variable, Revision.scope, isEmpty_map,
    Array.all_map, kind_node]
  rfl

@[simp] theorem closing_scope (settings : Settings) (owner : Scope) :
    (r.scope owner).closing settings = owner.closing settings :=
  rfl

/-! Changes of a table. -/

section Modifying

variable {before after : SymbolTable}

/-- To revise and then to change a scope is to change and then to revise, if it is so for
the scope by itself. -/
theorem modifyScope_table {change other : Scope → Scope} (hTable : after = r.table before)
    (h : ∀ entry, other (r.scope entry) = r.scope (change entry)) :
    after.modifyScope scope other = r.table (before.modifyScope scope change) := by
  simp only [modifyScope, hTable, Revision.table, map_modify fun entry => (h entry).symm]

/-- So it is for the change of a variable. -/
theorem modifyVariable_table {var : VariableId} {change other : Variable → Variable}
    (hTable : after = r.table before)
    (h : ∀ entry, other (r.variable entry) = r.variable (change entry)) :
    after.modifyVariable var other = r.table (before.modifyVariable var change) := by
  simp only [modifyVariable, hTable, Revision.table, map_modify fun entry => (h entry).symm]

/-- So it is for the change of a reference. -/
theorem modifyReference_table {change other : Reference → Reference}
    (hTable : after = r.table before)
    (h : ∀ entry, other (r.reference entry) = r.reference (change entry)) :
    after.modifyReference id other = r.table (before.modifyReference id change) := by
  simp only [modifyReference, hTable, Revision.table, map_modify fun entry => (h entry).symm]

end Modifying

/-- Changes that follow one another. -/
theorem foldl_table {α : Type} {items : List α} {before after : SymbolTable → α → SymbolTable}
    (h : ∀ table item, after (r.table table) item = r.table (before table item)) :
    items.foldl after (r.table table) = r.table (items.foldl before table) := by
  induction items generalizing table with
  | nil => rfl
  | cons item items ih => rw [List.foldl_cons, List.foldl_cons, h, ih]

/-- A fold commutes with the revision if each of its steps does, and it fails at the same
step. -/
theorem foldlM_table {α : Type} {items : List α}
    {before after : SymbolTable → α → Except Failure SymbolTable}
    (h : ∀ table item, after (r.table table) item = (before table item).map r.table) :
    items.foldlM after (r.table table) = (items.foldlM before table).map r.table := by
  induction items generalizing table with
  | nil => rfl
  | cons item items ih =>
      rw [List.foldlM_cons, List.foldlM_cons, h]
      cases before table item with
      | error failure => rfl
      | ok next => exact ih

/-- Variables are numbered in the order in which they are added, which no revision touches.
-/
theorem addVariable_table :
    (r.table table).addVariable scope name =
      ((table.addVariable scope name).1, r.table (table.addVariable scope name).2) := by
  simp [addVariable, Revision.table, Revision.variable]

/-- Names are looked up and indexed by the text of an identifier, which a revision keeps. -/
theorem declare_table :
    (r.table table).declare scope name =
      ((table.declare scope name).1, r.table (table.declare scope name).2) := by
  unfold declare
  rw [lookup?_table]
  cases table.lookup? scope name with
  | some var => rfl
  | none =>
      dsimp only
      rw [addVariable_table]
      exact Prod.ext rfl (modifyScope_table rfl fun _ => rfl)

/-- So it is with the index of the names that are made global. -/
theorem declareImplicit_table :
    (r.table table).declareImplicit scope name =
      ((table.declareImplicit scope name).1, r.table (table.declareImplicit scope name).2) := by
  unfold declareImplicit
  rw [lookupImplicit?_table]
  cases table.lookupImplicit? scope name with
  | some var => rfl
  | none =>
      dsimp only
      rw [addVariable_table]
      exact Prod.ext rfl (modifyScope_table rfl fun _ => rfl)

/-- A definition is noted at the places of its nodes, which a revision keeps as well. -/
theorem addDefinition_table (var : VariableId) (identifier : Node) (definition : Definition) :
    (r.table table).addDefinition var (r.node identifier) (r.definition definition) =
      r.table (table.addDefinition var identifier definition) := by
  simp only [addDefinition, Revision.table, modifyVariable, SymbolTable.mk.injEq]
  refine ⟨trivial, trivial, trivial, (map_modify (fun entry => ?_) _ _).symm, trivial, trivial, ?_,
    trivial, trivial⟩
  · simp only [Revision.variable, Array.map_push]
    rfl
  · cases hParent : definition.parent <;> simp [Revision.definition, hParent]

/-- What is an identifier is one after the revision too, so the same things are defined. -/
theorem define_table (identifier : Node) (definition : Definition) :
    (r.table table).define scope (r.node identifier) (r.definition definition) =
      r.table (table.define scope identifier definition) := by
  unfold define
  rw [isIdentifier_node, name_node]
  split
  · rw [declare_table]
    exact addDefinition_table _ _ _
  · rfl

/-- A use is recorded at the same scope, or fails to be in the same way. -/
theorem record_table (use : Use) :
    (r.table table).record scope (r.use use) = (table.record scope use).map r.table := by
  have hPush : { r.table table with
      references := (r.table table).references.push { r.use use with scope } } =
      r.table { table with references := table.references.push { use with scope } } := by
    simp only [Revision.table, Array.map_push]
    rfl
  have hSize : (r.table table).references.size = table.references.size :=
    Array.size_map
  have hIdentifier : (r.use use).identifier.isIdentifier = use.identifier.isIdentifier := rfl
  unfold record
  rw [hIdentifier, pending_table]
  split
  · cases table.scopes[scope]?.bind Scope.pending with
    | none => rfl
    | some waiting =>
        dsimp only
        rw [hSize]
        exact congrArg Except.ok (modifyScope_table hPush fun _ => rfl)
  · rfl

/-- The end of a declaration finds its variables by the place of the node. -/
theorem endDeclaration_table (node : Node) :
    (r.table table).endDeclaration (r.node node) = r.table (table.endDeclaration node) := by
  unfold endDeclaration
  rw [declaredBy_table, ← Array.foldl_toList, ← Array.foldl_toList]
  refine foldl_table fun table var => modifyVariable_table rfl fun entry => ?_
  rw [show (r.table table).references.size = table.references.size from Array.size_map]
  rfl

/-- A mark on the scopes around does not depend on their nodes. -/
theorem detectEval_table :
    (r.table table).detectEval scope = r.table (table.detectEval scope) := by
  have hEval : (r.table table).modifyScope scope (fun entry => { entry with directEval := true }) =
      r.table (table.modifyScope scope fun entry => { entry with directEval := true }) :=
    modifyScope_table rfl fun _ => rfl
  unfold detectEval
  rw [hEval]
  dsimp only
  rw [enclosing_table]
  exact foldl_table fun _ _ => modifyScope_table rfl fun _ => rfl

theorem detectThis_table :
    (r.table table).detectThis scope = r.table (table.detectThis scope) :=
  modifyScope_table rfl fun _ => rfl

theorem setStrict_table (strict : Bool) :
    (r.table table).setStrict scope strict = r.table (table.setStrict scope strict) :=
  modifyScope_table rfl fun _ => rfl

theorem markBodyStart_table :
    (r.table table).markBodyStart scope = r.table (table.markBodyStart scope) := by
  refine modifyScope_table rfl fun entry => ?_
  rw [show (r.table table).references.size = table.references.size from Array.size_map, apply_ite r.scope]
  rfl

end Scoping.Revision
