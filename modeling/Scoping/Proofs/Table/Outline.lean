import Scoping.Proofs.Table.Answering
import Scoping.Proofs.Table.Events

/-! What of a table does not depend on how scopes close: its outline. Every event
tells the outline what it tells the table, and a scope that closes leaves the
outline alone, unless it is global. -/

namespace Scoping

/-- A scope without the references that have come to it, and without what is made
global in it. -/
def Scope.outline (scope : Scope) : Scope :=
  { scope with
    through := #[]
    pending := some #[]
    implicitVariables := #[]
    implicitNames := []
    implicitPending := #[] }

/-- A variable without the references that mean it. -/
def Variable.outline (var : Variable) : Variable :=
  { var with references := #[], tainted := false, stack := true }

/-- A reference without what it means. -/
def Reference.outline (reference : Reference) : Reference :=
  { reference with resolved := none, tainted := false, inDeadZone := false }

/-- What the outline of a scope shows of its place and its names. -/
theorem Scope.eq_of_outline_eq {before after : Scope} (h : after.outline = before.outline) :
    after.kind = before.kind ∧ after.block = before.block ∧ after.bodyStart = before.bodyStart ∧
      after.variables = before.variables ∧ after.names = before.names :=
  ⟨show after.outline.kind = before.outline.kind by rw [h],
    show after.outline.block = before.outline.block by rw [h],
    show after.outline.bodyStart = before.outline.bodyStart by rw [h],
    show after.outline.variables = before.outline.variables by rw [h],
    show after.outline.names = before.outline.names by rw [h]⟩

/-- What the outline of a variable shows of its declarations. -/
theorem Variable.eq_of_outline_eq {before after : Variable} (h : after.outline = before.outline) :
    after.name = before.name ∧ after.definitions = before.definitions ∧
      after.initializedAt = before.initializedAt :=
  ⟨show after.outline.name = before.outline.name by rw [h],
    show after.outline.definitions = before.outline.definitions by rw [h],
    show after.outline.initializedAt = before.outline.initializedAt by rw [h]⟩

/-- What the outline of a reference shows of its use. -/
theorem Reference.eq_of_outline_eq {before after : Reference}
    (h : after.outline = before.outline) :
    after.toUse = before.toUse ∧ after.scope = before.scope :=
  ⟨show after.outline.toUse = before.outline.toUse by rw [h],
    show after.outline.scope = before.outline.scope by rw [h]⟩

/-- Closing may only change what the outline of a scope leaves out. -/
theorem Scope.Settles.outline_eq {before after : Scope} (h : before.Settles after) :
    after.outline = before.outline := by
  rw [h]
  rfl

/-- So it is with a variable, of which the outline leaves out its references. -/
theorem Variable.Settles.outline_eq {before after : Variable} (h : before.Settles after) :
    after.outline = before.outline := by
  rw [h]
  rfl

/-- What a reference means is not in its outline either. -/
theorem Reference.Settles.outline_eq {before after : Reference} (h : before.Settles after) :
    after.outline = before.outline := by
  rw [h]
  rfl

namespace SymbolTable

def outline (table : SymbolTable) : SymbolTable :=
  { table with
    scopes := table.scopes.map Scope.outline
    «variables» := table.variables.map Variable.outline
    references := table.references.map Reference.outline }

variable {settings first second : Settings} {table next other : SymbolTable} {stack : List ScopeId}
  {scope : ScopeId} {var : VariableId} {id : ReferenceId} {event : Event}

@[simp] theorem getElem?_scopes_outline (position : ScopeId) :
    table.outline.scopes[position]? = table.scopes[position]?.map Scope.outline := by
  simp [outline]

@[simp] theorem getElem?_variables_outline (position : VariableId) :
    table.outline.variables[position]? = table.variables[position]?.map Variable.outline := by
  simp [outline]

@[simp] theorem getElem?_references_outline (position : ReferenceId) :
    table.outline.references[position]? = table.references[position]?.map Reference.outline := by
  simp [outline]

theorem stack_outline (table : SymbolTable) : table.outline.stack = table.stack :=
  rfl

theorem upper?_outline (position : ScopeId) :
    table.outline.upper? position = table.upper? position := by
  cases h : table.scopes[position]? <;> simp [upper?, h, Scope.outline]

theorem enclosing_outline (position : ScopeId) :
    table.outline.enclosing position = table.enclosing position :=
  enclosing_congr fun inner _ => upper?_outline inner

theorem variableScope_outline (position : ScopeId) :
    table.outline.variableScope position = table.variableScope position := by
  cases h : table.scopes[position]? <;> simp [variableScope, h, Scope.outline]

/-- The outline keeps the index of names of each scope, so it finds the same variable under
a name. -/
theorem lookup?_outline (position : ScopeId) (name : String) :
    table.outline.lookup? position name = table.lookup? position name := by
  cases h : table.scopes[position]? <;> simp [lookup?, h, Scope.outline]

/-- A change of a scope that does not read or write what the outline leaves out. -/
theorem modifyScope_outline (change : Scope → Scope)
    (hChange : ∀ entry, (change entry).outline = change entry.outline) :
    table.outline.modifyScope scope change = (table.modifyScope scope change).outline := by
  simp only [outline, modifyScope, map_modify hChange]

/-- A change of a variable that does not read or write what the outline leaves out. -/
theorem modifyVariable_outline (change : Variable → Variable)
    (hChange : ∀ entry, (change entry).outline = change entry.outline) :
    table.outline.modifyVariable var change = (table.modifyVariable var change).outline := by
  simp only [outline, modifyVariable, map_modify hChange]

/-! What declares names or marks scopes does to the outline what it does to the
table. -/

theorem size_scopes_outline : table.outline.scopes.size = table.scopes.size :=
  Array.size_map

theorem size_variables_outline : table.outline.variables.size = table.variables.size :=
  Array.size_map

theorem size_references_outline : table.outline.references.size = table.references.size :=
  Array.size_map

theorem addVariable_outline (table : SymbolTable) (scope : ScopeId) (name : String) :
    table.outline.addVariable scope name =
      ((table.addVariable scope name).1, (table.addVariable scope name).2.outline) := by
  simp [addVariable, outline, Variable.outline]

/-- Whether a name is new in a scope can be told from the outline. -/
theorem declare_outline (table : SymbolTable) (scope : ScopeId) (name : String) :
    table.outline.declare scope name =
      ((table.declare scope name).1, (table.declare scope name).2.outline) := by
  simp only [declare, lookup?_outline, addVariable_outline]
  cases table.lookup? scope name with
  | some var => rfl
  | none => exact Prod.ext rfl (modifyScope_outline _ fun _ => rfl)

theorem addDefinition_outline (table : SymbolTable) (var : VariableId) (identifier : Node)
    (definition : Definition) :
    table.outline.addDefinition var identifier definition =
      (table.addDefinition var identifier definition).outline := by
  have hVariable : table.outline.modifyVariable var (fun entry =>
      { entry with
        definitions := entry.definitions.push { definition with serial := table.definitionCount }
        identifiers := entry.identifiers.push identifier }) = (table.modifyVariable var fun entry =>
      { entry with
        definitions := entry.definitions.push { definition with serial := table.definitionCount }
        identifiers := entry.identifiers.push identifier }).outline :=
    modifyVariable_outline _ fun _ => rfl
  exact congrArg (fun changed : SymbolTable => { changed with
    definitionCount := table.definitionCount + 1
    declared := (table.addDefinition var identifier definition).declared }) hVariable

/-- A definition depends on names and on the count of definitions, both of which the outline
shows. -/
theorem define_outline (table : SymbolTable) (scope : ScopeId) (identifier : Node)
    (definition : Definition) :
    table.outline.define scope identifier definition =
      (table.define scope identifier definition).outline := by
  simp only [define]
  split
  · simp only [declare_outline, addDefinition_outline]
  · rfl

/-- The end of a declaration counts the references that there are, which the outline does as
well. -/
theorem endDeclaration_outline (table : SymbolTable) (node : Node) :
    table.outline.endDeclaration node = (table.endDeclaration node).outline := by
  refine Array.foldl_hom outline fun table var => ?_
  rw [size_references_outline]
  exact modifyVariable_outline _ fun _ => rfl

theorem detectEval_outline (table : SymbolTable) (scope : ScopeId) :
    table.outline.detectEval scope = (table.detectEval scope).outline := by
  have hEval : table.outline.modifyScope scope (fun entry => { entry with directEval := true }) =
      (table.modifyScope scope fun entry => { entry with directEval := true }).outline :=
    modifyScope_outline _ fun _ => rfl
  simp only [detectEval, hEval, enclosing_outline]
  exact List.foldl_hom outline fun table scope => modifyScope_outline _ fun _ => rfl

theorem markBodyStart_outline (table : SymbolTable) (scope : ScopeId) :
    table.outline.markBodyStart scope = (table.markBodyStart scope).outline := by
  unfold markBodyStart
  rw [size_references_outline]
  refine modifyScope_outline _ fun entry => ?_
  by_cases hKind : entry.kind = .function <;> simp [hKind, Scope.outline, outline]

/-- Whether a scope is strict depends on the scope around it and on its own node, never on a
reference. -/
theorem opensStrict_outline (table : SymbolTable) (kind : ScopeKind) (block : Node)
    (inMethod : Bool) :
    table.outline.opensStrict settings kind block inMethod =
      table.opensStrict settings kind block inMethod := by
  have hStrict : (table.outline.stack.head?.any fun upper =>
      table.outline.scopes[upper]?.any Scope.strict) =
        table.stack.head?.any fun upper => table.scopes[upper]?.any Scope.strict := by
    simp only [getElem?_scopes_outline, Option.any_map]
    rfl
  rw [opensStrict, opensStrict, hStrict]

theorem pushScope_outline (table : SymbolTable) {fresh : Scope} (hFresh : fresh.outline = fresh) :
    table.outline.pushScope fresh = (table.pushScope fresh).outline := by
  simp [pushScope, outline, hFresh]

theorem freshScope_outline (table : SymbolTable) (kind : ScopeKind) (block : Node)
    (strict : Bool) :
    table.outline.freshScope kind block strict = table.freshScope kind block strict := by
  have hHolder : table.outline.variableScope = table.variableScope :=
    funext variableScope_outline
  simp only [freshScope, hHolder, size_scopes_outline]
  rfl

theorem addScope_outline (table : SymbolTable) (kind : ScopeKind) (block : Node) (strict : Bool) :
    table.outline.addScope kind block strict =
      ((table.addScope kind block strict).1, (table.addScope kind block strict).2.outline) := by
  refine Prod.ext ?_ ?_
  · rw [addScope_fst, addScope_fst, size_scopes_outline]
  · rw [addScope_snd, addScope_snd, freshScope_outline, size_scopes_outline, pushScope_outline _ rfl]
    have hStack : table.outline.stack = table.stack := rfl
    rw [hStack]
    cases table.stack.head? with
    | none => rfl
    | some upper => exact modifyScope_outline _ fun _ => rfl

theorem declareOwn_outline (table : SymbolTable) (scope : ScopeId) (kind : ScopeKind)
    (block : Node) :
    table.outline.declareOwn scope kind block = (table.declareOwn scope kind block).map outline := by
  cases kind with
  | function =>
      simp only [declareOwn, declare_outline]
      split <;> rfl
  | functionName =>
      simp only [declareOwn, define_outline]
      cases block.child "id" <;> rfl
  | _ => rfl

/-- A scope opens in an outline as it does in the table, with the same names of its own. -/
theorem enter_outline (table : SymbolTable) (kind : ScopeKind) (block : Node) (inMethod : Bool) :
    table.outline.enter settings kind block inMethod =
      (table.enter settings kind block inMethod).map outline := by
  simp only [enter_eq, opensStrict_outline, addScope_outline, declareOwn_outline, size_scopes_outline]
  cases table.opensStrict settings kind block inMethod with
  | error failure => rfl
  | ok strict =>
      simp only [bind, Except.bind]
      cases (table.addScope kind block strict).2.declareOwn table.scopes.size kind block with
      | error failure => rfl
      | ok own =>
          have hStack : table.outline.stack = table.stack := rfl
          simp only [Except.map, hStack]
          split <;> rfl

/-- Where a function declaration binds its name depends on kinds of scopes only. -/
theorem bindsFunctions_outline (table : SymbolTable) (scope : Scope) :
    table.outline.bindsFunctions settings scope.outline = table.bindsFunctions settings scope := by
  have hBody : table.outline.isFunctionBody scope.outline = table.isFunctionBody scope := by
    cases h : scope.upper with
    | none => simp [isFunctionBody, Scope.outline, h]
    | some upper => cases hUpper : table.scopes[upper]? <;>
        simp [isFunctionBody, Scope.outline, h, hUpper]
  rw [bindsFunctions, bindsFunctions, hBody]
  rfl

/-- A definition goes to the same scope in the outline. -/
theorem destination_outline (table : SymbolTable) (current : ScopeId) (destination : Destination) :
    table.outline.destination settings current destination =
      table.destination settings current destination := by
  cases destination with
  | current => rfl
  | variableScope => exact variableScope_outline current
  | functionDeclaration =>
      have hBinds : table.outline.scopes[current]?.all (table.outline.bindsFunctions settings) =
          table.scopes[current]?.all (table.bindsFunctions settings) := by
        cases h : table.scopes[current]? <;> simp [h, bindsFunctions_outline]
      simp only [SymbolTable.destination, hBinds, variableScope_outline]

theorem useIn_outline (table : SymbolTable) (scope : ScopeId) (use : Use) :
    table.outline.useIn scope use = table.useIn scope use := by
  cases h : table.scopes[scope]? <;> simp [useIn, h, Scope.outline]

/-- What a use adds to an outline. -/
def noteUse (table : SymbolTable) (scope : ScopeId) (use : Use) : SymbolTable :=
  if use.identifier.isIdentifier then
    { table with references := table.references.push { use with scope } }.modifyScope scope
      fun entry => { entry with references := entry.references.push table.references.size }
  else table

/-- A reference that is recorded also waits, which the outline does not show. -/
theorem outline_record {use : Use} (hOk : table.record scope use = .ok next) :
    next.outline = table.outline.noteUse scope use := by
  rcases record_eq_ok hOk with ⟨hNone, rfl⟩ | ⟨hSome, -, rfl⟩
  · simp [noteUse, hNone]
  · have hModify := @map_modify _ _ Scope.outline
      (fun entry => { entry with
        references := entry.references.push table.references.size
        pending := entry.pending.map fun pending => pending.push table.references.size })
      (fun entry => { entry with references := entry.references.push table.references.size })
      (fun _ => rfl) table.scopes scope
    simp only [noteUse, hSome, if_true, modifyScope, outline, hModify]
    simp [Reference.outline]

/-- What an event is told that neither closes a scope nor records a use, the outline
can be told as well. -/
theorem apply_outline (table : SymbolTable) (hLeave : ∀ block, event ≠ .leave block)
    (hUse : ∀ use, event ≠ .use use) :
    table.outline.apply settings event = (table.apply settings event).map outline := by
  have hCurrent : table.outline.current = table.current := rfl
  cases event with
  | leave block => exact absurd rfl (hLeave block)
  | use use => exact absurd rfl (hUse use)
  | enter kind block inMethod => exact enter_outline table kind block inMethod
  | endDeclaration node => exact congrArg Except.ok (endDeclaration_outline table node)
  | fail failure => rfl
  | setStrict strict =>
      simp only [apply, hCurrent]
      cases table.current with
      | error failure => rfl
      | ok scope => exact congrArg Except.ok (modifyScope_outline _ fun _ => rfl)
  | define destination identifier definition =>
      simp only [apply, hCurrent, destination_outline, define_outline]
      cases table.current <;> rfl
  | directEval =>
      simp only [apply, hCurrent, variableScope_outline, detectEval_outline]
      cases table.current <;> rfl
  | thisExpression =>
      simp only [apply, hCurrent, variableScope_outline]
      cases table.current with
      | error failure => rfl
      | ok scope => exact congrArg Except.ok (modifyScope_outline _ fun _ => rfl)
  | bodyStart =>
      simp only [apply, hCurrent, markBodyStart_outline]
      cases table.current <;> rfl

/-- Tables of one outline are told one event: they have one outline then. -/
theorem outline_eq_of_apply (h : first.OpenAlike second) (hLeave : ∀ block, event ≠ .leave block)
    (hSame : table.outline = other.outline) {later : SymbolTable}
    (hOk : table.apply first event = .ok next) (hOther : other.apply second event = .ok later) :
    next.outline = later.outline := by
  rw [← apply_congr_of_ne_leave h other hLeave] at hOther
  by_cases hUse : ∃ use, event = .use use
  · obtain ⟨use, rfl⟩ := hUse
    obtain ⟨scope, hCurrent, hRecord⟩ := exists_of_bind_ok hOk
    obtain ⟨again, hAgain, hLater⟩ := exists_of_bind_ok hOther
    obtain rfl : scope = again := by
      have hCurrents : table.outline.current = other.outline.current := by rw [hSame]
      exact Except.ok.inj (hCurrent.symm.trans (hCurrents.trans hAgain))
    rw [outline_record hRecord, outline_record hLater, ← useIn_outline table, ← useIn_outline other,
      hSame]
  · have hNoUse : ∀ use, event ≠ .use use := fun use hEq => hUse ⟨use, hEq⟩
    have hTold : table.outline.apply first event = _ := apply_outline table hLeave hNoUse
    rw [hSame, apply_outline other hLeave hNoUse, hOk, hOther] at hTold
    exact (Except.ok.inj hTold).symm

/-! A scope that closes moves references, and marks what they mean. -/

/-- A change that a view does not show leaves the view of all entries alone. -/
theorem map_modify_of_eq {α β : Type} {view : α → β} {change : α → α}
    (h : ∀ entry, view (change entry) = view entry) (entries : Array α) (position : Nat) :
    (entries.modify position change).map view = entries.map view := by
  refine Array.ext_getElem? fun other => ?_
  simp only [Array.getElem?_map, Array.getElem?_modify]
  split
  · simp [Function.comp_def, h]
  · rfl

theorem outline_modifyScope {change : Scope → Scope}
    (hChange : ∀ entry, (change entry).outline = entry.outline) :
    (table.modifyScope scope change).outline = table.outline := by
  simp only [outline, modifyScope, map_modify_of_eq hChange]

theorem outline_modifyVariable {change : Variable → Variable}
    (hChange : ∀ entry, (change entry).outline = entry.outline) :
    (table.modifyVariable var change).outline = table.outline := by
  simp only [outline, modifyVariable, map_modify_of_eq hChange]

theorem outline_modifyReference {change : Reference → Reference}
    (hChange : ∀ entry, (change entry).outline = entry.outline) :
    (table.modifyReference id change).outline = table.outline := by
  simp only [outline, modifyReference, map_modify_of_eq hChange]

/-- Wherever a reference goes when a scope closes, the outline does not tell. -/
theorem outline_closeReference {closing : Closing}
    (hOk : table.closeReference settings scope closing id = .ok next) :
    next.outline = table.outline :=
  closeReference_induction (P := fun next => next.outline = table.outline)
    (fun _ _ _ hChange h =>
      (outline_modifyScope fun entry => (hChange entry).settles.outline_eq).trans h)
    (fun _ _ _ hChange h =>
      (outline_modifyVariable fun entry => (hChange entry).outline_eq).trans h)
    (fun _ _ _ hChange h =>
      (outline_modifyReference fun entry => (hChange entry).outline_eq).trans h)
    rfl hOk

theorem outline_closeReferences {closing : Closing} (ids : List ReferenceId)
    (hOk : ids.foldlM (closeReference settings scope closing) table = .ok next) :
    next.outline = table.outline :=
  foldlM_induction (P := fun next => next.outline = table.outline)
    (fun _ _ _ hSame hOk => (outline_closeReference hOk).trans hSame) ids rfl hOk

/-- A scope that closes and is not global makes no name global. -/
theorem outline_close {entry : Scope} (hEntry : table.scopes[scope]? = some entry)
    (hKind : entry.kind ≠ .global) (hOk : table.close settings scope = .ok next) :
    next.outline = table.outline := by
  rw [close_eq settings hEntry, if_neg hKind] at hOk
  exact (outline_closeReferences _ hOk).trans (outline_modifyScope fun _ => rfl)

end SymbolTable

end Scoping
