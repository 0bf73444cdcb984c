import Scoping.Proofs.Table.Effects
import Scoping.Proofs.Table.Naming

/-! What a table says of the declarations of each variable. All that an event
does to it, unless a declaration ends, is to add definitions one by one. -/

namespace Scoping

/-- Something that stands at a location defines, by itself or by what is in it. -/
def Definition.StandsAt (definition : Definition) (location : Location) : Prop :=
  definition.node.location = location ∨
    ∃ parent, definition.parent = some parent ∧ parent.location = location

/-- All places at which a definition stands. -/
def Definition.places (definition : Definition) : List Location :=
  definition.node.location :: definition.parent.toList.map Node.location

/-- The places of a definition are a list, so that it can be decided whether it stands at a
location. -/
theorem Definition.standsAt_iff {definition : Definition} {location : Location} :
    definition.StandsAt location ↔ location ∈ definition.places := by
  cases hParent : definition.parent <;> simp [StandsAt, places, hParent, eq_comm]

/-- A definition that an event may bring. Besides what the event itself says,
functions bind their own names, and names become global. -/
def Event.Defines (event : Event) (definition : Definition) : Prop :=
  match event with
  | .define _ _ made => definition = made
  | _ => definition.isLexical = false

namespace SymbolTable

/-- The variables that something at a location declares. -/
def declaredAt (table : SymbolTable) (location : Location) : Array VariableId :=
  (table.declared.lookup location).getD #[]

/-- All definitions of a variable; none if there is no such variable. -/
def definitionsOf (table : SymbolTable) (var : VariableId) : Array Definition :=
  (table.variables[var]?.map Variable.definitions).getD #[]

/-- The number of references before the first end of a declaration. -/
def endedAt (table : SymbolTable) (var : VariableId) : Option Nat :=
  table.variables[var]?.bind Variable.initializedAt

/-- Two tables that say the same of all declarations. -/
structure SameLedger (table next : SymbolTable) : Prop where
  definitionsOf : ∀ var, next.definitionsOf var = table.definitionsOf var
  endedAt : ∀ var, next.endedAt var = table.endedAt var
  declared : next.declared = table.declared
  definitionCount : next.definitionCount = table.definitionCount

variable {settings : Settings} {table next : SymbolTable} {stack : List ScopeId}
  {scope : ScopeId} {id : ReferenceId} {var : VariableId} {event : Event}
  {P : SymbolTable → Prop}

theorem definitionsOf_of_getElem? {declared : Variable} (h : table.variables[var]? = some declared) :
    table.definitionsOf var = declared.definitions := by
  rw [definitionsOf, h]
  rfl

theorem endedAt_of_getElem? {declared : Variable} (h : table.variables[var]? = some declared) :
    table.endedAt var = declared.initializedAt := by
  rw [endedAt, h]
  rfl

theorem SameLedger.refl (table : SymbolTable) : SameLedger table table :=
  ⟨fun _ => rfl, fun _ => rfl, rfl, rfl⟩

theorem SameLedger.trans {third : SymbolTable} (hFirst : SameLedger table next)
    (hSecond : SameLedger next third) : SameLedger table third :=
  ⟨fun var => (hSecond.definitionsOf var).trans (hFirst.definitionsOf var),
    fun var => (hSecond.endedAt var).trans (hFirst.endedAt var),
    hSecond.declared.trans hFirst.declared, hSecond.definitionCount.trans hFirst.definitionCount⟩

/-- Of a variable the ledger only shows its definitions and where their end is. -/
theorem sameLedger_of_eq (hVariables : next.variables = table.variables)
    (hDeclared : next.declared = table.declared)
    (hCount : next.definitionCount = table.definitionCount) : SameLedger table next :=
  ⟨fun _ => by rw [definitionsOf, definitionsOf, hVariables],
    fun _ => by rw [endedAt, endedAt, hVariables], hDeclared, hCount⟩

/-- A change of a variable that spares its definitions and their end, such as one of its
references. -/
theorem sameLedger_modifyVariable {change : Variable → Variable}
    (hDefinitions : ∀ entry, (change entry).definitions = entry.definitions)
    (hEnded : ∀ entry, (change entry).initializedAt = entry.initializedAt) :
    SameLedger table (table.modifyVariable var change) := by
  refine ⟨fun other => ?_, fun other => ?_, rfl, rfl⟩
  · rw [definitionsOf, definitionsOf, getElem?_modifyVariable]
    split
    · rw [Option.map_map]
      congr 2
      exact funext hDefinitions
    · rfl
  · rw [endedAt, endedAt, getElem?_modifyVariable]
    split
    · cases table.variables[other]? with
      | none => rfl
      | some entry => exact hEnded entry
    · rfl

/-- A new variable has no declaration yet. -/
theorem sameLedger_addVariable (table : SymbolTable) (scope : ScopeId) (name : String) :
    SameLedger table (table.addVariable scope name).2 := by
  have hNew : ∀ other : VariableId, (table.addVariable scope name).2.variables[other]? =
      if other = table.variables.size then some { name, scope } else table.variables[other]? :=
    fun _ => Array.getElem?_push
  refine ⟨fun other => ?_, fun other => ?_, rfl, rfl⟩
  · rw [definitionsOf, definitionsOf, hNew]
    split
    · next hEq => simp [hEq]
    · rfl
  · rw [endedAt, endedAt, hNew]
    split
    · next hEq => simp [hEq]
    · rfl

/-- To declare a name is not yet to define it. -/
theorem sameLedger_declare (table : SymbolTable) (scope : ScopeId) (name : String) :
    SameLedger table (table.declare scope name).2 := by
  unfold declare
  split
  · exact .refl table
  · exact (sameLedger_addVariable table scope name).trans (sameLedger_of_eq rfl rfl rfl)

theorem sameLedger_declareImplicit (table : SymbolTable) (scope : ScopeId) (name : String) :
    SameLedger table (table.declareImplicit scope name).2 := by
  unfold declareImplicit
  split
  · exact .refl table
  · exact (sameLedger_addVariable table scope name).trans (sameLedger_of_eq rfl rfl rfl)

theorem sameLedger_resolve (table : SymbolTable) (scope : ScopeId) (id : ReferenceId)
    (var : VariableId) : SameLedger table (table.resolve scope id var) :=
  resolve_induction (P := SameLedger table)
    (fun _ _ _ hChange h => h.trans (sameLedger_modifyVariable (fun entry => by rw [hChange entry])
      fun entry => by rw [hChange entry]))
    (fun _ _ _ _ h => h.trans (sameLedger_of_eq rfl rfl rfl)) (.refl table) scope id var

theorem sameLedger_abandon (table : SymbolTable) (scope : ScopeId) (id : ReferenceId) :
    SameLedger table (table.abandon scope id) :=
  abandon_induction (P := SameLedger table)
    (fun _ _ _ _ h => h.trans (sameLedger_of_eq rfl rfl rfl)) (.refl table) scope id

theorem sameLedger_delegate (hOk : table.delegate scope id = .ok next) : SameLedger table next :=
  delegate_induction (P := SameLedger table)
    (fun _ _ _ _ h => h.trans (sameLedger_of_eq rfl rfl rfl)) (.refl table) hOk

/-- What closing does with a reference says nothing of declarations. -/
theorem sameLedger_closeReference {closing : Closing}
    (hOk : table.closeReference settings scope closing id = .ok next) : SameLedger table next := by
  rcases closeReference_cases hOk with ⟨var, -, rfl⟩ | hPassed | hPassed | ⟨-, rfl⟩
  · exact sameLedger_resolve table scope id var
  · exact sameLedger_delegate hPassed
  · have hTaint : SameLedger table (table.modifyReference id fun reference =>
        { reference with tainted := true }) := sameLedger_of_eq rfl rfl rfl
    exact hTaint.trans (sameLedger_delegate hPassed)
  · exact sameLedger_abandon table scope id

theorem sameLedger_closeReferences {closing : Closing} (ids : List ReferenceId)
    (hOk : ids.foldlM (closeReference settings scope closing) table = .ok next) :
    SameLedger table next :=
  foldlM_induction (fun _ _ _ h hOk => h.trans (sameLedger_closeReference hOk)) ids (.refl table) hOk

/-- A variable is noted once at each place, after those that were noted there before. -/
theorem lookup_noteDeclared (var : VariableId) (location place : Location)
    (declared : List (Location × Array VariableId)) :
    ((noteDeclared var location declared).lookup place).getD #[] =
      if place = location ∧ var ∉ (declared.lookup place).getD #[] then
        ((declared.lookup place).getD #[]).push var
      else (declared.lookup place).getD #[] := by
  rw [noteDeclared, lookup_changeAt]
  by_cases hHere : place = location
  · subst hHere
    by_cases hMem : var ∈ (declared.lookup place).getD #[] <;> simp [hMem]
  · simp [hHere]

/-- A variable that is noted at some places comes last there, unless it is there. -/
theorem lookup_foldl_noteDeclared (var : VariableId) (places : List Location) (place : Location)
    (declared : List (Location × Array VariableId)) :
    ((places.foldl (fun noted location => noteDeclared var location noted) declared).lookup place).getD #[] =
      if place ∈ places ∧ var ∉ (declared.lookup place).getD #[] then
        ((declared.lookup place).getD #[]).push var
      else (declared.lookup place).getD #[] := by
  induction places generalizing declared with
  | nil => simp
  | cons location places ih =>
      rw [List.foldl_cons, ih, lookup_noteDeclared]
      by_cases hMem : var ∈ (declared.lookup place).getD #[]
      · simp [hMem]
      · by_cases hHere : place = location
        · subst hHere
          simp [hMem]
        · simp [hMem, hHere]

theorem declared_addDefinition (table : SymbolTable) (var : VariableId) (identifier : Node)
    (definition : Definition) : (table.addDefinition var identifier definition).declared =
      definition.places.foldl (fun noted location => noteDeclared var location noted) table.declared := by
  cases hParent : definition.parent <;> simp [addDefinition, Definition.places, hParent, modifyVariable]

/-- A definition is noted at every place where it stands, and nowhere else. -/
theorem declaredAt_addDefinition (table : SymbolTable) (var : VariableId) (identifier : Node)
    (definition : Definition) (location : Location) :
    (table.addDefinition var identifier definition).declaredAt location =
      if location ∈ definition.places ∧ var ∉ table.declaredAt location then
        (table.declaredAt location).push var
      else table.declaredAt location := by
  rw [declaredAt, declared_addDefinition]
  exact lookup_foldl_noteDeclared var definition.places location table.declared

/-- Membership does not depend on the order in which variables are noted. -/
theorem mem_declaredAt_addDefinition (identifier : Node) (definition : Definition)
    {location : Location} {other : VariableId} :
    other ∈ (table.addDefinition var identifier definition).declaredAt location ↔
      (definition.StandsAt location ∧ other = var) ∨ other ∈ table.declaredAt location := by
  rw [declaredAt_addDefinition, Definition.standsAt_iff]
  split
  · next h => simp [h.1, or_comm]
  · next h =>
      refine ⟨.inr, fun hMem => hMem.elim (fun ⟨hPlace, hSame⟩ => ?_) id⟩
      exact hSame ▸ Classical.byContradiction fun hNot => h ⟨hPlace, hNot⟩

/-- A definition joins the others of the variable, with its number in the order of all
definitions. -/
theorem definitionsOf_addDefinition (h : ∃ declared, table.variables[var]? = some declared)
    (identifier : Node) (definition : Definition) (other : VariableId) :
    (table.addDefinition var identifier definition).definitionsOf other =
      if other = var then
        (table.definitionsOf var).push { definition with serial := table.definitionCount }
      else table.definitionsOf other := by
  obtain ⟨declared, hDeclared⟩ := h
  rw [definitionsOf, getElem?_variables_addDefinition]
  by_cases hEq : other = var
  · subst hEq
    simp [definitionsOf, hDeclared]
  · rw [if_neg hEq, if_neg (Ne.symm hEq)]
    rfl

theorem mem_definitionsOf_addDefinition (h : ∃ declared, table.variables[var]? = some declared)
    {identifier : Node} {definition found : Definition} {other : VariableId} :
    found ∈ (table.addDefinition var identifier definition).definitionsOf other ↔
      found ∈ table.definitionsOf other ∨
        (other = var ∧ found = { definition with serial := table.definitionCount }) := by
  rw [definitionsOf_addDefinition h]
  split
  · next hEq => simp [hEq]
  · next hNe => simp [hNe]

/-- A definition does not end a declaration. The walk says so by an event of its own. -/
theorem endedAt_addDefinition (identifier : Node) (definition : Definition) (other : VariableId) :
    (table.addDefinition var identifier definition).endedAt other = table.endedAt other := by
  rw [endedAt, endedAt, getElem?_variables_addDefinition]
  split
  · cases table.variables[other]? <;> rfl
  · rfl

/-- The end of the declarations of some variables is noted, at each for which
none has been noted before. -/
structure NotesEnds (vars : List VariableId) (table next : SymbolTable) : Prop where
  definitionsOf : ∀ var, next.definitionsOf var = table.definitionsOf var
  endedAt : ∀ var, next.endedAt var =
    if var ∈ vars ∧ var < table.variables.size then
      (table.endedAt var).or (some table.references.size)
    else table.endedAt var
  declared : next.declared = table.declared
  definitionCount : next.definitionCount = table.definitionCount
  references : next.references = table.references
  size : next.variables.size = table.variables.size

theorem notesEnds_endVariable (table : SymbolTable) (var : VariableId) :
    NotesEnds [var] table (table.endVariable var) where
  definitionsOf := fun other => by
    rw [SymbolTable.definitionsOf, SymbolTable.definitionsOf, endVariable, getElem?_modifyVariable]
    split
    · cases table.variables[other]? <;> rfl
    · rfl
  endedAt := fun other => by
    rw [SymbolTable.endedAt, endVariable, getElem?_modifyVariable]
    simp only [List.mem_singleton]
    by_cases hEq : var = other
    · subst hEq
      rw [if_pos rfl]
      by_cases hLt : var < table.variables.size
      · rw [if_pos ⟨rfl, hLt⟩, SymbolTable.endedAt, Array.getElem?_eq_getElem hLt]
        rfl
      · rw [if_neg fun h => hLt h.2, SymbolTable.endedAt,
          Array.getElem?_eq_none (Nat.le_of_not_lt hLt)]
        rfl
    · rw [if_neg hEq, if_neg fun h => hEq h.1.symm]
      rfl
  declared := rfl
  definitionCount := rfl
  references := rfl
  size := Array.size_modify

/-- Ends that are noted one after another, of which the first counts for each variable. -/
theorem NotesEnds.append {first rest : List VariableId} {third : SymbolTable}
    (hFirst : NotesEnds first table next) (hRest : NotesEnds rest next third) :
    NotesEnds (first ++ rest) table third where
  definitionsOf := fun var => (hRest.definitionsOf var).trans (hFirst.definitionsOf var)
  endedAt := fun var => by
    rw [hRest.endedAt, hFirst.endedAt, hFirst.references, hFirst.size]
    by_cases hLt : var < table.variables.size
    · by_cases hOne : var ∈ first <;> by_cases hTwo : var ∈ rest <;>
        simp [hOne, hTwo, hLt]
    · simp [hLt]
  declared := hRest.declared.trans hFirst.declared
  definitionCount := hRest.definitionCount.trans hFirst.definitionCount
  references := hRest.references.trans hFirst.references
  size := hRest.size.trans hFirst.size

/-- The end of a declaration is noted for all variables that something in the node declares.
-/
theorem notesEnds_endDeclaration (table : SymbolTable) (node : Node) :
    NotesEnds (table.declaredAt node.location).toList table (table.endDeclaration node) := by
  rw [endDeclaration_eq, show table.declaredBy node = table.declaredAt node.location from rfl]
  generalize (table.declaredAt node.location).toList = vars
  induction vars generalizing table with
  | nil => exact ⟨fun _ => rfl, fun _ => by simp, rfl, rfl, rfl, rfl⟩
  | cons var vars ih => exact (notesEnds_endVariable table var).append (ih _)

section Induction

/-! What is kept by tables that say the same, and by one more definition of a
variable that there is, is kept by every event that ends no declaration. -/

variable {Q : Definition → Prop}
  (hSame : ∀ table next : SymbolTable, SameLedger table next → P table → P next)
  (hAdd : ∀ (table : SymbolTable) (var : VariableId) (identifier : Node) (definition : Definition),
    Q definition → (∃ declared, table.variables[var]? = some declared) → P table →
      P (table.addDefinition var identifier definition))

include hSame hAdd

/-- To define an identifier is to declare its name, if it is new, and to add one definition.
-/
theorem ledger_define (h : Nested table stack) (hScope : scope ∈ stack) (hTable : P table)
    (identifier : Node) {definition : Definition} (hDefinition : Q definition) :
    P (table.define scope identifier definition) := by
  unfold define
  split
  · obtain ⟨-, declared, hDeclared, -⟩ := advances_declare h hScope identifier.name
    exact hAdd _ _ _ _ hDefinition ⟨declared, hDeclared⟩
      (hSame _ _ (sameLedger_declare table scope identifier.name) hTable)
  · exact hTable

variable (hOther : ∀ definition : Definition, definition.isLexical = false → Q definition)

include hOther

/-- Names that are made global get definitions of their own kind. -/
theorem ledger_defineImplicit (h : Nested table stack) (hScope : scope ∈ stack) (hTable : P table) :
    P (table.defineImplicit scope) := by
  obtain ⟨-, hDefined⟩ := defineGlobals_induction hScope
    (fun next found hNext hTable => by
      obtain ⟨-, declared, hDeclared, -⟩ := advances_declareImplicit hNext hScope found.1.name
      exact hAdd _ _ _ _ (hOther _ rfl) ⟨declared, hDeclared⟩
        (hSame _ _ (sameLedger_declareImplicit next scope found.1.name) hTable))
    (table.globalsToDefine scope) h hTable
  rw [defineImplicit_eq]
  refine hSame _ _ ?_ hDefined
  exact sameLedger_of_eq rfl rfl rfl

/-- A scope that closes adds at most the definitions of implicit globals. -/
theorem ledger_close (h : Nested table (scope :: stack)) (hTable : P table)
    (hOk : table.close settings scope = .ok next) : P next := by
  obtain ⟨entry, middle, hFrom⟩ := exists_closesFrom h
  rw [hFrom.close] at hOk
  have hMiddle : P middle := hFrom.cases
    (fun _ => ledger_defineImplicit hSame hAdd hOther h List.mem_cons_self hTable) hTable
  have hHead : SameLedger middle (middle.closeHead scope) := sameLedger_of_eq rfl rfl rfl
  exact hSame _ _ (sameLedger_closeReferences _ hOk) (hSame _ _ hHead hMiddle)

/-- A scope that opens adds at most the definition of its own name. -/
theorem ledger_enter (h : Nested table table.stack) (hTable : P table) {kind : ScopeKind}
    {block : Node} {inMethod : Bool} (hOk : table.enter settings kind block inMethod = .ok next) :
    P next := by
  obtain ⟨strict, own, -, hOwn, -, rfl⟩ := enter_eq_ok hOk
  have hNested := (advances_addScope h kind block strict).nested
  have hFresh : P (table.addScope kind block strict).2 := by
    refine hSame table _ ?_ hTable
    rw [addScope_snd]
    split <;> exact sameLedger_of_eq rfl rfl rfl
  have hOpened : SameLedger own { own with
      globalScope := if kind = .global then some table.scopes.size else own.globalScope
      stack := table.scopes.size :: own.stack } := sameLedger_of_eq rfl rfl rfl
  refine hSame own _ hOpened ?_
  clear hOpened
  unfold declareOwn at hOwn
  split at hOwn
  · split at hOwn
    · cases hOwn
      exact hFresh
    · cases hOwn
      exact hSame _ _ (sameLedger_declare _ _ _) hFresh
  · obtain ⟨name, -, hNext⟩ := exists_of_bind_ok hOwn
    cases hNext
    exact ledger_define hSame hAdd hNested List.mem_cons_self hFresh _ (hOther _ rfl)
  · cases hOwn
    exact hFresh

omit hOther in
/-- A property that survives each single definition survives an event, unless the event ends
a declaration. -/
theorem ledger_apply (h : Nested table table.stack) (hTable : P table)
    (hEvent : ∀ node, event ≠ .endDeclaration node)
    (hDefines : ∀ definition, event.Defines definition → Q definition)
    (hOk : table.apply settings event = .ok next) : P next := by
  cases event with
  | enter kind block inMethod => exact ledger_enter hSame hAdd hDefines h hTable hOk
  | leave block =>
      obtain ⟨found, hFound, -, -, hNext⟩ := exists_leaveAll settings (P := P)
        (fun table stack hTable _ => hSame table _ (sameLedger_of_eq rfl rfl rfl) hTable)
        (fun table next scope stack hTable hNested hClose =>
          ledger_close hSame hAdd hDefines hNested hTable hClose) h hTable block
      cases hFound.symm.trans hOk
      exact hNext
  | define destination identifier definition =>
      obtain ⟨scope, hCurrent, hNext⟩ := exists_of_bind_ok hOk
      cases hNext
      exact ledger_define hSame hAdd h
        (h.destination_mem (mem_of_current_eq_ok hCurrent) destination) hTable _ (hDefines _ rfl)
  | use use =>
      obtain ⟨scope, -, hRecord⟩ := exists_record_of_apply hOk
      rcases record_eq_ok hRecord with ⟨-, rfl⟩ | ⟨-, -, rfl⟩
      · exact hTable
      · exact hSame table _ (sameLedger_of_eq rfl rfl rfl) hTable
  | directEval =>
      obtain ⟨scope, -, hNext⟩ := exists_of_bind_ok hOk
      cases hNext
      rw [detectEval_eq]
      exact hSame table _ (sameLedger_of_eq rfl rfl rfl) hTable
  | setStrict | thisExpression | bodyStart =>
      obtain ⟨scope, -, hNext⟩ := exists_of_bind_ok hOk
      cases hNext
      exact hSame table _ (sameLedger_of_eq rfl rfl rfl) hTable
  | endDeclaration node => exact absurd rfl (hEvent node)
  | fail failure => cases hOk

end Induction

end SymbolTable

end Scoping
