import Scoping.Proofs.Table.Distinct
import Scoping.SymbolTable.Session

/-! All that events and commands can do to the names of a table is to open
scopes, some with a name of their own, and to define names. What is there stays. -/

namespace Scoping

/-- What a scope was opened as, and for which node. -/
def Scope.origin (scope : Scope) : ScopeKind × Node × Bool :=
  (scope.kind, scope.block, scope.ofFunctionName)

/-- What a scope is, and the names in it. -/
def Scope.roster (scope : Scope) : (ScopeKind × Node × Bool) ×
    (Array VariableId × List (String × VariableId)) ×
      (Array VariableId × List (String × VariableId)) :=
  (scope.origin, scope.catalog)

/-- What a variable is called, where it is, and all that defines it. -/
def Variable.record (var : Variable) : String × ScopeId × Array Definition × Array Node :=
  (var.name, var.scope, var.definitions, var.identifiers)

/-- References that move are no part of what a scope is and names. -/
theorem Scope.HandsOn.roster_eq {before after : Scope} (h : before.HandsOn after) :
    after.roster = before.roster := by
  rw [h]
  rfl

/-- A reference that comes to mean a variable is no part of the record of the variable. -/
theorem Variable.Settles.record_eq {before after : Variable} (h : before.Settles after) :
    after.record = before.record := by
  rw [h]
  rfl

/-- Whether a scope is of a function that has an `arguments` of its own. -/
def Scope.OwnsArguments (scope : Scope) : Prop :=
  scope.kind = .function ∧ scope.block.kind ≠ "ArrowFunctionExpression"

/-- A scope that has no names yet. -/
structure Scope.IsFresh (scope : Scope) : Prop where
  catalog : scope.catalog = ((#[], []), (#[], []))
  ofFunctionName : scope.ofFunctionName = true ↔ scope.kind = .functionName

/-- A scope before and after names are added. -/
structure Scope.Extends (before after : Scope) : Prop where
  kind : after.kind = before.kind
  block : after.block = before.block
  «variables» : before.variables.toList <+: after.variables.toList
  implicitVariables : before.implicitVariables.toList <+: after.implicitVariables.toList

/-- A variable before and after definitions of it are added. -/
structure Variable.Extends (before after : Variable) : Prop where
  name : after.name = before.name
  scope : after.scope = before.scope
  definitions : before.definitions.toList <+: after.definitions.toList
  identifiers : before.identifiers.toList <+: after.identifiers.toList

theorem Scope.Extends.refl (scope : Scope) : scope.Extends scope :=
  ⟨rfl, rfl, List.prefix_refl _, List.prefix_refl _⟩

theorem Scope.Extends.trans {first second third : Scope} (hFirst : first.Extends second)
    (hSecond : second.Extends third) : first.Extends third :=
  ⟨hSecond.kind.trans hFirst.kind, hSecond.block.trans hFirst.block,
    hFirst.variables.trans hSecond.variables,
    hFirst.implicitVariables.trans hSecond.implicitVariables⟩

theorem Variable.Extends.refl (var : Variable) : var.Extends var :=
  ⟨rfl, rfl, List.prefix_refl _, List.prefix_refl _⟩

theorem Variable.Extends.trans {first second third : Variable} (hFirst : first.Extends second)
    (hSecond : second.Extends third) : first.Extends third :=
  ⟨hSecond.name.trans hFirst.name, hSecond.scope.trans hFirst.scope,
    hFirst.definitions.trans hSecond.definitions, hFirst.identifiers.trans hSecond.identifiers⟩

namespace SymbolTable

/-- Two tables with the same scopes and names, and the same definitions of each. -/
structure Stays (table next : SymbolTable) : Prop where
  opened : next.opened = table.opened
  openedBy : next.openedBy = table.openedBy
  scopes : ∀ position : ScopeId,
    next.scopes[position]?.map Scope.roster = table.scopes[position]?.map Scope.roster
  variables_ : ∀ var : VariableId,
    next.variables[var]?.map Variable.record = table.variables[var]?.map Variable.record

/-- A table before and after scopes, names and definitions are added. -/
structure Extends (table next : SymbolTable) : Prop where
  scope : ∀ (position : ScopeId) (before : Scope), table.scopes[position]? = some before →
    ∃ after, next.scopes[position]? = some after ∧ before.Extends after
  variable_ : ∀ (var : VariableId) (before : Variable), table.variables[var]? = some before →
    ∃ after, next.variables[var]? = some after ∧ before.Extends after

/-- What can happen to the names of a table, one thing after another. -/
inductive Builds : SymbolTable → SymbolTable → Prop where
  | stay {table next : SymbolTable} (h : Stays table next) : Builds table next
  | open {table : SymbolTable} {fresh : Scope} (hFresh : fresh.IsFresh)
      (hKind : ¬ fresh.OwnsArguments) : Builds table (table.pushScope fresh)
  | openFunction {table middle : SymbolTable} {fresh : Scope} (hFresh : fresh.IsFresh)
      (hKind : fresh.OwnsArguments) (h : Stays (table.pushScope fresh) middle) :
      Builds table (middle.declare table.scopes.size "arguments").2
  | define {table : SymbolTable} (scope : ScopeId) (identifier : Node) (definition : Definition) :
      Builds table (table.define scope identifier definition)
  | defineImplicit {table : SymbolTable} (scope : ScopeId) (identifier : Node)
      (definition : Definition) :
      Builds table ((table.declareImplicit scope identifier.name).2.addDefinition
        (table.declareImplicit scope identifier.name).1 identifier definition)
  | trans {table middle next : SymbolTable} (hFirst : Builds table middle)
      (hSecond : Builds middle next) : Builds table next

variable {settings : Settings} {table middle next : SymbolTable} {scope position : ScopeId}
  {id : ReferenceId} {var : VariableId} {event : Event} {command : Command}
  {list : Scope → Array VariableId} {add : VariableId → Scope → Scope} {name : String}
  {identifier : Node}

theorem Stays.refl (table : SymbolTable) : Stays table table :=
  ⟨rfl, rfl, fun _ => rfl, fun _ => rfl⟩

theorem Stays.trans {third : SymbolTable} (hFirst : Stays table next) (hSecond : Stays next third) :
    Stays table third :=
  ⟨hSecond.opened.trans hFirst.opened, hSecond.openedBy.trans hFirst.openedBy,
    fun position => (hSecond.scopes position).trans (hFirst.scopes position),
    fun var => (hSecond.variables_ var).trans (hFirst.variables_ var)⟩

/-- The other parts of a table, such as its references and counts, play no role in what
stays. -/
theorem stays_of_eq (hOpened : next.opened = table.opened)
    (hOpenedBy : next.openedBy = table.openedBy) (hScopes : next.scopes = table.scopes)
    (hVariables : next.variables = table.variables) : Stays table next :=
  ⟨hOpened, hOpenedBy, fun _ => by rw [hScopes], fun _ => by rw [hVariables]⟩

/-- A change of a scope outside of its roster, which every mark and every list of references
is. -/
theorem stays_modifyScope {change : Scope → Scope}
    (hChange : ∀ entry, (change entry).roster = entry.roster) :
    Stays table (table.modifyScope scope change) := by
  refine ⟨rfl, rfl, fun position => ?_, fun _ => rfl⟩
  rw [getElem?_modifyScope]
  split
  · cases table.scopes[position]? <;> simp [hChange]
  · rfl

/-- A change of a variable outside of its record, which its references are and its end as
well. -/
theorem stays_modifyVariable {var : VariableId} {change : Variable → Variable}
    (hChange : ∀ entry, (change entry).record = entry.record) :
    Stays table (table.modifyVariable var change) := by
  refine ⟨rfl, rfl, fun _ => rfl, fun position => ?_⟩
  rw [getElem?_modifyVariable]
  split
  · cases table.variables[position]? <;> simp [hChange]
  · rfl

/-- A mark that many scopes get, one after another. -/
theorem stays_foldl_modifyScope {change : Scope → Scope}
    (hChange : ∀ entry, (change entry).roster = entry.roster) (scopes : List ScopeId) :
    Stays table (scopes.foldl (fun table scope => table.modifyScope scope change) table) := by
  induction scopes generalizing table with
  | nil => exact .refl table
  | cons scope scopes ih => exact (stays_modifyScope hChange).trans ih

theorem stays_detectEval (table : SymbolTable) (scope : ScopeId) :
    Stays table (table.detectEval scope) := by
  have hHere : Stays table (table.modifyScope scope fun entry =>
      { entry with directEval := true }) := stays_modifyScope fun _ => rfl
  refine hHere.trans (stays_foldl_modifyScope ?_ _)
  exact fun _ => rfl

/-- The end of a declaration says from where on a variable has its value. It defines
nothing. -/
theorem stays_endDeclaration (table : SymbolTable) (node : Node) :
    Stays table (table.endDeclaration node) :=
  endDeclaration_induction (P := Stays table)
    (fun _ _ h => h.trans (stays_modifyVariable fun _ => rfl)) (.refl table) node

theorem stays_closeReference {closing : Closing}
    (hOk : table.closeReference settings scope closing id = .ok next) : Stays table next :=
  closeReference_induction (P := Stays table)
    (fun _ _ _ hChange h =>
      h.trans (stays_modifyScope fun entry => (hChange entry).roster_eq))
    (fun _ _ _ hChange h =>
      h.trans (stays_modifyVariable fun entry => (hChange entry).record_eq))
    (fun _ _ _ _ h => h.trans (stays_of_eq rfl rfl rfl rfl)) (.refl table) hOk

/-- A use is recorded as a reference, and names nothing new. -/
theorem stays_record {use : Use} (hOk : table.record scope use = .ok next) : Stays table next := by
  rcases record_eq_ok hOk with ⟨-, rfl⟩ | ⟨-, -, rfl⟩
  · exact .refl _
  · have hPush : Stays table { table with references := table.references.push { use with scope } } :=
      stays_of_eq rfl rfl rfl rfl
    exact hPush.trans (stays_modifyScope fun _ => rfl)

theorem stays_closeReferences {closing : Closing} (ids : List ReferenceId)
    (hOk : ids.foldlM (closeReference settings scope closing) table = .ok next) :
    Stays table next :=
  foldlM_induction (fun _ _ _ h hOk => h.trans (stays_closeReference hOk)) ids (.refl table) hOk

/-- Implicit globals are declared and defined one by one, in the scope that closes. -/
theorem builds_defineImplicit (table : SymbolTable) (scope : ScopeId) :
    Builds table (table.defineImplicit scope) := by
  rw [defineImplicit_eq]
  refine .trans ?_ (.stay (stays_modifyScope fun _ => rfl))
  generalize table.globalsToDefine scope = found
  induction found generalizing table with
  | nil => exact .stay (.refl table)
  | cons first found ih => exact .trans (.defineImplicit scope first.1 _) (ih _)

/-- A scope that closes makes names global, if it is the global one. -/
theorem builds_close (hOk : table.close settings scope = .ok next) : Builds table next := by
  cases hEntry : table.scopes[scope]? with
  | none =>
      simp only [close, hEntry] at hOk
      cases hOk
      exact .stay (.refl _)
  | some entry =>
      rw [close_eq settings hEntry] at hOk
      have hHead : ∀ table : SymbolTable, Stays table (table.closeHead scope) :=
        fun _ => stays_modifyScope fun _ => rfl
      refine .trans ?_ (.stay ((hHead _).trans (stays_closeReferences _ hOk)))
      split
      · exact builds_defineImplicit table scope
      · exact .stay (.refl table)

/-- Leaving a scope builds as closing it does. -/
theorem builds_leave {left : Option ScopeId × SymbolTable} (hOk : table.leave settings = .ok left) :
    Builds table left.2 := by
  unfold leave at hOk
  split at hOk
  · cases hOk
    exact .stay (.refl table)
  · next stack hStack =>
      obtain ⟨closed, hClose, hRest⟩ := exists_of_bind_ok hOk
      have hPop : Stays table { table with stack } := stays_of_eq rfl rfl rfl rfl
      split at hRest
      · cases hRest
        exact .trans (.stay hPop) (builds_close hClose)
      · cases hRest

/-- Scopes of one node that are left together build as each of them does. -/
theorem builds_leaveAll {node : Node} (hOk : table.leaveAll settings node = .ok next) :
    Builds table next := by
  refine foldlM_induction (fun middle next scope h hOk => ?_) _ (.stay (.refl table)) hOk
  obtain ⟨left, hLeft, hNext⟩ := exists_of_bind_ok hOk
  cases hNext
  exact .trans h (builds_leave hLeft)

/-- A scope that opens has at most one name from the start. -/
theorem builds_enter {kind : ScopeKind} {block : Node} {inMethod : Bool}
    (hOk : table.enter settings kind block inMethod = .ok next) : Builds table next := by
  obtain ⟨strict, own, -, hOwn, -, rfl⟩ := enter_eq_ok hOk
  have hAdd : Stays (table.pushScope (table.freshScope kind block strict))
      (table.addScope kind block strict).2 := by
    rw [addScope_snd]
    split
    · exact stays_modifyScope fun _ => rfl
    · exact .refl _
  have hFresh : (table.freshScope kind block strict).IsFresh := ⟨rfl, decide_eq_true_iff⟩
  have hPlain : kind ≠ .function ∨ block.kind = "ArrowFunctionExpression" →
      Builds table (table.addScope kind block strict).2 := fun hKind => by
    have hOpen : Builds table (table.pushScope (table.freshScope kind block strict)) :=
      .open hFresh fun hOwns => hKind.elim (fun hNot => hNot hOwns.1) hOwns.2
    exact hOpen.trans (.stay hAdd)
  suffices hBuilds : Builds table own from hBuilds.trans (.stay (stays_of_eq rfl rfl rfl rfl))
  unfold declareOwn at hOwn
  split at hOwn
  · split at hOwn
    · next hArrow =>
        cases hOwn
        exact hPlain (.inr hArrow)
    · next hNot =>
        cases hOwn
        have hOwns : (table.freshScope .function block strict).OwnsArguments := ⟨rfl, hNot⟩
        exact .openFunction hFresh hOwns hAdd
  · obtain ⟨name, -, hNext⟩ := exists_of_bind_ok hOwn
    cases hNext
    exact .trans (hPlain (.inl (by decide))) (.define _ _ _)
  · next hFunction _ =>
      cases hOwn
      exact hPlain (.inl hFunction)

/-- Whatever an event does to the names of a table, it does in these ways of building. -/
theorem builds_apply (hOk : table.apply settings event = .ok next) : Builds table next := by
  cases event with
  | enter kind block inMethod => exact builds_enter hOk
  | leave block => exact builds_leaveAll hOk
  | define destination identifier definition =>
      obtain ⟨scope, -, hNext⟩ := exists_of_bind_ok hOk
      cases hNext
      exact .define _ _ _
  | use use =>
      obtain ⟨scope, -, hRecord⟩ := exists_record_of_apply hOk
      exact .stay (stays_record hRecord)
  | setStrict strict =>
      obtain ⟨scope, -, hNext⟩ := exists_of_bind_ok hOk
      cases hNext
      exact .stay (stays_modifyScope fun _ => rfl)
  | directEval =>
      obtain ⟨scope, -, hNext⟩ := exists_of_bind_ok hOk
      cases hNext
      exact .stay (stays_detectEval table _)
  | thisExpression =>
      obtain ⟨scope, -, hNext⟩ := exists_of_bind_ok hOk
      cases hNext
      exact .stay (stays_modifyScope fun _ => rfl)
  | bodyStart =>
      obtain ⟨scope, -, hNext⟩ := exists_of_bind_ok hOk
      cases hNext
      exact .stay (stays_modifyScope fun entry => by split <;> rfl)
  | endDeclaration node =>
      cases hOk
      exact .stay (stays_endDeclaration table node)
  | fail failure => cases hOk

/-- So does every command, be it one that enters or leaves, or an event. -/
theorem builds_obey (hOk : table.obey settings command = .ok next) : Builds table next := by
  cases command with
  | enter kind block inMethod => exact builds_enter hOk
  | leave =>
      obtain ⟨left, hLeave, hNext⟩ := exists_of_bind_ok hOk
      cases hNext
      exact builds_leave hLeave
  | setStrict strict =>
      obtain ⟨scope, -, hNext⟩ := exists_of_bind_ok hOk
      cases hNext
      exact .stay (stays_modifyScope fun _ => rfl)
  | thisExpression =>
      obtain ⟨scope, -, hNext⟩ := exists_of_bind_ok hOk
      cases hNext
      exact .stay (stays_modifyScope fun _ => rfl)

/-- A run builds step by step. -/
theorem builds_run {events : List Event} (hOk : table.run settings events = .ok next) :
    Builds table next :=
  foldlM_induction (fun _ _ _ h hOk => .trans h (builds_apply hOk)) events (.stay (.refl table)) hOk

/-- Defining an identifier is declaring its name, which may be there, and then adding the
definition. -/
theorem define_eq (h : identifier.isIdentifier = true) (definition : Definition) :
    table.define scope identifier definition =
      (table.declare scope identifier.name).2.addDefinition
        (table.declare scope identifier.name).1 identifier definition := by
  rw [define, if_pos h]

/-- What is not an identifier has no name to define. Patterns are never defined as a whole.
-/
theorem define_eq_self (h : identifier.isIdentifier = false) (definition : Definition) :
    table.define scope identifier definition = table := by
  rw [define, h]
  rfl

theorem Extends.refl (table : SymbolTable) : Extends table table :=
  ⟨fun _ before hBefore => ⟨before, hBefore, .refl before⟩,
    fun _ before hBefore => ⟨before, hBefore, .refl before⟩⟩

theorem Extends.trans (hFirst : Extends table middle) (hSecond : Extends middle next) :
    Extends table next where
  scope := fun position before hBefore => by
    obtain ⟨between, hBetween, hExtends⟩ := hFirst.scope position before hBefore
    obtain ⟨after, hAfter, hMore⟩ := hSecond.scope position between hBetween
    exact ⟨after, hAfter, hExtends.trans hMore⟩
  variable_ := fun var before hBefore => by
    obtain ⟨between, hBetween, hExtends⟩ := hFirst.variable_ var before hBefore
    obtain ⟨after, hAfter, hMore⟩ := hSecond.variable_ var between hBetween
    exact ⟨after, hAfter, hExtends.trans hMore⟩

/-- A scope of the second table was there in the first, under the same number. -/
theorem Stays.exists_scope (h : Stays table next) {after : Scope}
    (hAfter : next.scopes[position]? = some after) :
    ∃ before, table.scopes[position]? = some before ∧ after.roster = before.roster := by
  have hSame := h.scopes position
  rw [hAfter, Option.map_some, eq_comm, Option.map_eq_some_iff] at hSame
  obtain ⟨before, hBefore, hEq⟩ := hSame
  exact ⟨before, hBefore, hEq.symm⟩

theorem Stays.exists_variable (h : Stays table next) {after : Variable}
    (hAfter : next.variables[var]? = some after) :
    ∃ before, table.variables[var]? = some before ∧ after.record = before.record := by
  have hSame := h.variables_ var
  rw [hAfter, Option.map_some, eq_comm, Option.map_eq_some_iff] at hSame
  obtain ⟨before, hBefore, hEq⟩ := hSame
  exact ⟨before, hBefore, hEq.symm⟩

/-- That names stay is said of both tables alike. -/
theorem Stays.symm (h : Stays table next) : Stays next table :=
  ⟨h.opened.symm, h.openedBy.symm, fun position => (h.scopes position).symm, fun var => (h.variables_ var).symm⟩

theorem Stays.extends (h : Stays table next) : Extends table next where
  scope := fun position before hBefore => by
    obtain ⟨after, hAfter, hEq⟩ := h.symm.exists_scope hBefore
    simp only [Scope.roster, Scope.origin, Scope.catalog, Prod.mk.injEq] at hEq
    obtain ⟨⟨hKind, hBlock, -⟩, ⟨hVariables, -⟩, hImplicit, -⟩ := hEq
    exact ⟨after, hAfter, hKind.symm, hBlock.symm, hVariables ▸ List.prefix_refl _,
      hImplicit ▸ List.prefix_refl _⟩
  variable_ := fun var before hBefore => by
    obtain ⟨after, hAfter, hEq⟩ := h.symm.exists_variable hBefore
    simp only [Variable.record, Prod.mk.injEq] at hEq
    obtain ⟨hName, hScope, hDefinitions, hIdentifiers⟩ := hEq
    exact ⟨after, hAfter, hName.symm, hScope.symm, hDefinitions ▸ List.prefix_refl _,
      hIdentifiers ▸ List.prefix_refl _⟩

theorem size_pushScope (table : SymbolTable) (fresh : Scope) :
    (table.pushScope fresh).scopes.size = table.scopes.size + 1 :=
  Array.size_push fresh

theorem extends_pushScope (table : SymbolTable) (fresh : Scope) :
    Extends table (table.pushScope fresh) :=
  ⟨fun _ before hBefore => ⟨before, getElem?_pushScope_of_some hBefore, .refl before⟩,
    fun _ before hBefore => ⟨before, hBefore, .refl before⟩⟩

/-- A name that is declared adds at most a variable to a list. -/
theorem extends_declareBy (hAdd : ∀ var entry, Scope.Extends entry (add var entry))
    (found : Option VariableId) (scope : ScopeId) (name : String) :
    Extends table (table.declareBy found add scope name).2 := by
  cases found with
  | some var => exact .refl table
  | none =>
      refine ⟨fun position before hBefore => ?_, fun var before hBefore => ?_⟩
      · have hAdded : (table.addVariable scope name).2.scopes[position]? = some before := hBefore
        rw [declareBy, getElem?_modifyScope, hAdded]
        split
        · exact ⟨_, rfl, hAdd _ _⟩
        · exact ⟨before, rfl, .refl before⟩
      · have hLt : var < table.variables.size := (Array.getElem?_eq_some_iff.1 hBefore).1
        refine ⟨before, ?_, .refl before⟩
        rw [getElem?_variables_declareBy, if_neg fun hNew => Nat.ne_of_lt hLt hNew.2, hBefore]

theorem extends_addDefinition (table : SymbolTable) (var : VariableId) (identifier : Node)
    (definition : Definition) : Extends table (table.addDefinition var identifier definition) where
  scope := fun _ before hBefore => ⟨before, hBefore, .refl before⟩
  variable_ := fun position before hBefore => by
    rw [getElem?_variables_addDefinition, hBefore]
    split
    · refine ⟨_, rfl, rfl, rfl, ?_, ?_⟩
      · rw [Array.toList_push]
        exact List.prefix_append _ _
      · rw [Array.toList_push]
        exact List.prefix_append _ _
    · exact ⟨before, rfl, .refl before⟩

/-- A name that is put on the list of a scope and into its index takes nothing from either.
-/
theorem extends_enlist (var : VariableId) (entry : Scope) :
    Scope.Extends entry (entry.enlist name var) :=
  ⟨rfl, rfl, by rw [Scope.enlist, Array.toList_push]; exact List.prefix_append _ _,
    List.prefix_refl _⟩

theorem extends_enlistImplicit (var : VariableId) (entry : Scope) :
    Scope.Extends entry (entry.enlistImplicit name var) :=
  ⟨rfl, rfl, List.prefix_refl _,
    by rw [Scope.enlistImplicit, Array.toList_push]; exact List.prefix_append _ _⟩

theorem extends_declare (table : SymbolTable) (scope : ScopeId) (name : String) :
    Extends table (table.declare scope name).2 :=
  extends_declareBy extends_enlist _ _ _

/-- An implicit global joins a list of its own, beside the names that scopes declare. -/
theorem extends_declareImplicit (table : SymbolTable) (scope : ScopeId) (name : String) :
    Extends table (table.declareImplicit scope name).2 :=
  extends_declareBy extends_enlistImplicit _ _ _

/-- Nothing that happens to a table takes away a name or a definition. -/
theorem Builds.extends (h : Builds table next) : Extends table next := by
  induction h with
  | stay hStays => exact hStays.extends
  | «open» => exact extends_pushScope _ _
  | openFunction _ _ hStays =>
      exact (extends_pushScope _ _).trans (hStays.extends.trans (extends_declare _ _ _))
  | @define table scope identifier definition =>
      by_cases hIdentifier : identifier.isIdentifier = true
      · rw [define_eq hIdentifier]
        exact (extends_declare _ _ _).trans (extends_addDefinition _ _ _ _)
      · rw [define_eq_self (by simpa using hIdentifier)]
        exact .refl table
  | defineImplicit scope identifier definition =>
      exact (extends_declareImplicit _ _ _).trans (extends_addDefinition _ _ _ _)
  | trans _ _ ihFirst ihSecond => exact ihFirst.trans ihSecond

end SymbolTable

end Scoping
