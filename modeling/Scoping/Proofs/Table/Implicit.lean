import Scoping.Proofs.Table.Distinct

/-! The names that a program makes global by assigning to them are in a global
scope, and nothing declares them. -/

namespace Scoping.SymbolTable

variable {settings : Settings} {table next : SymbolTable} {stack : List ScopeId}
  {scope : ScopeId} {event : Event} {var : VariableId}

/-- What makes a variable global is only ever an assignment, and the variable is
one of a global scope. -/
structure Assigned (table : SymbolTable) (var : VariableId) : Prop where
  global : ∀ (position : ScopeId) (entry : Scope), table.scopes[position]? = some entry →
    var ∈ entry.implicitVariables → entry.kind = .global
  kind : ∀ declared, table.variables[var]? = some declared →
    ∀ definition ∈ declared.definitions, definition.kind = .implicitGlobal

/-- All implicit globals are made by assignments. -/
def AllAssigned (table : SymbolTable) : Prop :=
  ∀ var, table.Implicit var → Assigned table var

theorem allAssigned_empty : AllAssigned {} := fun _ hImplicit => by
  obtain ⟨_, _, hEntry, -⟩ := hImplicit
  simp at hEntry

/-- A change that makes nothing global, and defines nothing that is implicit. -/
theorem AllAssigned.of_same (h : AllAssigned table)
    (hScopes : ∀ (position : ScopeId) (after : Scope), next.scopes[position]? = some after →
      ∀ var ∈ after.implicitVariables, ∃ before, table.scopes[position]? = some before ∧
        before.kind = after.kind ∧ var ∈ before.implicitVariables)
    (hVariables : ∀ (var : VariableId) (after : Variable), table.Implicit var →
      next.variables[var]? = some after →
        ∃ before, table.variables[var]? = some before ∧ after.definitions = before.definitions) :
    AllAssigned next := by
  rintro var ⟨position, after, hAfter, hVar⟩
  obtain ⟨before, hBefore, -, hMem⟩ := hScopes position after hAfter var hVar
  have hAssigned := h var ⟨position, before, hBefore, hMem⟩
  refine ⟨fun other entry hEntry hOther => ?_, fun declared hDeclared definition hDefinition => ?_⟩
  · obtain ⟨found, hFound, hKind, hListed⟩ := hScopes other entry hEntry var hOther
    exact hKind.symm.trans (hAssigned.global other found hFound hListed)
  · obtain ⟨found, hFound, hSame⟩ :=
      hVariables var declared ⟨position, before, hBefore, hMem⟩ hDeclared
    exact hAssigned.kind found hFound definition (hSame ▸ hDefinition)

/-- Whether all globals are assigned depends on scopes and variables alone. -/
theorem AllAssigned.of_eq (h : AllAssigned table) (hScopes : next.scopes = table.scopes)
    (hVariables : next.variables = table.variables) : AllAssigned next :=
  h.of_same (fun _ after hAfter _ hVar => ⟨after, hScopes ▸ hAfter, rfl, hVar⟩)
    fun _ after _ hAfter => ⟨after, hVariables ▸ hAfter, rfl⟩

theorem AllAssigned.modifyScope (h : AllAssigned table) {change : Scope → Scope}
    (hKind : ∀ entry, (change entry).kind = entry.kind)
    (hImplicit : ∀ entry, (change entry).implicitVariables = entry.implicitVariables) :
    AllAssigned (table.modifyScope scope change) := by
  refine h.of_same (fun position after hAfter var hVar => ?_) fun _ after _ hAfter => ⟨after, hAfter, rfl⟩
  obtain ⟨before, hBefore, rfl | ⟨-, rfl⟩⟩ := exists_of_modifyScope hAfter
  · exact ⟨after, hBefore, rfl, hVar⟩
  · exact ⟨before, hBefore, (hKind before).symm, hImplicit before ▸ hVar⟩

theorem AllAssigned.modifyVariable (h : AllAssigned table) {position : VariableId}
    {change : Variable → Variable}
    (hDefinitions : ∀ entry, (change entry).definitions = entry.definitions) :
    AllAssigned (table.modifyVariable position change) := by
  refine h.of_same (fun _ after hAfter _ hVar => ⟨after, hAfter, rfl, hVar⟩)
    fun var after _ hAfter => ?_
  rw [getElem?_modifyVariable] at hAfter
  split at hAfter
  · obtain ⟨before, hBefore, rfl⟩ := Option.map_eq_some_iff.1 hAfter
    exact ⟨before, hBefore, hDefinitions before⟩
  · exact ⟨after, hAfter, rfl⟩

/-- A name that is declared makes nothing global. -/
theorem AllAssigned.declare (h : AllAssigned table) (hPlaced : Placed table) (name : String) :
    AllAssigned (table.declare scope name).2 := by
  rw [hPlaced.declare_eq_declareIn]
  refine h.of_same (fun position after hAfter var hVar => ?_) fun var after hImplicit hAfter => ?_
  · unfold declareIn declareBy at hAfter
    split at hAfter
    · exact ⟨after, hAfter, rfl, hVar⟩
    · obtain ⟨before, hBefore, rfl | ⟨-, rfl⟩⟩ := exists_of_modifyScope hAfter
      · exact ⟨after, hBefore, rfl, hVar⟩
      · exact ⟨before, hBefore, rfl, hVar⟩
  · obtain ⟨position, entry, hEntry, hVar⟩ := hImplicit
    have hLt := hPlaced.homes_implicit.lt_size hEntry hVar
    rw [getElem?_variables_declareIn, if_neg fun hNew => Nat.ne_of_lt hLt hNew.2] at hAfter
    exact ⟨after, hAfter, rfl⟩

/-- A name that is declared in a list is in it. -/
theorem listed_declareIn {list : Scope → Array VariableId} {add : VariableId → Scope → Scope}
    {name : String} (h : table.Homes list)
    (hAdd : ∀ var entry, list (add var entry) = (list entry).push var)
    (hScope : ∃ entry, table.scopes[scope]? = some entry) :
    (table.declareIn list add scope name).2.Listed list
      (table.declareIn list add scope name).1 := by
  have hLookup : (table.declareIn list add scope name).2.lookupIn list scope name = some _ :=
    lookupIn_declareIn_self h hAdd hScope
  obtain ⟨entry, hEntry, hFind⟩ := Option.bind_eq_some_iff.1 hLookup
  exact ⟨scope, entry, hEntry, Array.mem_of_find?_eq_some hFind⟩

/-- A definition of a name that a scope declares defines nothing that is
implicit. -/
theorem AllAssigned.define (h : AllAssigned table) (hNamed : table.Named)
    (hNested : Nested table stack) (hScope : scope ∈ stack) (identifier : Node)
    (definition : Definition) : AllAssigned (table.define scope identifier definition) := by
  unfold SymbolTable.define
  split
  · have hPlaced := hNested.toPlaced
    have hDeclare : AllAssigned (table.declare scope identifier.name).2 := h.declare hPlaced _
    have hApart : ¬ (table.declare scope identifier.name).2.Implicit
        (table.declare scope identifier.name).1 := by
      have hExists := hNested.exists_of_mem hScope
      have hNext : (table.declare scope identifier.name).2.Named := hNamed.declare hPlaced hExists
      refine fun hImplicit => hNext.apart _ ?_ hImplicit
      rw [hPlaced.declare_eq_declareIn]
      refine listed_declareIn hPlaced.homes_variables ?_ hExists
      exact fun _ _ => rfl
    refine hDeclare.of_same (fun _ after hAfter _ hVar => ⟨after, hAfter, rfl, hVar⟩)
      fun var after hImplicit hAfter => ?_
    have hNe : (table.declare scope identifier.name).1 ≠ var := fun hEq => hApart (hEq ▸ hImplicit)
    rw [getElem?_variables_addDefinition, if_neg hNe] at hAfter
    exact ⟨after, hAfter, rfl⟩
  · exact h

/-- One more assignment to a name that is global by assignment. -/
theorem AllAssigned.addDefinition (h : AllAssigned table) {definition : Definition}
    (hKind : definition.kind = .implicitGlobal) (position : VariableId) (identifier : Node) :
    AllAssigned (table.addDefinition position identifier definition) := by
  intro var hImplicit
  have hAssigned := h var hImplicit
  refine ⟨hAssigned.global, fun declared hDeclared found hFound => ?_⟩
  rw [getElem?_variables_addDefinition] at hDeclared
  split at hDeclared
  · obtain ⟨before, hBefore, rfl⟩ := Option.map_eq_some_iff.1 hDeclared
    rcases Array.mem_push.1 hFound with hOld | rfl
    · exact hAssigned.kind before hBefore found hOld
    · exact hKind
  · exact hAssigned.kind declared hDeclared found hFound

/-- A name that is made global is one of a global scope. -/
theorem AllAssigned.declareImplicit (h : AllAssigned table) (hPlaced : Placed table)
    (hScope : ∃ entry, table.scopes[scope]? = some entry ∧ entry.kind = .global) (name : String) :
    AllAssigned (table.declareImplicit scope name).2 := by
  unfold SymbolTable.declareImplicit
  split
  · exact h
  rintro var ⟨position, after, hAfter, hVar⟩
  have hListed : ∀ (other : ScopeId) (entry : Scope),
      ((table.addVariable scope name).2.modifyScope scope
        (Scope.enlistImplicit name table.variables.size)).scopes[other]? = some entry → var ∈ entry.implicitVariables →
        (∃ before, table.scopes[other]? = some before ∧ before.kind = entry.kind ∧
          var ∈ before.implicitVariables) ∨ (entry.kind = .global ∧ var = table.variables.size) := by
    intro other entry hEntry hMem
    obtain ⟨before, hBefore, rfl | ⟨rfl, rfl⟩⟩ := exists_of_modifyScope hEntry
    · exact .inl ⟨entry, hBefore, rfl, hMem⟩
    · rcases Array.mem_push.1 hMem with hOld | hNew
      · exact .inl ⟨before, hBefore, rfl, hOld⟩
      · obtain ⟨owner, hOwner, hKind⟩ := hScope
        cases hOwner.symm.trans hBefore
        exact .inr ⟨hKind, hNew⟩
  have hLt : ∀ (other : ScopeId) (before : Scope), table.scopes[other]? = some before →
      var ∈ before.implicitVariables → var < table.variables.size :=
    fun other before hBefore hMem => hPlaced.homes_implicit.lt_size hBefore hMem
  refine ⟨fun other entry hEntry hMem => ?_, fun declared hDeclared definition hDefinition => ?_⟩
  · rcases hListed other entry hEntry hMem with ⟨before, hBefore, hKind, hOld⟩ | ⟨hKind, -⟩
    · rw [← hKind]
      exact (h var ⟨other, before, hBefore, hOld⟩).global other before hBefore hOld
    · exact hKind
  · rw [addVariable, variables_modifyScope, Array.getElem?_push] at hDeclared
    split at hDeclared
    · cases hDeclared
      simp at hDefinition
    · next hOldVar =>
        rcases hListed position after hAfter hVar with ⟨before, hBefore, -, hOld⟩ | ⟨-, hNew⟩
        · exact (h var ⟨position, before, hBefore, hOld⟩).kind declared hDeclared definition
            hDefinition
        · exact absurd hNew hOldVar

/-- All that a closing scope makes global it has been assigned. -/
theorem AllAssigned.defineImplicit (h : AllAssigned table) (hNested : Nested table stack)
    (hMem : scope ∈ stack)
    (hScope : ∃ entry, table.scopes[scope]? = some entry ∧ entry.kind = .global) :
    AllAssigned (table.defineImplicit scope) := by
  obtain ⟨-, hAssigned, -⟩ := defineGlobals_induction hMem
    (P := fun next => AllAssigned next ∧
      ∃ entry, next.scopes[scope]? = some entry ∧ entry.kind = .global)
    (fun next found hNext h => by
      refine ⟨(h.1.declareImplicit hNext.toPlaced h.2 found.1.name).addDefinition rfl _ _, ?_⟩
      obtain ⟨entry, hEntry, hKind⟩ := h.2
      obtain ⟨after, hAfter, hKept⟩ := ((advances_defineGlobal hNext hMem found).spares
        0).keeps.scope scope entry hEntry
      exact ⟨after, hAfter, hKept.kind.trans hKind⟩)
    (table.globalsToDefine scope) hNested ⟨h, hScope⟩
  rw [defineImplicit_eq]
  refine hAssigned.modifyScope ?_ ?_
  · exact fun _ => rfl
  · exact fun _ => rfl

theorem AllAssigned.closeReference (h : AllAssigned table) {closing : Closing} {id : ReferenceId}
    (hOk : table.closeReference settings scope closing id = .ok next) : AllAssigned next :=
  closeReference_induction
    (fun _ _ _ hChange h => h.modifyScope (fun entry => by rw [hChange entry])
      fun entry => by rw [hChange entry])
    (fun _ _ _ hChange h => h.modifyVariable fun entry => by rw [hChange entry])
    (fun _ _ _ _ h => h.of_eq rfl rfl) h hOk

theorem AllAssigned.close (h : AllAssigned table) (hNested : Nested table (scope :: stack))
    (hOk : table.close settings scope = .ok next) : AllAssigned next := by
  obtain ⟨entry, middle, hFrom⟩ := exists_closesFrom hNested
  rw [hFrom.close] at hOk
  have hMiddle : AllAssigned middle := hFrom.cases
    (fun hKind => h.defineImplicit hNested List.mem_cons_self ⟨entry, hFrom.found, hKind⟩) h
  have hHead : AllAssigned (middle.closeHead scope) :=
    hMiddle.modifyScope (fun _ => rfl) fun _ => rfl
  exact foldlM_induction (fun _ _ _ h hOk => h.closeReference hOk) _ hHead hOk

theorem AllAssigned.addScope (h : AllAssigned table) (hNested : Nested table table.stack)
    (kind : ScopeKind) (block : Node) (strict : Bool) :
    AllAssigned (table.addScope kind block strict).2 := by
  refine h.of_same (fun position after hAfter var hVar => ?_) fun var after _ hAfter => ?_
  · rw [getElem?_addScope hNested] at hAfter
    split at hAfter
    · cases hAfter
      simp [freshScope] at hVar
    · obtain ⟨before, hBefore, rfl⟩ := Option.map_eq_some_iff.1 hAfter
      exact ⟨before, hBefore, rfl, hVar⟩
  · refine ⟨after, ?_, rfl⟩
    rw [addScope_snd] at hAfter
    split at hAfter <;> exact hAfter

/-- A scope opens without any implicit globals. -/
theorem AllAssigned.enter (h : AllAssigned table) (hNamed : table.Named)
    (hNested : Nested table table.stack) {kind : ScopeKind} {block : Node} {inMethod : Bool}
    (hOk : table.enter settings kind block inMethod = .ok next) : AllAssigned next := by
  obtain ⟨strict, own, -, hOwn, -, rfl⟩ := enter_eq_ok hOk
  have hAdd := h.addScope hNested kind block strict
  have hAdvances := (advances_addScope hNested kind block strict).nested
  suffices hOwned : AllAssigned own from hOwned.of_eq rfl rfl
  unfold declareOwn at hOwn
  split at hOwn
  · split at hOwn
    · cases hOwn
      exact hAdd
    · cases hOwn
      exact hAdd.declare hAdvances.toPlaced _
  · obtain ⟨name, -, hNext⟩ := exists_of_bind_ok hOwn
    cases hNext
    exact hAdd.define (hNamed.addScope hNested _ _ _) hAdvances List.mem_cons_self _ _
  · cases hOwn
    exact hAdd

/-- An event that neither declares a name nor closes a scope. -/
theorem AllAssigned.still (h : AllAssigned table) (hStill : event.IsStill)
    (hKinds : ∀ (position : ScopeId) (before : Scope), table.scopes[position]? = some before →
      ∃ after, next.scopes[position]? = some after ∧ after.kind = before.kind)
    (hOk : table.apply settings event = .ok next) : AllAssigned next := by
  obtain ⟨hSame, hVariables⟩ := still_apply hStill hOk
  refine h.of_same (fun position after hAfter var hVar => ?_) fun var after hImplicit hAfter => ?_
  · have hLists := hSame.lists position
    rw [hAfter, Option.map_some, eq_comm, Option.map_eq_some_iff] at hLists
    obtain ⟨before, hBefore, hEq⟩ := hLists
    obtain ⟨found, hFound, hKind⟩ := hKinds position before hBefore
    cases hFound.symm.trans hAfter
    have hImplicit : before.implicitVariables = after.implicitVariables :=
      congrArg (fun lists => lists.2.1) hEq
    exact ⟨before, hBefore, hKind.symm, hImplicit ▸ hVar⟩
  · have hNames := hSame.names var
    rw [hAfter, Option.map_some, eq_comm, Option.map_eq_some_iff] at hNames
    obtain ⟨before, hBefore, -⟩ := hNames
    obtain ⟨found, hFound, hEq⟩ := hVariables var before hBefore
    cases hFound.symm.trans hAfter
    exact ⟨before, hBefore, by rw [hEq]⟩

/-- Whatever a walk does, only assignments make names global. -/
theorem allAssigned_apply (h : AllAssigned table) (hNamed : table.Named)
    (hNested : Nested table table.stack) (hOk : table.apply settings event = .ok next) :
    AllAssigned next := by
  cases event with
  | enter kind block inMethod => exact h.enter hNamed hNested hOk
  | leave block =>
      obtain ⟨found, hFound, -, -, hAssigned⟩ := exists_leaveAll settings
        (fun table stack h _ => AllAssigned.of_eq h rfl rfl)
        (fun table next scope stack h hNested hClose => AllAssigned.close h hNested hClose)
        hNested h block
      cases hFound.symm.trans hOk
      exact hAssigned
  | define destination identifier definition =>
      obtain ⟨scope, hCurrent, hNext⟩ := exists_of_bind_ok hOk
      cases hNext
      exact h.define hNamed hNested
        (hNested.destination_mem (mem_of_current_eq_ok hCurrent) destination) _ _
  | use use =>
      obtain ⟨scope, -, hRecord⟩ := exists_record_of_apply hOk
      refine h.still (by trivial) (fun position before hBefore => ?_) hOk
      obtain ⟨after, hAfter, hEq⟩ := getElem?_record hRecord hBefore
      exact ⟨after, hAfter, by rw [hEq]⟩
  | fail failure => cases hOk
  | setStrict | directEval | thisExpression | bodyStart | endDeclaration =>
      refine h.still (by trivial) (fun position before hBefore => ?_) hOk
      have hAdvances := advances_apply hNested (by trivial) hOk
      obtain ⟨after, hAfter, hKept⟩ := (hAdvances.spares 0).keeps.scope position before hBefore
      exact ⟨after, hAfter, hKept.kind⟩

end Scoping.SymbolTable
