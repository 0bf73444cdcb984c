import Scoping.Proofs.Table.Opening
import Scoping.SymbolTable.Leave

namespace Scoping

/-- What each step of a fold keeps, the fold keeps. -/
theorem foldlM_induction {ε σ α : Type} {P : σ → Prop} {f : σ → α → Except ε σ}
    (hStep : ∀ (state next : σ) (item : α), P state → f state item = .ok next → P next)
    (items : List α) {state last : σ} (h : P state) (hOk : items.foldlM f state = .ok last) :
    P last := by
  induction items generalizing state with
  | nil =>
      cases hOk
      exact h
  | cons item items ih =>
      obtain ⟨middle, hMiddle, hRest⟩ := exists_of_bind_ok hOk
      exact ih (hStep state middle item h hMiddle) hRest

/-- What is seen of a result is seen of something that there is. -/
theorem exists_of_map_toOption {ε α β : Type} {x : Except ε α} (observe : α → β) {observed : β}
    (h : x.toOption.map observe = some observed) : ∃ a, x = .ok a ∧ observe a = observed := by
  cases x with
  | error failure => cases h
  | ok a => exact ⟨a, rfl, Option.some.inj h⟩

/-- A scope before and after scopes have closed. Only what waits in it and what
passes through it may differ, and what a global scope keeps of that. -/
def Scope.Settles (before after : Scope) : Prop :=
  after = { before with
    through := after.through
    pending := after.pending
    implicitVariables := after.implicitVariables
    implicitNames := after.implicitNames
    implicitPending := after.implicitPending }

theorem Scope.Settles.trans {first second third : Scope} (hFirst : first.Settles second)
    (hSecond : second.Settles third) : first.Settles third := by
  unfold Scope.Settles at hFirst hSecond ⊢
  rw [hFirst] at hSecond
  exact hSecond

/-- A scope before and after references have moved. -/
def Scope.HandsOn (before after : Scope) : Prop :=
  after = { before with through := after.through, pending := after.pending }

theorem Scope.HandsOn.trans {first second third : Scope} (hFirst : first.HandsOn second)
    (hSecond : second.HandsOn third) : first.HandsOn third := by
  unfold Scope.HandsOn at hFirst hSecond ⊢
  rw [hFirst] at hSecond
  exact hSecond

/-- References that move change less than closing may, since no name is made global by that.
-/
theorem Scope.HandsOn.settles {before after : Scope} (h : before.HandsOn after) :
    before.Settles after := by
  unfold Scope.HandsOn at h
  unfold Scope.Settles
  rw [h]

/-- References that move leave the names of a scope alone, those in its list and those in
its index. -/
theorem Scope.HandsOn.catalog {before after : Scope} (h : before.HandsOn after) :
    after.catalog = before.catalog := by
  rw [h]
  rfl

/-- A reference before and after scopes have closed. -/
def Reference.Settles (before after : Reference) : Prop :=
  after = { before with
    resolved := after.resolved
    tainted := after.tainted
    inDeadZone := after.inDeadZone }

theorem Reference.Settles.trans {first second third : Reference} (hFirst : first.Settles second)
    (hSecond : second.Settles third) : first.Settles third := by
  unfold Reference.Settles at hFirst hSecond ⊢
  rw [hFirst] at hSecond
  exact hSecond

/-- A variable before and after scopes have closed. -/
def Variable.Settles (before after : Variable) : Prop :=
  after = { before with
    references := after.references
    tainted := after.tainted
    stack := after.stack }

theorem Variable.Settles.trans {first second third : Variable} (hFirst : first.Settles second)
    (hSecond : second.Settles third) : first.Settles third := by
  unfold Variable.Settles at hFirst hSecond ⊢
  rw [hFirst] at hSecond
  exact hSecond

namespace SymbolTable

/-- Two tables whose scopes list the same variables, under the same names. -/
structure SameNames (table next : SymbolTable) : Prop where
  lists : ∀ position : ScopeId,
    next.scopes[position]?.map Scope.catalog = table.scopes[position]?.map Scope.catalog
  names : ∀ var : VariableId,
    next.variables[var]?.map Variable.home = table.variables[var]?.map Variable.home

/-- A variable that the program makes global by assigning to it. -/
def Implicit (table : SymbolTable) (var : VariableId) : Prop :=
  ∃ (position : ScopeId) (entry : Scope), table.scopes[position]? = some entry ∧
    var ∈ entry.implicitVariables

/-- What closing scopes leaves as it was. -/
structure Closes (stack : List ScopeId) (table next : SymbolTable) : Prop where
  nested : Nested next stack
  scope : ∀ (scope : ScopeId) (before : Scope), table.scopes[scope]? = some before →
    ∃ after, next.scopes[scope]? = some after ∧ before.Settles after
  reference : ∀ (id : ReferenceId) (before : Reference), table.references[id]? = some before →
    ∃ after, next.references[id]? = some after ∧ before.Settles after
  variable_ : ∀ (var : VariableId) (before : Variable), table.variables[var]? = some before →
    ¬ table.Implicit var →
      ∃ after, next.variables[var]? = some after ∧ before.Settles after ∧ ¬ next.Implicit var
  scopesSize : next.scopes.size = table.scopes.size
  referencesSize : next.references.size = table.references.size
  definitionCount : table.definitionCount ≤ next.definitionCount
  stack : next.stack = table.stack
  globalScope : next.globalScope = table.globalScope

/-- One step of closing, which concerns one reference. -/
structure Moves (id : ReferenceId) (stack : List ScopeId) (table next : SymbolTable) : Prop
    extends Closes stack table next where
  spares : Spares id table next
  same : SameNames table next

variable {table next : SymbolTable} {stack : List ScopeId} {scope : ScopeId} {id : ReferenceId}

theorem SameNames.refl (table : SymbolTable) : SameNames table table :=
  ⟨fun _ => rfl, fun _ => rfl⟩

theorem SameNames.trans {third : SymbolTable} (hFirst : SameNames table next)
    (hSecond : SameNames next third) : SameNames table third :=
  ⟨fun position => (hSecond.lists position).trans (hFirst.lists position),
    fun var => (hSecond.names var).trans (hFirst.names var)⟩

/-- No change of a scope outside of its catalog is a change of names. This covers every list
of references. -/
theorem sameNames_modifyScope {change : Scope → Scope}
    (hCatalog : ∀ entry, (change entry).catalog = entry.catalog) :
    SameNames table (table.modifyScope scope change) := by
  refine ⟨fun position => ?_, fun _ => rfl⟩
  rw [getElem?_modifyScope]
  split
  · cases table.scopes[position]? <;> simp [hCatalog]
  · rfl

theorem sameNames_modifyVariable {var : VariableId} {change : Variable → Variable}
    (hHome : ∀ entry, (change entry).home = entry.home) :
    SameNames table (table.modifyVariable var change) := by
  refine ⟨fun _ => rfl, fun position => ?_⟩
  rw [getElem?_modifyVariable]
  split
  · cases table.variables[position]? <;> simp [hHome]
  · rfl

theorem Closes.refl (h : Nested table stack) : Closes stack table table :=
  ⟨h, fun _ before hBefore => ⟨before, hBefore, rfl⟩, fun _ before hBefore => ⟨before, hBefore, rfl⟩,
    fun _ before hBefore hOwn => ⟨before, hBefore, rfl, hOwn⟩, rfl, rfl, Nat.le_refl _, rfl, rfl⟩

/-- Closings follow one another when a scope is left in between: the first is then seen with
the open scopes of the second. -/
theorem Closes.trans_with {later rest : List ScopeId} {third : SymbolTable}
    (hFirst : Closes stack table next)
    (hSecond : Closes later { next with stack := rest } third) :
    Closes later { table with stack := rest } third where
  nested := hSecond.nested
  scope := fun position before hBefore => by
    obtain ⟨middle, hMiddle, hSettles⟩ := hFirst.scope position before hBefore
    obtain ⟨after, hAfter, hMore⟩ := hSecond.scope position middle hMiddle
    exact ⟨after, hAfter, hSettles.trans hMore⟩
  reference := fun position before hBefore => by
    obtain ⟨middle, hMiddle, hSettles⟩ := hFirst.reference position before hBefore
    obtain ⟨after, hAfter, hMore⟩ := hSecond.reference position middle hMiddle
    exact ⟨after, hAfter, hSettles.trans hMore⟩
  variable_ := fun var before hBefore hOwn => by
    obtain ⟨middle, hMiddle, hSettles, hStill⟩ := hFirst.variable_ var before hBefore hOwn
    obtain ⟨after, hAfter, hMore, hLast⟩ := hSecond.variable_ var middle hMiddle hStill
    exact ⟨after, hAfter, hSettles.trans hMore, hLast⟩
  scopesSize := hSecond.scopesSize.trans hFirst.scopesSize
  referencesSize := hSecond.referencesSize.trans hFirst.referencesSize
  definitionCount := Nat.le_trans hFirst.definitionCount hSecond.definitionCount
  stack := hSecond.stack
  globalScope := hSecond.globalScope.trans hFirst.globalScope

theorem Closes.trans {later : List ScopeId} {third : SymbolTable}
    (hFirst : Closes stack table next) (hSecond : Closes later next third) :
    Closes later table third := by
  have hBoth : Closes later { table with stack := next.stack } third := hFirst.trans_with hSecond
  rw [hFirst.stack] at hBoth
  exact hBoth

theorem Moves.trans {third : SymbolTable} (hFirst : Moves id stack table next)
    (hSecond : Moves id stack next third) : Moves id stack table third :=
  ⟨hFirst.toCloses.trans hSecond.toCloses, hFirst.spares.trans hSecond.spares,
    hFirst.same.trans hSecond.same⟩

/-- The tree of scopes does not depend on which of them have closed. -/
theorem Closes.upper? (h : Closes stack table next) (position : ScopeId) :
    next.upper? position = table.upper? position := by
  cases hBefore : table.scopes[position]? with
  | some before =>
      obtain ⟨after, hAfter, hSettles⟩ := h.scope position before hBefore
      rw [upper?_of_getElem? hBefore, upper?_of_getElem? hAfter, hSettles]
  | none =>
      have hNone : next.scopes[position]? = none := by
        rw [Array.getElem?_eq_none_iff, h.scopesSize]
        exact Array.getElem?_eq_none_iff.1 hBefore
      simp [SymbolTable.upper?, hBefore, hNone]

/-- A variable is implicit by the lists of the scopes alone, so a change that spares those
does not make it so. -/
theorem not_implicit_modifyScope {change : Scope → Scope} {var : VariableId}
    (hImplicit : ∀ entry, (change entry).implicitVariables = entry.implicitVariables)
    (h : ¬ table.Implicit var) : ¬ (table.modifyScope scope change).Implicit var := by
  rintro ⟨position, after, hAfter, hMem⟩
  obtain ⟨before, hBefore, rfl | ⟨-, rfl⟩⟩ := exists_of_modifyScope hAfter
  · exact h ⟨position, after, hBefore, hMem⟩
  · rw [hImplicit] at hMem
    exact h ⟨position, before, hBefore, hMem⟩

/-- A change of one scope that only moves one reference in it. -/
theorem moves_modifyScope (h : Nested table stack) {change : Scope → Scope}
    (hHands : ∀ entry, Scope.HandsOn entry (change entry))
    (hSpares : ∀ entry, Scope.Spares id entry (change entry)) :
    Moves id stack table (table.modifyScope scope change) where
  nested := h.modifyScope
    (fun entry => ⟨(hSpares entry).kind, (hSpares entry).block, (hSpares entry).upper,
      (hSpares entry).variableScope, by rw [hHands entry]; exact fun hDynamic => hDynamic⟩)
    (fun entry => (hSpares entry).isOpen) fun entry hEntry => hEntry.of_eq (hHands entry).catalog
  scope := fun position before hBefore => by
    rw [getElem?_modifyScope, hBefore]
    split
    · exact ⟨change before, rfl, (hHands before).settles⟩
    · exact ⟨before, rfl, rfl⟩
  reference := fun _ before hBefore => ⟨before, hBefore, rfl⟩
  variable_ := fun _ before hBefore hOwn =>
    ⟨before, hBefore, rfl, not_implicit_modifyScope (fun entry => by rw [hHands entry]) hOwn⟩
  scopesSize := Array.size_modify
  referencesSize := rfl
  definitionCount := Nat.le_refl _
  stack := rfl
  globalScope := rfl
  spares := spares_modifyScope fun entry _ => hSpares entry
  same := sameNames_modifyScope fun entry => (hHands entry).catalog

/-- A reference passes through a scope. -/
theorem moves_through (h : Nested table stack) (scope : ScopeId) (id : ReferenceId) :
    Moves id stack table
      (table.modifyScope scope fun entry => { entry with through := entry.through.push id }) := by
  refine moves_modifyScope h ?_ ?_
  · exact fun _ => rfl
  · exact fun _ => ⟨rfl, rfl, rfl, rfl, rfl, fun _ _ => rfl, fun _ _ => rfl,
      fun _ hId => count_push_of_ne hId, fun _ => ⟨rfl, rfl, rfl⟩⟩

/-- A reference waits in one more scope, if that is open. -/
theorem moves_pending (h : Nested table stack) (scope : ScopeId) (id : ReferenceId) :
    Moves id stack table (table.modifyScope scope fun entry =>
      { entry with pending := entry.pending.map fun pending => pending.push id }) := by
  refine moves_modifyScope h ?_ ?_
  · exact fun _ => rfl
  · refine fun entry => ⟨rfl, rfl, rfl, rfl, by simp, fun _ _ => rfl, fun other hOther => ?_,
      fun _ _ => rfl, fun _ => ⟨rfl, rfl, rfl⟩⟩
    cases hPending : entry.pending with
    | none => simp [Scope.waiting, hPending]
    | some pending => simp [Scope.waiting, hPending, count_push_of_ne hOther]

/-- What is said of a reference itself is not counted anywhere, so any change that settles
it is a step of closing. -/
theorem moves_modifyReference (h : Nested table stack) (id : ReferenceId)
    {change : Reference → Reference} (hSettles : ∀ entry, Reference.Settles entry (change entry)) :
    Moves id stack table (table.modifyReference id change) where
  nested := h.congr rfl fun _ before hBefore => ⟨before, hBefore, rfl⟩
  scope := fun _ before hBefore => ⟨before, hBefore, rfl⟩
  reference := fun position before hBefore => by
    rw [getElem?_modifyReference, hBefore]
    split
    · exact ⟨change before, rfl, hSettles before⟩
    · exact ⟨before, rfl, rfl⟩
  variable_ := fun _ before hBefore hOwn => ⟨before, hBefore, rfl, hOwn⟩
  scopesSize := rfl
  referencesSize := Array.size_modify
  definitionCount := Nat.le_refl _
  stack := rfl
  globalScope := rfl
  spares := spares_modifyReference table id change
  same := ⟨fun _ => rfl, fun _ => rfl⟩

/-- A variable may list the one reference at hand once more or less. The others are counted
as before. -/
theorem moves_modifyVariable (h : Nested table stack) {var : VariableId}
    {change : Variable → Variable} (hSettles : ∀ entry, Variable.Settles entry (change entry))
    (hReferences : ∀ entry, ∀ other ≠ id,
      (change entry).references.count other = entry.references.count other) :
    Moves id stack table (table.modifyVariable var change) where
  nested := h.modifyVariable fun entry => by rw [hSettles entry]
  scope := fun _ before hBefore => ⟨before, hBefore, rfl⟩
  reference := fun _ before hBefore => ⟨before, hBefore, rfl⟩
  variable_ := fun position before hBefore hOwn => by
    rw [getElem?_modifyVariable, hBefore]
    split
    · exact ⟨change before, rfl, hSettles before, hOwn⟩
    · exact ⟨before, rfl, rfl, hOwn⟩
  scopesSize := rfl
  referencesSize := rfl
  definitionCount := Nat.le_refl _
  stack := rfl
  globalScope := rfl
  spares := spares_modifyVariable (fun entry => by rw [hSettles entry])
    (fun entry => by rw [hSettles entry]) hReferences fun entry _ _ => by rw [hSettles entry]
  same := sameNames_modifyVariable fun entry => by rw [hSettles entry]

/-- A reference that is resolved passes through the scope and is listed by what it means,
all at the same step. -/
theorem moves_resolve (h : Nested table stack) (scope : ScopeId) (id : ReferenceId)
    (var : VariableId) : Moves id stack table (table.resolve scope id var) := by
  unfold resolve
  split
  · next reference entry _ _ =>
      have hVariable : Moves id stack table (table.modifyVariable var fun entry =>
          { entry with
            references := entry.references.push id
            stack := entry.stack && table.sameFunction reference.scope scope
            tainted := entry.tainted || reference.tainted }) :=
        moves_modifyVariable h (fun _ => rfl) fun _ _ hOther => count_push_of_ne hOther
      exact hVariable.trans (moves_modifyReference hVariable.nested id fun _ => rfl)
  · exact ⟨.refl h, .refl _ _, .refl _⟩

/-- A reference that nothing around declares stays in what passes through the scope. -/
theorem moves_abandon (h : Nested table stack) (scope : ScopeId) (id : ReferenceId) :
    Moves id stack table (table.abandon scope id) := by
  unfold abandon
  generalize table.enclosing scope = scopes
  induction scopes generalizing table with
  | nil => exact ⟨.refl h, .refl _ _, .refl _⟩
  | cons scope scopes ih =>
      have hFirst := moves_through h scope id
      exact hFirst.trans (ih hFirst.nested)

/-- What closing a scope does with a reference, if it can. -/
theorem closeReference_cases {closing : Closing}
    (hOk : table.closeReference settings scope closing id = .ok next) :
    (∃ var, table.resolution? scope id = some var ∧ next = table.resolve scope id var) ∨
      table.delegate scope id = .ok next ∨
      (table.modifyReference id fun reference => { reference with tainted := true }).delegate
        scope id = .ok next ∨
      ((closing = .abandoning ∨ closing = .byName) ∧ next = table.abandon scope id) := by
  have hResolve : table.resolveOrDelegate scope id = .ok next →
      (∃ var, table.resolution? scope id = some var ∧ next = table.resolve scope id var) ∨
        table.delegate scope id = .ok next := fun hOk => by
    unfold resolveOrDelegate at hOk
    split at hOk
    · next var hVar =>
        cases hOk
        exact .inl ⟨var, hVar, rfl⟩
    · exact .inr hOk
  cases closing with
  | resolving => exact (hResolve hOk).imp_right .inl
  | tainting => exact .inr (.inr (.inl hOk))
  | abandoning =>
      cases hOk
      exact .inr (.inr (.inr ⟨.inl rfl, rfl⟩))
  | byName =>
      simp only [closeReference] at hOk
      split at hOk
      · exact (hResolve hOk).imp_right .inl
      · cases hOk
        exact .inr (.inr (.inr ⟨.inr rfl, rfl⟩))

/-- What a reference resolves to is found under the name that the reference has recorded. -/
theorem exists_of_resolution? {var : VariableId} (h : table.resolution? scope id = some var) :
    ∃ reference, table.references[id]? = some reference ∧
      table.lookup? scope reference.identifier.name = some var := by
  obtain ⟨reference, hReference, hRest⟩ := Option.bind_eq_some_iff.1 h
  obtain ⟨found, hFound, hEntry⟩ := Option.bind_eq_some_iff.1 hRest
  obtain ⟨entry, -, hOwner⟩ := Option.bind_eq_some_iff.1 hEntry
  obtain ⟨owner, -, hSame⟩ := Option.bind_eq_some_iff.1 hOwner
  split at hSame
  · cases hSame
  · cases hSame
    exact ⟨reference, hReference, hFound⟩

section Changes

/-! What closing a scope does with a reference is made of single changes: of what waits
in a scope or passes through it, of what a variable knows of its references, and of
the reference. What all of those keep is kept. -/

variable {P : SymbolTable → Prop}
  (hScope : ∀ (table : SymbolTable) (scope : ScopeId) (change : Scope → Scope),
    (∀ entry, Scope.HandsOn entry (change entry)) → P table → P (table.modifyScope scope change))

include hScope

/-- A property that survives the single changes of a table survives a reference being given
up. -/
theorem abandon_induction (hTable : P table) (scope : ScopeId) (id : ReferenceId) :
    P (table.abandon scope id) := by
  unfold abandon
  generalize table.enclosing scope = scopes
  induction scopes generalizing table with
  | nil => exact hTable
  | cons first scopes ih => exact ih (hScope table first _ (fun _ => rfl) hTable)

/-- It also survives a reference being handed to the scope around. -/
theorem delegate_induction (hTable : P table) (hOk : table.delegate scope id = .ok next) :
    P next := by
  have hPassed : P (table.modifyScope scope fun entry =>
      { entry with through := entry.through.push id }) := hScope _ _ _ (fun _ => rfl) hTable
  unfold delegate at hOk
  split at hOk
  · cases hOk
    exact hPassed
  · split at hOk
    · cases hOk
    · cases hOk
      exact hScope _ _ _ (fun _ => rfl) hPassed

variable
  (hVariable : ∀ (table : SymbolTable) (var : VariableId) (change : Variable → Variable),
    (∀ entry, Variable.Settles entry (change entry)) → P table → P (table.modifyVariable var change))
  (hReference : ∀ (table : SymbolTable) (id : ReferenceId) (change : Reference → Reference),
    (∀ entry, Reference.Settles entry (change entry)) → P table →
      P (table.modifyReference id change))

include hVariable hReference

omit hScope in
/-- It also survives a reference being resolved. -/
theorem resolve_induction (hTable : P table) (scope : ScopeId) (id : ReferenceId)
    (var : VariableId) : P (table.resolve scope id var) := by
  unfold resolve
  split
  · refine hReference _ _ _ ?_ (hVariable _ _ _ ?_ hTable)
    · exact fun _ => rfl
    · exact fun _ => rfl
  · exact hTable

/-- Whichever of the three happens to a reference, a property that survives each single
change survives it. -/
theorem closeReference_induction {closing : Closing} (hTable : P table)
    (hOk : table.closeReference settings scope closing id = .ok next) : P next := by
  rcases closeReference_cases hOk with ⟨var, -, rfl⟩ | hPassed | hPassed | ⟨-, rfl⟩
  · exact resolve_induction hVariable hReference hTable scope id var
  · exact delegate_induction hScope hTable hPassed
  · have hTainted : P (table.modifyReference id fun reference =>
        { reference with tainted := true }) := hReference _ _ _ (fun _ => rfl) hTable
    exact delegate_induction hScope hTainted hPassed
  · exact abandon_induction hScope hTable scope id

end Changes

/-- Giving a reference up records that in the scope only. -/
theorem references_abandon (table : SymbolTable) (scope : ScopeId) (id : ReferenceId) :
    (table.abandon scope id).references = table.references :=
  abandon_induction (P := fun next => next.references = table.references)
    (fun _ _ _ _ h => h) rfl scope id

/-- A reference that is handed on does not itself say where it waits. -/
theorem references_delegate (hOk : table.delegate scope id = .ok next) :
    next.references = table.references :=
  delegate_induction (P := fun next => next.references = table.references)
    (fun _ _ _ _ h => h) rfl hOk

/-- A reference can be handed to the scope around, as long as that is open. -/
theorem exists_delegate (h : Nested table stack) (id : ReferenceId)
    (hUpper : ∀ upper ∈ table.upper? scope, upper ∈ stack) :
    ∃ next, table.delegate scope id = .ok next ∧ Moves id stack table next := by
  have hThrough := moves_through h scope id
  unfold delegate
  cases hOut : table.upper? scope with
  | none => exact ⟨_, rfl, hThrough⟩
  | some upper =>
      obtain ⟨entry, pending, hEntry, hPending⟩ := h.pending_of_mem (hUpper upper hOut)
      simp only [hEntry, Option.bind_some, hPending]
      exact ⟨_, rfl, hThrough.trans (moves_pending hThrough.nested upper id)⟩

/-- A reference can be resolved or handed on, as long as the scope around is open. -/
theorem exists_resolveOrDelegate (h : Nested table stack) (id : ReferenceId)
    (hUpper : ∀ upper ∈ table.upper? scope, upper ∈ stack) :
    ∃ next, table.resolveOrDelegate scope id = .ok next ∧ Moves id stack table next := by
  unfold resolveOrDelegate
  split
  · exact ⟨_, rfl, moves_resolve h scope id _⟩
  · exact exists_delegate h id hUpper

/-- Closing a scope can deal with each reference that waits in it. -/
theorem exists_closeReference (settings : Settings) (closing : Closing) (h : Nested table stack)
    (id : ReferenceId) (hUpper : ∀ upper ∈ table.upper? scope, upper ∈ stack) :
    ∃ next, table.closeReference settings scope closing id = .ok next ∧
      Moves id stack table next := by
  cases closing with
  | resolving => exact exists_resolveOrDelegate h id hUpper
  | tainting =>
      have hTaint : Moves id stack table (table.modifyReference id fun reference =>
          { reference with tainted := true }) := moves_modifyReference h id fun _ => rfl
      obtain ⟨next, hOk, hMoves⟩ := exists_delegate hTaint.nested id
        fun upper hOut => hUpper upper (hTaint.upper? scope ▸ hOut)
      exact ⟨next, hOk, hTaint.trans hMoves⟩
  | abandoning => exact ⟨_, rfl, moves_abandon h scope id⟩
  | byName =>
      simp only [closeReference]
      split
      · exact exists_resolveOrDelegate h id hUpper
      · exact ⟨_, rfl, moves_abandon h scope id⟩

/-- No reference that waits is in the way of another one: the scopes around stay open. -/
theorem exists_closeReferences (settings : Settings) (closing : Closing) (ids : List ReferenceId)
    (h : Nested table stack) (hUpper : ∀ upper ∈ table.upper? scope, upper ∈ stack) :
    ∃ next, ids.foldlM (closeReference settings scope closing) table = .ok next ∧
      Closes stack table next := by
  induction ids generalizing table with
  | nil => exact ⟨table, rfl, .refl h⟩
  | cons id ids ih =>
      obtain ⟨middle, hMiddle, hMoves⟩ := exists_closeReference settings closing h id hUpper
      obtain ⟨next, hNext, hCloses⟩ := ih hMoves.nested (by rw [hMoves.upper?]; exact hUpper)
      refine ⟨next, ?_, hMoves.toCloses.trans hCloses⟩
      rw [List.foldlM_cons, hMiddle]
      exact hNext

/-- What a closing scope keeps with each reference that it deals with, it keeps with all
of them. -/
theorem closeReferences_induction {closing : Closing} {P : SymbolTable → Prop}
    (hStep : ∀ (table next : SymbolTable) (id : ReferenceId), Nested table stack →
      (∀ upper ∈ table.upper? scope, upper ∈ stack) → P table → Moves id stack table next →
      table.closeReference settings scope closing id = .ok next → P next)
    (ids : List ReferenceId) (h : Nested table stack)
    (hUpper : ∀ upper ∈ table.upper? scope, upper ∈ stack) (hTable : P table)
    (hOk : ids.foldlM (closeReference settings scope closing) table = .ok next) : P next := by
  obtain ⟨-, -, hNext⟩ := foldlM_induction (P := fun table => Nested table stack ∧
    (∀ upper ∈ table.upper? scope, upper ∈ stack) ∧ P table)
    (fun table next id hKept hOk => by
      obtain ⟨hNested, hUpper, hTable⟩ := hKept
      obtain ⟨found, hFound, hMoves⟩ := exists_closeReference settings closing hNested id hUpper
      cases hFound.symm.trans hOk
      exact ⟨hMoves.nested, by rw [hMoves.upper?]; exact hUpper,
        hStep table next id hNested hUpper hTable hMoves hOk⟩)
    ids ⟨h, hUpper, hTable⟩ hOk
  exact hNext

/-- What only adds to a table closes too, if it adds no more to scopes and variables than
closing may. -/
theorem Advances.closes (h : Advances stack table next)
    (hScope : ∀ (scope : ScopeId) (before : Scope), table.scopes[scope]? = some before →
      ∃ after, next.scopes[scope]? = some after ∧ before.Settles after)
    (hVariable : ∀ (var : VariableId) (before : Variable), table.variables[var]? = some before →
      ¬ table.Implicit var →
        ∃ after, next.variables[var]? = some after ∧ before.Settles after ∧ ¬ next.Implicit var)
    (hSize : next.scopes.size = table.scopes.size)
    (hCount : table.definitionCount ≤ next.definitionCount) : Closes stack table next where
  nested := h.nested
  scope := hScope
  variable_ := hVariable
  reference := fun id before hBefore => ⟨before, by rw [h.references]; exact hBefore, rfl⟩
  scopesSize := hSize
  referencesSize := by rw [h.references]
  definitionCount := hCount
  stack := h.stack
  globalScope := h.globalScope

theorem settles_modifyScope {change : Scope → Scope}
    (hSettles : ∀ entry, Scope.Settles entry (change entry)) {position : ScopeId} {before : Scope}
    (hBefore : table.scopes[position]? = some before) :
    ∃ after, (table.modifyScope scope change).scopes[position]? = some after ∧
      before.Settles after := by
  rw [getElem?_modifyScope, hBefore]
  split
  · exact ⟨change before, rfl, hSettles before⟩
  · exact ⟨before, rfl, rfl⟩

/-- Declaring an implicit global adds a variable, which settles every scope that there was.
-/
theorem settles_declareImplicit (table : SymbolTable) (scope : ScopeId) (name : String) :
    (∀ (position : ScopeId) (before : Scope), table.scopes[position]? = some before →
      ∃ after, (table.declareImplicit scope name).2.scopes[position]? = some after ∧
        before.Settles after) ∧
      (table.declareImplicit scope name).2.scopes.size = table.scopes.size := by
  unfold declareImplicit
  split
  · exact ⟨fun _ before hBefore => ⟨before, hBefore, rfl⟩, rfl⟩
  · refine ⟨fun position before hBefore => ?_, Array.size_modify⟩
    have hAdd : (table.addVariable scope name).2.scopes[position]? = some before := hBefore
    refine settles_modifyScope ?_ hAdd
    exact fun _ => rfl

/-- A variable that is not implicit is another one than any that is made global. -/
theorem own_declareImplicit (h : Placed table) (scope : ScopeId) (name : String)
    {var : VariableId} {before : Variable} (hBefore : table.variables[var]? = some before)
    (hOwn : ¬ table.Implicit var) :
    (table.declareImplicit scope name).2.variables[var]? = some before ∧
      var ≠ (table.declareImplicit scope name).1 ∧
      ¬ (table.declareImplicit scope name).2.Implicit var := by
  have hLt : var < table.variables.size := (Array.getElem?_eq_some_iff.1 hBefore).1
  unfold declareImplicit
  split
  · next found hFound =>
      refine ⟨hBefore, fun hEq => ?_, hOwn⟩
      obtain ⟨entry, hEntry, hFind⟩ := Option.bind_eq_some_iff.1 hFound
      exact hOwn ⟨scope, entry, hEntry,
        hEq ▸ (h.catalogs scope entry hEntry).2.mem_of_lookup hFind⟩
  · refine ⟨?_, Nat.ne_of_lt hLt, ?_⟩
    · rw [variables_modifyScope]
      simp [addVariable, Array.getElem?_push, Nat.ne_of_lt hLt, hBefore]
    · rintro ⟨position, after, hAfter, hMem⟩
      obtain ⟨found, hFound, rfl | ⟨-, rfl⟩⟩ := exists_of_modifyScope hAfter
      · exact hOwn ⟨position, after, hFound, hMem⟩
      · rcases Array.mem_push.1 hMem with hOld | hNew
        · exact hOwn ⟨position, found, hFound, hOld⟩
        · exact Nat.ne_of_lt hLt hNew

theorem advances_keepPending (h : Nested table stack) (hScope : scope ∈ stack) :
    Advances stack table (table.modifyScope scope fun entry =>
      { entry with implicitPending := entry.pending.getD #[] }) :=
  advances_of_sameFrame h hScope (fun _ => ⟨rfl, rfl, rfl, rfl, rfl, rfl, rfl, id⟩)
    fun _ => rfl

/-- One more assignment that makes a global. -/
def defineGlobal (scope : ScopeId) (table : SymbolTable) (found : Node × Node) : SymbolTable :=
  (table.declareImplicit scope found.1.name).2.addDefinition
    (table.declareImplicit scope found.1.name).1 found.1
    { kind := .implicitGlobal, name := found.1, node := found.2 }

/-- The assignments that make globals of the names that they assign to. -/
def globalsToDefine (table : SymbolTable) (scope : ScopeId) : List (Node × Node) :=
  (table.implicitGlobals scope).toList.filter fun found => found.1.isIdentifier

/-- Defining the implicit globals one by one is a fold over the assignments that make them.
What waits is kept in the end. -/
theorem defineImplicit_eq (table : SymbolTable) (scope : ScopeId) :
    table.defineImplicit scope =
      ((table.globalsToDefine scope).foldl (defineGlobal scope) table).modifyScope scope
        fun entry => { entry with implicitPending := entry.pending.getD #[] } := by
  unfold defineImplicit globalsToDefine
  rw [← Array.foldl_toList, List.foldl_filter]
  rfl

theorem advances_defineGlobal (h : Nested table stack) (hScope : scope ∈ stack) (found : Node × Node) :
    Advances stack table (defineGlobal scope table found) := by
  obtain ⟨hDeclare, hVar⟩ := advances_declareImplicit h hScope found.1.name
  exact hDeclare.trans (advances_addDefinition_of_mem hDeclare.nested hScope hVar _ _)

theorem closes_defineGlobal (h : Nested table stack) (hScope : scope ∈ stack) (found : Node × Node) :
    Closes stack table (defineGlobal scope table found) := by
  obtain ⟨hSettles, hSize⟩ := settles_declareImplicit table scope found.1.name
  refine (advances_defineGlobal h hScope found).closes hSettles (fun var before hBefore hOwn => ?_)
    hSize ?_
  · obtain ⟨hSame, hNe, hStill⟩ := own_declareImplicit h.toPlaced scope found.1.name hBefore hOwn
    refine ⟨before, ?_, rfl, hStill⟩
    simp [defineGlobal, addDefinition, hSame, Ne.symm hNe]
  · have hCount : (table.declareImplicit scope found.1.name).2.definitionCount =
        table.definitionCount := by
      unfold declareImplicit
      split <;> rfl
    exact hCount ▸ Nat.le_succ _

/-- What each assignment that makes a global keeps, all of them keep. -/
theorem defineGlobals_induction {P : SymbolTable → Prop} (hScope : scope ∈ stack)
    (hEach : ∀ (table : SymbolTable) (found : Node × Node), Nested table stack → P table →
      P (defineGlobal scope table found))
    (found : List (Node × Node)) (h : Nested table stack) (hTable : P table) :
    Nested (found.foldl (defineGlobal scope) table) stack ∧
      P (found.foldl (defineGlobal scope) table) := by
  induction found generalizing table with
  | nil => exact ⟨h, hTable⟩
  | cons first found ih =>
      exact ih (advances_defineGlobal h hScope first).nested (hEach table first h hTable)

/-- Implicit globals are the only names that closing declares. They are kept
apart from the names of the scope. -/
theorem defineImplicit_spec (h : Nested table stack) (hScope : scope ∈ stack) :
    Advances stack table (table.defineImplicit scope) ∧
      Closes stack table (table.defineImplicit scope) := by
  obtain ⟨hNested, hAdvances, hCloses⟩ := defineGlobals_induction hScope
    (P := fun next => Advances stack table next ∧ Closes stack table next)
    (fun next found hNext h => ⟨h.1.trans (advances_defineGlobal hNext hScope found),
      h.2.trans (closes_defineGlobal hNext hScope found)⟩)
    (table.globalsToDefine scope) h ⟨.refl h, .refl h⟩
  rw [defineImplicit_eq]
  have hKeep := advances_keepPending hNested hScope
  refine ⟨hAdvances.trans hKeep, hCloses.trans (hKeep.closes (fun position before hBefore => ?_)
    (fun _ before hBefore hOwn => ⟨before, hBefore, rfl, ?_⟩) Array.size_modify (Nat.le_refl _))⟩
  · refine settles_modifyScope ?_ hBefore
    exact fun _ => rfl
  · refine not_implicit_modifyScope ?_ hOwn
    exact fun _ => rfl

/-- Closing a scope in its three parts: what it makes global, that it waits for nothing
more, and the references that waited. -/
theorem close_eq (settings : Settings) {entry : Scope} (hEntry : table.scopes[scope]? = some entry) :
    table.close settings scope =
      entry.waiting.toList.foldlM (closeReference settings scope (entry.closing settings))
        ((if entry.kind = .global then table.defineImplicit scope else table).closeHead scope) := by
  simp only [close, hEntry, Scope.waiting, Array.foldlM_toList, closeHead]

/-- A scope that stops waiting has not declared, recorded or resolved anything. -/
theorem closes_closeHead (h : Nested table (scope :: stack)) :
    Closes stack table (table.closeHead scope) where
  nested := h.closeHead
  scope := fun _ _ hBefore => by
    refine settles_modifyScope ?_ hBefore
    exact fun _ => rfl
  reference := fun _ before hBefore => ⟨before, hBefore, rfl⟩
  variable_ := fun _ before hBefore hOwn => by
    refine ⟨before, hBefore, rfl, not_implicit_modifyScope ?_ hOwn⟩
    exact fun _ => rfl
  scopesSize := Array.size_modify
  referencesSize := rfl
  definitionCount := Nat.le_refl _
  stack := rfl
  globalScope := rfl

/-- How the innermost open scope closes. First what it makes global is defined, which
leaves the table in the middle. Then the scope waits for nothing more, and it goes
through the references that waited. -/
structure ClosesFrom (scope : ScopeId) (stack : List ScopeId) (entry : Scope)
    (table middle : SymbolTable) : Prop where
  found : table.scopes[scope]? = some entry
  global : entry.kind = .global → middle = table.defineImplicit scope
  other : entry.kind ≠ .global → middle = table
  advances : Advances (scope :: stack) table middle
  closes : Closes (scope :: stack) table middle
  upper : ∀ upper ∈ (middle.closeHead scope).upper? scope, upper ∈ stack
  close : ∀ settings, table.close settings scope =
    entry.waiting.toList.foldlM (closeReference settings scope (entry.closing settings))
      (middle.closeHead scope)

theorem ClosesFrom.closesHead {entry : Scope} {middle : SymbolTable}
    (h : ClosesFrom scope stack entry table middle) :
    Closes stack table (middle.closeHead scope) :=
  h.closes.trans (closes_closeHead h.closes.nested)

/-- What the definition of the implicit globals keeps holds in the middle. -/
theorem ClosesFrom.cases {P : SymbolTable → Prop} {entry : Scope} {middle : SymbolTable}
    (h : ClosesFrom scope stack entry table middle)
    (hGlobal : entry.kind = .global → P (table.defineImplicit scope)) (hOther : P table) :
    P middle := by
  by_cases hKind : entry.kind = .global
  · rw [h.global hKind]
    exact hGlobal hKind
  · rw [h.other hKind]
    exact hOther

/-- Every innermost open scope closes in that way, whether or not the references that waited
can all be dealt with. -/
theorem exists_closesFrom (h : Nested table (scope :: stack)) :
    ∃ entry middle, ClosesFrom scope stack entry table middle := by
  obtain ⟨entry, hEntry, hUpper⟩ := h.chain scope stack (List.suffix_refl _)
  have hSpec : Advances (scope :: stack) table
        (if entry.kind = .global then table.defineImplicit scope else table) ∧
      Closes (scope :: stack) table
        (if entry.kind = .global then table.defineImplicit scope else table) := by
    split
    · exact defineImplicit_spec h List.mem_cons_self
    · exact ⟨.refl h, .refl h⟩
  have hOut := (hSpec.2.trans (closes_closeHead hSpec.2.nested)).upper? scope
  rw [upper?_of_getElem? hEntry, hUpper] at hOut
  exact ⟨entry, _, hEntry, fun hKind => if_pos hKind, fun hKind => if_neg hKind, hSpec.1, hSpec.2,
    fun upper hMem => List.mem_of_mem_head? (hOut ▸ hMem), fun settings => close_eq settings hEntry⟩

/-- The innermost open scope can always be closed. -/
theorem exists_close (settings : Settings) (h : Nested table (scope :: stack)) :
    ∃ next, table.close settings scope = .ok next ∧ Closes stack table next := by
  obtain ⟨entry, middle, hFrom⟩ := exists_closesFrom h
  obtain ⟨next, hOk, hCloses⟩ := exists_closeReferences settings (entry.closing settings)
    entry.waiting.toList hFrom.closesHead.nested hFrom.upper
  exact ⟨next, by rw [hFrom.close, hOk], hFrom.closesHead.trans hCloses⟩

/-- Dealing with references keeps what a closed scope says of a name, since no name is
declared by that. -/
theorem keeps_closeReferences {closing : Closing} (ids : List ReferenceId)
    (hNested : Nested table stack) (hUpper : ∀ upper ∈ table.upper? scope, upper ∈ stack)
    (hOk : ids.foldlM (closeReference settings scope closing) table = .ok next)
    {start : SymbolTable} (hKeeps : Keeps start table) : Keeps start next :=
  closeReferences_induction (fun _ _ _ _ _ hKeeps hMoves _ => hKeeps.trans hMoves.spares.keeps)
    ids hNested hUpper hKeeps hOk

/-- A scope that closes leaves what the closed scopes say of a name. -/
theorem keeps_close (hNested : Nested table (scope :: stack))
    (hOk : table.close settings scope = .ok next) : Keeps table next := by
  obtain ⟨entry, middle, hFrom⟩ := exists_closesFrom hNested
  rw [hFrom.close] at hOk
  exact keeps_closeReferences entry.waiting.toList hFrom.closesHead.nested hFrom.upper hOk
    ((hFrom.advances.spares table.references.size).keeps.trans (keeps_closeHead middle scope))

/-- Leaving the current scope always succeeds, and ends in the scope around it. -/
theorem exists_leave (settings : Settings) (h : Nested table (scope :: stack))
    (hStack : table.stack = scope :: stack) :
    ∃ next, { table with stack }.close settings scope = .ok next ∧
      table.leave settings = .ok (some scope, next) ∧ Closes stack { table with stack } next := by
  have hTail : Nested { table with stack } (scope :: stack) :=
    h.congr rfl fun _ before hBefore => ⟨before, hBefore, rfl⟩
  obtain ⟨next, hOk, hCloses⟩ := exists_close settings hTail
  refine ⟨next, hOk, ?_, hCloses⟩
  obtain ⟨entry, hEntry, hUpper⟩ := h.chain scope stack (List.suffix_refl _)
  have hOut : next.upper? scope = stack.head? := by
    rw [hCloses.upper?, ← hUpper]
    exact upper?_of_getElem? hEntry
  simp [leave, hStack, hOk, hOut, bind, Except.bind, pure, Except.pure]

end SymbolTable

end Scoping
