import Scoping.Proofs.Table.Nested
import Scoping.SymbolTable.Enter
import Scoping.Walk.Event

namespace Scoping

/-- The references that wait for a scope to close, of which a closed scope has
none. -/
def Scope.waiting (entry : Scope) : Array ReferenceId :=
  entry.pending.getD #[]

/-- A scope before and after some of the walk. A closed scope stays closed, and
what it says of a name stays. -/
structure Scope.Keeps (before after : Scope) : Prop where
  kind : after.kind = before.kind
  block : after.block = before.block
  upper : after.upper = before.upper
  closed : before.pending = none → after.pending = none ∧ after.dynamic = before.dynamic ∧
    after.bodyStart = before.bodyStart ∧ after.names = before.names

/-- A scope before and after a change that concerns one reference at most. What
the others have done stays, and so does what a closed scope says of a name. -/
structure Scope.Spares (moved : ReferenceId) (before after : Scope) : Prop where
  kind : after.kind = before.kind
  block : after.block = before.block
  upper : after.upper = before.upper
  variableScope : after.variableScope = before.variableScope
  isOpen : after.pending.isSome = before.pending.isSome
  recorded : ∀ id ≠ moved, after.references.count id = before.references.count id
  waiting : ∀ id ≠ moved, after.waiting.count id = before.waiting.count id
  through : ∀ id ≠ moved, after.through.count id = before.through.count id
  closed : before.pending = none → after.dynamic = before.dynamic ∧
    after.bodyStart = before.bodyStart ∧ after.names = before.names

variable {moved : ReferenceId}

theorem count_push_of_ne {ids : Array ReferenceId} {id fresh : ReferenceId} (h : id ≠ fresh) :
    (ids.push fresh).count id = ids.count id := by
  rw [Array.count_push, if_neg (by simpa using Ne.symm h), Nat.add_zero]

theorem Scope.Spares.refl (moved : ReferenceId) (entry : Scope) : entry.Spares moved entry :=
  ⟨rfl, rfl, rfl, rfl, rfl, fun _ _ => rfl, fun _ _ => rfl, fun _ _ => rfl,
    fun _ => ⟨rfl, rfl, rfl⟩⟩

theorem Scope.Spares.pending_eq_none {before after : Scope} (h : before.Spares moved after)
    (hNone : before.pending = none) : after.pending = none := by
  have hOpen := h.isOpen
  rw [hNone] at hOpen
  simpa using hOpen

theorem Scope.Spares.trans {first second third : Scope} (hFirst : first.Spares moved second)
    (hSecond : second.Spares moved third) : first.Spares moved third where
  kind := hSecond.kind.trans hFirst.kind
  block := hSecond.block.trans hFirst.block
  upper := hSecond.upper.trans hFirst.upper
  variableScope := hSecond.variableScope.trans hFirst.variableScope
  isOpen := hSecond.isOpen.trans hFirst.isOpen
  recorded := fun id h => (hSecond.recorded id h).trans (hFirst.recorded id h)
  waiting := fun id h => (hSecond.waiting id h).trans (hFirst.waiting id h)
  through := fun id h => (hSecond.through id h).trans (hFirst.through id h)
  closed := fun hNone => by
    obtain ⟨hDynamic, hStart, hNames⟩ := hFirst.closed hNone
    obtain ⟨hDynamic', hStart', hNames'⟩ := hSecond.closed (hFirst.pending_eq_none hNone)
    exact ⟨hDynamic'.trans hDynamic, hStart'.trans hStart, hNames'.trans hNames⟩

theorem Scope.SameFrame.spares {before after : Scope} (h : before.SameFrame after)
    (hOpen : before.pending.isSome = true) (moved : ReferenceId) : before.Spares moved after where
  kind := h.kind
  block := h.block
  upper := h.upper
  variableScope := h.variableScope
  isOpen := by rw [h.pending]
  recorded := fun _ _ => by rw [h.references]
  waiting := fun _ _ => by rw [Scope.waiting, Scope.waiting, h.pending]
  through := fun _ _ => by rw [h.through]
  closed := fun hNone => by simp [hNone] at hOpen

namespace SymbolTable

/-- A table before and after some of the walk that closes no scope and moves no
reference but one. The variables of closed scopes keep their definitions. -/
structure Spares (moved : ReferenceId) (table next : SymbolTable) : Prop where
  scope : ∀ (scope : ScopeId) (before : Scope), table.scopes[scope]? = some before →
    ∃ after, next.scopes[scope]? = some after ∧ before.Spares moved after
  newScope : ∀ (scope : ScopeId) (after : Scope), table.scopes[scope]? = none →
    next.scopes[scope]? = some after → ∀ id ≠ moved,
      after.references.count id = 0 ∧ after.waiting.count id = 0 ∧ after.through.count id = 0
  variable_ : ∀ (var : VariableId) (before : Variable), table.variables[var]? = some before →
    ∃ after, next.variables[var]? = some after ∧ after.name = before.name ∧
      after.scope = before.scope ∧
      (∀ id ≠ moved, after.references.count id = before.references.count id) ∧
      ((∃ owner, table.scopes[before.scope]? = some owner ∧ owner.pending = none) →
        after.definitions = before.definitions)
  newVariable : ∀ (var : VariableId) (after : Variable), table.variables[var]? = none →
    next.variables[var]? = some after → ∀ id ≠ moved, after.references.count id = 0
  reference : ∀ id ≠ moved, next.references[id]? = table.references[id]?

variable {table next : SymbolTable} {stack : List ScopeId} {scope : ScopeId}

theorem Spares.refl (moved : ReferenceId) (table : SymbolTable) : Spares moved table table where
  scope := fun _ before h => ⟨before, h, .refl _ _⟩
  newScope := fun _ _ hNone hSome => by simp [hNone] at hSome
  variable_ := fun _ before h => ⟨before, h, rfl, rfl, fun _ _ => rfl, fun _ => rfl⟩
  newVariable := fun _ _ hNone hSome => by simp [hNone] at hSome
  reference := fun _ _ => rfl

theorem Spares.trans {third : SymbolTable} (hFirst : Spares moved table next)
    (hSecond : Spares moved next third) : Spares moved table third where
  scope := fun scope before h => by
    obtain ⟨middle, hMiddle, hSpares⟩ := hFirst.scope scope before h
    obtain ⟨after, hAfter, hMore⟩ := hSecond.scope scope middle hMiddle
    exact ⟨after, hAfter, hSpares.trans hMore⟩
  newScope := fun scope after hNone hAfter id hId => by
    cases hMiddle : next.scopes[scope]? with
    | none => exact hSecond.newScope scope after hMiddle hAfter id hId
    | some middle =>
        obtain ⟨found, hFound, hSpares⟩ := hSecond.scope scope middle hMiddle
        cases hAfter.symm.trans hFound
        rw [hSpares.recorded id hId, hSpares.waiting id hId, hSpares.through id hId]
        exact hFirst.newScope scope middle hNone hMiddle id hId
  variable_ := fun var before h => by
    obtain ⟨middle, hMiddle, hName, hScope, hRefs, hDefs⟩ := hFirst.variable_ var before h
    obtain ⟨after, hAfter, hName', hScope', hRefs', hDefs'⟩ := hSecond.variable_ var middle hMiddle
    refine ⟨after, hAfter, hName'.trans hName, hScope'.trans hScope,
      fun id hId => (hRefs' id hId).trans (hRefs id hId), ?_⟩
    rintro ⟨owner, hOwner, hClosed⟩
    obtain ⟨later, hLater, hSpares⟩ := hFirst.scope _ owner hOwner
    exact (hDefs' ⟨later, hScope ▸ hLater, hSpares.pending_eq_none hClosed⟩).trans
      (hDefs ⟨owner, hOwner, hClosed⟩)
  newVariable := fun var after hNone hAfter id hId => by
    cases hMiddle : next.variables[var]? with
    | none => exact hSecond.newVariable var after hMiddle hAfter id hId
    | some middle =>
        obtain ⟨found, hFound, -, -, hRefs, -⟩ := hSecond.variable_ var middle hMiddle
        cases hAfter.symm.trans hFound
        rw [hRefs id hId]
        exact hFirst.newVariable var middle hNone hMiddle id hId
  reference := fun id hId => (hSecond.reference id hId).trans (hFirst.reference id hId)

/-- A table before and after some of the walk. The variables of closed scopes
keep their definitions. -/
structure Keeps (table next : SymbolTable) : Prop where
  scope : ∀ (scope : ScopeId) (before : Scope), table.scopes[scope]? = some before →
    ∃ after, next.scopes[scope]? = some after ∧ before.Keeps after
  variable_ : ∀ (var : VariableId) (before : Variable), table.variables[var]? = some before →
    ∃ after, next.variables[var]? = some after ∧ after.name = before.name ∧
      after.scope = before.scope ∧
      ((∃ owner, table.scopes[before.scope]? = some owner ∧ owner.pending = none) →
        after.definitions = before.definitions)

theorem Spares.keeps (h : Spares moved table next) : Keeps table next where
  scope := fun scope before hBefore => by
    obtain ⟨after, hAfter, hSpares⟩ := h.scope scope before hBefore
    exact ⟨after, hAfter, hSpares.kind, hSpares.block, hSpares.upper, fun hNone =>
      ⟨hSpares.pending_eq_none hNone, hSpares.closed hNone⟩⟩
  variable_ := fun var before hBefore => by
    obtain ⟨after, hAfter, hName, hScope, -, hDefinitions⟩ := h.variable_ var before hBefore
    exact ⟨after, hAfter, hName, hScope, hDefinitions⟩

theorem Keeps.of_eq (hScopes : next.scopes = table.scopes)
    (hVariables : next.variables = table.variables) : Keeps table next where
  scope := fun _ before h => ⟨before, hScopes ▸ h, rfl, rfl, rfl, fun hNone => ⟨hNone, rfl, rfl, rfl⟩⟩
  variable_ := fun _ before h => ⟨before, hVariables ▸ h, rfl, rfl, fun _ => rfl⟩

theorem Keeps.trans {third : SymbolTable} (hFirst : Keeps table next) (hSecond : Keeps next third) :
    Keeps table third where
  scope := fun position before hBefore => by
    obtain ⟨middle, hMiddle, hKept⟩ := hFirst.scope position before hBefore
    obtain ⟨after, hAfter, hMore⟩ := hSecond.scope position middle hMiddle
    refine ⟨after, hAfter, hMore.kind.trans hKept.kind, hMore.block.trans hKept.block,
      hMore.upper.trans hKept.upper, fun hNone => ?_⟩
    obtain ⟨hClosed, hDynamic, hStart, hNames⟩ := hKept.closed hNone
    obtain ⟨hStill, hDynamic', hStart', hNames'⟩ := hMore.closed hClosed
    exact ⟨hStill, hDynamic'.trans hDynamic, hStart'.trans hStart, hNames'.trans hNames⟩
  variable_ := fun var before hBefore => by
    obtain ⟨middle, hMiddle, hName, hScope, hDefinitions⟩ := hFirst.variable_ var before hBefore
    obtain ⟨after, hAfter, hName', hScope', hDefinitions'⟩ := hSecond.variable_ var middle hMiddle
    refine ⟨after, hAfter, hName'.trans hName, hScope'.trans hScope, ?_⟩
    rintro ⟨owner, hOwner, hNone⟩
    obtain ⟨later, hLater, hKept⟩ := hFirst.scope _ owner hOwner
    exact (hDefinitions' ⟨later, hScope ▸ hLater, (hKept.closed hNone).1⟩).trans
      (hDefinitions ⟨owner, hOwner, hNone⟩)

theorem keeps_closeHead (table : SymbolTable) (scope : ScopeId) :
    Keeps table (table.closeHead scope) where
  scope := fun position before hBefore => by
    rw [closeHead, getElem?_modifyScope, hBefore]
    split
    · exact ⟨_, rfl, rfl, rfl, rfl, fun _ => ⟨rfl, rfl, rfl, rfl⟩⟩
    · exact ⟨before, rfl, rfl, rfl, rfl, fun hNone => ⟨hNone, rfl, rfl, rfl⟩⟩
  variable_ := fun _ before hBefore => ⟨before, hBefore, rfl, rfl, fun _ => rfl⟩

/-- Other fields of a table than its scopes, variables and references. -/
theorem spares_of_eq (hScopes : next.scopes = table.scopes)
    (hVariables : next.variables = table.variables)
    (hReferences : next.references = table.references) : Spares moved table next where
  scope := fun _ before h => ⟨before, hScopes ▸ h, .refl _ _⟩
  newScope := fun scope _ hNone hSome => by rw [hScopes, hNone] at hSome; cases hSome
  variable_ := fun _ before h => ⟨before, hVariables ▸ h, rfl, rfl, fun _ _ => rfl, fun _ => rfl⟩
  newVariable := fun _ _ hNone hSome => by rw [hVariables, hNone] at hSome; cases hSome
  reference := fun _ _ => by rw [hReferences]

theorem spares_modifyScope {change : Scope → Scope}
    (hSpares : ∀ entry, table.scopes[scope]? = some entry → entry.Spares moved (change entry)) :
    Spares moved table (table.modifyScope scope change) where
  scope := fun position before h => by
    rw [getElem?_modifyScope, h]
    split
    · next hEq => exact ⟨change before, rfl, hSpares before (hEq ▸ h)⟩
    · exact ⟨before, rfl, .refl _ _⟩
  newScope := fun position after hNone hAfter => by simp [hNone] at hAfter
  variable_ := fun _ before h => ⟨before, h, rfl, rfl, fun _ _ => rfl, fun _ => rfl⟩
  newVariable := fun _ _ hNone hSome => by
    rw [variables_modifyScope, hNone] at hSome
    cases hSome
  reference := fun _ _ => rfl

theorem spares_modifyVariable {var : VariableId} {change : Variable → Variable}
    (hName : ∀ entry, (change entry).name = entry.name)
    (hScope : ∀ entry, (change entry).scope = entry.scope)
    (hReferences : ∀ entry, ∀ id ≠ moved,
      (change entry).references.count id = entry.references.count id)
    (hDefinitions : ∀ entry, table.variables[var]? = some entry →
      (∃ owner, table.scopes[entry.scope]? = some owner ∧ owner.pending = none) →
        (change entry).definitions = entry.definitions) :
    Spares moved table (table.modifyVariable var change) where
  scope := fun _ before h => ⟨before, h, .refl _ _⟩
  newScope := fun scope _ hNone hSome => by
    have hScopes : (table.modifyVariable var change).scopes[scope]? = table.scopes[scope]? := rfl
    rw [hScopes, hNone] at hSome
    cases hSome
  variable_ := fun position before h => by
    rw [getElem?_modifyVariable, h]
    split
    · next hEq =>
        exact ⟨change before, rfl, hName before, hScope before, hReferences before,
          hDefinitions before (hEq ▸ h)⟩
    · exact ⟨before, rfl, rfl, rfl, fun _ _ => rfl, fun _ => rfl⟩
  newVariable := fun _ _ hNone hSome => by simp [hNone] at hSome
  reference := fun _ _ => rfl

theorem spares_modifyReference (table : SymbolTable) (moved : ReferenceId)
    (change : Reference → Reference) :
    Spares moved table (table.modifyReference moved change) where
  scope := fun _ before h => ⟨before, h, .refl _ _⟩
  newScope := fun _ _ hNone hSome => by cases hNone.symm.trans hSome
  variable_ := fun _ before h => ⟨before, h, rfl, rfl, fun _ _ => rfl, fun _ => rfl⟩
  newVariable := fun _ _ hNone hSome => by cases hNone.symm.trans hSome
  reference := fun id hId => by rw [getElem?_modifyReference, if_neg (Ne.symm hId)]

theorem spares_pushVariable {fresh : Variable} (hReferences : fresh.references = #[]) :
    Spares moved table { table with «variables» := table.variables.push fresh } where
  scope := fun _ before h => ⟨before, h, .refl _ _⟩
  newScope := fun _ _ hNone hSome => by cases hNone.symm.trans hSome
  variable_ := fun var before h => by
    have hLt : var < table.variables.size := (Array.getElem?_eq_some_iff.1 h).1
    refine ⟨before, ?_, rfl, rfl, fun _ _ => rfl, fun _ => rfl⟩
    rw [Array.getElem?_push, if_neg (Nat.ne_of_lt hLt), h]
  newVariable := fun var after hNone hSome id _ => by
    rw [Array.getElem?_push] at hSome
    split at hSome
    · cases hSome
      simp [hReferences]
    · rw [hNone] at hSome
      cases hSome
  reference := fun _ _ => rfl

theorem getElem?_pushScope (table : SymbolTable) (fresh : Scope) (position : ScopeId) :
    (table.pushScope fresh).scopes[position]? =
      if position = table.scopes.size then some fresh else table.scopes[position]? :=
  Array.getElem?_push

/-- Every scope is the new one, or was there before. -/
theorem cases_of_pushScope {fresh entry : Scope} {position : ScopeId}
    (h : (table.pushScope fresh).scopes[position]? = some entry) :
    (position = table.scopes.size ∧ entry = fresh) ∨ table.scopes[position]? = some entry := by
  rw [getElem?_pushScope] at h
  split at h
  · next hEq => exact .inl ⟨hEq, (Option.some.inj h).symm⟩
  · exact .inr h

theorem spares_pushScope {fresh : Scope} (hPending : fresh.pending = some #[])
    (hThrough : fresh.through = #[]) (hReferences : fresh.references = #[]) :
    Spares moved table (table.pushScope fresh) where
  scope := fun position before h => by
    have hLt : position < table.scopes.size := (Array.getElem?_eq_some_iff.1 h).1
    refine ⟨before, ?_, .refl _ _⟩
    rw [getElem?_pushScope, if_neg (Nat.ne_of_lt hLt), h]
  newScope := fun position after hNone hAfter id _ => by
    rcases cases_of_pushScope hAfter with ⟨-, rfl⟩ | hBefore
    · simp [Scope.waiting, hPending, hThrough, hReferences]
    · cases hNone.symm.trans hBefore
  variable_ := fun _ before h => ⟨before, h, rfl, rfl, fun _ _ => rfl, fun _ => rfl⟩
  newVariable := fun _ _ hNone hSome => by cases hNone.symm.trans hSome
  reference := fun _ _ => rfl

theorem spares_pushReference {fresh : Reference} :
    Spares table.references.size table
      { table with references := table.references.push fresh } where
  scope := fun _ before h => ⟨before, h, .refl _ _⟩
  newScope := fun _ _ hNone hSome => by cases hNone.symm.trans hSome
  variable_ := fun _ before h => ⟨before, h, rfl, rfl, fun _ _ => rfl, fun _ => rfl⟩
  newVariable := fun _ _ hNone hSome => by cases hNone.symm.trans hSome
  reference := fun id hId => by rw [Array.getElem?_push, if_neg hId]

end SymbolTable

end Scoping
