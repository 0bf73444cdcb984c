import Scoping.Proofs.Table.Sparing

namespace Scoping.SymbolTable

variable {table next : SymbolTable} {stack : List ScopeId} {scope : ScopeId}

/-- One part of the walk that opens and closes no scope and records no use. -/
structure Advances (stack : List ScopeId) (table next : SymbolTable) : Prop where
  nested : Nested next stack
  spares : ∀ moved, Spares moved table next
  references : next.references = table.references
  scopesSize : next.scopes.size = table.scopes.size
  stack : next.stack = table.stack
  globalScope : next.globalScope = table.globalScope

theorem Advances.refl (h : Nested table stack) : Advances stack table table :=
  ⟨h, fun moved => .refl moved table, rfl, rfl, rfl, rfl⟩

theorem Advances.trans {third : SymbolTable} (hFirst : Advances stack table next)
    (hSecond : Advances stack next third) : Advances stack table third :=
  ⟨hSecond.nested, fun moved => (hFirst.spares moved).trans (hSecond.spares moved),
    hSecond.references.trans hFirst.references, hSecond.scopesSize.trans hFirst.scopesSize,
    hSecond.stack.trans hFirst.stack, hSecond.globalScope.trans hFirst.globalScope⟩

/-- An open scope can be waited in. -/
theorem Nested.isSome_of_mem (h : Nested table stack) (hScope : scope ∈ stack) {entry : Scope}
    (hEntry : table.scopes[scope]? = some entry) : entry.pending.isSome = true :=
  (h.open_iff scope entry hEntry).2 hScope

/-- A change of an open scope that leaves its frame alone. -/
theorem advances_modifyScope (h : Nested table stack) (hScope : scope ∈ stack)
    {change : Scope → Scope} (hFrame : ∀ entry, Scope.SameFrame entry (change entry))
    (hCatalogs : ∀ entry, table.Catalogs scope entry → table.Catalogs scope (change entry)) :
    Advances stack table (table.modifyScope scope change) where
  nested := h.modifyScope (fun entry => (hFrame entry).samePlace)
    (fun entry => by rw [(hFrame entry).pending]) hCatalogs
  spares := fun _ => spares_modifyScope fun entry hEntry =>
    (hFrame entry).spares (h.isSome_of_mem hScope hEntry) _
  references := rfl
  scopesSize := Array.size_modify
  stack := rfl
  globalScope := rfl

/-- As `advances_modifyScope`, where the scope declares no more names. -/
theorem advances_of_sameFrame (h : Nested table stack) (hScope : scope ∈ stack)
    {change : Scope → Scope} (hFrame : ∀ entry, Scope.SameFrame entry (change entry))
    (hCatalog : ∀ entry, (change entry).catalog = entry.catalog) :
    Advances stack table (table.modifyScope scope change) :=
  advances_modifyScope h hScope hFrame fun entry hEntry => hEntry.of_eq (hCatalog entry)

/-- A mark on a scope moves no reference. -/
theorem advances_detectThis (h : Nested table stack) (hScope : scope ∈ stack) :
    Advances stack table (table.detectThis scope) :=
  advances_of_sameFrame h hScope (fun _ => ⟨rfl, rfl, rfl, rfl, rfl, rfl, rfl, id⟩) fun _ => rfl

theorem advances_setStrict (h : Nested table stack) (hScope : scope ∈ stack) (strict : Bool) :
    Advances stack table (table.setStrict scope strict) :=
  advances_of_sameFrame h hScope (fun _ => ⟨rfl, rfl, rfl, rfl, rfl, rfl, rfl, id⟩) fun _ => rfl

theorem advances_markBodyStart (h : Nested table stack) (hScope : scope ∈ stack) :
    Advances stack table (table.markBodyStart scope) := by
  refine advances_of_sameFrame h hScope (fun entry => ?_) fun entry => ?_
  · split
    · exact ⟨rfl, rfl, rfl, rfl, rfl, rfl, rfl, id⟩
    · exact ⟨rfl, rfl, rfl, rfl, rfl, rfl, rfl, id⟩
  · split <;> rfl

/-- A change of several open scopes, one after another. -/
theorem advances_foldl {change : Scope → Scope}
    (hFrame : ∀ entry, Scope.SameFrame entry (change entry))
    (hCatalog : ∀ entry, (change entry).catalog = entry.catalog) (scopes : List ScopeId)
    (h : Nested table stack) (hScopes : scopes ⊆ stack) :
    Advances stack table
      (scopes.foldl (fun table scope => table.modifyScope scope change) table) := by
  induction scopes generalizing table with
  | nil => exact .refl h
  | cons scope scopes ih =>
      obtain ⟨hScope, hRest⟩ := List.cons_subset.1 hScopes
      have hFirst := advances_of_sameFrame h hScope hFrame hCatalog
      exact hFirst.trans (ih hFirst.nested hRest)

/-- The marks that a call of eval leaves on many scopes move no reference either. -/
theorem advances_detectEval (h : Nested table stack) (hScope : scope ∈ stack) :
    Advances stack table (table.detectEval scope) := by
  have hFirst : Advances stack table (table.modifyScope scope fun entry =>
      { entry with directEval := true }) :=
    advances_of_sameFrame h hScope (fun _ => ⟨rfl, rfl, rfl, rfl, rfl, rfl, rfl, id⟩) fun _ => rfl
  have hFrame : ∀ entry : Scope, Scope.SameFrame entry { entry with dynamic := true } :=
    fun _ => ⟨rfl, rfl, rfl, rfl, rfl, rfl, rfl, fun _ => rfl⟩
  exact hFirst.trans (advances_foldl hFrame (fun _ => rfl) _ hFirst.nested
    (hFirst.nested.enclosing_subset hScope))

/-- What is found under a name in a scope is a variable of that name and scope. -/
theorem Placed.exists_of_lookup? (h : Placed table) {name : String} {var : VariableId}
    (hLookup : table.lookup? scope name = some var) :
    ∃ declared, table.variables[var]? = some declared ∧ declared.scope = scope ∧
      declared.name = name := by
  obtain ⟨entry, hEntry, hFound⟩ := Option.bind_eq_some_iff.1 hLookup
  exact (h.catalogs scope entry hEntry).1.exists_of_lookup hFound

/-- What is found in a scope under a name is in its list. -/
theorem Placed.exists_scope_of_lookup? (h : Placed table) {name : String} {var : VariableId}
    (hLookup : table.lookup? scope name = some var) :
    ∃ owner, table.scopes[scope]? = some owner ∧ var ∈ owner.variables := by
  obtain ⟨owner, hOwner, hFound⟩ := Option.bind_eq_some_iff.1 hLookup
  exact ⟨owner, hOwner, (h.catalogs scope owner hOwner).1.mem_of_lookup hFound⟩

/-- What is found among the implicit globals is a variable of the scope. -/
theorem Placed.exists_of_lookupImplicit? (h : Placed table) {name : String} {var : VariableId}
    (hLookup : table.lookupImplicit? scope name = some var) :
    ∃ declared, table.variables[var]? = some declared ∧ declared.scope = scope ∧
      declared.name = name := by
  obtain ⟨entry, hEntry, hFound⟩ := Option.bind_eq_some_iff.1 hLookup
  exact (h.catalogs scope entry hEntry).2.exists_of_lookup hFound

/-- A variable that no scope lists changes nothing in the scopes. -/
theorem advances_addVariable (h : Nested table stack) (scope : ScopeId) (name : String) :
    Advances stack table (table.addVariable scope name).2 :=
  ⟨h.pushVariable _, fun _ => spares_pushVariable rfl, rfl, rfl, rfl, rfl⟩

theorem getElem?_addVariable (table : SymbolTable) (scope : ScopeId) (name : String) :
    (table.addVariable scope name).2.variables[(table.addVariable scope name).1]? =
      some { name, scope } := by
  simp [addVariable]

/-- Declaring a name in an open scope gives a variable of that scope. -/
theorem advances_declare (h : Nested table stack) (hScope : scope ∈ stack) (name : String) :
    Advances stack table (table.declare scope name).2 ∧
      ∃ declared, (table.declare scope name).2.variables[(table.declare scope name).1]? =
        some declared ∧ declared.scope = scope := by
  unfold declare
  split
  · next var hLookup =>
      obtain ⟨declared, hDeclared, hOwner, -⟩ := h.exists_of_lookup? hLookup
      exact ⟨.refl h, declared, hDeclared, hOwner⟩
  · have hAdd := advances_addVariable h scope name
    have hFresh := getElem?_addVariable table scope name
    exact ⟨hAdd.trans (advances_modifyScope hAdd.nested hScope
      (fun _ => ⟨rfl, rfl, rfl, rfl, rfl, rfl, rfl, id⟩)
      fun _ hEntry => ⟨hEntry.1.push ⟨_, hFresh, rfl⟩, hEntry.2⟩), _, hFresh, rfl⟩

/-- As `advances_declare`, for a name that the program makes global. -/
theorem advances_declareImplicit (h : Nested table stack) (hScope : scope ∈ stack)
    (name : String) :
    Advances stack table (table.declareImplicit scope name).2 ∧
      ∃ declared, (table.declareImplicit scope name).2.variables[
        (table.declareImplicit scope name).1]? = some declared ∧ declared.scope = scope := by
  unfold declareImplicit
  split
  · next var hLookup =>
      obtain ⟨declared, hDeclared, hOwner, -⟩ := h.exists_of_lookupImplicit? hLookup
      exact ⟨.refl h, declared, hDeclared, hOwner⟩
  · have hAdd := advances_addVariable h scope name
    have hFresh := getElem?_addVariable table scope name
    exact ⟨hAdd.trans (advances_modifyScope hAdd.nested hScope
      (fun _ => ⟨rfl, rfl, rfl, rfl, rfl, rfl, rfl, id⟩)
      fun _ hEntry => ⟨hEntry.1, hEntry.2.push ⟨_, hFresh, rfl⟩⟩), _, hFresh, rfl⟩

/-- A definition is added to a variable whose scope is open. -/
theorem advances_addDefinition (h : Nested table stack) {var : VariableId}
    (hOpen : ∀ entry, table.variables[var]? = some entry → ∀ owner,
      table.scopes[entry.scope]? = some owner → owner.pending ≠ none)
    (identifier : Node) (definition : Definition) :
    Advances stack table (table.addDefinition var identifier definition) := by
  have hModify : Advances stack table (table.modifyVariable var fun entry =>
      { entry with
        definitions := entry.definitions.push { definition with serial := table.definitionCount }
        identifiers := entry.identifiers.push identifier }) := by
    refine ⟨h.modifyVariable fun _ => rfl, fun _ => spares_modifyVariable (fun _ => rfl)
      (fun _ => rfl) (fun _ _ _ => rfl) fun entry hEntry hOwner => ?_, rfl, rfl, rfl, rfl⟩
    obtain ⟨owner, hScope, hClosed⟩ := hOwner
    exact absurd hClosed (hOpen entry hEntry owner hScope)
  exact hModify.trans ⟨hModify.nested.congr rfl fun _ before hBefore => ⟨before, hBefore, rfl⟩,
    fun _ => spares_of_eq rfl rfl rfl, rfl, rfl, rfl, rfl⟩

/-- An open scope has not closed. -/
theorem Nested.pending_ne_none (h : Nested table stack) (hScope : scope ∈ stack) {entry : Scope}
    (hEntry : table.scopes[scope]? = some entry) : entry.pending ≠ none := fun hNone => by
  have hOpen := h.isSome_of_mem hScope hEntry
  simp [hNone] at hOpen

/-- As `advances_addDefinition`, for a variable of an open scope. -/
theorem advances_addDefinition_of_mem (h : Nested table stack) (hScope : scope ∈ stack)
    {var : VariableId}
    (hVar : ∃ declared, table.variables[var]? = some declared ∧ declared.scope = scope)
    (identifier : Node) (definition : Definition) :
    Advances stack table (table.addDefinition var identifier definition) := by
  obtain ⟨declared, hDeclared, hOwner⟩ := hVar
  refine advances_addDefinition h (fun entry hEntry => ?_) _ _
  cases hDeclared.symm.trans hEntry
  rw [hOwner]
  exact fun owner hAt => h.pending_ne_none hScope hAt

/-- A definition adds a name to an open scope at most. -/
theorem advances_define (h : Nested table stack) (hScope : scope ∈ stack) (identifier : Node)
    (definition : Definition) :
    Advances stack table (table.define scope identifier definition) := by
  unfold define
  split
  · obtain ⟨hDeclare, hVar⟩ := advances_declare h hScope identifier.name
    exact hDeclare.trans (advances_addDefinition_of_mem hDeclare.nested hScope hVar _ _)
  · exact .refl h

/-- The declaration of one variable ends here. -/
def endVariable (table : SymbolTable) (var : VariableId) : SymbolTable :=
  table.modifyVariable var fun entry =>
    { entry with initializedAt := entry.initializedAt.or (some table.references.size) }

/-- The end of a declaration is that of each variable that it declares, one after another.
-/
theorem endDeclaration_eq (table : SymbolTable) (node : Node) :
    table.endDeclaration node = (table.declaredBy node).toList.foldl endVariable table := by
  unfold endDeclaration
  rw [← Array.foldl_toList]
  rfl

/-- What the end of each declaration of a variable keeps, all of them keep. -/
theorem endDeclaration_induction {P : SymbolTable → Prop}
    (hEach : ∀ (table : SymbolTable) (var : VariableId), P table → P (table.endVariable var))
    (h : P table) (node : Node) : P (table.endDeclaration node) := by
  rw [endDeclaration_eq]
  generalize (table.declaredBy node).toList = vars
  induction vars generalizing table with
  | nil => exact h
  | cons var vars ih => exact ih (hEach table var h)

theorem advances_endVariable (h : Nested table stack) (var : VariableId) :
    Advances stack table (table.endVariable var) :=
  ⟨h.modifyVariable fun _ => rfl, fun _ => spares_modifyVariable (fun _ => rfl) (fun _ => rfl)
    (fun _ _ _ => rfl) fun _ _ _ => rfl, rfl, rfl, rfl, rfl⟩

/-- The end of declarations is noted at variables, and the scopes do not depend on it. -/
theorem advances_endDeclaration (h : Nested table stack) (node : Node) :
    Advances stack table (table.endDeclaration node) :=
  endDeclaration_induction (fun _ var h => h.trans (advances_endVariable h.nested var)) (.refl h) node

end Scoping.SymbolTable
