import Scoping.Proofs.Table.Enclosing

namespace Scoping

/-- The place of a scope among the others. A scope may become dynamic, and
never static again. -/
structure Scope.SamePlace (before after : Scope) : Prop where
  kind : after.kind = before.kind
  block : after.block = before.block
  upper : after.upper = before.upper
  variableScope : after.variableScope = before.variableScope
  dynamic : before.dynamic = true → after.dynamic = true

/-- What a change of an open scope leaves alone that moves no reference. Only
the names in it, its flags and its children are free. -/
structure Scope.SameFrame (before after : Scope) : Prop where
  kind : after.kind = before.kind
  block : after.block = before.block
  upper : after.upper = before.upper
  variableScope : after.variableScope = before.variableScope
  pending : after.pending = before.pending
  through : after.through = before.through
  references : after.references = before.references
  dynamic : before.dynamic = true → after.dynamic = true

theorem Scope.SameFrame.samePlace {before after : Scope} (h : before.SameFrame after) :
    before.SamePlace after :=
  ⟨h.kind, h.block, h.upper, h.variableScope, h.dynamic⟩

/-- A name of its own, or one that the program makes global in it. -/
def Scope.Lists (entry : Scope) (var : VariableId) : Prop :=
  var ∈ entry.variables ∨ var ∈ entry.implicitVariables

/-- The variables of a scope, in its lists and under names. -/
def Scope.catalog (entry : Scope) :
    (Array VariableId × List (String × VariableId)) ×
      (Array VariableId × List (String × VariableId)) :=
  ((entry.variables, entry.names), (entry.implicitVariables, entry.implicitNames))

/-- The scope that a variable is of, and its name there. -/
abbrev Variable.home (var : Variable) : ScopeId × String :=
  (var.scope, var.name)

namespace SymbolTable

/-- What a scope has in one of its lists it has under names, in the same order,
and each is a variable of the scope and of that name. -/
structure Enlists (table : SymbolTable) (scope : ScopeId) (vars : Array VariableId)
    (names : List (String × VariableId)) : Prop where
  listed : names.map Prod.snd = vars.toList
  declared : ∀ name var, (name, var) ∈ names →
    ∃ declared, table.variables[var]? = some declared ∧ declared.home = (scope, name)

/-- A variable of this name. -/
def isNamed (table : SymbolTable) (name : String) (var : VariableId) : Bool :=
  table.variables[var]?.any fun entry => entry.name = name

/-- A scope whose lists and names say the same, both of its own names and of the
implicit globals. -/
def Catalogs (table : SymbolTable) (scope : ScopeId) (entry : Scope) : Prop :=
  table.Enlists scope entry.variables entry.names ∧
    table.Enlists scope entry.implicitVariables entry.implicitNames

/-- What holds of the scopes of a table whether they are open or not. The body
of a `with` is dynamic, a `var` goes to a scope around, and what a scope lists
is its own and is what it finds under names. -/
structure Placed (table : SymbolTable) : Prop where
  upper_lt : table.UppersFall
  with_dynamic : ∀ (scope : ScopeId) (entry : Scope), table.scopes[scope]? = some entry →
    entry.kind = .withBody → entry.dynamic = true
  holder : ∀ (scope : ScopeId) (entry : Scope), table.scopes[scope]? = some entry →
    entry.variableScope ∈ table.enclosing scope
  catalogs : ∀ (scope : ScopeId) (entry : Scope), table.scopes[scope]? = some entry →
    table.Catalogs scope entry

/-- The scopes that are open, innermost first, lie around one another, and
every other scope is closed. The stack is named apart from the table, since a
scope is opened and closed in several steps. -/
structure Nested (table : SymbolTable) (stack : List ScopeId) : Prop extends Placed table where
  chain : ∀ (scope : ScopeId) (rest : List ScopeId), scope :: rest <:+ stack →
    ∃ entry, table.scopes[scope]? = some entry ∧ entry.upper = rest.head?
  open_iff : ∀ (scope : ScopeId) (entry : Scope), table.scopes[scope]? = some entry →
    (entry.pending.isSome = true ↔ scope ∈ stack)

variable {table next : SymbolTable} {stack : List ScopeId} {scope : ScopeId}
  {vars : Array VariableId} {names : List (String × VariableId)} {name : String} {var : VariableId}

/-- What a scope lists is a variable of the scope, and is found under its name. -/
theorem Enlists.exists_of_mem (h : table.Enlists scope vars names) (hVar : var ∈ vars) :
    ∃ declared, table.variables[var]? = some declared ∧ declared.scope = scope ∧
      (declared.name, var) ∈ names := by
  rw [← Array.mem_toList_iff, ← h.listed, List.mem_map] at hVar
  obtain ⟨⟨name, same⟩, hMem, rfl⟩ := hVar
  obtain ⟨declared, hDeclared, hHome⟩ := h.declared name same hMem
  obtain ⟨hScope, rfl⟩ := Prod.mk.inj hHome
  exact ⟨declared, hDeclared, hScope, hMem⟩

/-- What is found under a name is a variable of that name. -/
theorem Enlists.exists_of_lookup (h : table.Enlists scope vars names)
    (hFound : names.lookup name = some var) :
    ∃ declared, table.variables[var]? = some declared ∧ declared.scope = scope ∧
      declared.name = name := by
  obtain ⟨before, after, rfl, -⟩ := List.lookup_eq_some_iff.1 hFound
  obtain ⟨declared, hDeclared, hHome⟩ :=
    h.declared name var (List.mem_append_right before List.mem_cons_self)
  exact ⟨declared, hDeclared, Prod.mk.inj hHome⟩

/-- What is found under a name is listed. -/
theorem Enlists.mem_of_lookup (h : table.Enlists scope vars names)
    (hFound : names.lookup name = some var) : var ∈ vars := by
  obtain ⟨before, after, rfl, -⟩ := List.lookup_eq_some_iff.1 hFound
  rw [← Array.mem_toList_iff, ← h.listed]
  exact List.mem_map_of_mem (List.mem_append_right before List.mem_cons_self)

/-- What is entered under a name has that name. -/
theorem Enlists.map_fst (h : table.Enlists scope vars names) :
    (names.map fun entry => some entry.1) =
      vars.toList.map fun var => table.variables[var]?.map Variable.name := by
  rw [← h.listed, List.map_map]
  refine List.map_congr_left fun entry hEntry => ?_
  obtain ⟨declared, hDeclared, hHome⟩ := h.declared entry.1 entry.2 hEntry
  rw [Function.comp_apply, hDeclared, Option.map_some, (Prod.mk.inj hHome).2]

/-- Under a name a scope finds what a search of its list finds. -/
theorem Enlists.lookup_eq (h : table.Enlists scope vars names) (name : String) :
    names.lookup name = vars.find? (table.isNamed name) := by
  rw [← Array.find?_toList, ← h.listed]
  have hEach := h.declared
  clear h
  induction names with
  | nil => rfl
  | cons entry names ih =>
      obtain ⟨declared, hDeclared, hHome⟩ := hEach entry.1 entry.2 List.mem_cons_self
      obtain ⟨-, hName⟩ := Prod.mk.inj hHome
      have hNamed : table.isNamed name entry.2 = (name == entry.1) := by
        rw [isNamed, hDeclared, Option.any_some, hName, beq_eq_decide, decide_eq_decide, eq_comm]
      have hRest := ih fun other found hMem => hEach other found (List.mem_cons_of_mem _ hMem)
      rw [List.map_cons, List.find?_cons, List.lookup_cons, hNamed, hRest]

/-- The same lists and names, where each variable keeps its name and its scope. -/
theorem Enlists.congr (h : table.Enlists scope vars names)
    (hVariables : ∀ (var : VariableId) (before : Variable), table.variables[var]? = some before →
      ∃ after, next.variables[var]? = some after ∧ after.home = before.home) :
    next.Enlists scope vars names where
  listed := h.listed
  declared := fun name var hMem => by
    obtain ⟨before, hBefore, hHome⟩ := h.declared name var hMem
    obtain ⟨after, hAfter, hSame⟩ := hVariables var before hBefore
    exact ⟨after, hAfter, hSame.trans hHome⟩

/-- One more variable in a list and under its name. -/
theorem Enlists.push (h : table.Enlists scope vars names)
    (hVar : ∃ declared, table.variables[var]? = some declared ∧ declared.home = (scope, name)) :
    table.Enlists scope (vars.push var) (names ++ [(name, var)]) where
  listed := by simp [h.listed]
  declared := fun other found hMem => by
    rcases List.mem_append.1 hMem with hOld | hNew
    · exact h.declared other found hOld
    · obtain ⟨rfl, rfl⟩ := Prod.mk.inj (List.mem_singleton.1 hNew)
      exact hVar

/-- A change of a scope outside of its catalog. -/
theorem Catalogs.of_eq {before after : Scope} (h : table.Catalogs scope before)
    (hSame : after.catalog = before.catalog) : table.Catalogs scope after := by
  obtain ⟨hOwn, hImplicit⟩ := Prod.mk.inj hSame
  obtain ⟨hVariables, hNames⟩ := Prod.mk.inj hOwn
  obtain ⟨hOthers, hOtherNames⟩ := Prod.mk.inj hImplicit
  rw [Catalogs, hVariables, hNames, hOthers, hOtherNames]
  exact h

/-- A change of the table outside of its variables. -/
theorem Catalogs.congr {entry : Scope} (h : table.Catalogs scope entry)
    (hVariables : next.variables = table.variables) : next.Catalogs scope entry :=
  ⟨h.1.congr fun _ before hBefore => ⟨before, hVariables ▸ hBefore, rfl⟩,
    h.2.congr fun _ before hBefore => ⟨before, hVariables ▸ hBefore, rfl⟩⟩

/-- An empty list agrees with an empty index. -/
theorem catalogs_of_empty {entry : Scope} (h : entry.catalog = ((#[], []), (#[], []))) :
    table.Catalogs scope entry :=
  have hNone : table.Enlists scope #[] [] := ⟨rfl, fun _ _ hMem => by simp at hMem⟩
  (show table.Catalogs scope default from ⟨hNone, hNone⟩).of_eq h

/-- What a scope lists is its own. -/
theorem Placed.listed (h : Placed table) (scope : ScopeId) (entry : Scope)
    (hEntry : table.scopes[scope]? = some entry) (var : VariableId) (hVar : entry.Lists var) :
    ∃ declared, table.variables[var]? = some declared ∧ declared.scope = scope := by
  obtain ⟨hOwn, hImplicit⟩ := h.catalogs scope entry hEntry
  rcases hVar with hVar | hVar
  · obtain ⟨declared, hDeclared, hScope, -⟩ := hOwn.exists_of_mem hVar
    exact ⟨declared, hDeclared, hScope⟩
  · obtain ⟨declared, hDeclared, hScope, -⟩ := hImplicit.exists_of_mem hVar
    exact ⟨declared, hDeclared, hScope⟩

theorem upper?_eq_some {upper : ScopeId} :
    table.upper? scope = some upper ↔
      ∃ entry, table.scopes[scope]? = some entry ∧ entry.upper = some upper :=
  Option.bind_eq_some_iff

theorem upper?_of_getElem? {entry : Scope} (h : table.scopes[scope]? = some entry) :
    table.upper? scope = entry.upper := by
  simp [upper?, h]

theorem variableScope_of_getElem? {entry : Scope} (h : table.scopes[scope]? = some entry) :
    table.variableScope scope = entry.variableScope := by
  simp [variableScope, h]

/-- At first no scope is open, and there is none. -/
theorem nested_empty : Nested {} [] where
  upper_lt := fun _ _ h => by simp [upper?] at h
  chain := fun _ _ h => by simp at h
  open_iff := fun _ _ h => by simp at h
  with_dynamic := fun _ _ h => by simp at h
  holder := fun _ _ h => by simp at h
  catalogs := fun _ _ h => by simp at h

/-- The open scopes are the way out of the innermost one. -/
theorem Nested.enclosing_eq (h : Nested table stack) {rest : List ScopeId}
    (hSuffix : scope :: rest <:+ stack) : table.enclosing scope = scope :: rest := by
  induction rest generalizing scope with
  | nil =>
      obtain ⟨entry, hEntry, hUpper⟩ := h.chain scope [] hSuffix
      exact enclosing_of_outermost (by rw [upper?_of_getElem? hEntry, hUpper]; rfl)
  | cons upper rest ih =>
      obtain ⟨entry, hEntry, hUpper⟩ := h.chain scope (upper :: rest) hSuffix
      have hOut : table.upper? scope = some upper := by
        rw [upper?_of_getElem? hEntry, hUpper]
        rfl
      rw [enclosing_of_upper hOut (h.upper_lt _ _ hOut),
        ih ((List.suffix_cons _ _).trans hSuffix)]

theorem Nested.exists_of_mem (h : Nested table stack) (hScope : scope ∈ stack) :
    ∃ entry, table.scopes[scope]? = some entry := by
  obtain ⟨inner, rest, rfl⟩ := List.append_of_mem hScope
  obtain ⟨entry, hEntry, -⟩ := h.chain scope rest (List.suffix_append _ _)
  exact ⟨entry, hEntry⟩

/-- All that is around an open scope is open. -/
theorem Nested.enclosing_subset (h : Nested table stack) (hScope : scope ∈ stack) :
    table.enclosing scope ⊆ stack := by
  obtain ⟨inner, rest, rfl⟩ := List.append_of_mem hScope
  rw [h.enclosing_eq (List.suffix_append _ _)]
  exact List.subset_append_right _ _

/-- A `var` in an open scope goes to an open scope, be it the same or one around it. -/
theorem Nested.variableScope_mem (h : Nested table stack) (hScope : scope ∈ stack) :
    table.variableScope scope ∈ stack := by
  obtain ⟨entry, hEntry⟩ := h.exists_of_mem hScope
  rw [variableScope_of_getElem? hEntry]
  exact h.enclosing_subset hScope (h.holder scope entry hEntry)

/-- An open scope has a list of what waits in it, though it may be empty. -/
theorem Nested.pending_of_mem (h : Nested table stack) (hScope : scope ∈ stack) :
    ∃ entry pending, table.scopes[scope]? = some entry ∧ entry.pending = some pending := by
  obtain ⟨entry, hEntry⟩ := h.exists_of_mem hScope
  obtain ⟨pending, hPending⟩ := Option.isSome_iff_exists.1 ((h.open_iff scope entry hEntry).2 hScope)
  exact ⟨entry, pending, hEntry, hPending⟩

/-- A table with the same scopes, and with variables of the same scopes and names. -/
theorem Nested.congr (h : Nested table stack) (hScopes : next.scopes = table.scopes)
    (hVariables : ∀ (var : VariableId) (before : Variable), table.variables[var]? = some before →
      ∃ after, next.variables[var]? = some after ∧ after.home = before.home) :
    Nested next stack := by
  have hUpper : ∀ position, next.upper? position = table.upper? position := fun position => by
    simp only [upper?, hScopes]
  have hOut : ∀ position, next.enclosing position = table.enclosing position := fun position =>
    enclosing_congr fun inner _ => hUpper inner
  refine ⟨⟨?_, ?_, ?_, ?_⟩, ?_, ?_⟩
  · exact fun position upper hPosition => h.upper_lt position upper (hUpper position ▸ hPosition)
  · rw [hScopes]; exact h.with_dynamic
  · intro position entry hEntry
    rw [hOut]
    exact h.holder position entry (hScopes ▸ hEntry)
  · intro position entry hEntry
    obtain ⟨hOwn, hImplicit⟩ := h.catalogs position entry (hScopes ▸ hEntry)
    exact ⟨hOwn.congr hVariables, hImplicit.congr hVariables⟩
  · rw [hScopes]; exact h.chain
  · rw [hScopes]; exact h.open_iff

/-- What a change of one scope leaves behind was there before, as it is or changed. -/
theorem exists_of_modifyScope {change : Scope → Scope} {position : ScopeId} {after : Scope}
    (h : (table.modifyScope scope change).scopes[position]? = some after) :
    ∃ before, table.scopes[position]? = some before ∧
      (after = before ∨ (position = scope ∧ after = change before)) := by
  rw [getElem?_modifyScope] at h
  split at h
  · next hEq =>
      obtain ⟨before, hBefore, rfl⟩ := Option.map_eq_some_iff.1 h
      exact ⟨before, hBefore, .inr ⟨hEq.symm, rfl⟩⟩
  · exact ⟨after, h, .inl rfl⟩

/-- A change that leaves the frame of a scope alone keeps the upper scopes. -/
theorem upper?_modifyScope {change : Scope → Scope}
    (hUpper : ∀ entry, (change entry).upper = entry.upper) (position : ScopeId) :
    (table.modifyScope scope change).upper? position = table.upper? position := by
  simp only [upper?, getElem?_modifyScope]
  split
  · cases table.scopes[position]? <;> simp [hUpper]
  · rfl

theorem enclosing_modifyScope {change : Scope → Scope}
    (hUpper : ∀ entry, (change entry).upper = entry.upper) (position : ScopeId) :
    (table.modifyScope scope change).enclosing position = table.enclosing position :=
  enclosing_congr fun inner _ => upper?_modifyScope hUpper inner

/-- A change that keeps a scope in its place, and its lists in line with its index. -/
theorem Placed.modifyScope (h : Placed table) {change : Scope → Scope}
    (hPlace : ∀ entry, Scope.SamePlace entry (change entry))
    (hCatalogs : ∀ entry, table.Catalogs scope entry → table.Catalogs scope (change entry)) :
    Placed (table.modifyScope scope change) := by
  have hUpper := fun entry => (hPlace entry).upper
  refine ⟨?_, ?_, ?_, ?_⟩
  · intro position upper hPosition
    rw [upper?_modifyScope hUpper] at hPosition
    exact h.upper_lt position upper hPosition
  · intro position after hAfter hKind
    obtain ⟨before, hBefore, rfl | ⟨-, rfl⟩⟩ := exists_of_modifyScope hAfter
    · exact h.with_dynamic position after hBefore hKind
    · exact (hPlace before).dynamic
        (h.with_dynamic position before hBefore ((hPlace before).kind ▸ hKind))
  · intro position after hAfter
    rw [enclosing_modifyScope hUpper]
    obtain ⟨before, hBefore, rfl | ⟨-, rfl⟩⟩ := exists_of_modifyScope hAfter
    · exact h.holder position after hBefore
    · rw [(hPlace before).variableScope]
      exact h.holder position before hBefore
  · intro position after hAfter
    obtain ⟨before, hBefore, rfl | ⟨rfl, rfl⟩⟩ := exists_of_modifyScope hAfter
    · exact (h.catalogs position after hBefore).congr rfl
    · exact (hCatalogs before (h.catalogs position before hBefore)).congr rfl

/-- A change that keeps what is around a scope keeps every chain of open scopes. -/
theorem chain_modifyScope {change : Scope → Scope}
    (hUpper : ∀ entry, (change entry).upper = entry.upper) {position : ScopeId}
    {upper : Option ScopeId}
    (h : ∃ entry, table.scopes[position]? = some entry ∧ entry.upper = upper) :
    ∃ entry, (table.modifyScope scope change).scopes[position]? = some entry ∧
      entry.upper = upper := by
  obtain ⟨entry, hEntry, hEq⟩ := h
  rw [getElem?_modifyScope, hEntry]
  split
  · exact ⟨change entry, rfl, (hUpper entry).trans hEq⟩
  · exact ⟨entry, rfl, hEq⟩

/-- A change of a scope that neither moves nor closes it. -/
theorem Nested.modifyScope (h : Nested table stack) {change : Scope → Scope}
    (hPlace : ∀ entry, Scope.SamePlace entry (change entry))
    (hOpen : ∀ entry, (change entry).pending.isSome = entry.pending.isSome)
    (hCatalogs : ∀ entry, table.Catalogs scope entry → table.Catalogs scope (change entry)) :
    Nested (table.modifyScope scope change) stack where
  toPlaced := h.toPlaced.modifyScope hPlace hCatalogs
  chain := fun position rest hSuffix =>
    chain_modifyScope (fun entry => (hPlace entry).upper) (h.chain position rest hSuffix)
  open_iff := fun position after hAfter => by
    obtain ⟨before, hBefore, rfl | ⟨-, rfl⟩⟩ := exists_of_modifyScope hAfter
    · exact h.open_iff position after hBefore
    · rw [hOpen before]
      exact h.open_iff position before hBefore

/-- No scope is open twice. -/
theorem Nested.nodup (h : Nested table stack) : stack.Nodup := by
  cases stack with
  | nil => exact List.nodup_nil
  | cons scope stack =>
      rw [← h.enclosing_eq (List.suffix_refl _)]
      exact enclosing_nodup

/-- The scope waits for nothing more. -/
def closeHead (table : SymbolTable) (scope : ScopeId) : SymbolTable :=
  table.modifyScope scope fun entry => { entry with pending := none }

/-- The innermost open scope may be closed. -/
theorem Nested.closeHead (h : Nested table (scope :: stack)) :
    Nested (table.closeHead scope) stack where
  toPlaced := by
    refine h.toPlaced.modifyScope ?_ fun _ hCatalogs => hCatalogs
    exact fun _ => ⟨rfl, rfl, rfl, rfl, id⟩
  chain := fun position rest hSuffix => by
    refine chain_modifyScope ?_ (h.chain position rest (hSuffix.trans (List.suffix_cons _ _)))
    exact fun _ => rfl
  open_iff := fun position after hAfter => by
    rw [SymbolTable.closeHead, getElem?_modifyScope] at hAfter
    split at hAfter
    · next hEq =>
        obtain ⟨before, -, rfl⟩ := Option.map_eq_some_iff.1 hAfter
        simpa [← hEq] using (List.nodup_cons.1 h.nodup).1
    · next hNe => simpa [Ne.symm hNe] using h.open_iff position after hAfter

/-- A variable that no scope lists yet has no part in how scopes lie. -/
theorem Nested.pushVariable (h : Nested table stack) (fresh : Variable) :
    Nested { table with «variables» := table.variables.push fresh } stack := by
  refine h.congr rfl fun var before hBefore => ⟨before, ?_, rfl⟩
  have hLt : var < table.variables.size := (Array.getElem?_eq_some_iff.1 hBefore).1
  rw [Array.getElem?_push, if_neg (Nat.ne_of_lt hLt), hBefore]

/-- A variable may change in all but its scope and its name. -/
theorem Nested.modifyVariable (h : Nested table stack) {var : VariableId}
    {change : Variable → Variable} (hHome : ∀ entry, (change entry).home = entry.home) :
    Nested (table.modifyVariable var change) stack := by
  refine h.congr rfl fun position before hBefore => ?_
  rw [getElem?_modifyVariable, hBefore]
  split
  · exact ⟨change before, rfl, hHome before⟩
  · exact ⟨before, rfl, rfl⟩

end SymbolTable

end Scoping
