import Mathlib.Data.List.Induction
import Scoping.Proofs.Table.Building

/-! What is made of the assignments that make globals: a variable for each name, in
order, with a definition for each assignment. -/

namespace Scoping.SymbolTable

/-- The names in one of the lists of a scope, in order. -/
def namesIn (table : SymbolTable) (list : Scope → Array VariableId) (position : ScopeId) :
    List (Option String) :=
  ((table.scopes[position]?.map list).getD #[]).toList.map fun var =>
    table.variables[var]?.map Variable.name

/-- The definitions that are given in a naming, each with its node. -/
def Naming.pairs (naming : Option Naming) : List (Node × Node) :=
  (naming.getD {}).definitions.toList.map fun definition => (definition.name, definition.node)

variable {table next : SymbolTable} {stack : List ScopeId} {scope position : ScopeId} {list : Scope → Array VariableId}
  {add : VariableId → Scope → Scope} {name : String} {entry : Scope}

theorem namesIn_of_getElem? (h : table.scopes[position]? = some entry) :
    table.namesIn list position =
      (list entry).toList.map fun var => table.variables[var]?.map Variable.name := by
  rw [namesIn, h]
  rfl

theorem isSome_lookupIn_iff :
    (table.lookupIn list position name).isSome = true ↔ some name ∈ table.namesIn list position := by
  unfold lookupIn namesIn
  cases table.scopes[position]? with
  | none => simp
  | some entry =>
      have hNamed : ∀ var, table.isNamed name var = true ↔
          table.variables[var]?.map Variable.name = some name := fun var => by
        cases hVar : table.variables[var]? <;> simp [isNamed, hVar]
      simp [Array.find?_isSome, hNamed]

/-- No scope has two variables of one name. -/
theorem Indexed.nodup_namesIn (h : table.Indexed list) (hHomes : table.Homes list)
    (position : ScopeId) : (table.namesIn list position).Nodup := by
  unfold namesIn
  cases hEntry : table.scopes[position]? with
  | none => exact List.nodup_nil
  | some entry =>
      rw [Option.map_some, Option.getD_some]
      refine (h.nodup position entry hEntry).map_on fun var hVar other hOther hEq => ?_
      obtain ⟨declared, hDeclared, -⟩ := hHomes position entry hEntry var (Array.mem_toList_iff.1 hVar)
      obtain ⟨found, hFound, -⟩ := hHomes position entry hEntry other (Array.mem_toList_iff.1 hOther)
      rw [hDeclared, hFound, Option.map_some, Option.map_some, Option.some.injEq] at hEq
      have hLookup := h.found position entry hEntry var (Array.mem_toList_iff.1 hVar) declared hDeclared
      rw [hEq, h.found position entry hEntry other (Array.mem_toList_iff.1 hOther) found hFound] at hLookup
      exact (Option.some.inj hLookup).symm

/-- A change that neither lists nor names anything has the same names. -/
theorem namesIn_congr (h : table.Homes list)
    (hLists : next.scopes[position]?.map list = table.scopes[position]?.map list)
    (hNames : ∀ (var : VariableId) (before : Variable), table.variables[var]? = some before →
      ∃ after, next.variables[var]? = some after ∧ after.name = before.name) :
    next.namesIn list position = table.namesIn list position := by
  unfold namesIn
  rw [hLists]
  refine List.map_congr_left fun var hVar => ?_
  cases hEntry : table.scopes[position]? with
  | none => simp [hEntry] at hVar
  | some entry =>
      rw [hEntry, Option.map_some, Option.getD_some, Array.mem_toList_iff] at hVar
      obtain ⟨declared, hDeclared, -⟩ := h position entry hEntry var hVar
      obtain ⟨after, hAfter, hName⟩ := hNames var declared hDeclared
      rw [hDeclared, hAfter, Option.map_some, Option.map_some, hName]

/-- A name that is new to a list comes last. -/
theorem namesIn_declareIn (h : table.Homes list)
    (hAdd : ∀ var entry, list (add var entry) = (list entry).push var)
    (hScope : table.scopes[scope]? = some entry) :
    (table.declareIn list add scope name).2.namesIn list scope =
      if some name ∈ table.namesIn list scope then table.namesIn list scope
      else table.namesIn list scope ++ [some name] := by
  have hFound := @isSome_lookupIn_iff table scope list name
  unfold declareIn declareBy
  cases hLookup : table.lookupIn list scope name with
  | some var =>
      rw [hLookup, Option.isSome_some] at hFound
      rw [if_pos (hFound.1 rfl)]
  | none =>
      rw [hLookup, Option.isSome_none] at hFound
      rw [if_neg fun hMem => Bool.false_ne_true (hFound.2 hMem)]
      have hAfter : ((table.addVariable scope name).2.modifyScope scope
          (add table.variables.size)).scopes[scope]? = some (add table.variables.size entry) := by
        have hSame : (table.addVariable scope name).2.scopes[scope]? = some entry := hScope
        rw [getElem?_modifyScope, if_pos rfl, hSame, Option.map_some]
      dsimp only
      rw [namesIn_of_getElem? hAfter, namesIn_of_getElem? hScope, hAdd, Array.toList_push,
        List.map_append, List.map_singleton, variables_modifyScope]
      have hOld : ∀ var ∈ (list entry).toList,
          (table.addVariable scope name).2.variables[var]?.map Variable.name =
            table.variables[var]?.map Variable.name := fun var hVar => by
        have hLt := h.lt_size hScope (Array.mem_toList_iff.1 hVar)
        simp [addVariable, Array.getElem?_push, Nat.ne_of_lt hLt]
      rw [List.map_congr_left hOld]
      simp [addVariable]

theorem exists_variable_addDefinition (var : VariableId) (identifier : Node)
    (definition : Definition) {place : VariableId} {before : Variable}
    (hBefore : table.variables[place]? = some before) :
    ∃ after, (table.addDefinition var identifier definition).variables[place]? = some after ∧
      after.name = before.name ∧ after.scope = before.scope := by
  rw [getElem?_variables_addDefinition, hBefore]
  split
  · exact ⟨_, rfl, rfl, rfl⟩
  · exact ⟨before, rfl, rfl, rfl⟩

/-- An assignment changes the globals of the scope that has them, and nothing
else of a scope. -/
theorem exists_scope_defineGlobal (hScope : table.scopes[position]? = some entry) (found : Node × Node) :
    ∃ after, (defineGlobal scope table found).scopes[position]? = some after ∧
      after = { entry with
        implicitVariables := after.implicitVariables, implicitNames := after.implicitNames } ∧
      (position ≠ scope → after = entry) := by
  change ∃ after, (table.declareImplicit scope found.1.name).2.scopes[position]? = some after ∧ _
  unfold declareImplicit
  split
  · exact ⟨entry, hScope, rfl, fun _ => rfl⟩
  · have hAdded : (table.addVariable scope found.1.name).2.scopes[position]? = some entry := hScope
    rw [getElem?_modifyScope, hAdded]
    split
    · next hEq => exact ⟨_, rfl, rfl, fun hNe => absurd hEq.symm hNe⟩
    · exact ⟨entry, rfl, rfl, fun _ => rfl⟩

theorem exists_scope_defineGlobals (hScope : table.scopes[position]? = some entry)
    (found : List (Node × Node)) :
    ∃ after, (found.foldl (defineGlobal scope) table).scopes[position]? = some after ∧
      after = { entry with
        implicitVariables := after.implicitVariables, implicitNames := after.implicitNames } ∧
      (position ≠ scope → after = entry) := by
  induction found generalizing table entry with
  | nil => exact ⟨entry, hScope, rfl, fun _ => rfl⟩
  | cons first found ih =>
      obtain ⟨middle, hMiddle, hSame, hElsewhere⟩ := exists_scope_defineGlobal hScope first
      obtain ⟨after, hAfter, hKept, hStill⟩ := ih hMiddle
      refine ⟨after, hAfter, ?_, fun hNe => (hStill hNe).trans (hElsewhere hNe)⟩
      rw [hSame] at hKept
      exact hKept

theorem namesIn_defineGlobal (h : Nested table stack) (hOpen : scope ∈ stack)
    (found : Node × Node) :
    (defineGlobal scope table found).namesIn Scope.implicitVariables scope =
      if some found.1.name ∈ table.namesIn Scope.implicitVariables scope then
        table.namesIn Scope.implicitVariables scope
      else table.namesIn Scope.implicitVariables scope ++ [some found.1.name] := by
  obtain ⟨entry, hScope⟩ := h.exists_of_mem hOpen
  have hDeclare := (advances_declareImplicit h hOpen found.1.name).1.nested
  have hAdd : ∀ (var : VariableId) (entry : Scope),
      (entry.enlistImplicit found.1.name var).implicitVariables =
        entry.implicitVariables.push var := fun _ _ => rfl
  rw [← namesIn_declareIn h.homes_implicit hAdd hScope, ← h.declareImplicit_eq_declareIn]
  refine namesIn_congr hDeclare.homes_implicit rfl fun var before hBefore => ?_
  obtain ⟨after, hAfter, hName, -⟩ := exists_variable_addDefinition _ found.1 _ hBefore
  exact ⟨after, hAfter, hName⟩

theorem namingIn_defineGlobal (h : Nested table stack) (hOpen : scope ∈ stack)
    (found : Node × Node) (other : String) :
    (defineGlobal scope table found).namingIn Scope.implicitVariables scope other =
      if other = found.1.name then
        some (((table.namingIn Scope.implicitVariables scope found.1.name).getD {}).add found.1
          { kind := .implicitGlobal, name := found.1, node := found.2,
            serial := table.definitionCount })
      else table.namingIn Scope.implicitVariables scope other := by
  unfold defineGlobal
  rw [h.declareImplicit_eq_declareIn,
    namingIn_defineIn h.homes_implicit (fun _ _ => rfl) (h.exists_of_mem hOpen)]
  simp only [true_and]

theorem pairs_defineGlobal (h : Nested table stack) (hOpen : scope ∈ stack)
    (found : Node × Node) (other : String) :
    Naming.pairs ((defineGlobal scope table found).namingIn Scope.implicitVariables scope other) =
      Naming.pairs (table.namingIn Scope.implicitVariables scope other) ++
        if other = found.1.name then [found] else [] := by
  rw [namingIn_defineGlobal h hOpen]
  by_cases hName : other = found.1.name
  · rw [if_pos hName, if_pos hName, hName]
    simp [Naming.pairs, Naming.add]
  · rw [if_neg hName, if_neg hName, List.append_nil]

theorem nested_defineGlobals (h : Nested table stack) (hOpen : scope ∈ stack)
    (found : List (Node × Node)) : Nested (found.foldl (defineGlobal scope) table) stack :=
  (defineGlobals_induction (P := fun _ => True) hOpen (fun _ _ _ _ => trivial) found h trivial).1

/-- The assignments make one global for each name, in the order in which they come
first, and each is defined by those of its name. -/
theorem names_defineGlobals (h : Nested table stack) (hOpen : scope ∈ stack)
    (hScope : table.scopes[scope]? = some entry) (hNone : entry.implicitVariables = #[])
    (found : List (Node × Node)) :
    (found.foldl (defineGlobal scope) table).namesIn Scope.implicitVariables scope =
        (found.map fun assignment => assignment.1.name).eraseDups.map some ∧
      ∀ other, Naming.pairs
          ((found.foldl (defineGlobal scope) table).namingIn Scope.implicitVariables scope other) =
        found.filter fun assignment => assignment.1.name = other := by
  -- By induction from the end: the last assignment makes a name global unless one before
  -- has.
  induction found using List.reverseRecOn with
  | nil =>
      refine ⟨?_, fun other => ?_⟩
      · rw [List.foldl_nil, namesIn_of_getElem? hScope, hNone]
        rfl
      · simp [Naming.pairs, namingIn, lookupIn, hScope, hNone]
  | append_singleton found last ih =>
      obtain ⟨hNames, hPairs⟩ := ih
      have hNested := nested_defineGlobals h hOpen found
      rw [List.foldl_append, List.foldl_cons, List.foldl_nil]
      refine ⟨?_, fun other => ?_⟩
      · have hKnown : some last.1.name ∈ (found.map fun assignment => assignment.1.name).eraseDups.map
            some ↔ last.1.name ∈ found.map fun assignment => assignment.1.name := by
          rw [List.mem_map_of_injective (Option.some_injective _), List.mem_eraseDups]
        rw [namesIn_defineGlobal hNested hOpen, hNames, List.map_append, List.eraseDups_append,
          List.map_singleton, List.map_append]
        generalize (found.map fun assignment => assignment.1.name) = names at hKnown ⊢
        by_cases hOld : last.1.name ∈ names
        · rw [if_pos (hKnown.2 hOld)]
          simp [List.removeAll, hOld]
        · rw [if_neg fun hMem => hOld (hKnown.1 hMem)]
          simp [List.removeAll, hOld, List.eraseDups_cons]
      · rw [pairs_defineGlobal hNested hOpen, hPairs, List.filter_append]
        by_cases hName : last.1.name = other
        · simp [hName]
        · simp [hName, Ne.symm hName]

end Scoping.SymbolTable
