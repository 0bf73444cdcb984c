import Mathlib.Data.List.Find
import Scoping.Proofs.Table.Events

/-! What is found under the names of a scope. The names that a program makes
global have a list of their own, so that the list is named all along. -/

namespace Scoping

/-- All that declares a name, in order. -/
structure Naming where
  definitions : Array Definition := #[]
  identifiers : Array Node := #[]

def Naming.add (naming : Naming) (identifier : Node) (definition : Definition) : Naming where
  definitions := naming.definitions.push definition
  identifiers := naming.identifiers.push identifier

def Variable.naming (var : Variable) : Naming where
  definitions := var.definitions
  identifiers := var.identifiers

/-- What a definition says, without its place among the others. -/
def Definition.unnumbered (definition : Definition) : Definition :=
  { definition with serial := 0 }

namespace SymbolTable

variable {table next : SymbolTable} {stack : List ScopeId} {scope position : ScopeId}
  {list : Scope → Array VariableId} {add : VariableId → Scope → Scope} {name other : String}

/-- The variable of a name in one of the lists of a scope. -/
def lookupIn (table : SymbolTable) (list : Scope → Array VariableId) (scope : ScopeId)
    (name : String) : Option VariableId :=
  table.scopes[scope]?.bind fun entry => (list entry).find? (table.isNamed name)

/-- A variable in one of the lists of a scope, with its name there. -/
def ownIn (table : SymbolTable) (list : Scope → Array VariableId) (scope : ScopeId)
    (name : String) : Option (VariableId × Variable) :=
  (table.lookupIn list scope name).bind fun var => table.variables[var]?.map (var, ·)

/-- All that declares a name in a scope, if the scope has the name. -/
def namingIn (table : SymbolTable) (list : Scope → Array VariableId) (scope : ScopeId)
    (name : String) : Option Naming :=
  (table.lookupIn list scope name).bind fun var => table.variables[var]?.map Variable.naming

/-- All that declares a name is read off the variable of that name. -/
theorem namingIn_eq_map_ownIn :
    table.namingIn list position name =
      (table.ownIn list position name).map fun own => own.2.naming := by
  rw [namingIn, ownIn]
  cases table.lookupIn list position name with
  | none => rfl
  | some var => simp [Option.map_map, Function.comp_def]

/-- Declare a name in a scope, where a variable of the name may have been found. -/
def declareBy (table : SymbolTable) (found : Option VariableId)
    (add : VariableId → Scope → Scope) (scope : ScopeId) (name : String) :
    VariableId × SymbolTable :=
  match found with
  | some var => (var, table)
  | none =>
      (table.variables.size,
        (table.addVariable scope name).2.modifyScope scope (add table.variables.size))

/-- Declare a name in one of the lists of a scope. -/
def declareIn (table : SymbolTable) (list : Scope → Array VariableId)
    (add : VariableId → Scope → Scope) (scope : ScopeId) (name : String) :
    VariableId × SymbolTable :=
  table.declareBy (table.lookupIn list scope name) add scope name

/-- A name of a scope is declared unless the index of its names has it. -/
theorem declare_eq_declareBy (table : SymbolTable) (scope : ScopeId) (name : String) :
    table.declare scope name =
      table.declareBy (table.lookup? scope name) (Scope.enlist name) scope name :=
  rfl

/-- An implicit global is declared unless the index of those has it. -/
theorem declareImplicit_eq_declareBy (table : SymbolTable) (scope : ScopeId) (name : String) :
    table.declareImplicit scope name =
      table.declareBy (table.lookupImplicit? scope name) (Scope.enlistImplicit name) scope name :=
  rfl

/-- Under a name a scope finds what its list has of that name. -/
theorem Placed.lookup?_eq (h : Placed table) (scope : ScopeId) (name : String) :
    table.lookup? scope name = table.lookupIn Scope.variables scope name := by
  unfold lookup? lookupIn
  cases hEntry : table.scopes[scope]? with
  | none => rfl
  | some entry => exact (h.catalogs scope entry hEntry).1.lookup_eq name

/-- The index of implicit globals finds what a search of their list finds. -/
theorem Placed.lookupImplicit?_eq (h : Placed table) (scope : ScopeId) (name : String) :
    table.lookupImplicit? scope name = table.lookupIn Scope.implicitVariables scope name := by
  unfold lookupImplicit? lookupIn
  cases hEntry : table.scopes[scope]? with
  | none => rfl
  | some entry => exact (h.catalogs scope entry hEntry).2.lookup_eq name

/-- So a declaration can be told from the list alone. -/
theorem Placed.declare_eq_declareIn (h : Placed table) (scope : ScopeId) (name : String) :
    table.declare scope name =
      table.declareIn Scope.variables (Scope.enlist name) scope name := by
  rw [declare_eq_declareBy, h.lookup?_eq, declareIn]

theorem Placed.declareImplicit_eq_declareIn (h : Placed table) (scope : ScopeId) (name : String) :
    table.declareImplicit scope name =
      table.declareIn Scope.implicitVariables (Scope.enlistImplicit name) scope name := by
  rw [declareImplicit_eq_declareBy, h.lookupImplicit?_eq, declareIn]

/-- What a list names is a variable of the scope that has the list. -/
def Homes (table : SymbolTable) (list : Scope → Array VariableId) : Prop :=
  ∀ (scope : ScopeId) (entry : Scope), table.scopes[scope]? = some entry → ∀ var ∈ list entry,
    ∃ declared, table.variables[var]? = some declared ∧ declared.scope = scope

/-- A variable that some scope has in a list. -/
def Listed (table : SymbolTable) (list : Scope → Array VariableId) (var : VariableId) : Prop :=
  ∃ (position : ScopeId) (entry : Scope), table.scopes[position]? = some entry ∧ var ∈ list entry

theorem Placed.homes_variables (h : Placed table) : table.Homes Scope.variables :=
  fun scope entry hEntry var hVar => h.listed scope entry hEntry var (.inl hVar)

theorem Placed.homes_implicit (h : Placed table) : table.Homes Scope.implicitVariables :=
  fun scope entry hEntry var hVar => h.listed scope entry hEntry var (.inr hVar)

/-- What is found under a name has the name, and is of the scope. -/
theorem Homes.exists_of_lookupIn (h : table.Homes list) {var : VariableId}
    (hLookup : table.lookupIn list scope name = some var) :
    ∃ declared, table.variables[var]? = some declared ∧ declared.scope = scope ∧
      declared.name = name := by
  obtain ⟨entry, hEntry, hFind⟩ := Option.bind_eq_some_iff.1 hLookup
  obtain ⟨declared, hDeclared, hScope⟩ := h scope entry hEntry var (Array.mem_of_find?_eq_some hFind)
  have hNamed := Array.find?_some hFind
  simp only [isNamed, hDeclared, Option.any_some, decide_eq_true_eq] at hNamed
  exact ⟨declared, hDeclared, hScope, hNamed⟩

/-- A search depends only on how it judges the items of the list. -/
theorem find?_congr {ids : Array VariableId} {p q : VariableId → Bool}
    (h : ∀ var ∈ ids, p var = q var) : ids.find? p = ids.find? q := by
  rw [← Array.find?_toList, ← Array.find?_toList]
  exact List.find?_congr fun var hVar => h var (Array.mem_toList_iff.1 hVar)

/-- A change that neither lists nor names anything finds the same. -/
theorem lookupIn_congr (h : table.Homes list)
    (hLists : next.scopes[position]?.map list = table.scopes[position]?.map list)
    (hNames : ∀ (var : VariableId) (before : Variable), table.Listed list var →
      table.variables[var]? = some before →
        ∃ after, next.variables[var]? = some after ∧ after.name = before.name) :
    next.lookupIn list position name = table.lookupIn list position name := by
  unfold lookupIn
  cases hBefore : table.scopes[position]? with
  | none =>
      rw [hBefore, Option.map_none, Option.map_eq_none_iff] at hLists
      rw [hLists]
      rfl
  | some before =>
      rw [hBefore, Option.map_some, Option.map_eq_some_iff] at hLists
      obtain ⟨after, hAfter, hSame⟩ := hLists
      rw [hAfter, Option.bind_some, Option.bind_some, hSame]
      refine find?_congr fun var hVar => ?_
      obtain ⟨declared, hDeclared, -⟩ := h position before hBefore var hVar
      obtain ⟨later, hLater, hName⟩ := hNames var declared ⟨position, before, hBefore, hVar⟩ hDeclared
      simp [isNamed, hDeclared, hLater, hName]

/-- All that declares a name depends on the list, on the names in it, and on their
definitions. -/
theorem namingIn_congr (h : table.Homes list)
    (hLists : next.scopes[position]?.map list = table.scopes[position]?.map list)
    (hNames : ∀ (var : VariableId) (before : Variable), table.Listed list var →
      table.variables[var]? = some before →
        ∃ after, next.variables[var]? = some after ∧ after.name = before.name)
    (hNamings : ∀ (var : VariableId) (before : Variable), table.lookupIn list position name = some var →
      table.variables[var]? = some before →
        ∃ after, next.variables[var]? = some after ∧ after.naming = before.naming) :
    next.namingIn list position name = table.namingIn list position name := by
  unfold namingIn
  rw [lookupIn_congr h hLists hNames]
  cases hLookup : table.lookupIn list position name with
  | none => rfl
  | some var =>
      obtain ⟨declared, hDeclared, -⟩ := h.exists_of_lookupIn hLookup
      obtain ⟨after, hAfter, hSame⟩ := hNamings var declared hLookup hDeclared
      simp [hDeclared, hAfter, hSame]

/-- Declaring a name finds it from then on, and finds the others as before. -/
theorem lookupIn_declareIn (h : table.Homes list)
    (hAdd : ∀ var entry, list (add var entry) = (list entry).push var)
    (hScope : ∃ entry, table.scopes[scope]? = some entry) :
    (table.declareIn list add scope name).2.lookupIn list position other =
      if position = scope ∧ other = name then some (table.declareIn list add scope name).1
      else table.lookupIn list position other := by
  unfold declareIn declareBy
  cases hLookup : table.lookupIn list scope name with
  | some var =>
      dsimp only
      split
      · next hEq => rw [hEq.1, hEq.2, hLookup]
      · rfl
  | none =>
      dsimp only
      -- The variables that were there keep their names, so a search among them finds what
      -- it found.
      have hOld : ∀ entry, table.scopes[position]? = some entry →
          (list entry).find? (((table.addVariable scope name).2.modifyScope scope
            (add table.variables.size)).isNamed other) =
              (list entry).find? (table.isNamed other) := by
        intro entry hEntry
        refine find?_congr fun var hVar => ?_
        obtain ⟨declared, hDeclared, -⟩ := h position entry hEntry var hVar
        have hLt : var < table.variables.size := (Array.getElem?_eq_some_iff.1 hDeclared).1
        simp [isNamed, addVariable, Array.getElem?_push, Nat.ne_of_lt hLt]
      -- The variable that is new comes after them.
      have hNew : ((table.addVariable scope name).2.modifyScope scope
          (add table.variables.size)).isNamed other table.variables.size =
            decide (name = other) := by
        simp [isNamed, addVariable]
      have hScopes : ((table.addVariable scope name).2.modifyScope scope
          (add table.variables.size)).scopes[position]? =
            if scope = position then table.scopes[position]?.map (add table.variables.size)
            else table.scopes[position]? := getElem?_modifyScope _ _ _ _
      by_cases hPosition : scope = position
      · subst hPosition
        obtain ⟨entry, hEntry⟩ := hScope
        have hHere : table.lookupIn list scope other = (list entry).find? (table.isNamed other) := by
          rw [lookupIn, hEntry, Option.bind_some]
        rw [lookupIn, hScopes, if_pos rfl, hEntry, Option.map_some, Option.bind_some, hAdd,
          Array.find?_push, hOld entry hEntry, hNew, ← hHere]
        by_cases hName : other = name
        · subst hName
          simp [hLookup]
        · simp [hName, Ne.symm hName]
      · rw [lookupIn, hScopes, if_neg hPosition, if_neg fun hEq => hPosition hEq.1.symm]
        cases hEntry : table.scopes[position]? with
        | none => simp [lookupIn, hEntry]
        | some entry =>
            rw [Option.bind_some, hOld entry hEntry, lookupIn, hEntry, Option.bind_some]

/-- A name that has been declared is found. -/
theorem lookupIn_declareIn_self (h : table.Homes list)
    (hAdd : ∀ var entry, list (add var entry) = (list entry).push var)
    (hScope : ∃ entry, table.scopes[scope]? = some entry) :
    (table.declareIn list add scope name).2.lookupIn list scope name =
      some (table.declareIn list add scope name).1 := by
  rw [lookupIn_declareIn h hAdd hScope, if_pos ⟨rfl, rfl⟩]

/-- Declaring a name adds one variable at most, and changes none. -/
theorem getElem?_variables_declareBy {found : Option VariableId} {var : VariableId} :
    (table.declareBy found add scope name).2.variables[var]? =
      if found = none ∧ var = table.variables.size then some { name, scope }
      else table.variables[var]? := by
  cases found with
  | some found => simp [declareBy]
  | none => simp [declareBy, addVariable, Array.getElem?_push]

/-- A declaration adds one variable if the name is new, and none if it is not. -/
theorem getElem?_variables_declareIn {var : VariableId} :
    (table.declareIn list add scope name).2.variables[var]? =
      if table.lookupIn list scope name = none ∧ var = table.variables.size then
        some { name, scope }
      else table.variables[var]? :=
  getElem?_variables_declareBy

/-- What is declared in a scope is a variable of it. -/
theorem homes_declareIn (h : table.Homes list)
    (hAdd : ∀ var entry, list (add var entry) = (list entry).push var) :
    (table.declareIn list add scope name).2.Homes list := by
  intro position entry hEntry var hVar
  have hOld : ∀ before, table.scopes[position]? = some before → var ∈ list before →
      ∃ declared, (table.declareIn list add scope name).2.variables[var]? = some declared ∧
        declared.scope = position := by
    intro before hBefore hMem
    obtain ⟨declared, hDeclared, hScope⟩ := h position before hBefore var hMem
    have hLt : var < table.variables.size := (Array.getElem?_eq_some_iff.1 hDeclared).1
    refine ⟨declared, ?_, hScope⟩
    rw [getElem?_variables_declareIn, if_neg fun hNew => Nat.ne_of_lt hLt hNew.2, hDeclared]
  have hNew : (table.declareIn list add scope name).2.variables[var]? =
      if table.lookupIn list scope name = none ∧ var = table.variables.size then
        some { name, scope }
      else table.variables[var]? := getElem?_variables_declareIn
  unfold declareIn declareBy at hEntry hNew hOld ⊢
  cases hLookup : table.lookupIn list scope name with
  | some found =>
      rw [hLookup] at hEntry hOld
      exact hOld entry hEntry hVar
  | none =>
      rw [hLookup] at hEntry hNew hOld
      obtain ⟨before, hBefore, rfl | ⟨rfl, rfl⟩⟩ := exists_of_modifyScope hEntry
      · exact hOld entry hBefore hVar
      · rw [hAdd] at hVar
        rcases Array.mem_push.1 hVar with hMem | rfl
        · exact hOld before hBefore hMem
        · rw [if_pos ⟨rfl, rfl⟩] at hNew
          exact ⟨_, hNew, rfl⟩

/-- A name that is declared is not defined by that. -/
theorem namingIn_declareIn (h : table.Homes list)
    (hAdd : ∀ var entry, list (add var entry) = (list entry).push var)
    (hScope : ∃ entry, table.scopes[scope]? = some entry) :
    (table.declareIn list add scope name).2.namingIn list position other =
      if position = scope ∧ other = name then some ((table.namingIn list scope name).getD {})
      else table.namingIn list position other := by
  have hVariables : ∀ var, (table.declareIn list add scope name).2.variables[var]? =
      if table.lookupIn list scope name = none ∧ var = table.variables.size then
        some { name, scope }
      else table.variables[var]? := fun var => getElem?_variables_declareIn
  have hOld : ∀ {place : ScopeId} {called : String} {var : VariableId},
      table.lookupIn list place called = some var →
      (table.declareIn list add scope name).2.variables[var]? = table.variables[var]? := by
    intro place called var hLookup
    obtain ⟨declared, hDeclared, -⟩ := h.exists_of_lookupIn hLookup
    have hLt : var < table.variables.size := (Array.getElem?_eq_some_iff.1 hDeclared).1
    rw [hVariables, if_neg fun hNew => Nat.ne_of_lt hLt hNew.2]
  unfold namingIn
  rw [lookupIn_declareIn h hAdd hScope]
  by_cases hEq : position = scope ∧ other = name
  · rw [if_pos hEq, if_pos hEq, Option.bind_some]
    cases hLookup : table.lookupIn list scope name with
    | none =>
        have hNew : (table.declareIn list add scope name).1 = table.variables.size := by
          rw [declareIn, hLookup, declareBy]
        rw [hVariables, hNew, if_pos ⟨hLookup, rfl⟩]
        rfl
    | some var =>
        have hSame : (table.declareIn list add scope name).1 = var := by rw [declareIn, hLookup, declareBy]
        obtain ⟨declared, hDeclared, -⟩ := h.exists_of_lookupIn hLookup
        rw [hSame, hOld hLookup, hDeclared]
        simp [hDeclared]
  · rw [if_neg hEq, if_neg hEq]
    cases hLookup : table.lookupIn list position other with
    | none => rfl
    | some var => rw [Option.bind_some, Option.bind_some, hOld hLookup]

theorem getElem?_variables_addDefinition (table : SymbolTable) (var place : VariableId)
    (identifier : Node) (definition : Definition) :
    (table.addDefinition var identifier definition).variables[place]? =
      if var = place then table.variables[place]?.map fun entry =>
        { entry with
          definitions := entry.definitions.push { definition with serial := table.definitionCount }
          identifiers := entry.identifiers.push identifier }
      else table.variables[place]? :=
  getElem?_modifyVariable table var place _

/-- A definition is added to what declares its name, and to nothing else. -/
theorem namingIn_addDefinition (h : table.Homes list) {var : VariableId}
    (hVar : table.lookupIn list scope name = some var) (identifier : Node)
    (definition : Definition) :
    (table.addDefinition var identifier definition).namingIn list position other =
      if position = scope ∧ other = name then (table.namingIn list scope name).map fun naming =>
        naming.add identifier { definition with serial := table.definitionCount }
      else table.namingIn list position other := by
  have hLookup : (table.addDefinition var identifier definition).lookupIn list position other =
      table.lookupIn list position other := by
    refine lookupIn_congr h rfl fun place before _ hBefore => ?_
    rw [getElem?_variables_addDefinition, hBefore]
    split
    · exact ⟨_, rfl, rfl⟩
    · exact ⟨before, rfl, rfl⟩
  unfold namingIn
  rw [hLookup]
  by_cases hEq : position = scope ∧ other = name
  · obtain ⟨declared, hDeclared, -⟩ := h.exists_of_lookupIn hVar
    rw [if_pos hEq, hEq.1, hEq.2, hVar, Option.bind_some, Option.bind_some,
      getElem?_variables_addDefinition, if_pos rfl, hDeclared]
    rfl
  · rw [if_neg hEq]
    cases hFound : table.lookupIn list position other with
    | none => rfl
    | some found =>
        have hNe : var ≠ found := fun hSame => by
          subst hSame
          obtain ⟨declared, hDeclared, hScope, hName⟩ := h.exists_of_lookupIn hVar
          obtain ⟨same, hSame, hPlace, hOther⟩ := h.exists_of_lookupIn hFound
          cases hSame.symm.trans hDeclared
          exact hEq ⟨hPlace.symm.trans hScope, hOther.symm.trans hName⟩
        rw [Option.bind_some, Option.bind_some, getElem?_variables_addDefinition, if_neg hNe]

/-- A name that is defined in one of the lists of a scope. -/
theorem namingIn_defineIn (h : table.Homes list)
    (hAdd : ∀ var entry, list (add var entry) = (list entry).push var)
    (hScope : ∃ entry, table.scopes[scope]? = some entry) (identifier : Node)
    (definition : Definition) :
    ((table.declareIn list add scope name).2.addDefinition (table.declareIn list add scope name).1
        identifier definition).namingIn list position other =
      if position = scope ∧ other = name then
        some (((table.namingIn list scope name).getD {}).add identifier
          { definition with serial := table.definitionCount })
      else table.namingIn list position other := by
  have hCount : (table.declareIn list add scope name).2.definitionCount = table.definitionCount := by
    unfold declareIn declareBy
    split <;> rfl
  have hHere : (table.declareIn list add scope name).2.namingIn list scope name =
      some ((table.namingIn list scope name).getD {}) := by
    rw [namingIn_declareIn h hAdd hScope, if_pos ⟨rfl, rfl⟩]
  rw [namingIn_addDefinition (homes_declareIn h hAdd) (lookupIn_declareIn_self h hAdd hScope),
    hHere, hCount]
  by_cases hEq : position = scope ∧ other = name
  · rw [if_pos hEq, if_pos hEq]
    rfl
  · rw [if_neg hEq, if_neg hEq, namingIn_declareIn h hAdd hScope, if_neg hEq]

end SymbolTable

end Scoping
