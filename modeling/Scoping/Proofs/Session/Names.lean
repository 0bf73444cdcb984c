import Scoping.Analyze
import Scoping.Proofs.Session.Forest
import Scoping.Proofs.Table.Globals
import Scoping.Proofs.Walk.Balance

/-! The list of a scope and its table of names are written together, and have the
same variables, whichever way a variable was made. Only the `arguments` of a
function goes without a definition. -/

namespace Scoping.SymbolTable

variable {settings : Settings} {table middle next : SymbolTable} {scope position : ScopeId}
  {list : Scope → Array VariableId} {names : Scope → List (String × VariableId)}
  {add : VariableId → Scope → Scope} {name : String} {var : VariableId} {command : Command}

/-- What a list of each scope has and what its table has under names are the
same variables, each once, of that scope and under a name of its own. -/
structure Catalogued (table : SymbolTable) (list : Scope → Array VariableId)
    (names : Scope → List (String × VariableId)) : Prop where
  listed : ∀ (position : ScopeId) (scope : Scope), table.scopes[position]? = some scope →
    ∀ var ∈ list scope, ∃ declared, table.variables[var]? = some declared ∧
      declared.scope = position ∧ (names scope).lookup declared.name = some var
  entered : ∀ (position : ScopeId) (scope : Scope), table.scopes[position]? = some scope →
    ∀ name var, (name, var) ∈ names scope → var ∈ list scope ∧
      ∃ declared, table.variables[var]? = some declared ∧ declared.name = name
  once : ∀ (position : ScopeId) (scope : Scope), table.scopes[position]? = some scope →
    (list scope).toList.Nodup ∧
      ((list scope).toList.map fun var => table.variables[var]?.map Variable.name).Nodup
  keys : ∀ (position : ScopeId) (scope : Scope), table.scopes[position]? = some scope →
    ((names scope).map Prod.fst).Nodup ∧ ((names scope).map Prod.snd).Nodup

/-- Every variable has a definition, but for the `arguments` of functions, which
each function that has it lists first. -/
structure Furnished (table : SymbolTable) : Prop where
  defined : ∀ (var : VariableId) (declared : Variable), table.variables[var]? = some declared →
    declared.definitions ≠ #[] ∨ (declared.name = "arguments" ∧
      ∃ scope, table.scopes[declared.scope]? = some scope ∧ scope.OwnsArguments)
  first : ∀ (position : ScopeId) (scope : Scope), table.scopes[position]? = some scope →
    scope.OwnsArguments → ∃ var declared, scope.variables[0]? = some var ∧
      table.variables[var]? = some declared ∧ declared.name = "arguments"

/-- Tables that events of a walk and commands of a caller lead to. -/
inductive Leads (settings : Settings) (table : SymbolTable) : SymbolTable → Prop where
  | refl : Leads settings table table
  | event {middle next : SymbolTable} {event : Event} (hPrior : Leads settings table middle)
      (hLast : middle.apply settings event = .ok next) : Leads settings table next
  | command {middle next : SymbolTable} {command : Command} (hPrior : Leads settings table middle)
      (hLast : middle.obey settings command = .ok next) : Leads settings table next

theorem furnished_empty : Furnished {} :=
  ⟨fun _ _ h => by simp at h, fun _ _ h => by simp at h⟩

/-- A table stays furnished if all that is new in it is. -/
theorem Furnished.of_extends (h : table.Furnished) (hExtends : Extends table next)
    (hVariables : ∀ (var : VariableId) (declared : Variable), table.variables[var]? = none →
      next.variables[var]? = some declared → declared.definitions ≠ #[] ∨
        (declared.name = "arguments" ∧ ∃ scope, next.scopes[declared.scope]? = some scope ∧
          scope.OwnsArguments))
    (hScopes : ∀ (position : ScopeId) (scope : Scope), table.scopes[position]? = none →
      next.scopes[position]? = some scope → scope.OwnsArguments →
        ∃ var declared, scope.variables[0]? = some var ∧ next.variables[var]? = some declared ∧
          declared.name = "arguments") : next.Furnished where
  defined := fun var declared hDeclared => by
    cases hBefore : table.variables[var]? with
    | none => exact hVariables var declared hBefore hDeclared
    | some before =>
        obtain ⟨after, hAfter, hMore⟩ := hExtends.variable_ var before hBefore
        cases hAfter.symm.trans hDeclared
        rcases h.defined var before hBefore with hDefined | ⟨hName, scope, hScope, hOwns⟩
        · refine .inl fun hNone => hDefined ?_
          have hPrefix := hMore.definitions
          rw [hNone, List.prefix_nil] at hPrefix
          exact Array.toList_eq_nil_iff.1 hPrefix
        · obtain ⟨later, hLater, hSame⟩ := hExtends.scope _ scope hScope
          refine .inr ⟨hMore.name.trans hName, later, hMore.scope ▸ hLater, ?_⟩
          exact ⟨hSame.kind.trans hOwns.1, hSame.block ▸ hOwns.2⟩
  first := fun position scope hScope hOwns => by
    cases hBefore : table.scopes[position]? with
    | none => exact hScopes position scope hBefore hScope hOwns
    | some before =>
        obtain ⟨after, hAfter, hMore⟩ := hExtends.scope position before hBefore
        cases hAfter.symm.trans hScope
        obtain ⟨var, declared, hFirst, hDeclared, hName⟩ :=
          h.first position before hBefore ⟨hMore.kind ▸ hOwns.1, hMore.block ▸ hOwns.2⟩
        obtain ⟨later, hLater, hSame⟩ := hExtends.variable_ var declared hDeclared
        refine ⟨var, later, ?_, hLater, hSame.name.trans hName⟩
        obtain ⟨rest, hRest⟩ := hMore.variables
        rw [← Array.getElem?_toList] at hFirst ⊢
        rw [← hRest, List.getElem?_append_left (List.getElem?_eq_some_iff.1 hFirst).1, hFirst]

theorem size_declareBy (found : Option VariableId) (scope : ScopeId) (name : String) :
    (table.declareBy found add scope name).2.scopes.size = table.scopes.size := by
  cases found with
  | some var => rfl
  | none => exact Array.size_modify

/-- A name that is declared and at once defined is furnished. -/
theorem Furnished.defineBy (h : table.Furnished)
    (hAdd : ∀ var entry, Scope.Extends entry (add var entry)) (found : Option VariableId)
    (scope : ScopeId) (name : String) (identifier : Node) (definition : Definition) :
    ((table.declareBy found add scope name).2.addDefinition
      (table.declareBy found add scope name).1 identifier definition).Furnished := by
  refine h.of_extends
    ((extends_declareBy hAdd found scope name).trans (extends_addDefinition _ _ _ _))
    (fun var declared hNone hDeclared => ?_) fun position entry hNone hEntry => ?_
  · rw [getElem?_variables_addDefinition] at hDeclared
    split at hDeclared
    · obtain ⟨before, -, rfl⟩ := Option.map_eq_some_iff.1 hDeclared
      exact .inl (by simp)
    · next hNe =>
        rw [getElem?_variables_declareBy, hNone] at hDeclared
        split at hDeclared
        · next hNew =>
            refine absurd ?_ hNe
            rw [hNew.1, hNew.2, declareBy]
        · cases hDeclared
  · have hLt : position < (table.declareBy found add scope name).2.scopes.size :=
      lt_of_getElem?_scopes hEntry
    rw [size_declareBy] at hLt
    exact absurd hLt (Nat.not_lt_of_le (Array.getElem?_eq_none_iff.1 hNone))

theorem Stays.furnished (hStays : Stays table next) (h : table.Furnished) : next.Furnished := by
  refine h.of_extends hStays.extends (fun var declared hNone hDeclared => ?_)
    fun position scope hNone hScope => ?_
  · obtain ⟨before, hBefore, -⟩ := hStays.exists_variable hDeclared
    cases hNone.symm.trans hBefore
  · obtain ⟨before, hBefore, -⟩ := hStays.exists_scope hScope
    cases hNone.symm.trans hBefore

/-- A function that opens lists its `arguments` at once. -/
theorem Furnished.openFunction (h : table.Furnished) {fresh : Scope}
    (hEmpty : fresh.IsFresh) (hKind : fresh.OwnsArguments)
    (hStays : Stays (table.pushScope fresh) middle) :
    (middle.declare table.scopes.size "arguments").2.Furnished := by
  have hFresh : (table.pushScope fresh).scopes[table.scopes.size]? = some fresh := by
    rw [getElem?_pushScope, if_pos rfl]
  obtain ⟨opened, hOpened, hRoster⟩ := hStays.symm.exists_scope hFresh
  obtain ⟨hOrigin, hCatalog⟩ := Prod.mk.inj hRoster
  rw [hEmpty.catalog] at hCatalog
  simp only [Scope.catalog, Scope.origin, Prod.mk.injEq] at hOrigin hCatalog
  obtain ⟨hSameKind, hSameBlock, -⟩ := hOrigin
  obtain ⟨⟨hNone, hNameless⟩, -⟩ := hCatalog
  -- The scope has no names so far, so that `arguments` is new in it.
  have hDeclare : middle.declare table.scopes.size "arguments" =
      (middle.variables.size, (middle.addVariable table.scopes.size "arguments").2.modifyScope
        table.scopes.size (Scope.enlist "arguments" middle.variables.size)) := by
    rw [declare, lookup?, hOpened, Option.bind_some, ← hNameless]
    rfl
  have hExtends : Extends table (middle.declare table.scopes.size "arguments").2 :=
    (extends_pushScope table fresh).trans
      (hStays.extends.trans (extends_declare _ _ _))
  have hHere : (middle.declare table.scopes.size "arguments").2.scopes[table.scopes.size]? =
      some (opened.enlist "arguments" middle.variables.size) := by
    have hAdded : (middle.addVariable table.scopes.size "arguments").2.scopes[
      table.scopes.size]? = some opened := hOpened
    rw [hDeclare, getElem?_modifyScope, if_pos rfl, hAdded]
    rfl
  have hNew : ∀ var, (middle.declare table.scopes.size "arguments").2.variables[var]? =
      if var = middle.variables.size then some { name := "arguments", scope := table.scopes.size }
      else middle.variables[var]? := fun var => by
    rw [hDeclare]
    exact Array.getElem?_push
  have hOwns : (opened.enlist "arguments" middle.variables.size).OwnsArguments :=
    ⟨hSameKind ▸ hKind.1, hSameBlock ▸ hKind.2⟩
  -- One variable and one scope are new, and the variable is the first of the scope.
  refine h.of_extends hExtends (fun var declared hBefore hDeclared => ?_)
    fun position scope hBefore hScope _ => ?_
  · rw [hNew] at hDeclared
    split at hDeclared
    · cases hDeclared
      exact .inr ⟨rfl, _, hHere, hOwns⟩
    · obtain ⟨before, hOld, -⟩ := hStays.exists_variable hDeclared
      cases hBefore.symm.trans hOld
  · obtain rfl : position = table.scopes.size := by
      have hLt := lt_of_getElem?_scopes hScope
      rw [declare_eq_declareBy, size_declareBy] at hLt
      obtain ⟨before, hOld, -⟩ := hStays.exists_scope (Array.getElem?_eq_getElem hLt)
      rcases cases_of_pushScope hOld with ⟨hNewest, -⟩ | hPast
      · exact hNewest
      · cases hBefore.symm.trans hPast
    cases hHere.symm.trans hScope
    refine ⟨middle.variables.size, _, ?_, (hNew _).trans (if_pos rfl), rfl⟩
    rw [Scope.enlist, ← hNone]
    simp

/-- Whatever happens to the names of a table, it stays furnished. -/
theorem Builds.furnished (h : Builds table next) (hTable : table.Furnished) : next.Furnished := by
  induction h with
  | stay hStays => exact hStays.furnished hTable
  | @«open» table fresh _ hKind =>
      refine hTable.of_extends (extends_pushScope table fresh) (fun var declared hNone hDeclared => ?_)
        fun position scope hNone hScope hOwns => ?_
      · cases hNone.symm.trans hDeclared
      · rcases cases_of_pushScope hScope with ⟨-, rfl⟩ | hPast
        · exact absurd hOwns hKind
        · cases hNone.symm.trans hPast
  | openFunction hFresh hKind hStays => exact hTable.openFunction hFresh hKind hStays
  | @define table scope identifier definition =>
      by_cases hIdentifier : identifier.isIdentifier = true
      · rw [define_eq hIdentifier]
        exact hTable.defineBy extends_enlist _ _ _ _ _
      · rw [define_eq_self (by simpa using hIdentifier)]
        exact hTable
  | defineImplicit scope identifier definition =>
      exact hTable.defineBy extends_enlistImplicit _ _ _ _ _
  | trans _ _ ihFirst ihSecond => exact ihSecond (ihFirst hTable)

theorem named_obey (hNested : Nested table table.stack) (h : table.Named)
    (hOk : table.obey settings command = .ok next) : next.Named := by
  cases command with
  | enter kind block inMethod => exact h.enter hNested hOk
  | leave =>
      obtain ⟨left, hLeave, hNext⟩ := exists_of_bind_ok hOk
      cases hNext
      cases hStack : table.stack with
      | nil =>
          simp only [leave, hStack] at hLeave
          cases hLeave
          exact h
      | cons scope stack =>
          obtain ⟨after, hClose, hAfter, -⟩ := exists_leave settings (hStack ▸ hNested) hStack
          cases hAfter.symm.trans hLeave
          have hTail : Nested { table with stack } (scope :: stack) :=
            (hStack ▸ hNested).congr rfl fun _ before hBefore => ⟨before, hBefore, rfl⟩
          have hPopped : Named { table with stack } :=
            h.of_same hNested.toPlaced (sameNames_of_eq rfl rfl)
          exact hPopped.close hTail hClose
  | setStrict strict =>
      obtain ⟨scope, -, hNext⟩ := exists_of_bind_ok hOk
      cases hNext
      exact h.of_same hNested.toPlaced (sameNames_modifyScope fun _ => rfl)
  | thisExpression =>
      obtain ⟨scope, -, hNext⟩ := exists_of_bind_ok hOk
      cases hNext
      exact h.of_same hNested.toPlaced (sameNames_modifyScope fun _ => rfl)

theorem Leads.builds (h : Leads settings table next) : Builds table next := by
  induction h with
  | refl => exact .stay (.refl table)
  | event _ hLast ih => exact .trans ih (builds_apply hLast)
  | command _ hLast ih => exact .trans ih (builds_obey hLast)

theorem Leads.named (h : Leads settings {} table) : Nested table table.stack ∧ table.Named := by
  induction h with
  | refl => exact ⟨nested_empty, named_empty⟩
  | event _ hLast ih => exact ⟨nested_apply ih.1 hLast, named_apply ih.1 ih.2 hLast⟩
  | command _ hLast ih => exact ⟨nested_obey ih.1 hLast, named_obey ih.1 ih.2 hLast⟩

/-- A walk leads to all the tables on its way. -/
theorem leads_of_run {events : List Event} (h : Leads settings table middle)
    (hOk : middle.run settings events = .ok next) : Leads settings table next :=
  foldlM_induction (fun _ _ _ h hOk => .event h hOk) events h hOk

/-- A session leads to all the tables on its way. -/
theorem leads_of_session {commands : List Command} (h : Leads settings table middle)
    (hOk : middle.session settings commands = .ok next) : Leads settings table next :=
  foldlM_induction (fun _ _ _ h hOk => .command h hOk) commands h hOk

theorem Leads.trans (hFirst : Leads settings table middle) (hSecond : Leads settings middle next) :
    Leads settings table next := by
  induction hSecond with
  | refl => exact hFirst
  | event _ hLast ih => exact .event ih hLast
  | command _ hLast ih => exact .command ih hLast

section

variable (hIndexed : table.Indexed list)
  (hEnlists : ∀ (position : ScopeId) (scope : Scope), table.scopes[position]? = some scope →
    table.Enlists position (list scope) (names scope))

include hIndexed hEnlists

theorem nodup_names {entry : Scope} (hEntry : table.scopes[position]? = some entry) :
    ((list entry).toList.map fun var => table.variables[var]?.map Variable.name).Nodup := by
  have hHomes : table.Homes list := fun position scope hScope var hVar => by
    obtain ⟨declared, hDeclared, hHome, -⟩ := (hEnlists position scope hScope).exists_of_mem hVar
    exact ⟨declared, hDeclared, hHome⟩
  rw [← namesIn_of_getElem? hEntry]
  exact hIndexed.nodup_namesIn hHomes position

/-- A list that names nothing twice, and a table that is written along with it. -/
theorem catalogued : table.Catalogued list names where
  listed := fun position scope hScope var hVar => by
    obtain ⟨declared, hDeclared, hHome, -⟩ := (hEnlists position scope hScope).exists_of_mem hVar
    refine ⟨declared, hDeclared, hHome, ?_⟩
    have hFound := hIndexed.found position scope hScope var hVar declared hDeclared
    rw [lookupIn, hScope, Option.bind_some] at hFound
    rw [(hEnlists position scope hScope).lookup_eq, hFound]
  entered := fun position scope hScope name var hEntry => by
    have hEnlisted := hEnlists position scope hScope
    obtain ⟨declared, hDeclared, hHome⟩ := hEnlisted.declared name var hEntry
    refine ⟨?_, declared, hDeclared, congrArg Prod.snd hHome⟩
    rw [← Array.mem_toList_iff, ← hEnlisted.listed]
    exact List.mem_map_of_mem hEntry
  once := fun position scope hScope =>
    ⟨hIndexed.nodup position scope hScope, nodup_names hIndexed hEnlists hScope⟩
  keys := fun position scope hScope => by
    have hEnlisted := hEnlists position scope hScope
    refine ⟨List.Nodup.of_map some ?_, hEnlisted.listed ▸ hIndexed.nodup position scope hScope⟩
    rw [List.map_map]
    exact hEnlisted.map_fst ▸ nodup_names hIndexed hEnlists hScope

end

/-- What a scope has under a name it has under that name ever after. -/
theorem lookupIn_of_extends (hHomes : table.Homes list) (hIndexed : next.Indexed list)
    (hExtends : Extends table next)
    (hList : ∀ before after : Scope, before.Extends after → ∀ var ∈ list before, var ∈ list after)
    (hFound : table.lookupIn list scope name = some var) : next.lookupIn list scope name = some var := by
  obtain ⟨declared, hDeclared, -, rfl⟩ := hHomes.exists_of_lookupIn hFound
  obtain ⟨before, hBefore, hFind⟩ := Option.bind_eq_some_iff.1 hFound
  obtain ⟨after, hAfter, hScope⟩ := hExtends.scope scope before hBefore
  obtain ⟨later, hLater, hSame⟩ := hExtends.variable_ var declared hDeclared
  rw [← hSame.name]
  exact hIndexed.found scope after hAfter var
    (hList before after hScope var (Array.mem_of_find?_eq_some hFind)) later hLater

/-- Wherever a walk or a caller has come, what a scope lists and what it finds
under names are the same variables, and a name that is declared again only gets
one more definition. A program that is done leaves no variable without a
definition but the `arguments` of functions, which these list first. -/
theorem names_consistent (settings : Settings) :
    (∀ table, Leads settings {} table →
      table.Catalogued Scope.variables Scope.names ∧
      table.Catalogued Scope.implicitVariables Scope.implicitNames ∧
      ∀ next, Leads settings table next → ∀ scope identifier var,
        (identifier.isIdentifier = true → table.lookup? scope identifier.name = some var →
          ∀ definition, next.define scope identifier definition =
            next.addDefinition var identifier definition) ∧
        (table.lookupImplicit? scope identifier.name = some var →
          next.declareImplicit scope identifier.name = (var, next))) ∧
    ∀ tree table, analyze settings tree = .ok table →
      (∀ (var : VariableId) (declared : Variable), table.variables[var]? = some declared →
        declared.definitions = #[] → declared.name = "arguments" ∧
          ∃ scope, table.scopes[declared.scope]? = some scope ∧ scope.kind = .function ∧
            scope.block.kind ≠ "ArrowFunctionExpression") ∧
      ∀ (position : ScopeId) (scope : Scope), table.scopes[position]? = some scope →
        scope.kind = .function → scope.block.kind ≠ "ArrowFunctionExpression" →
          ∃ var declared, scope.variables[0]? = some var ∧
            table.variables[var]? = some declared ∧ declared.name = "arguments" := by
  refine ⟨fun table hLeads => ?_, fun tree table hOk => ?_⟩
  · obtain ⟨hNested, hNamed⟩ := hLeads.named
    refine ⟨catalogued hNamed.indexed fun position scope hScope =>
        (hNested.catalogs position scope hScope).1,
      catalogued hNamed.others fun position scope hScope =>
        (hNested.catalogs position scope hScope).2,
      fun next hNext scope identifier var => ⟨fun hIdentifier hFound definition => ?_, fun hFound => ?_⟩⟩
    all_goals
      -- Later commands only add to the lists, so what a name was found to be it still is.
      obtain ⟨hLater, hNextNamed⟩ := (hLeads.trans hNext).named
      have hExtends := hNext.builds.extends
    · rw [hNested.lookup?_eq] at hFound
      have hKept := lookupIn_of_extends hNested.homes_variables hNextNamed.indexed hExtends
        (fun _ _ hScope _ hVar => Array.mem_toList_iff.1
          (hScope.variables.subset (Array.mem_toList_iff.2 hVar))) hFound
      rw [define_eq hIdentifier, declare, hLater.lookup?_eq, hKept]
    · rw [hNested.lookupImplicit?_eq] at hFound
      have hKept := lookupIn_of_extends hNested.homes_implicit hNextNamed.others hExtends
        (fun _ _ hScope _ hVar => Array.mem_toList_iff.1
          (hScope.implicitVariables.subset (Array.mem_toList_iff.2 hVar))) hFound
      rw [declareImplicit, hLater.lookupImplicit?_eq, hKept]
  · obtain ⟨-, -, -, hRun⟩ := spec_of_analyze_eq_ok hOk
    have hFurnished := (builds_run hRun).furnished furnished_empty
    refine ⟨fun var declared hDeclared hNone => ?_, fun position scope hScope hKind hBlock =>
      hFurnished.first position scope hScope ⟨hKind, hBlock⟩⟩
    rcases hFurnished.defined var declared hDeclared with hDefined | ⟨hName, scope, hScope, hOwns⟩
    · exact absurd hNone hDefined
    · exact ⟨hName, scope, hScope, hOwns.1, hOwns.2⟩

/-- The program `function f(a, a) { x = a; }`. -/
def repeatedParameter : Tree where
  root := {
    location := []
    kind := "Program"
    entries := [("type", .string "Program"), ("body", .array [
      .object [("type", .string "FunctionDeclaration"), ("id", name "f"),
        ("params", .array [name "a", name "a"]),
        ("body", .object [("type", .string "BlockStatement"), ("body", .array [
          .object [("type", .string "ExpressionStatement"), ("expression",
            .object [("type", .string "AssignmentExpression"), ("operator", .string "="),
              ("left", name "x"), ("right", name "a")])]])])]])] }
where
  name (text : String) : Json := .object [("type", .string "Identifier"), ("name", .string text)]

/-- The parameter is one variable with two definitions, and the global that the
assignment makes is found among the implicit ones only. -/
theorem names_consistent_repeatedParameter :
    ∃ table, analyze ⟨{}, 9⟩ repeatedParameter = .ok table ∧
      (table.variables.map fun var => var.definitions.size) = #[1, 0, 2, 1] ∧
      (table.scopes.map Scope.names, table.scopes.map Scope.implicitNames) =
        (#[[("f", 0)], [("arguments", 1), ("a", 2)], []], #[[("x", 3)], [], []]) ∧
      table.Catalogued Scope.variables Scope.names ∧
      table.Catalogued Scope.implicitVariables Scope.implicitNames ∧
      (∀ (var : VariableId) (declared : Variable), table.variables[var]? = some declared →
        declared.definitions = #[] → declared.name = "arguments" ∧
          ∃ scope, table.scopes[declared.scope]? = some scope ∧ scope.kind = .function ∧
            scope.block.kind ≠ "ArrowFunctionExpression") ∧
      ∀ (position : ScopeId) (scope : Scope), table.scopes[position]? = some scope →
        scope.kind = .function → scope.block.kind ≠ "ArrowFunctionExpression" →
          ∃ var declared, scope.variables[0]? = some var ∧
            table.variables[var]? = some declared ∧ declared.name = "arguments" := by
  have hAnalyze : (analyze ⟨{}, 9⟩ repeatedParameter).toOption.map (fun table =>
      (table.scopes.map Scope.names, table.scopes.map Scope.implicitNames)) =
        some (#[[("f", 0)], [("arguments", 1), ("a", 2)], []], #[[("x", 3)], [], []]) := by
    decide +kernel
  have hSizes : (analyze ⟨{}, 9⟩ repeatedParameter).toOption.map (fun table =>
      table.variables.map fun var => var.definitions.size) = some #[1, 0, 2, 1] := by
    decide +kernel
  obtain ⟨table, hOk, hTables⟩ := exists_of_map_toOption _ hAnalyze
  rw [hOk] at hSizes
  obtain ⟨hReached, hDone⟩ := names_consistent ⟨{}, 9⟩
  have hLeads := leads_of_run .refl (spec_of_analyze_eq_ok hOk).2.2.2
  obtain ⟨hNames, hImplicit, -⟩ := hReached table hLeads
  exact ⟨table, hOk, Option.some.inj hSizes, hTables, hNames, hImplicit,
    hDone repeatedParameter table hOk⟩

end Scoping.SymbolTable
