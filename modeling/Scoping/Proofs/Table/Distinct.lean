import Scoping.Proofs.Table.Effects
import Scoping.Proofs.Table.Naming

/-! A scope has one variable for a name, and each variable is one of its scope. -/

namespace Scoping

/-- An event that neither declares a name nor closes a scope. -/
def Event.IsStill : Event → Prop
  | .enter .. | .leave _ | .define .. | .fail _ => False
  | _ => True

namespace SymbolTable

variable {settings : Settings} {table next : SymbolTable} {stack : List ScopeId}
  {scope : ScopeId} {list kept : Scope → Array VariableId} {add : VariableId → Scope → Scope}
  {name : String} {event : Event}

/-- A list of each scope that names nothing twice: what it lists is what is
found under the name of it. -/
structure Indexed (table : SymbolTable) (list : Scope → Array VariableId) : Prop where
  nodup : ∀ (scope : ScopeId) (entry : Scope), table.scopes[scope]? = some entry →
    (list entry).toList.Nodup
  found : ∀ (scope : ScopeId) (entry : Scope), table.scopes[scope]? = some entry →
    ∀ var ∈ list entry, ∀ declared, table.variables[var]? = some declared →
      table.lookupIn list scope declared.name = some var

/-- Every variable is in just one of two lists of its scope, once and under its
name. -/
structure Distinct (table : SymbolTable) (list other : Scope → Array VariableId) : Prop where
  indexed : table.Indexed list
  others : table.Indexed other
  apart : ∀ var, table.Listed list var → ¬ table.Listed other var
  owned : ∀ (var : VariableId) (declared : Variable), table.variables[var]? = some declared →
    ∃ entry, table.scopes[declared.scope]? = some entry ∧ (var ∈ list entry ∨ var ∈ other entry)

theorem Distinct.symm (h : table.Distinct list kept) : table.Distinct kept list :=
  ⟨h.others, h.indexed, fun var hKept hList => h.apart var hList hKept, fun var declared hDeclared => by
    obtain ⟨entry, hEntry, hLists⟩ := h.owned var declared hDeclared
    exact ⟨entry, hEntry, hLists.symm⟩⟩

theorem Homes.lt_size (h : table.Homes list) {entry : Scope}
    (hEntry : table.scopes[scope]? = some entry) {var : VariableId} (hVar : var ∈ list entry) :
    var < table.variables.size := by
  obtain ⟨declared, hDeclared, -⟩ := h scope entry hEntry var hVar
  exact (Array.getElem?_eq_some_iff.1 hDeclared).1

/-- What some scope lists is a variable of the table. -/
theorem Homes.lt_of_listed (h : table.Homes list) {var : VariableId} (hVar : table.Listed list var) :
    var < table.variables.size := by
  obtain ⟨position, entry, hEntry, hMem⟩ := hVar
  exact h.lt_size hEntry hMem

/-- A list that is the same in every scope. -/
theorem exists_of_map_eq (hLists : ∀ position : ScopeId,
      next.scopes[position]?.map list = table.scopes[position]?.map list) {after : Scope}
    (hAfter : next.scopes[scope]? = some after) :
    ∃ before, table.scopes[scope]? = some before ∧ list before = list after := by
  have hSame := hLists scope
  rw [hAfter, Option.map_some, eq_comm, Option.map_eq_some_iff] at hSame
  exact hSame

theorem listed_of_map_eq (hLists : ∀ position : ScopeId,
      next.scopes[position]?.map list = table.scopes[position]?.map list) {var : VariableId}
    (h : next.Listed list var) : table.Listed list var := by
  obtain ⟨position, after, hAfter, hMem⟩ := h
  obtain ⟨before, hBefore, hSame⟩ := exists_of_map_eq hLists hAfter
  exact ⟨position, before, hBefore, hSame ▸ hMem⟩

/-- A change that lists nothing new, nor names anything anew. -/
theorem Indexed.congr (h : table.Indexed list) (hHomes : table.Homes list)
    (hLists : ∀ position : ScopeId,
      next.scopes[position]?.map list = table.scopes[position]?.map list)
    (hNames : ∀ (var : VariableId) (before : Variable), table.variables[var]? = some before →
      ∃ after, next.variables[var]? = some after ∧ after.name = before.name) :
    next.Indexed list := by
  refine ⟨fun position after hAfter => ?_, fun position after hAfter var hVar declared hDeclared => ?_⟩
  · obtain ⟨before, hScope, hSame⟩ := exists_of_map_eq hLists hAfter
    exact hSame ▸ h.nodup position before hScope
  · obtain ⟨before, hScope, hSame⟩ := exists_of_map_eq hLists hAfter
    rw [← hSame] at hVar
    obtain ⟨old, hOld, -⟩ := hHomes position before hScope var hVar
    obtain ⟨new, hNew, hName⟩ := hNames var old hOld
    cases hNew.symm.trans hDeclared
    rw [lookupIn_congr hHomes (hLists position) fun other found _ hFound => hNames other found hFound,
      hName]
    exact h.found position before hScope var hVar old hOld

/-- That two lists are apart depends on the lists and on the names and scopes of variables,
so a change that spares these keeps it. -/
theorem Distinct.congr (h : table.Distinct list kept) (hHomes : table.Homes list)
    (hKept : table.Homes kept)
    (hLists : ∀ position : ScopeId,
      next.scopes[position]?.map list = table.scopes[position]?.map list)
    (hOthers : ∀ position : ScopeId,
      next.scopes[position]?.map kept = table.scopes[position]?.map kept)
    (hNames : ∀ var : VariableId, next.variables[var]?.map (fun entry => (entry.scope, entry.name)) =
      table.variables[var]?.map fun entry => (entry.scope, entry.name)) :
    next.Distinct list kept := by
  have hForth : ∀ (var : VariableId) (before : Variable), table.variables[var]? = some before →
      ∃ after, next.variables[var]? = some after ∧ after.name = before.name := by
    intro var before hBefore
    have hSame := hNames var
    rw [hBefore, Option.map_some, Option.map_eq_some_iff] at hSame
    obtain ⟨after, hAfter, hEq⟩ := hSame
    exact ⟨after, hAfter, congrArg Prod.snd hEq⟩
  refine ⟨h.indexed.congr hHomes hLists hForth, h.others.congr hKept hOthers hForth,
    fun var hVar hOther => h.apart var (listed_of_map_eq hLists hVar)
      (listed_of_map_eq hOthers hOther), fun var after hAfter => ?_⟩
  have hSame := hNames var
  rw [hAfter, Option.map_some, eq_comm, Option.map_eq_some_iff] at hSame
  obtain ⟨before, hBefore, hEq⟩ := hSame
  obtain ⟨entry, hEntry, hVar⟩ := h.owned var before hBefore
  have hScope : before.scope = after.scope := congrArg Prod.fst hEq
  rw [hScope] at hEntry
  obtain ⟨later, hLater, hList⟩ := exists_of_map_eq (fun position => (hLists position).symm) hEntry
  obtain ⟨same, hFound, hOther⟩ := exists_of_map_eq (fun position => (hOthers position).symm) hEntry
  cases hFound.symm.trans hLater
  exact ⟨later, hLater, by rw [hList, hOther]; exact hVar⟩

/-- What one of the lists of a scope has after a name is declared in it. -/
theorem mem_declareIn (hAdd : ∀ var entry, list (add var entry) = (list entry).push var)
    {position : ScopeId} {after : Scope}
    (hAfter : (table.declareIn list add scope name).2.scopes[position]? = some after) :
    ∃ before, table.scopes[position]? = some before ∧ (list after = list before ∨
      (position = scope ∧ table.lookupIn list scope name = none ∧
        list after = (list before).push table.variables.size)) := by
  unfold declareIn declareBy at hAfter
  cases hLookup : table.lookupIn list scope name with
  | some found =>
      rw [hLookup] at hAfter
      exact ⟨after, hAfter, .inl rfl⟩
  | none =>
      rw [hLookup] at hAfter
      obtain ⟨before, hBefore, rfl | ⟨rfl, rfl⟩⟩ := exists_of_modifyScope hAfter
      · exact ⟨after, hBefore, .inl rfl⟩
      · exact ⟨before, hBefore, .inr ⟨rfl, rfl, hAdd _ _⟩⟩

/-- Declaring a name leaves the variables alone that there were. -/
theorem getElem?_declareIn_of_some {var : VariableId} {declared : Variable}
    (h : table.variables[var]? = some declared) :
    (table.declareIn list add scope name).2.variables[var]? = some declared := by
  have hLt : var < table.variables.size := (Array.getElem?_eq_some_iff.1 h).1
  rw [getElem?_variables_declareIn, if_neg fun hNew => Nat.ne_of_lt hLt hNew.2, h]

/-- A name is declared once. -/
theorem Indexed.declareIn (h : table.Indexed list) (hHomes : table.Homes list)
    (hAdd : ∀ var entry, list (add var entry) = (list entry).push var)
    (hScope : ∃ entry, table.scopes[scope]? = some entry) :
    (table.declareIn list add scope name).2.Indexed list := by
  refine ⟨fun position after hAfter => ?_, fun position after hAfter var hVar declared hDeclared => ?_⟩
  · obtain ⟨before, hBefore, hSame | ⟨-, -, hPush⟩⟩ := mem_declareIn hAdd hAfter
    · exact hSame ▸ h.nodup position before hBefore
    · rw [hPush, Array.toList_push]
      refine (List.perm_append_singleton _ _).nodup_iff.2
        (List.nodup_cons.2 ⟨fun hMem => ?_, h.nodup position before hBefore⟩)
      exact Nat.lt_irrefl _ (hHomes.lt_size hBefore (Array.mem_toList_iff.1 hMem))
  · rw [lookupIn_declareIn hHomes hAdd hScope]
    have hOld : ∀ before, table.scopes[position]? = some before → var ∈ list before →
        (if position = scope ∧ declared.name = name then
          some (table.declareIn list add scope name).1
        else table.lookupIn list position declared.name) = some var := by
      intro before hBefore hMem
      obtain ⟨old, hFound, -⟩ := hHomes position before hBefore var hMem
      cases (getElem?_declareIn_of_some hFound).symm.trans hDeclared
      have hLookup := h.found position before hBefore var hMem declared hFound
      split
      · next hEq =>
          rw [hEq.1, hEq.2] at hLookup
          rw [SymbolTable.declareIn, hLookup, declareBy]
      · exact hLookup
    obtain ⟨before, hBefore, hSame | ⟨hPosition, hNone, hPush⟩⟩ := mem_declareIn hAdd hAfter
    · exact hOld before hBefore (hSame ▸ hVar)
    · rw [hPush] at hVar
      rcases Array.mem_push.1 hVar with hMem | rfl
      · exact hOld before hBefore hMem
      · rw [getElem?_variables_declareIn, if_pos ⟨hNone, rfl⟩] at hDeclared
        cases hDeclared
        rw [if_pos ⟨hPosition, rfl⟩, SymbolTable.declareIn, hNone, declareBy]

/-- A name that is declared in one of the lists leaves the other alone. -/
theorem map_declareIn (hKept : ∀ var entry, kept (add var entry) = kept entry)
    (position : ScopeId) :
    (table.declareIn list add scope name).2.scopes[position]?.map kept =
      table.scopes[position]?.map kept := by
  unfold declareIn declareBy
  split
  · rfl
  · rw [getElem?_modifyScope]
    split
    · cases hEntry : table.scopes[position]? <;> simp [addVariable, hEntry, hKept]
    · rfl

/-- The scopes after a name is declared list all that they did before. -/
theorem exists_scope_declareIn (scope : ScopeId) (name : String)
    (hAdd : ∀ var entry, list (add var entry) = (list entry).push var)
    {position : ScopeId} {before : Scope} (hBefore : table.scopes[position]? = some before) :
    ∃ after, (table.declareIn list add scope name).2.scopes[position]? = some after ∧
      (∀ var ∈ list before, var ∈ list after) ∧
      (position = scope → table.lookupIn list scope name = none →
        table.variables.size ∈ list after) := by
  unfold declareIn declareBy
  cases hLookup : table.lookupIn list scope name with
  | some found => exact ⟨before, hBefore, fun _ hVar => hVar, nofun⟩
  | none =>
      have hAdded : (table.addVariable scope name).2.scopes[position]? = some before := hBefore
      rw [getElem?_modifyScope, hAdded]
      split
      · refine ⟨_, rfl, fun var hVar => ?_, fun _ _ => ?_⟩
        · rw [hAdd]
          exact Array.mem_push_of_mem _ hVar
        · rw [hAdd]
          exact Array.mem_push_self
      · next hNe => exact ⟨before, rfl, fun _ hVar => hVar, fun hEq => absurd hEq.symm hNe⟩

/-- Declaring a name in one of the lists keeps both apart. -/
theorem Distinct.declareIn (h : table.Distinct list kept) (hHomes : table.Homes list)
    (hOthers : table.Homes kept)
    (hAdd : ∀ var entry, list (add var entry) = (list entry).push var)
    (hKept : ∀ var entry, kept (add var entry) = kept entry)
    (hScope : ∃ entry, table.scopes[scope]? = some entry) :
    (table.declareIn list add scope name).2.Distinct list kept := by
  have hSame : ∀ position, (table.declareIn list add scope name).2.scopes[position]?.map kept =
      table.scopes[position]?.map kept := map_declareIn hKept
  refine ⟨h.indexed.declareIn hHomes hAdd hScope, h.others.congr hOthers hSame fun var before hBefore =>
      ⟨before, getElem?_declareIn_of_some hBefore, rfl⟩, ?_, ?_⟩
  · rintro var ⟨position, after, hAfter, hVar⟩ hListed
    have hOther := listed_of_map_eq hSame hListed
    obtain ⟨before, hBefore, hList | ⟨-, -, hPush⟩⟩ := mem_declareIn hAdd hAfter
    · exact h.apart var ⟨position, before, hBefore, hList ▸ hVar⟩ hOther
    · rw [hPush] at hVar
      rcases Array.mem_push.1 hVar with hMem | rfl
      · exact h.apart var ⟨position, before, hBefore, hMem⟩ hOther
      · exact Nat.lt_irrefl _ (hOthers.lt_of_listed hOther)
  · intro var declared hDeclared
    rw [getElem?_variables_declareIn] at hDeclared
    split at hDeclared
    · next hNew =>
        cases hDeclared
        obtain ⟨entry, hEntry⟩ := hScope
        obtain ⟨after, hAfter, -, hFresh⟩ := exists_scope_declareIn scope name hAdd hEntry
        exact ⟨after, hAfter, .inl (hNew.2 ▸ hFresh rfl hNew.1)⟩
    · obtain ⟨entry, hEntry, hVar⟩ := h.owned var declared hDeclared
      obtain ⟨after, hAfter, hMem, -⟩ := exists_scope_declareIn scope name hAdd hEntry
      refine ⟨after, hAfter, hVar.imp (hMem var) fun hOther => ?_⟩
      have hEq := hSame declared.scope
      rw [hAfter, hEntry, Option.map_some, Option.map_some, Option.some.injEq] at hEq
      rw [hEq]
      exact hOther

/-- A scope that opens lists nothing, so no name is twice in it. -/
theorem Indexed.pushScope (h : table.Indexed list) {fresh : Scope} (hFresh : list fresh = #[]) :
    (table.pushScope fresh).Indexed list := by
  refine ⟨fun position entry hEntry => ?_, fun position entry hEntry var hVar declared hDeclared => ?_⟩
  · rcases cases_of_pushScope hEntry with ⟨-, rfl⟩ | hBefore
    · rw [hFresh]
      exact List.nodup_nil
    · exact h.nodup position entry hBefore
  · rcases cases_of_pushScope hEntry with ⟨-, rfl⟩ | hBefore
    · simp [hFresh] at hVar
    · have hFound := h.found position entry hBefore var hVar declared hDeclared
      rw [lookupIn, getElem?_pushScope_of_some hBefore]
      rw [lookupIn, hBefore] at hFound
      exact hFound

theorem listed_pushScope {fresh : Scope} (hFresh : list fresh = #[]) {var : VariableId}
    (h : (table.pushScope fresh).Listed list var) : table.Listed list var := by
  obtain ⟨position, entry, hEntry, hMem⟩ := h
  rcases cases_of_pushScope hEntry with ⟨-, rfl⟩ | hBefore
  · simp [hFresh] at hMem
  · exact ⟨position, entry, hBefore, hMem⟩

/-- A scope that opens holds no variable that could be in both lists. -/
theorem Distinct.pushScope (h : table.Distinct list kept) {fresh : Scope}
    (hList : list fresh = #[]) (hKept : kept fresh = #[]) : (table.pushScope fresh).Distinct list kept where
  indexed := h.indexed.pushScope hList
  others := h.others.pushScope hKept
  apart := fun var hVar hOther => h.apart var (listed_pushScope hList hVar)
    (listed_pushScope hKept hOther)
  owned := fun var declared hDeclared => by
    obtain ⟨entry, hEntry, hVar⟩ := h.owned var declared hDeclared
    exact ⟨entry, getElem?_pushScope_of_some hEntry, hVar⟩

/-- Every variable is a name of its scope or an implicit global, and no other
has the name there. -/
abbrev Named (table : SymbolTable) : Prop :=
  table.Distinct Scope.variables Scope.implicitVariables

theorem named_empty : Named {} where
  indexed := ⟨fun _ _ h => by simp at h, fun _ _ h => by simp at h⟩
  others := ⟨fun _ _ h => by simp at h, fun _ _ h => by simp at h⟩
  apart := fun _ hListed => by
    obtain ⟨_, _, hEntry, -⟩ := hListed
    simp at hEntry
  owned := fun _ _ h => by simp at h

/-- Names stay apart as long as no list and no name of a variable changes. -/
theorem Named.of_same (h : table.Named) (hPlaced : Placed table) (hSame : SameNames table next) :
    next.Named := by
  refine Distinct.congr h hPlaced.homes_variables hPlaced.homes_implicit (fun position => ?_)
    (fun position => ?_) hSame.names
  · have hBoth := congrArg (Option.map fun lists => lists.1.1) (hSame.lists position)
    rw [Option.map_map, Option.map_map] at hBoth
    exact hBoth
  · have hBoth := congrArg (Option.map fun lists => lists.2.1) (hSame.lists position)
    rw [Option.map_map, Option.map_map] at hBoth
    exact hBoth

/-- References and counts have no part in the names of a table. -/
theorem sameNames_of_eq (hScopes : next.scopes = table.scopes)
    (hVariables : next.variables = table.variables) : SameNames table next :=
  ⟨fun _ => by rw [hScopes], fun _ => by rw [hVariables]⟩

/-- One more definition of a variable leaves it where it is. -/
theorem sameNames_addDefinition (table : SymbolTable) (var : VariableId) (identifier : Node)
    (definition : Definition) :
    SameNames table (table.addDefinition var identifier definition) := by
  have hModify : SameNames table (table.modifyVariable var fun entry =>
      { entry with
        definitions := entry.definitions.push { definition with serial := table.definitionCount }
        identifiers := entry.identifiers.push identifier }) :=
    sameNames_modifyVariable fun _ => rfl
  exact hModify.trans (sameNames_of_eq rfl rfl)

/-- The end of a declaration only notes, at the variables that it is of, how many references
came before. -/
theorem still_endDeclaration (table : SymbolTable) (node : Node) :
    SameNames table (table.endDeclaration node) ∧ ∀ (var : VariableId) (before : Variable),
      table.variables[var]? = some before →
        ∃ after, (table.endDeclaration node).variables[var]? = some after ∧
          after = { before with initializedAt := after.initializedAt } := by
  refine endDeclaration_induction (P := fun next => SameNames table next ∧
    ∀ (var : VariableId) (before : Variable), table.variables[var]? = some before →
      ∃ after, next.variables[var]? = some after ∧
        after = { before with initializedAt := after.initializedAt })
    (fun middle var h => ?_)
    ⟨.refl table, fun _ before hBefore => ⟨before, hBefore, rfl⟩⟩ node
  obtain ⟨hSame, hVariables⟩ := h
  have hNext : SameNames middle (middle.endVariable var) :=
    sameNames_modifyVariable fun _ => rfl
  refine ⟨hSame.trans hNext, fun position before hBefore => ?_⟩
  obtain ⟨between, hBetween, hEq⟩ := hVariables position before hBefore
  rw [endVariable, getElem?_modifyVariable, hBetween]
  split
  · exact ⟨_, rfl, by rw [hEq]⟩
  · exact ⟨between, rfl, hEq⟩

theorem sameNames_detectEval (table : SymbolTable) (scope : ScopeId) :
    SameNames table (table.detectEval scope) := by
  refine ⟨fun position => ?_, fun var => by rw [detectEval_eq]⟩
  rw [getElem?_detectEval]
  cases table.scopes[position]? <;> rfl

/-- A name that is declared becomes a variable unless the scope already has it. -/
theorem Named.declare (h : table.Named) (hPlaced : Placed table)
    (hScope : ∃ entry, table.scopes[scope]? = some entry) : (table.declare scope name).2.Named := by
  rw [hPlaced.declare_eq_declareIn]
  refine Distinct.declareIn h hPlaced.homes_variables hPlaced.homes_implicit ?_ ?_ hScope
  · exact fun _ _ => rfl
  · exact fun _ _ => rfl

/-- A name that is made global is looked for among the implicit globals only. -/
theorem Named.declareImplicit (h : table.Named) (hPlaced : Placed table)
    (hScope : ∃ entry, table.scopes[scope]? = some entry) :
    (table.declareImplicit scope name).2.Named := by
  rw [hPlaced.declareImplicit_eq_declareIn]
  refine (Distinct.declareIn h.symm hPlaced.homes_implicit hPlaced.homes_variables ?_ ?_ hScope).symm
  · exact fun _ _ => rfl
  · exact fun _ _ => rfl

/-- Defining an identifier declares its name, and leaves names alone otherwise. -/
theorem Named.define (h : table.Named) (hNested : Nested table stack) (hScope : scope ∈ stack)
    (identifier : Node) (definition : Definition) :
    (table.define scope identifier definition).Named := by
  unfold SymbolTable.define
  split
  · have hDeclare : (table.declare scope identifier.name).2.Named :=
      h.declare hNested.toPlaced (hNested.exists_of_mem hScope)
    exact hDeclare.of_same (advances_declare hNested hScope _).1.nested.toPlaced
      (sameNames_addDefinition _ _ _ _)
  · exact h

/-- A scope may begin with a name of its own: `arguments`, or the name of a function. -/
theorem Named.declareOwn (h : table.Named) (hNested : Nested table stack) (hScope : scope ∈ stack)
    {kind : ScopeKind} {block : Node} (hOk : table.declareOwn scope kind block = .ok next) :
    next.Named := by
  unfold SymbolTable.declareOwn at hOk
  split at hOk
  · split at hOk
    · cases hOk
      exact h
    · cases hOk
      exact h.declare hNested.toPlaced (hNested.exists_of_mem hScope)
  · obtain ⟨name, -, hNext⟩ := exists_of_bind_ok hOk
    cases hNext
    exact h.define hNested hScope _ _
  · cases hOk
    exact h

theorem Named.addScope (h : table.Named) (hNested : Nested table table.stack) (kind : ScopeKind)
    (block : Node) (strict : Bool) : (table.addScope kind block strict).2.Named := by
  have hFresh : (table.pushScope (table.freshScope kind block strict)).Named :=
    Distinct.pushScope h rfl rfl
  refine hFresh.of_same (hNested.pushFresh kind block strict).toPlaced ?_
  rw [addScope_snd]
  split
  · refine sameNames_modifyScope ?_
    exact fun _ => rfl
  · exact .refl _

/-- A scope opens without names, and is then given at most its own. -/
theorem Named.enter (h : table.Named) (hNested : Nested table table.stack) {kind : ScopeKind}
    {block : Node} {inMethod : Bool} (hOk : table.enter settings kind block inMethod = .ok next) :
    next.Named := by
  obtain ⟨strict, own, -, hOwn, -, rfl⟩ := enter_eq_ok hOk
  have hAdvances := advances_addScope hNested kind block strict
  exact ((h.addScope hNested kind block strict).declareOwn hAdvances.nested List.mem_cons_self
    hOwn).of_same (advances_declareOwn hAdvances.nested List.mem_cons_self hOwn).nested.toPlaced
    (sameNames_of_eq rfl rfl)

/-- Names that are made global join the list that is kept for them, each once. -/
theorem Named.defineImplicit (h : table.Named) (hNested : Nested table stack)
    (hScope : scope ∈ stack) : (table.defineImplicit scope).Named := by
  obtain ⟨hDefined, hNamed⟩ := defineGlobals_induction hScope (P := Named)
    (fun next found hNext h => by
      obtain ⟨hDeclare, -⟩ := advances_declareImplicit hNext hScope found.1.name
      exact (h.declareImplicit hNext.toPlaced (hNext.exists_of_mem hScope)).of_same
        hDeclare.nested.toPlaced (sameNames_addDefinition _ _ _ _))
    (table.globalsToDefine scope) hNested h
  rw [defineImplicit_eq]
  refine hNamed.of_same hDefined.toPlaced (sameNames_modifyScope ?_)
  exact fun _ => rfl

/-- No reference that is dealt with declares a name. -/
theorem sameNames_closeReferences (closing : Closing) (ids : List ReferenceId)
    (h : Nested table stack) (hUpper : ∀ upper ∈ table.upper? scope, upper ∈ stack)
    (hOk : ids.foldlM (closeReference settings scope closing) table = .ok next) :
    SameNames table next :=
  closeReferences_induction (fun _ _ _ _ _ hSame hMoves _ => hSame.trans hMoves.same) ids h hUpper
    (.refl table) hOk

/-- Closing a scope keeps its names apart, those included that it makes global. -/
theorem Named.close (h : table.Named) (hNested : Nested table (scope :: stack))
    (hOk : table.close settings scope = .ok next) : next.Named := by
  obtain ⟨entry, middle, hFrom⟩ := exists_closesFrom hNested
  rw [hFrom.close] at hOk
  have hMiddle : middle.Named := hFrom.cases
    (fun _ => h.defineImplicit hNested List.mem_cons_self) h
  have hHead : SameNames middle (middle.closeHead scope) :=
    sameNames_modifyScope fun _ => rfl
  exact (hMiddle.of_same hFrom.closes.nested.toPlaced hHead).of_same hFrom.closesHead.nested.toPlaced
    (sameNames_closeReferences _ _ hFrom.closesHead.nested hFrom.upper hOk)

/-- An event that neither declares a name nor closes a scope changes nothing of
the names but where their declarations end. -/
theorem still_apply (hStill : event.IsStill) (hOk : table.apply settings event = .ok next) :
    SameNames table next ∧ ∀ (var : VariableId) (before : Variable),
      table.variables[var]? = some before → ∃ after, next.variables[var]? = some after ∧
        after = { before with initializedAt := after.initializedAt } := by
  have hSame : next.variables = table.variables → ∀ (var : VariableId) (before : Variable),
      table.variables[var]? = some before → ∃ after, next.variables[var]? = some after ∧
        after = { before with initializedAt := after.initializedAt } :=
    fun hEq _ before hBefore => ⟨before, hEq ▸ hBefore, rfl⟩
  cases event with
  | enter | leave | define | fail => exact hStill.elim
  | setStrict strict =>
      obtain ⟨scope, -, hNext⟩ := exists_of_bind_ok hOk
      cases hNext
      exact ⟨sameNames_modifyScope fun _ => rfl, hSame rfl⟩
  | use use =>
      obtain ⟨scope, -, hRecord⟩ := exists_record_of_apply hOk
      rcases record_eq_ok hRecord with ⟨-, rfl⟩ | ⟨-, -, rfl⟩
      · exact ⟨.refl _, hSame rfl⟩
      · have hPush : SameNames table { table with
            references := table.references.push { table.useIn scope use with scope } } :=
          sameNames_of_eq rfl rfl
        refine ⟨hPush.trans (sameNames_modifyScope ?_), hSame rfl⟩
        exact fun _ => rfl
  | directEval =>
      obtain ⟨scope, -, hNext⟩ := exists_of_bind_ok hOk
      cases hNext
      exact ⟨sameNames_detectEval table _, hSame (by rw [detectEval_eq])⟩
  | thisExpression =>
      obtain ⟨scope, -, hNext⟩ := exists_of_bind_ok hOk
      cases hNext
      exact ⟨sameNames_modifyScope fun _ => rfl, hSame rfl⟩
  | bodyStart =>
      obtain ⟨scope, -, hNext⟩ := exists_of_bind_ok hOk
      cases hNext
      refine ⟨sameNames_modifyScope ?_, hSame rfl⟩
      exact fun entry => by split <;> rfl
  | endDeclaration node =>
      cases hOk
      exact still_endDeclaration _ node

/-- A walk keeps the names of each scope apart. -/
theorem named_apply (hNested : Nested table table.stack) (h : table.Named)
    (hOk : table.apply settings event = .ok next) : next.Named := by
  cases event with
  | enter kind block inMethod => exact h.enter hNested hOk
  | leave block =>
      obtain ⟨found, hFound, -, -, hNamed⟩ := exists_leaveAll settings (P := Named)
        (fun table stack hNamed hPlaced => hNamed.of_same hPlaced (sameNames_of_eq rfl rfl))
        (fun table next scope stack hNamed hNested hClose => hNamed.close hNested hClose)
        hNested h block
      cases hFound.symm.trans hOk
      exact hNamed
  | define destination identifier definition =>
      obtain ⟨scope, hCurrent, hNext⟩ := exists_of_bind_ok hOk
      cases hNext
      exact h.define hNested
        (hNested.destination_mem (mem_of_current_eq_ok hCurrent) destination) _ _
  | fail failure => cases hOk
  | setStrict | use | directEval | thisExpression | bodyStart | endDeclaration =>
      exact h.of_same hNested.toPlaced (still_apply (by trivial) hOk).1

end SymbolTable

end Scoping
