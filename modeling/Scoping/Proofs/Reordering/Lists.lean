import Mathlib.Data.List.Count
import Scoping.Proofs.Chronicle.Endings
import Scoping.Proofs.Chronicle.Surroundings
import Scoping.Proofs.Resolution.Leftover
import Scoping.Proofs.Resolution.Reordering

/-! The lists of scopes and variables as the statements of a body change places.
Each has what it had, in any order, and what is noted of it is the same. -/

namespace Scoping

namespace SymbolTable

/-- What the lists of a finished table hold. -/
structure Finished (settings : Settings) (table : SymbolTable) : Prop where
  nested : Nested table []
  accounted : Accounted settings table
  tallied : AllTallied table
  parented : Parented table
  rooted : Rooted table
  leftover : ∃ global, Leftover settings table global
  declared : ∀ (node : Node) (var : VariableId), var ∈ table.declaredBy node ↔
    ∃ definition ∈ table.definitionsOf var, definition.StandsAt node.location

variable {settings : Settings} {table : SymbolTable} {tree : Tree} {position : ScopeId}
  {id : ReferenceId}

theorem finished_of_analyze_eq_ok (hOk : analyze settings tree = .ok table) :
    Finished settings table where
  nested := (spec_of_analyze_eq_ok hOk).2.1
  accounted := accounted_of_analyze_eq_ok hOk
  tallied := allTallied_of_analyze_eq_ok hOk
  parented := parented_of_analyze_eq_ok hOk
  rooted := (spec_of_analyze_eq_ok hOk).2.2.1
  leftover := leftover_of_analyze_eq_ok hOk
  declared := fun node var =>
    (ledgered_of_run (spec_of_analyze_eq_ok hOk).2.2.2).declared node.location var

theorem Finished.routed (h : Finished settings table) {reference : Reference}
    (hReference : table.references[id]? = some reference) :
    Routed settings table id reference
      (table.route settings id (table.enclosing reference.scope)) :=
  (settled_of_accounted h.accounted h.nested hReference).routed

end SymbolTable

namespace Translation

open SymbolTable

variable {t : Translation} {settings : Settings} {history moved : List Entry}
  {table later : SymbolTable} {position : ScopeId} {id : ReferenceId} {name : String}

/-- Numbers that stand as often in one list as what they become does in another. -/
theorem perm_of_count {move : Equiv.Perm Nat} {first second : Array Nat}
    (h : ∀ number, second.count (move number) = first.count number) :
    (first.toList.map move).Perm second.toList := by
  refine List.perm_iff_count.2 fun number => ?_
  obtain ⟨old, rfl⟩ := move.surjective number
  rw [List.count_map_of_injective _ _ move.injective, Array.count_toList, Array.count_toList, h]

theorem count_map_scope (positions : List ScopeId) (position : ScopeId) :
    (positions.map t.scope).count (t.scope position) = positions.count position :=
  List.count_map_of_injective _ _ t.numbers.scopes.injective _

/-- The finished tables of two logs, with their lists. -/
structure Pairs (t : Translation) (settings : Settings) (history moved : List Entry)
    (table later : SymbolTable) : Prop extends Links t settings history moved table later where
  first : Finished settings table
  second : Finished settings later

/-- A reference of the later table is one of the earlier. -/
theorem Links.references_none (h : t.Links settings history moved table later)
    (hNone : table.references[id]? = none) : later.references[t.reference id]? = none := by
  refine Option.eq_none_iff_forall_not_mem.2 fun other hOther => ?_
  obtain ⟨after, hAfter, frame, use, hNumber, hRecords, -, -⟩ := h.after.exists_entry hOther
  obtain ⟨entry, hEntry, rfl⟩ := h.carries.exists_mem hAfter
  have hMoves : entry.2.event.records = true :=
    (Renumbering.records_event entry.2.event).symm.trans hRecords.records
  have hHead := hRecords.current
  rw [trail_entry, head?_trail, Option.map_eq_some_iff] at hHead
  obtain ⟨current, hCurrent, -⟩ := hHead
  rw [number_of_records hMoves] at hNumber
  obtain rfl : entry.2.number = id := t.numbers.references.injective hNumber
  cases hEvent : entry.2.event with
  | use before =>
      rw [hEvent] at hMoves
      obtain ⟨reference, hReference, -⟩ :=
        h.before.recordings.recorded entry hEntry current before ⟨hEvent, hMoves, hCurrent⟩
      cases hNone.symm.trans hReference
  | _ => simp [hEvent, Event.records] at hMoves

/-- The references of one use, which mean what one variable has become, if they
mean anything. -/
structure SameReference (t : Translation) (table later : SymbolTable) (before after : Reference) :
    Prop where
  toUse : after.toUse = t.nodes.use before.toUse
  scope : after.scope = t.scope before.scope
  resolved : Option.Rel (t.SameVariable table later) before.resolved after.resolved
  tainted : after.tainted = before.tainted

/-- Variables that the same nodes declare, and the same references mean. -/
structure SameEntry (t : Translation) (table later : SymbolTable)
    (before after : VariableId × Variable) : Prop where
  name : after.2.name = before.2.name
  scope : after.2.scope = t.scope before.2.scope
  naming : t.SameNaming before.2.naming after.2.naming
  references : (before.2.references.toList.map t.reference).Perm after.2.references.toList
  tainted : after.2.tainted = before.2.tainted
  stack : after.2.stack = before.2.stack
  declaredBy : ∀ node, after.1 ∈ later.declaredBy (t.nodes.node node) ↔
    before.1 ∈ table.declaredBy node

/-- The lists of a scope and of what it has become. -/
structure SameLists (t : Translation) (before after : Scope) : Prop where
  children : (before.children.toList.map t.scope).Perm after.children.toList
  references : (before.references.toList.map t.reference).Perm after.references.toList
  through : (before.through.toList.map t.reference).Perm after.through.toList

theorem Pairs.route (h : t.Pairs settings history moved table later) {reference other : Reference}
    (hReference : table.references[id]? = some reference)
    (hScope : other.scope = t.scope reference.scope) :
    t.SameRoute table later (table.route settings id (table.enclosing reference.scope))
      (later.route settings (t.reference id) (later.enclosing other.scope)) := by
  rw [hScope, h.enclosing]
  exact h.toLinks.route hReference fun _ hMem => hMem

/-- Each reference becomes one of the same use, and means what its variable has
become. -/
theorem Pairs.references (h : t.Pairs settings history moved table later) (id : ReferenceId) :
    Option.Rel (t.SameReference table later) table.references[id]?
      later.references[t.reference id]? := by
  cases hReference : table.references[id]? with
  | none =>
      rw [h.references_none hReference]
      exact .none
  | some reference =>
      obtain ⟨other, hOther, hUse, hScope⟩ := h.exists_reference hReference
      have hRoute := h.route hReference hScope
      have hBefore := h.first.routed hReference
      have hAfter := h.second.routed hOther
      rw [hOther]
      refine .some ⟨hUse, hScope, ?_, ?_⟩
      · rw [hBefore.resolved, hAfter.resolved]
        exact hRoute.resolved
      · rw [hBefore.tainted, hAfter.tainted, hRoute.tainted]

/-- All that holds a reference becomes what holds what it has become. -/
theorem Pairs.exists_footprint (h : t.Pairs settings history moved table later) (id : ReferenceId) :
    ∃ (recorded through : List ScopeId) (listed : Option VariableId) (found : Option VariableId),
      Footprint table id recorded [] through listed.toList ∧
      Footprint later (t.reference id) (recorded.map t.scope) [] (through.map t.scope) found.toList ∧
      Option.Rel (t.SameVariable table later) listed found := by
  cases hReference : table.references[id]? with
  | none =>
      exact ⟨[], [], none, none, h.first.accounted.footprint_of_none hReference,
        h.second.accounted.footprint_of_none (h.references_none hReference), .none⟩
  | some reference =>
      obtain ⟨other, hOther, -, hScope⟩ := h.exists_reference hReference
      have hRoute := h.route hReference hScope
      have hAfter := (h.second.routed hOther).foot
      rw [hRoute.through] at hAfter
      rw [hScope] at hAfter hRoute
      exact ⟨_, _, _, _, (h.first.routed hReference).foot, hAfter, hRoute.resolved⟩

/-- Only what a variable has become has its scope and name. -/
theorem SameVariable.eq_iff (hBefore : Nested table []) (hAfter : Nested later [])
    {var other found : VariableId} {last : VariableId} (h : t.SameVariable table later var found)
    (hOther : t.SameVariable table later other last) : found = last ↔ var = other := by
  obtain ⟨position, name, hVar, hFound⟩ := h
  obtain ⟨place, text, hVar', hFound'⟩ := hOther
  constructor
  · rintro rfl
    obtain ⟨declared, hDeclared, hScope, hName⟩ := hAfter.exists_of_lookup? hFound
    obtain ⟨same, hSame, hPlace, hText⟩ := hAfter.exists_of_lookup? hFound'
    cases hSame.symm.trans hDeclared
    rw [hScope] at hPlace
    rw [hName] at hText
    cases scope_inj.1 hPlace
    cases hText
    exact Option.some.inj (hVar.symm.trans hVar')
  · rintro rfl
    obtain ⟨declared, hDeclared, hScope, hName⟩ := hBefore.exists_of_lookup? hVar
    obtain ⟨same, hSame, hPlace, hText⟩ := hBefore.exists_of_lookup? hVar'
    cases hSame.symm.trans hDeclared
    cases hScope.symm.trans hPlace
    cases hName.symm.trans hText
    exact Option.some.inj (hFound.symm.trans hFound')

/-- A scope becomes one with the same children and references. -/
theorem Pairs.sameLists (h : t.Pairs settings history moved table later) {scope other : Scope}
    (hScope : table.scopes[position]? = some scope)
    (hOther : later.scopes[t.scope position]? = some other) : t.SameLists scope other where
  children := perm_of_count fun child => by
    have hAfter := h.second.parented (t.scope position) other hOther (t.scope child)
    have hUpper : later.upper? (t.scope child) = some (t.scope position) ↔
        table.upper? child = some position := by
      rw [h.upper?, Option.map_eq_some_iff]
      simp only [scope_inj, exists_eq_right]
    simp only [hUpper, ← h.first.parented position scope hScope child] at hAfter
    exact hAfter
  references := perm_of_count fun id => by
    obtain ⟨recorded, through, listed, found, hBefore, hAfter, -⟩ := h.exists_footprint id
    have hCount := hAfter.recorded (t.scope position)
    rw [occurrences_of_getElem? hOther, count_map_scope, ← hBefore.recorded,
      occurrences_of_getElem? hScope] at hCount
    exact hCount
  through := perm_of_count fun id => by
    obtain ⟨recorded, through, listed, found, hBefore, hAfter, -⟩ := h.exists_footprint id
    have hCount := hAfter.through (t.scope position)
    rw [occurrences_of_getElem? hOther, count_map_scope, ← hBefore.through,
      occurrences_of_getElem? hScope] at hCount
    exact hCount

/-- A variable becomes one with the same references. -/
theorem Pairs.perm_references (h : t.Pairs settings history moved table later)
    {var other : VariableId} (hSame : t.SameVariable table later var other)
    {declared found : Variable} (hDeclared : table.variables[var]? = some declared)
    (hFound : later.variables[other]? = some found) :
    (declared.references.toList.map t.reference).Perm found.references.toList :=
  perm_of_count fun id => by
    obtain ⟨recorded, through, listed, meant, hBefore, hAfter, hListed⟩ := h.exists_footprint id
    have hCount := hAfter.listed other
    have hOld := hBefore.listed var
    rw [mentions_of_getElem? hFound] at hCount
    rw [mentions_of_getElem? hDeclared] at hOld
    refine hCount.trans (Eq.trans ?_ hOld.symm)
    cases hListed with
    | none => rfl
    | some hBoth =>
        simp only [Option.toList_some, List.count_singleton, beq_iff_eq,
          hBoth.eq_iff h.first.nested h.second.nested hSame]

theorem Pairs.isTainted (h : t.Pairs settings history moved table later) (id : ReferenceId) :
    later.isTainted (t.reference id) = table.isTainted id := by
  unfold SymbolTable.isTainted
  have hReferences := h.references id
  generalize table.references[id]? = before at hReferences ⊢
  generalize later.references[t.reference id]? = after at hReferences ⊢
  cases hReferences with
  | some hSame => exact hSame.tainted
  | none => rfl

theorem Links.sameFunction (h : t.Links settings history moved table later)
    (first second : ScopeId) :
    later.sameFunction (t.scope first) (t.scope second) = table.sameFunction first second := by
  have hHolder : ∀ position, later.variableScope (t.scope position) =
      t.scope (table.variableScope position) := fun position => by
    unfold SymbolTable.variableScope
    have hScopes := h.scopes position
    generalize table.scopes[position]? = before at hScopes ⊢
    generalize later.scopes[t.scope position]? = after at hScopes ⊢
    cases hScopes with
    | some hSame => exact hSame.variableScope
    | none => rfl
  simp only [SymbolTable.sameFunction, hHolder, scope_inj]

theorem Pairs.standsWith (h : t.Pairs settings history moved table later) {var other : VariableId}
    {declared found : Variable} (hDeclared : table.variables[var]? = some declared)
    (hFound : later.variables[other]? = some found) (hScope : found.scope = t.scope declared.scope)
    (id : ReferenceId) : later.standsWith other (t.reference id) = table.standsWith var id := by
  unfold SymbolTable.standsWith
  rw [hDeclared, hFound]
  have hReferences := h.references id
  generalize table.references[id]? = before at hReferences ⊢
  generalize later.references[t.reference id]? = after at hReferences ⊢
  cases hReferences with
  | some hSame =>
      simp only [Option.any_some]
      rw [hSame.scope, hScope, h.sameFunction]
  | none => rfl

theorem standsAt_definition (definition : Definition) (node : Node) :
    (t.nodes.definition definition).StandsAt (t.nodes.node node).location ↔
      definition.StandsAt node.location := by
  have hLocation : ∀ first second : Node, (t.nodes.node first).location =
      (t.nodes.node second).location ↔ first.location = second.location :=
    fun _ _ => t.nodes.location_injective.eq_iff
  simp only [Definition.StandsAt, Rearrangement.definition, hLocation, Option.map_eq_some_iff,
    exists_exists_and_eq_and]

/-- Variables that the same nodes declare are noted for the same nodes. -/
theorem Pairs.declaredBy (h : t.Pairs settings history moved table later) {var other : VariableId}
    {declared found : Variable} (hDeclared : table.variables[var]? = some declared)
    (hFound : later.variables[other]? = some found)
    (hNaming : t.SameNaming declared.naming found.naming) (node : Node) :
    other ∈ later.declaredBy (t.nodes.node node) ↔ var ∈ table.declaredBy node := by
  have hMoved := hNaming.definitions
  have hPlain : ∀ definition : Definition, definition.unnumbered.StandsAt (t.nodes.node node).location ↔
      definition.StandsAt (t.nodes.node node).location := fun _ => Iff.rfl
  rw [h.second.declared, h.first.declared, definitionsOf_of_getElem? hDeclared,
    definitionsOf_of_getElem? hFound]
  calc (∃ definition ∈ found.definitions, definition.StandsAt (t.nodes.node node).location)
      ↔ ∃ definition ∈ found.definitions.toList.map Definition.unnumbered,
          definition.StandsAt (t.nodes.node node).location := by
        simp only [List.mem_map, exists_exists_and_eq_and, hPlain, Array.mem_toList_iff]
    _ ↔ ∃ definition ∈ declared.definitions.toList.map
            fun definition => (t.nodes.definition definition).unnumbered,
          definition.StandsAt (t.nodes.node node).location :=
        exists_congr fun definition => and_congr_left fun _ => hMoved.mem_iff.symm
    _ ↔ ∃ definition ∈ declared.definitions, definition.StandsAt node.location := by
        simp only [List.mem_map, exists_exists_and_eq_and, hPlain, Array.mem_toList_iff,
          standsAt_definition]

/-- What is noted of a variable is noted of what it has become, if that has the
same references. -/
theorem Pairs.sameEntry (h : t.Pairs settings history moved table later) {var other : VariableId}
    {declared found : Variable} (hDeclared : table.variables[var]? = some declared)
    (hFound : later.variables[other]? = some found) (hName : found.name = declared.name)
    (hScope : found.scope = t.scope declared.scope)
    (hNaming : t.SameNaming declared.naming found.naming)
    (hReferences : (declared.references.toList.map t.reference).Perm found.references.toList) :
    t.SameEntry table later (var, declared) (other, found) := by
  have hBefore := h.first.tallied var
  have hAfter := h.second.tallied other
  have hTainted := hBefore.tainted
  have hTainted' := hAfter.tainted
  have hStack := hBefore.stack
  have hStack' := hAfter.stack
  rw [marksOf_of_getElem? hDeclared] at hTainted hStack
  rw [marksOf_of_getElem? hFound] at hTainted' hStack'
  have hMem : ∀ id, id ∈ found.references ↔ ∃ old ∈ declared.references, t.reference old = id :=
    fun id => by
      rw [← Array.mem_toList_iff, ← hReferences.mem_iff, List.mem_map]
      simp only [Array.mem_toList_iff]
  refine ⟨hName, hScope, hNaming, hReferences, ?_, ?_, h.declaredBy hDeclared hFound hNaming⟩
  · rw [Bool.eq_iff_iff]
    refine hTainted'.trans (Iff.trans ?_ hTainted.symm)
    simp only [Variable.marks, hMem, exists_exists_and_eq_and, h.isTainted]
  · rw [Bool.eq_iff_iff]
    refine hStack'.trans (Iff.trans ?_ hStack.symm)
    simp only [Variable.marks, hMem, forall_exists_index, and_imp, forall_apply_eq_imp_iff₂,
      h.standsWith hDeclared hFound hScope]

/-- Each scope has the variables that it had. -/
theorem Pairs.variables (h : t.Pairs settings history moved table later) (position : ScopeId)
    (name : String) :
    Option.Rel (t.SameEntry table later) (table.ownIn Scope.variables position name)
      (later.ownIn Scope.variables (t.scope position) name) := by
  have hOwn : Option.Rel (fun own other => t.SameVariable table later own.1 other.1 ∧
        t.SameNaming own.2.naming other.2.naming)
      (table.ownIn Scope.variables position name)
      (later.ownIn Scope.variables (t.scope position) name) := by
    rw [← h.first.nested.ownVariable?_eq, ← h.second.nested.ownVariable?_eq]
    exact h.ownVariable? position name
  cases hBefore : table.ownIn Scope.variables position name with
  | none =>
      cases hAfter : later.ownIn Scope.variables (t.scope position) name with
      | none => exact .none
      | some other =>
          rw [hBefore, hAfter] at hOwn
          cases hOwn
  | some own =>
      cases hAfter : later.ownIn Scope.variables (t.scope position) name with
      | none =>
          rw [hBefore, hAfter] at hOwn
          cases hOwn
      | some other =>
          rw [hBefore, hAfter] at hOwn
          obtain ⟨hLookup, hDeclared⟩ :=
            ownVariable?_eq_some.1 ((h.first.nested.ownVariable?_eq position name).trans hBefore)
          obtain ⟨hFind, hFound⟩ :=
            ownVariable?_eq_some.1 ((h.second.nested.ownVariable?_eq _ name).trans hAfter)
          obtain ⟨same, hSame, hScope, hName⟩ := h.first.nested.exists_of_lookup? hLookup
          cases hSame.symm.trans hDeclared
          obtain ⟨found, hOther, hPlace, hText⟩ := h.second.nested.exists_of_lookup? hFind
          cases hOther.symm.trans hFound
          cases hOwn with
          | some hBoth =>
              exact .some (h.sameEntry hDeclared hFound (hText.trans hName.symm)
                (hPlace.trans (congrArg t.scope hScope.symm)) hBoth.2
                (h.perm_references hBoth.1 hDeclared hFound))

end Translation

end Scoping
