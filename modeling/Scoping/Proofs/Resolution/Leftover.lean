import Scoping.Proofs.Resolution.Globals
import Scoping.Proofs.Resolution.Tally

/-! What is left in the global scope of a program as that closes: the references
that all the scopes inside it have let out. The names that the program makes
global are told by these. -/

namespace Scoping

/-- What assignments make of a name: each is a definition, and nothing else is. -/
structure Naming.Assigned (naming : Option Naming) (assignments : List (Node × Node)) : Prop where
  isSome : naming.isSome = true ↔ assignments ≠ []
  identifiers : (naming.getD {}).identifiers.toList = assignments.map Prod.fst
  definitions : (naming.getD {}).definitions.toList.map Definition.unnumbered =
    assignments.map fun assignment =>
      { kind := .implicitGlobal, name := assignment.1, node := assignment.2 }

namespace SymbolTable

/-- A reference that every scope around it but the outermost lets out. -/
def Leaves (settings : Settings) (table : SymbolTable) (id : ReferenceId) : Prop :=
  ∃ reference, table.references[id]? = some reference ∧
    ∀ scope ∈ (table.enclosing reference.scope).dropLast,
      table.verdict settings scope id = .outward

/-- The global scope of a finished table. -/
structure Leftover (settings : Settings) (table : SymbolTable) (global : Scope) : Prop where
  found : table.scopes[(0 : ScopeId)]? = some global
  left : ∀ id, Leaves settings table id → global.implicitPending.count id = 1
  others : ∀ id, ¬ Leaves settings table id → global.implicitPending.count id = 0
  assigned : ∀ name, Naming.Assigned (table.namingIn Scope.implicitVariables 0 name)
    ((table.leftAssignments 0).filter fun assignment => assignment.1.name = name)

variable {settings : Settings} {table next : SymbolTable} {stack : List ScopeId} {tree : Tree}
  {scope : ScopeId} {id : ReferenceId}

/-- The last scope outward is the global one. -/
theorem Rooted.exists_enclosing (h : Rooted table) (hFall : table.UppersFall)
    (hScope : scope < table.scopes.size) : ∃ inside, table.enclosing scope = inside ++ [0] := by
  obtain ⟨inside, around, hSplit⟩ := List.append_of_mem (h.zero_mem_enclosing hFall hScope)
  have hEnd := enclosing_of_append hSplit
  rw [enclosing_zero, List.cons.injEq] at hEnd
  exact ⟨inside, by rw [hSplit, ← hEnd.2]⟩

/-- What is around a reference as the global scope closes stays around it. -/
theorem leaves_iff {before : SymbolTable} (hBefore : Nested before [0]) (hRooted : Rooted table)
    (hFall : table.UppersFall) (hClose : before.close settings 0 = .ok table) {reference : Reference}
    (hReference : before.references[id]? = some reference)
    (hPlaced : reference.scope < before.scopes.size) :
    ∃ after inside, table.references[id]? = some after ∧
      after.identifier = reference.identifier ∧
      before.enclosing reference.scope = inside ++ [0] ∧
      (Leaves settings table id ↔ ∀ scope ∈ inside, table.verdict settings scope id = .outward) := by
  obtain ⟨found, hFound, hCloses⟩ := exists_close settings hBefore
  cases hFound.symm.trans hClose
  obtain ⟨after, hAfter, hSettles⟩ := hCloses.reference id reference hReference
  have hScope : after.scope = reference.scope := by rw [hSettles]
  obtain ⟨inside, hInside⟩ := hRooted.exists_enclosing hFall (hCloses.scopesSize ▸ hPlaced)
  have hSame := enclosing_of_keeps (keeps_close hBefore hClose) hPlaced
  refine ⟨after, inside, hAfter, by rw [hSettles], hSame ▸ hInside, ?_⟩
  constructor
  · rintro ⟨other, hOther, hOut⟩
    cases hOther.symm.trans hAfter
    rw [hScope, hInside, List.dropLast_concat] at hOut
    exact hOut
  · intro hOut
    refine ⟨after, hAfter, ?_⟩
    rw [hScope, hInside, List.dropLast_concat]
    exact hOut

section LastClose

variable {before : SymbolTable} {reference : Reference} {passed rest : List ScopeId} {owner : Scope}

theorem ne_zero_of_closed (hBefore : Nested before [0]) (hOwner : before.scopes[scope]? = some owner)
    (hClosed : owner.pending = none) : scope ≠ 0 := by
  rintro rfl
  have hOpen := (hBefore.open_iff 0 owner hOwner).2 List.mem_cons_self
  rw [hClosed] at hOpen
  cases hOpen

theorem eq_zero_of_waits (hBefore : Nested before [0]) {recorded through : List ScopeId}
    {listed : List VariableId} (foot : Footprint before id recorded [scope] through listed) :
    scope = 0 := by
  have hCount := foot.waiting scope
  cases hScope : before.scopes[scope]? with
  | none => simp [occurrences, hScope] at hCount
  | some owner =>
      have hPending : owner.pending.isSome = true := by
        cases hNone : owner.pending with
        | some _ => rfl
        | none => simp [occurrences, hScope, Scope.waiting, hNone] at hCount
      exact List.mem_singleton.1 ((hBefore.open_iff scope owner hScope).1 hPending)

variable (hBefore : Nested before [0]) (hRooted : Rooted table) (hFall : table.UppersFall)
  (hClose : before.close settings 0 = .ok table)

include hBefore hRooted hFall hClose

/-- A closed scope that does not let a reference out keeps it from the global one. -/
theorem not_leaves (course : Course settings before id reference passed (scope :: rest))
    (hOwner : before.scopes[scope]? = some owner) (hClosed : owner.pending = none)
    (hVerdict : before.verdict settings scope id ≠ .outward) : ¬ Leaves settings table id := by
  intro hLeaves
  obtain ⟨after, inside, hAfter, hIdentifier, hEnclosing, hIff⟩ :=
    leaves_iff hBefore hRooted hFall hClose course.found course.placed
  have hMem : scope ∈ inside ++ [0] := by
    rw [← hEnclosing, course.enclosing]
    exact List.mem_append_right _ List.mem_cons_self
  rcases List.mem_append.1 hMem with hThere | hLast
  · refine hVerdict ?_
    rw [← verdict_of_keeps hBefore.toPlaced (keeps_close hBefore hClose) hOwner hClosed course.found
      hAfter hIdentifier]
    exact hIff.1 hLeaves scope hThere
  · exact ne_zero_of_closed hBefore hOwner hClosed (List.mem_singleton.1 hLast)

/-- What has come by all scopes but the global one leaves them. -/
theorem leaves_of_course (course : Course settings before id reference passed (0 :: rest)) :
    Leaves settings table id := by
  obtain ⟨after, inside, hAfter, hIdentifier, hEnclosing, hIff⟩ :=
    leaves_iff hBefore hRooted hFall hClose course.found course.placed
  have hEnd := enclosing_of_append course.enclosing
  rw [enclosing_zero, List.cons.injEq] at hEnd
  rw [course.enclosing, ← hEnd.2, List.append_left_inj] at hEnclosing
  rw [hIff, ← hEnclosing]
  exact (course.letOut.of_keeps hBefore.toPlaced (keeps_close hBefore hClose) course.found hAfter
    hIdentifier).1.outward

/-- What waits in the global scope as that closes is what leaves all the others,
which have closed before. -/
theorem Standing.leaves {entry : Scope} (h : Standing settings before id)
    (hEntry : before.scopes[(0 : ScopeId)]? = some entry) :
    (Leaves settings table id ∧ entry.waiting.count id = 1) ∨
      (¬ Leaves settings table id ∧ entry.waiting.count id = 0) := by
  have hWaits : ∀ {recorded waiting through : List ScopeId} {listed : List VariableId},
      Footprint before id recorded waiting through listed →
        entry.waiting.count id = waiting.count 0 := fun foot => by
    rw [← occurrences_of_getElem? hEntry, foot.waiting]
  -- By how the reference stands as the global scope closes. It is left over just if it
  -- still waits there.
  cases h with
  | unknown found foot =>
      refine .inr ⟨?_, hWaits foot⟩
      rintro ⟨reference, hReference, -⟩
      have hUse := getElem?_references_close hBefore hClose id
      rw [found, hReference] at hUse
      cases hUse
  | waiting reference passed scope rest course unresolved foot =>
      obtain rfl := eq_zero_of_waits hBefore foot
      exact .inl ⟨leaves_of_course hBefore hRooted hFall hClose course, by rw [hWaits foot]; rfl⟩
  | resolved reference passed scope rest course owner at_owner closed var binds resolved foot =>
      exact .inr ⟨not_leaves hBefore hRooted hFall hClose course at_owner closed (by simp [binds]),
        hWaits foot⟩
  | lost reference passed hidden course stops unresolved foot =>
      refine .inr ⟨?_, hWaits foot⟩
      cases hidden with
      | nil =>
          obtain ⟨after, inside, -, -, hEnclosing, -⟩ :=
            leaves_iff hBefore hRooted hFall hClose course.found course.placed
          rw [course.enclosing, List.append_nil] at hEnclosing
          obtain ⟨owner, hOwner, hClosed⟩ :=
            course.letOut.closed 0 (hEnclosing ▸ List.mem_append_right _ List.mem_cons_self)
          exact absurd rfl (ne_zero_of_closed hBefore hOwner hClosed)
      | cons scope rest =>
          obtain ⟨hStop, owner, hOwner, hClosed⟩ := stops scope rfl
          exact not_leaves hBefore hRooted hFall hClose course hOwner hClosed (by simp [hStop])

end LastClose

/-- The assignments define the globals that they make, one after another. -/
theorem assigned_defineGlobals (h : Nested table stack) (hOpen : scope ∈ stack) {entry : Scope}
    (hScope : table.scopes[scope]? = some entry) (hNone : entry.implicitVariables = #[])
    (found : List (Node × Node)) (name : String) :
    Naming.Assigned
      ((found.foldl (defineGlobal scope) table).namingIn Scope.implicitVariables scope name)
      (found.filter fun assignment => assignment.1.name = name) := by
  induction found using List.reverseRecOn with
  | nil =>
      have hEmpty : table.namingIn Scope.implicitVariables scope name = none := by
        simp [namingIn, lookupIn, hScope, hNone]
      rw [List.foldl_nil, hEmpty]
      exact ⟨by simp, rfl, rfl⟩
  | append_singleton found last ih =>
      have hNested := nested_defineGlobals h hOpen found
      rw [List.foldl_append, List.foldl_cons, List.foldl_nil, List.filter_append,
        namingIn_defineGlobal hNested hOpen]
      by_cases hName : name = last.1.name
      · subst hName
        rw [if_pos rfl]
        refine ⟨by simp, ?_, ?_⟩
        · simp [Naming.add, ih.identifiers]
        · simp [Naming.add, ih.definitions, Definition.unnumbered]
      · rw [if_neg hName]
        simpa [Ne.symm hName] using ih

/-- What is made global stays as a scope closes. -/
theorem assigned_close {entry : Scope} (hNested : Nested table (scope :: stack))
    (hEntry : table.scopes[scope]? = some entry) (hKind : entry.kind = .global)
    (hNone : entry.implicitVariables = #[]) (hOk : table.close settings scope = .ok next)
    (hMakes : MakesGlobals next scope) (name : String) :
    Naming.Assigned (next.namingIn Scope.implicitVariables scope name)
      ((next.leftAssignments scope).filter fun assignment => assignment.1.name = name) := by
  have hPairs := hMakes.pairs name
  rw [close_eq settings hEntry, if_pos hKind, defineImplicit_eq] at hOk
  have hHomes := (nested_defineGlobals hNested List.mem_cons_self
    (table.globalsToDefine scope)).homes_implicit
  have hAssigned := assigned_defineGlobals hNested List.mem_cons_self hEntry hNone
    (table.globalsToDefine scope) name
  revert hOk hHomes hAssigned
  generalize table.globalsToDefine scope = found
  intro hOk hHomes hAssigned
  have hStays : Stays (found.foldl (defineGlobal scope) table) next := by
    refine .trans (.trans (stays_modifyScope ?_) (stays_modifyScope ?_))
      (stays_closeReferences _ hOk)
    · exact fun _ => rfl
    · exact fun _ => rfl
  have hSame : next.namingIn Scope.implicitVariables scope name =
      (found.foldl (defineGlobal scope) table).namingIn Scope.implicitVariables scope name := by
    refine namingIn_congr hHomes (hStays.map_implicitVariables scope)
      (fun var before _ hBefore => ?_) fun var before _ hBefore => ?_ <;>
      obtain ⟨after, hAfter, hRecord⟩ := hStays.symm.exists_variable hBefore
    · exact ⟨after, hAfter, congrArg Prod.fst hRecord.symm⟩
    · refine ⟨after, hAfter, ?_⟩
      simp only [Variable.record, Prod.mk.injEq] at hRecord
      rw [Variable.naming, Variable.naming, hRecord.2.2.1, hRecord.2.2.2]
  rw [← hSame] at hAssigned
  -- The definitions show which assignments they are.
  have hFound : Naming.pairs (next.namingIn Scope.implicitVariables scope name) =
      found.filter fun assignment => assignment.1.name = name := by
    have hShown := congrArg (List.map fun definition => (definition.name, definition.node))
      hAssigned.definitions
    rw [List.map_map, List.map_map] at hShown
    exact hShown.trans (List.map_id _)
  rw [← hPairs, hFound]
  exact hAssigned

/-- The global scope of a program keeps the references that leave all the others,
and the assignments among these make its implicit globals. -/
theorem leftover_of_analyze_eq_ok (hOk : analyze settings tree = .ok table) :
    ∃ global, Leftover settings table global := by
  obtain ⟨-, hNested, hRooted, -⟩ := spec_of_analyze_eq_ok hOk
  obtain ⟨before, entry, hBefore, hWaits, hEntry, hKind, hNone, hClose⟩ :=
    exists_globalClose hOk
  obtain ⟨hMakes, global, hGlobal, hLeft⟩ := makesGlobals_close hBefore hEntry hKind hNone hClose
    fun _ => isIdentifier_of_mem_leftAssignments hOk
  have hLeaves := fun id => (hWaits id).leaves hBefore hRooted hNested.upper_lt hClose hEntry
  refine ⟨global, hGlobal, fun id hId => ?_, fun id hId => ?_,
    assigned_close hBefore hEntry hKind hNone hClose hMakes⟩
  · rcases hLeaves id with ⟨-, hOnce⟩ | ⟨hNot, -⟩
    · rw [hLeft, hOnce]
    · exact absurd hId hNot
  · rcases hLeaves id with ⟨hHere, -⟩ | ⟨-, hNever⟩
    · exact absurd hHere hId
    · rw [hLeft, hNever]

end SymbolTable

end Scoping
