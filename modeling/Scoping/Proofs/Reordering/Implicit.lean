import Scoping.Proofs.Reordering.Lists

/-! The names that a program makes global as the statements of a body change
places. What is left in the global scope does not depend on their order. -/

namespace Scoping.Translation

open SymbolTable

variable {t : Translation} {settings : Settings} {history moved : List Entry}
  {table later : SymbolTable} {position : ScopeId} {id : ReferenceId} {name : String}

/-- An assignment that makes a global, with the node that assigns. -/
def assignment (t : Translation) (found : Node × Node) : Node × Node :=
  (t.nodes.node found.1, t.nodes.node found.2)

/-- The global scope stays the first. -/
theorem Pairs.scope_zero (h : t.Pairs settings history moved table later) : t.scope 0 = 0 := by
  obtain ⟨global, hGlobal, hKind⟩ := h.first.rooted.global
  obtain ⟨other, hOther, hSame⟩ := h.exists_scope hGlobal
  exact h.second.rooted.upper _ other hOther
    (h.after.outermost _ other hOther (hSame.kind.trans hKind))

/-- A reference leaves all the scopes inside the global one just if what it has
become does. -/
theorem Pairs.leaves_iff (h : t.Pairs settings history moved table later) (id : ReferenceId) :
    Leaves settings later (t.reference id) ↔ Leaves settings table id := by
  cases hReference : table.references[id]? with
  | none =>
      refine iff_of_false ?_ ?_
      · rintro ⟨other, hOther, -⟩
        cases (h.references_none hReference).symm.trans hOther
      · rintro ⟨reference, hFound, -⟩
        cases hReference.symm.trans hFound
  | some reference =>
      obtain ⟨other, hOther, -, hScope⟩ := h.exists_reference hReference
      have hOutward : ∀ inner ∈ (table.enclosing reference.scope).dropLast,
          (later.verdict settings (t.scope inner) (t.reference id) = .outward ↔
            table.verdict settings inner id = .outward) := fun inner hInner => by
        have hVerdict := h.verdict hReference ((List.dropLast_subset _) hInner)
        generalize table.verdict settings inner id = before at hVerdict ⊢
        generalize later.verdict settings (t.scope inner) (t.reference id) = after at hVerdict ⊢
        cases hVerdict with
        | binds => exact iff_of_false nofun nofun
        | outward => exact Iff.rfl
        | stop => exact iff_of_false nofun nofun
      simp only [Leaves, hReference, hOther, Option.some.injEq, exists_eq_left', hScope, h.enclosing,
        ← List.map_dropLast, List.forall_mem_map]
      exact forall₂_congr hOutward

/-- What is left in the global scope becomes what is left there. -/
theorem Pairs.perm_left (h : t.Pairs settings history moved table later) {global other : Scope}
    (hGlobal : Leftover settings table global) (hOther : Leftover settings later other) :
    (global.implicitPending.toList.map t.reference).Perm other.implicitPending.toList :=
  perm_of_count fun id => by
    have hIff := h.leaves_iff id
    by_cases hLeaves : Leaves settings table id
    · rw [hGlobal.left id hLeaves]
      exact hOther.left _ (hIff.2 hLeaves)
    · rw [hGlobal.others id hLeaves]
      exact hOther.others _ fun hAfter => hLeaves (hIff.1 hAfter)

theorem Pairs.lookup?_isSome (h : t.Pairs settings history moved table later) (position : ScopeId)
    (name : String) :
    (later.lookup? (t.scope position) name).isSome = (table.lookup? position name).isSome := by
  have hKnown : ∀ {table : SymbolTable}, Nested table [] → ∀ position,
      (table.ownVariable? position name).isSome = (table.lookup? position name).isSome := by
    intro table hNested position
    cases hLookup : table.lookup? position name with
    | none => simp [ownVariable?, hLookup]
    | some var =>
        obtain ⟨declared, hDeclared, -⟩ := hNested.exists_of_lookup? hLookup
        simp [ownVariable?, hLookup, hDeclared]
  rw [← hKnown h.first.nested, ← hKnown h.second.nested]
  have hOwn := h.ownVariable? position name
  generalize table.ownVariable? position name = before at hOwn ⊢
  generalize later.ownVariable? (t.scope position) name = after at hOwn ⊢
  cases hOwn <;> rfl

/-- The assignments that make globals stay those that do. -/
theorem Pairs.perm_leftAssignments (h : t.Pairs settings history moved table later) :
    ((table.leftAssignments 0).map t.assignment).Perm (later.leftAssignments 0) := by
  obtain ⟨global, hGlobal⟩ := h.first.leftover
  obtain ⟨other, hOther⟩ := h.second.leftover
  have hPerm := h.perm_left hGlobal hOther
  simp only [leftAssignments, hGlobal.found, hOther.found, Option.map_some, Option.getD_some]
  refine List.Perm.trans (.of_eq ?_) (hPerm.filterMap _)
  rw [List.map_filterMap, List.filterMap_map]
  refine List.filterMap_congr fun id _ => ?_
  have hReferences := h.references id
  dsimp only [Function.comp_apply]
  generalize table.references[id]? = before at hReferences ⊢
  generalize later.references[t.reference id]? = after at hReferences ⊢
  cases hReferences with
  | none => rfl
  | some hSame =>
      rename_i reference after
      have hIdentifier : after.identifier = t.nodes.node reference.identifier :=
        congrArg Use.identifier hSame.toUse
      have hSource : after.implicitGlobal = reference.implicitGlobal.map t.nodes.node :=
        congrArg Use.implicitGlobal hSame.toUse
      have hKnown := h.lookup?_isSome 0 reference.identifier.name
      rw [h.scope_zero] at hKnown
      simp only [Option.bind_eq_bind, Option.bind_some, hIdentifier, hSource,
        Rearrangement.name_node, hKnown]
      cases reference.implicitGlobal with
      | none => rfl
      | some node =>
          simp only [Option.bind_some, Option.map_some]
          split <;> rfl

/-- The names that assignments make are defined by what the assignments become. -/
theorem sameNaming_of_assigned {found others : List (Node × Node)} {first second : Option Naming}
    (hPerm : (found.map t.assignment).Perm others) (hFirst : Naming.Assigned first found)
    (hSecond : Naming.Assigned second others) : Option.Rel t.SameNaming first second := by
  have hNil : others ≠ [] ↔ found ≠ [] := by
    rw [← List.length_pos_iff, ← List.length_pos_iff, ← hPerm.length_eq, List.length_map]
  have hSome := hSecond.isSome.trans (hNil.trans hFirst.isSome.symm)
  obtain ⟨-, hIdentifiers, hDefinitions⟩ := hFirst
  obtain ⟨-, hIdentifiers', hDefinitions'⟩ := hSecond
  cases first with
  | none =>
      cases second with
      | none => exact .none
      | some other => simp at hSome
  | some naming =>
      cases second with
      | none => simp at hSome
      | some other =>
          simp only [Option.getD_some] at hIdentifiers hIdentifiers' hDefinitions hDefinitions'
          refine .some ⟨?_, ?_⟩
          · rw [hIdentifiers, hIdentifiers', List.map_map]
            have hNodes := hPerm.map Prod.fst
            rw [List.map_map] at hNodes
            exact hNodes
          · have hUnnumbered : (fun definition => (t.nodes.definition definition).unnumbered) =
                t.nodes.definition ∘ Definition.unnumbered := rfl
            rw [hDefinitions', hUnnumbered, ← List.map_map, hDefinitions, List.map_map]
            have hMade := hPerm.map fun assignment =>
              ({ kind := .implicitGlobal, name := assignment.1, node := assignment.2 } : Definition)
            rw [List.map_map] at hMade
            exact hMade

/-- What a table knows of a name that is made global: no reference means it. -/
theorem exists_of_ownIn_implicit (h : Chronicle settings history table [])
    (hFinished : Finished settings table) {own : VariableId × Variable}
    (hOwn : table.ownIn Scope.implicitVariables position name = some own) :
    table.variables[own.1]? = some own.2 ∧ own.2.scope = position ∧ own.2.name = name ∧
      own.2.references = #[] ∧ position = 0 := by
  obtain ⟨var, hLookup, hEntry⟩ := Option.bind_eq_some_iff.1 hOwn
  obtain ⟨declared, hDeclared, rfl⟩ := Option.map_eq_some_iff.1 hEntry
  obtain ⟨same, hSame, hScope, hName⟩ :=
    hFinished.nested.homes_implicit.exists_of_lookupIn hLookup
  cases hSame.symm.trans hDeclared
  obtain ⟨scope, hPosition, hFind⟩ := Option.bind_eq_some_iff.1 hLookup
  have hMem : var ∈ scope.implicitVariables := Array.mem_of_find?_eq_some hFind
  have hGlobal := (h.assigned var ⟨position, scope, hPosition, hMem⟩).global position scope
    hPosition hMem
  refine ⟨hDeclared, hScope, hName, ?_, ?_⟩
  · exact hFinished.accounted.references_eq_empty hFinished.nested.toPlaced hDeclared fun hListed =>
      h.named.apart var hListed ⟨position, scope, hPosition, hMem⟩
  · exact hFinished.rooted.upper position scope hPosition (h.outermost position scope hPosition hGlobal)

/-- The program makes the same names global, by the same assignments. -/
theorem Pairs.implicitVariables (h : t.Pairs settings history moved table later)
    (position : ScopeId) (name : String) :
    Option.Rel (t.SameEntry table later) (table.ownIn Scope.implicitVariables position name)
      (later.ownIn Scope.implicitVariables (t.scope position) name) := by
  -- Only the global scope, which is the first one in both, has implicit globals.
  have hNaming : position = 0 → Option.Rel t.SameNaming
      (table.namingIn Scope.implicitVariables position name)
      (later.namingIn Scope.implicitVariables (t.scope position) name) := by
    rintro rfl
    obtain ⟨global, hGlobal⟩ := h.first.leftover
    obtain ⟨other, hOther⟩ := h.second.leftover
    rw [h.scope_zero]
    refine sameNaming_of_assigned ?_ (hGlobal.assigned name) (hOther.assigned name)
    have hPerm := h.perm_leftAssignments.filter fun assignment => assignment.1.name = name
    rw [List.filter_map] at hPerm
    simpa [Function.comp_def, assignment] using hPerm
  rw [namingIn_eq_map_ownIn, namingIn_eq_map_ownIn] at hNaming
  cases hBefore : table.ownIn Scope.implicitVariables position name with
  | none =>
      cases hAfter : later.ownIn Scope.implicitVariables (t.scope position) name with
      | none => exact .none
      | some other =>
          obtain ⟨-, -, -, -, hZero⟩ := exists_of_ownIn_implicit h.after h.second hAfter
          rw [hBefore, hAfter] at hNaming
          cases hNaming (scope_inj.1 (hZero.trans h.scope_zero.symm))
  | some own =>
      obtain ⟨hDeclared, hScope, hName, hNone, hZero⟩ :=
        exists_of_ownIn_implicit h.before h.first hBefore
      have hSame := hNaming hZero
      rw [hBefore] at hSame
      cases hAfter : later.ownIn Scope.implicitVariables (t.scope position) name with
      | none =>
          rw [hAfter] at hSame
          cases hSame
      | some other =>
          obtain ⟨hFound, hPlace, hText, hEmpty, -⟩ :=
            exists_of_ownIn_implicit h.after h.second hAfter
          rw [hAfter] at hSame
          cases hSame with
          | some hBoth =>
              refine .some (h.sameEntry hDeclared hFound (hText.trans hName.symm)
                (hPlace.trans (congrArg t.scope hScope.symm)) hBoth ?_)
              rw [hNone, hEmpty]
              exact .refl _

end Scoping.Translation
