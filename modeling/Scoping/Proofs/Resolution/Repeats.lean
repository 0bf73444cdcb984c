import Scoping.Proofs.Placement.ClassNames
import Scoping.Proofs.Placement.Identifiers
import Scoping.Proofs.Resolution.Candidates
import Scoping.Tree.NamesOnce

/-! How often one identifier declares. A name that a scope has of its own is declared
once by each identifier, and only the name of a class declaration declares two names.
An assignment declares a name that it makes global once for each write. -/

namespace Scoping

/-- How often the identifier at a place is among those of a variable. -/
def Variable.repeats (declared : Variable) (place : Location) : Nat :=
  declared.identifiers.toList.countP fun identifier => identifier.location = place

/-- A list that has each number of a range once. -/
theorem countP_range {numbers : List Nat} (hNodup : numbers.Nodup) {start length : Nat}
    (hAll : ∀ number, start ≤ number ∧ number < start + length → number ∈ numbers) :
    numbers.countP (fun number => start ≤ number ∧ number < start + length) = length := by
  rw [List.countP_eq_length_filter]
  have hPerm : (numbers.filter fun number => start ≤ number ∧ number < start + length).Perm
      (List.range' start length) := by
    refine (List.perm_ext_iff_of_nodup (hNodup.filter _) List.nodup_range').2 fun number => ?_
    rw [List.mem_filter, List.mem_range'_1, decide_eq_true_eq]
    exact and_iff_right_of_imp (hAll number)
  rw [hPerm.length_eq, List.length_range']

/-- A node that assigns to what stands left of it binds nothing. -/
theorem bindings_of_assignsLeft {settings : Settings} {node : Node} (h : node.AssignsLeft) :
    bindings settings node = [] := by
  rcases h with ⟨hKind, -⟩ | ⟨hKind, hOther⟩
  · rw [bindings, hKind]
    rfl
  · have hRole : Role.ofKind node.kind = .forEach := Role.ofKind_of_mem hKind
    rw [bindings, hRole]
    dsimp only
    split
    · cases hLeft : node.child? "left" with
      | none => rfl
      | some left => simp [hOther left hLeft]
    · rfl

namespace SymbolTable

variable {settings : Settings} {table : SymbolTable} {tree : Tree} {var other : VariableId}
  {declared found : Variable} {identifier again : Node} {global : Scope} {assignment : Node × Node}
  {place : Location}

/-- An identifier of a name that a scope has of its own is that of a definition there. -/
theorem Own.exists_note (h : Own table var declared) (hOk : analyze settings tree = .ok table)
    (hDeclared : table.variables[var]? = some declared) (hMem : identifier ∈ declared.identifiers) :
    ∃ note ∈ (programLog settings tree.root).filterMap (Entry.note? settings),
      note.identifier = identifier ∧ table.lookup? note.scope note.identifier.name = some var := by
  obtain ⟨scope, hScope, hVar⟩ := h
  have hChronicle := chronicle_of_analyze_eq_ok hOk
  have hReports := hChronicle.reports hDeclared hScope hVar
  have hListed : identifier ∈ _ := hReports.identifiers ▸ Array.mem_toList_iff.2 hMem
  obtain ⟨note, hNote, rfl⟩ := List.mem_map.1 hListed
  obtain ⟨hThere, hSame⟩ := List.mem_filter.1 hNote
  rw [decide_eq_true_eq] at hSame
  refine ⟨note, hThere, rfl, ?_⟩
  rw [hSame.1, hSame.2, (spec_of_analyze_eq_ok hOk).2.1.lookup?_eq]
  exact hChronicle.named.indexed.found _ scope hScope var hVar declared hDeclared

/-- An identifier of a name that is made global is that of a candidate which is left. -/
theorem exists_assignment_of_not_own (hOk : analyze settings tree = .ok table)
    (hDeclared : table.variables[var]? = some declared) (hOwn : ¬ Own table var declared)
    (hMem : identifier ∈ declared.identifiers) :
    identifier.name = declared.name ∧ ∃ source, (identifier, source) ∈ table.leftAssignments 0 := by
  rcases origin_of_analyze_eq_ok hOk hDeclared with ⟨hHere, -⟩ | ⟨-, hAssigned⟩
  · exact absurd hHere hOwn
  · have hListed : identifier ∈ _ := hAssigned.identifiers ▸ Array.mem_toList_iff.2 hMem
    obtain ⟨⟨same, source⟩, hFound, rfl⟩ := List.mem_map.1 hListed
    obtain ⟨hLeft, hName⟩ := List.mem_filter.1 hFound
    exact ⟨of_decide_eq_true hName, source, hLeft⟩

/-- What an assignment makes global is the identifier of a candidate that is left. -/
theorem exists_candidate_of_mem (hOk : analyze settings tree = .ok table)
    (h : assignment ∈ table.leftAssignments 0) :
    table.lookup? 0 assignment.1.name = none ∧ tree.root.Holds assignment.1 ∧
      ∃ id, Candidate table assignment.1.location id ∧ Leaves settings table id := by
  obtain ⟨global, hLeftover⟩ := leftover_of_analyze_eq_ok hOk
  obtain ⟨id, hId, reference, hReference, hSource, hSame, hUnknown⟩ :=
    (mem_leftAssignments hLeftover.found).1 h
  refine ⟨hUnknown, hSame ▸ holds_identifier hOk hReference, id,
    ⟨reference, hReference, by rw [hSame], by rw [hSource]; rfl⟩, ?_⟩
  by_contra hStays
  exact (Array.count_pos_iff.2 hId).ne' (hLeftover.others id hStays)

theorem nodup_of_leftover (h : Leftover settings table global) : global.implicitPending.toList.Nodup := by
  rw [List.nodup_iff_count_le_one]
  intro id
  rw [Array.count_toList]
  by_cases hLeaves : Leaves settings table id
  · exact Nat.le_of_eq (h.left id hLeaves)
  · exact (h.others id hLeaves).trans_le (Nat.zero_le 1)

/-- An identifier that is made global is told by the candidates at its place. -/
theorem countP_leftAssignments (hOk : analyze settings tree = .ok table)
    (hLeftover : Leftover settings table global) (h : assignment ∈ table.leftAssignments 0)
    {p : ReferenceId → Bool}
    (hCandidate : ∀ id, Candidate table assignment.1.location id ↔ p id = true) :
    (((table.leftAssignments 0).filter fun other => other.1.name = assignment.1.name).map
      Prod.fst).countP (fun identifier => identifier.location = assignment.1.location) =
        global.implicitPending.toList.countP p := by
  obtain ⟨hUnknown, hHolds, -⟩ := exists_candidate_of_mem hOk h
  unfold leftAssignments
  rw [hLeftover.found, Option.map_some, Option.getD_some, List.countP_map, List.countP_filter,
    List.countP_filterMap]
  refine List.countP_congr fun id _ => ?_
  rw [← hCandidate]
  constructor
  · intro hCounts
    cases hReference : table.references[id]? with
    | none => simp [hReference] at hCounts
    | some reference =>
        cases hSource : reference.implicitGlobal with
        | none => simp [hReference, hSource] at hCounts
        | some source =>
            by_cases hKnown : (table.lookup? 0 reference.identifier.name).isSome = true
            · simp [hReference, hSource, hKnown] at hCounts
            · simp [hReference, hSource, hKnown] at hCounts
              exact ⟨reference, hReference, hCounts.1, by rw [hSource]; rfl⟩
  · rintro ⟨reference, hReference, hPlace, hMakes⟩
    obtain ⟨source, hSource⟩ := Option.isSome_iff_exists.1 hMakes
    have hSame : reference.identifier = assignment.1 :=
      Node.Holds.eq_of_location (holds_identifier hOk hReference) hHolds hPlace
    simp [hReference, hSource, hSame, hUnknown]

section Finished

variable (hOk : analyze settings tree = .ok table)
  (hKeys : settings.options.childVisitorKeys = none) (hNames : tree.root.NamesOnce)

include hOk hKeys hNames

/-- An identifier declares a name of a scope's own just once. -/
theorem nodup_of_own (hDeclared : table.variables[var]? = some declared) (hOwn : Own table var declared) :
    (declared.identifiers.toList.map Node.location).Nodup := by
  obtain ⟨scope, hScope, hVar⟩ := hOwn
  have hReports := (chronicle_of_analyze_eq_ok hOk).reports hDeclared hScope hVar
  have hNotes : (notesOf settings (programLog settings tree.root) declared.scope declared.name).Pairwise
      (Note.Apart settings tree.root) := (pairwise_notes hOk hKeys hNames).filter _
  rw [show declared.identifiers.toList = _ from hReports.identifiers, List.map_map, List.Nodup,
    List.pairwise_map]
  refine hNotes.imp_of_mem fun {note other} hNote hOther hApart hSame => ?_
  have hHere := (of_decide_eq_true (List.mem_filter.1 hNote).2).1
  have hThere := (of_decide_eq_true (List.mem_filter.1 hOther).2).1
  exact (hApart hSame).1 (hHere.trans hThere.symm)

/-- Two names that scopes have of their own share the identifier of a class declaration
at most. -/
theorem namesClassAt_of_own (hDeclared : table.variables[var]? = some declared)
    (hFound : table.variables[other]? = some found) (hOwn : Own table var declared)
    (hAlso : Own table other found) (hNe : var ≠ other) (hMem : identifier ∈ declared.identifiers)
    (hAgain : again ∈ found.identifiers) (hSame : identifier.location = again.location) :
    NamesClassAt settings tree.root identifier.location := by
  obtain ⟨note, hNote, rfl, hLookup⟩ := hOwn.exists_note hOk hDeclared hMem
  obtain ⟨next, hNext, rfl, hFind⟩ := hAlso.exists_note hOk hFound hAgain
  have hNot : note ≠ next := by
    rintro rfl
    exact hNe (Option.some.inj (hLookup.symm.trans hFind))
  exact ((pairwise_notes hOk hKeys hNames).forall hNote hNext hNot hSame).2

/-- What is defined somewhere is not what an assignment makes global. -/
theorem not_candidate_of_note {note : Note} {id : ReferenceId}
    (hNote : note ∈ (programLog settings tree.root).filterMap (Entry.note? settings)) :
    ¬ Candidate table note.identifier.location id := by
  intro hCandidate
  have hCustom := Settings.keys_eq_of_none hKeys
  obtain ⟨-, _, _, _, _, node, _, _, hBinding, hBinds⟩ := exists_occurs_of_note hNote
  obtain ⟨_, _, use, _, _, _, _, _, hAssigns, -, hPlace, -, hUses, -⟩ := hCandidate.exists_occurs hOk
  obtain ⟨-, -, rfl⟩ := hBinds.same hCustom hNames hUses (Event.identifier?_of_binding? hBinding) rfl
    hPlace.symm
  have hMem := hBinds.mem_bindings hBinding
  rw [bindings_of_assignsLeft hAssigns.1] at hMem
  cases hMem

/-- A name that is made global has as many declarations by one identifier as there are
writes to the target that it is. -/
theorem exists_repeats (hDeclared : table.variables[var]? = some declared)
    (hOwn : ¬ Own table var declared) (hMem : identifier ∈ declared.identifiers) :
    ∃ past future inMethod node target,
      Arrives settings tree.root past (.visit inMethod node) future ∧
      node.AssignsTo settings.keys target ∧ target.identifier.location = identifier.location ∧
      declared.repeats identifier.location = target.defaults.length + 1 := by
  obtain ⟨hName, source, hLeft⟩ := exists_assignment_of_not_own hOk hDeclared hOwn hMem
  obtain ⟨-, -, id, hCandidate, hLeaves⟩ := exists_candidate_of_mem hOk hLeft
  obtain ⟨global, hLeftover⟩ := leftover_of_analyze_eq_ok hOk
  obtain ⟨past, future, inMethod, node, target, start, hVisit, hAssigns, hPlace, hAll⟩ :=
    hCandidate.exists_range hOk hKeys hNames
  refine ⟨past, future, inMethod, node, target, hVisit, hAssigns, hPlace, ?_⟩
  rcases origin_of_analyze_eq_ok hOk hDeclared with ⟨hHere, -⟩ | ⟨-, hAssigned⟩
  · exact absurd hHere hOwn
  · have hCounts := countP_leftAssignments hOk hLeftover hLeft
      fun other => (hAll other).1.trans decide_eq_true_iff.symm
    rw [hName] at hCounts
    rw [Variable.repeats, show declared.identifiers.toList = _ from hAssigned.identifiers, hCounts]
    refine countP_range (nodup_of_leftover hLeftover) fun other hBounds => ?_
    obtain ⟨hIff, hTogether⟩ := hAll other
    exact Array.mem_toList_iff.2 (Array.count_pos_iff.1 (by
      rw [hLeftover.left other (hTogether (hIff.2 hBounds) hLeaves)]
      exact Nat.one_pos))

/-- Two names that share an identifier are those of one class declaration. -/
theorem namesClassAt_of_shared (hDeclared : table.variables[var]? = some declared)
    (hFound : table.variables[other]? = some found) (hNe : var ≠ other)
    (hMem : identifier ∈ declared.identifiers) (hAgain : again ∈ found.identifiers)
    (hSame : identifier.location = again.location) :
    NamesClassAt settings tree.root identifier.location := by
  by_cases hOwn : Own table var declared <;> by_cases hAlso : Own table other found
  · exact namesClassAt_of_own hOk hKeys hNames hDeclared hFound hOwn hAlso hNe hMem hAgain hSame
  · obtain ⟨note, hNote, rfl, -⟩ := hOwn.exists_note hOk hDeclared hMem
    obtain ⟨-, source, hLeft⟩ := exists_assignment_of_not_own hOk hFound hAlso hAgain
    obtain ⟨-, -, id, hCandidate, -⟩ := exists_candidate_of_mem hOk hLeft
    exact absurd (hSame ▸ hCandidate) (not_candidate_of_note hOk hKeys hNames hNote)
  · obtain ⟨note, hNote, rfl, -⟩ := hAlso.exists_note hOk hFound hAgain
    obtain ⟨-, source, hLeft⟩ := exists_assignment_of_not_own hOk hDeclared hOwn hMem
    obtain ⟨-, -, id, hCandidate, -⟩ := exists_candidate_of_mem hOk hLeft
    exact absurd (hSame ▸ hCandidate) (not_candidate_of_note hOk hKeys hNames hNote)
  · -- Both are made global by assignments to the same name.
    obtain ⟨hName, _, hLeft⟩ := exists_assignment_of_not_own hOk hDeclared hOwn hMem
    obtain ⟨hNamed, _, hOther⟩ := exists_assignment_of_not_own hOk hFound hAlso hAgain
    obtain ⟨-, hHolds, -⟩ := exists_candidate_of_mem hOk hLeft
    obtain ⟨-, hHeld, -⟩ := exists_candidate_of_mem hOk hOther
    obtain rfl : identifier = again := Node.Holds.eq_of_location hHolds hHeld hSame
    obtain ⟨-, global, hGlobal, hVar⟩ := exists_global_of_not_own hOk hDeclared hOwn
    obtain ⟨-, same, hSameGlobal, hListed⟩ := exists_global_of_not_own hOk hFound hAlso
    have hIndexed := (chronicle_of_analyze_eq_ok hOk).named.others
    have hFirst := hIndexed.found _ global hGlobal var hVar declared hDeclared
    have hSecond := hIndexed.found _ same hSameGlobal other hListed found hFound
    rw [← hName] at hFirst
    rw [← hNamed] at hSecond
    exact absurd (Option.some.inj (hFirst.symm.trans hSecond)) hNe

/-- A name that a scope has of its own is declared once by each of its identifiers, and
two names share at most that of a class declaration. A name that the program makes
global is declared by each of its identifiers as often as the target may take a value
by default, and once more. -/
theorem identifiers_declare_once :
    (∀ (var : VariableId) (declared : Variable), table.variables[var]? = some declared →
      Own table var declared → (declared.identifiers.toList.map Node.location).Nodup) ∧
    (∀ (var other : VariableId) (declared found : Variable), table.variables[var]? = some declared →
      table.variables[other]? = some found → var ≠ other →
        ∀ identifier ∈ declared.identifiers, ∀ again ∈ found.identifiers,
          identifier.location = again.location →
            NamesClassAt settings tree.root identifier.location) ∧
    ∀ (var : VariableId) (declared : Variable), table.variables[var]? = some declared →
      ¬ Own table var declared → ∀ identifier ∈ declared.identifiers,
        ∃ past future inMethod node target,
          Arrives settings tree.root past (.visit inMethod node) future ∧
          node.AssignsTo settings.keys target ∧ target.identifier.location = identifier.location ∧
          declared.repeats identifier.location = target.defaults.length + 1 :=
  ⟨fun _ _ => nodup_of_own hOk hKeys hNames,
    fun _ _ _ _ hDeclared hFound hNe _ hMem _ hAgain =>
      namesClassAt_of_shared hOk hKeys hNames hDeclared hFound hNe hMem hAgain,
    fun _ _ hDeclared hOwn _ => exists_repeats hOk hKeys hNames hDeclared hOwn⟩

end Finished

/-- The program `class C {} [a = 1] = [];`. -/
def classAndDefault : Tree where
  root := {
    location := []
    kind := "Program"
    entries := [("type", .string "Program"), ("body", .array [
      .object [("type", .string "ClassDeclaration"), ("id", name "C"),
        ("body", .object [("type", .string "ClassBody"), ("body", .array [])])],
      .object [("type", .string "ExpressionStatement"), ("expression", .object [
        ("type", .string "AssignmentExpression"), ("operator", .string "="),
        ("left", .object [("type", .string "ArrayPattern"), ("elements", .array [
          .object [("type", .string "AssignmentPattern"), ("left", name "a"),
            ("right", .object [("type", .string "Literal")])]])]),
        ("right", .object [("type", .string "ArrayExpression"), ("elements", .array [])])])]])] }
where
  name (text : String) : Json := .object [("type", .string "Identifier"), ("name", .string text)]

theorem namesOnce_classAndDefault : classAndDefault.root.NamesOnce := by
  have hValue : Json.NamesOnce (.object classAndDefault.root.entries) := by
    simp [classAndDefault, classAndDefault.name]
  exact Node.namesOnce_of_ofJson? hValue rfl

/-- The two names of the class share its identifier, and what is assigned is declared by
its default as well. -/
theorem identifiers_declare_once_classAndDefault :
    ∃ table, analyze ⟨{}, 9⟩ classAndDefault = .ok table ∧
      table.variables.map (fun declared => (declared.name, declared.identifiers.size)) =
        #[("C", 1), ("C", 1), ("a", 2)] ∧
      (∀ (var : VariableId) (declared : Variable), table.variables[var]? = some declared →
        Own table var declared → (declared.identifiers.toList.map Node.location).Nodup) ∧
      (∀ (var other : VariableId) (declared found : Variable), table.variables[var]? = some declared →
        table.variables[other]? = some found → var ≠ other →
          ∀ identifier ∈ declared.identifiers, ∀ again ∈ found.identifiers,
            identifier.location = again.location →
              NamesClassAt ⟨{}, 9⟩ classAndDefault.root identifier.location) ∧
      ∀ (var : VariableId) (declared : Variable), table.variables[var]? = some declared →
        ¬ Own table var declared → ∀ identifier ∈ declared.identifiers,
          ∃ past future inMethod node target,
            Arrives ⟨{}, 9⟩ classAndDefault.root past (.visit inMethod node) future ∧
            node.AssignsTo (Settings.keys ⟨{}, 9⟩) target ∧
            target.identifier.location = identifier.location ∧
            declared.repeats identifier.location = target.defaults.length + 1 := by
  have hAnalyze : (analyze ⟨{}, 9⟩ classAndDefault).toOption.map (fun table =>
      table.variables.map fun declared => (declared.name, declared.identifiers.size)) =
        some #[("C", 1), ("C", 1), ("a", 2)] := by
    decide +kernel
  obtain ⟨table, hOk, hSizes⟩ := exists_of_map_toOption _ hAnalyze
  exact ⟨table, hOk, hSizes, identifiers_declare_once hOk rfl namesOnce_classAndDefault⟩

/-- One identifier makes two definitions of the name that the assignment makes global. -/
theorem identifier_repeats_classAndDefault :
    ∃ table declared, analyze ⟨{}, 9⟩ classAndDefault = .ok table ∧
      table.variables[2]? = some declared ∧ declared.name = "a" ∧
      declared.definitions.map Definition.kind = #[.implicitGlobal, .implicitGlobal] ∧
      ¬ (declared.identifiers.toList.map Node.location).Nodup := by
  have hAnalyze : (analyze ⟨{}, 9⟩ classAndDefault).toOption.map (fun table =>
      table.variables[2]?.map fun declared => (declared.name,
        declared.definitions.map Definition.kind,
        decide (declared.identifiers.toList.map Node.location).Nodup)) =
          some (some ("a", #[.implicitGlobal, .implicitGlobal], false)) := by
    decide +kernel
  obtain ⟨table, hOk, hObserved⟩ := exists_of_map_toOption _ hAnalyze
  obtain ⟨declared, hDeclared, hSeen⟩ := Option.map_eq_some_iff.1 hObserved
  simp only [Prod.mk.injEq, decide_eq_false_iff_not] at hSeen
  exact ⟨table, declared, hOk, hDeclared, hSeen.1, hSeen.2.1, hSeen.2.2⟩

end SymbolTable

end Scoping
