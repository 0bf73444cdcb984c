import Scoping.Proofs.Chronicle.Endings
import Scoping.Proofs.Resolution.Origins

/-! What each node declares. The index of declarations is added to definition by
definition, and it says just what the definitions themselves say. -/

namespace Scoping.SymbolTable

variable {settings : Settings} {past : List Event} {table next : SymbolTable} {event : Event}
  {location : Location} {var other : VariableId} {bound : Nat} {tree : Tree}

/-- A place declares one variable for the first time before it ever declares
another. -/
def DeclaresFirst (table : SymbolTable) (location : Location) (var other : VariableId) : Prop :=
  ∃ first ∈ table.definitionsOf var, first.StandsAt location ∧
    ∀ later ∈ table.definitionsOf other, later.StandsAt location → first.serial < later.serial

/-- Each place lists what it declares in the order of the first declarations. -/
def DeclaresInOrder (table : SymbolTable) : Prop :=
  ∀ location, (table.declaredAt location).toList.Pairwise (table.DeclaresFirst location)

theorem DeclaresFirst.ne (h : DeclaresFirst table location var other) : var ≠ other := by
  rintro rfl
  obtain ⟨first, hFirst, hStands, hBefore⟩ := h
  exact Nat.lt_irrefl _ (hBefore first hFirst hStands)

theorem declaresInOrder_empty : DeclaresInOrder {} := fun _ => by
  simp [declaredAt]

theorem DeclaresInOrder.of_same (h : DeclaresInOrder table) (hSame : SameLedger table next) :
    DeclaresInOrder next := by
  intro location
  rw [declaredAt, hSame.declared]
  refine (h location).imp fun hFirst => ?_
  simpa only [DeclaresFirst, hSame.definitionsOf] using hFirst

/-- A new definition has the greatest number so far. -/
theorem DeclaresInOrder.addDefinition (h : DeclaresInOrder table)
    (hLedgered : Ledgered settings past bound table)
    (hVar : ∃ declared, table.variables[var]? = some declared) (identifier : Node)
    (definition : Definition) : DeclaresInOrder (table.addDefinition var identifier definition) := by
  intro location
  have hOld : (table.declaredAt location).toList.Pairwise
      ((table.addDefinition var identifier definition).DeclaresFirst location) := by
    refine (h location).imp ?_
    rintro one two ⟨first, hFirst, hStands, hBefore⟩
    refine ⟨first, (mem_definitionsOf_addDefinition hVar).2 (.inl hFirst), hStands,
      fun later hLater hLaterStands => ?_⟩
    rcases (mem_definitionsOf_addDefinition hVar).1 hLater with hThere | ⟨-, rfl⟩
    · exact hBefore later hThere hLaterStands
    · exact hLedgered.bounded one first hFirst
  rw [declaredAt_addDefinition]
  split
  · next hPlace =>
      rw [Array.toList_push]
      refine List.pairwise_append.2 ⟨hOld, List.pairwise_singleton _ _, fun one hOne two hTwo => ?_⟩
      obtain rfl := List.mem_singleton.1 hTwo
      obtain ⟨first, hFirst, hStands⟩ := (hLedgered.declared _ _).1 (Array.mem_toList_iff.1 hOne)
      refine ⟨first, (mem_definitionsOf_addDefinition hVar).2 (.inl hFirst), hStands,
        fun later hLater hLaterStands => ?_⟩
      rcases (mem_definitionsOf_addDefinition hVar).1 hLater with hThere | ⟨-, rfl⟩
      · exact absurd ((hLedgered.declared _ _).2 ⟨later, hThere, hLaterStands⟩) hPlace.2
      · exact hLedgered.bounded one first hFirst
  · exact hOld

theorem declaresInOrder_apply (h : DeclaresInOrder table)
    (hLedgered : Ledgered settings past bound table)
    (hNested : Nested table table.stack) (hOk : table.apply settings event = .ok next) :
    DeclaresInOrder next := by
  by_cases hEnd : ∃ node, event = .endDeclaration node
  · obtain ⟨node, rfl⟩ := hEnd
    cases hOk
    have hNotes := notesEnds_endDeclaration table node
    intro location
    rw [declaredAt, hNotes.declared]
    refine (h location).imp fun hFirst => ?_
    simpa only [DeclaresFirst, hNotes.definitionsOf] using hFirst
  · exact (ledger_apply (P := fun table => Ledgered settings past bound table ∧ DeclaresInOrder table)
      (Q := fun _ => True)
      (fun _ _ hSame hTable => ⟨hTable.1.of_same hSame, hTable.2.of_same hSame⟩)
      (fun _ _ identifier definition _ hVar hTable =>
        ⟨hTable.1.addDefinition hVar identifier definition,
          hTable.2.addDefinition hTable.1 hVar identifier definition⟩)
      hNested ⟨hLedgered, h⟩ (fun node hEq => hEnd ⟨node, hEq⟩) (fun _ _ => trivial) hOk).2

theorem declaresInOrder_of_run (hOk : ({} : SymbolTable).run settings past = .ok table) :
    DeclaresInOrder table := by
  induction past using List.reverseRecOn generalizing table with
  | nil =>
      cases hOk
      exact declaresInOrder_empty
  | append_singleton past event ih =>
      obtain ⟨middle, hMiddle, hLast⟩ := exists_run_of_append hOk
      obtain ⟨next, hNext, hEnd⟩ := exists_of_bind_ok hLast
      cases hEnd
      exact declaresInOrder_apply (ih hMiddle) (ledgered_of_run hMiddle) (follows_after hMiddle).nested hNext

theorem exists_of_mem_definitionsOf {definition : Definition}
    (h : definition ∈ table.definitionsOf var) :
    ∃ declared, table.variables[var]? = some declared ∧ definition ∈ declared.definitions := by
  unfold definitionsOf at h
  cases hFound : table.variables[var]? with
  | none => simp [hFound] at h
  | some declared =>
      rw [hFound] at h
      exact ⟨declared, rfl, h⟩

/-- A node declares the variables that it or a node right inside it defines, each
once, and in the order in which they first were. Each definition is by one
identifier. -/
theorem declaredBy_mirrors_definitions (hOk : analyze settings tree = .ok table) :
    (∀ (node : Node) (var : VariableId), var ∈ table.declaredBy node ↔
      ∃ declared, table.variables[var]? = some declared ∧ ∃ definition ∈ declared.definitions,
        definition.node == node ∨ ∃ parent ∈ definition.parent, parent == node) ∧
    (∀ node, (table.declaredBy node).toList.Nodup ∧
      (table.declaredBy node).toList.Pairwise (table.DeclaresFirst node.location)) ∧
    ∀ (var : VariableId) (declared : Variable), table.variables[var]? = some declared →
      declared.identifiers.size = declared.definitions.size := by
  have hRun := (spec_of_analyze_eq_ok hOk).2.2.2
  refine ⟨fun node var => ?_, fun node => ?_, fun var declared => size_identifiers_eq hOk⟩
  · have hDeclared := (ledgered_of_run hRun).declared node.location var
    rw [show table.declaredBy node = table.declaredAt node.location from rfl, hDeclared]
    simp only [Node.beq_iff, Option.mem_def]
    constructor
    · rintro ⟨definition, hDefinition, hStands⟩
      obtain ⟨declared, hFound, hMem⟩ := exists_of_mem_definitionsOf hDefinition
      exact ⟨declared, hFound, definition, hMem, hStands⟩
    · rintro ⟨declared, hFound, definition, hMem, hStands⟩
      exact ⟨definition, by rwa [definitionsOf_of_getElem? hFound], hStands⟩
  · have hOrder := declaresInOrder_of_run hRun node.location
    exact ⟨hOrder.imp DeclaresFirst.ne, hOrder⟩

/-- The program `class C {} var b, a; [d, c] = a`. -/
def classAndLists : Tree where
  root := {
    location := []
    kind := "Program"
    entries := [("type", .string "Program"), ("body", .array [
      .object [("type", .string "ClassDeclaration"), ("id", name "C"), ("body", .object [
        ("type", .string "ClassBody"), ("body", .array [])])],
      .object [("type", .string "VariableDeclaration"), ("kind", .string "var"),
        ("declarations", .array [declarator "b", declarator "a"])],
      .object [("type", .string "ExpressionStatement"), ("expression", .object [
        ("type", .string "AssignmentExpression"), ("operator", .string "="), ("left", .object [
          ("type", .string "ArrayPattern"), ("elements", .array [name "d", name "c"])]),
        ("right", name "a")])]])] }
where
  name (text : String) : Json := .object [("type", .string "Identifier"), ("name", .string text)]
  declarator (text : String) : Json :=
    .object [("type", .string "VariableDeclarator"), ("id", name text)]

/-- A class declares its name twice, outside and inside. The others are declared where
they stand in a list, in the order there. -/
theorem declaredBy_mirrors_definitions_classAndLists :
    ∃ table, analyze ⟨{}, 9⟩ classAndLists = .ok table ∧
      (table.declared.map fun place =>
        place.2.map fun var => table.variables[var]?.map Variable.name) =
          [#[some "C", some "C"], #[some "b"], #[some "b", some "a"], #[some "a"],
            #[some "d", some "c"]] ∧
      (∀ (node : Node) (var : VariableId), var ∈ table.declaredBy node ↔
        ∃ declared, table.variables[var]? = some declared ∧ ∃ definition ∈ declared.definitions,
          definition.node == node ∨ ∃ parent ∈ definition.parent, parent == node) ∧
      (∀ node, (table.declaredBy node).toList.Nodup ∧
        (table.declaredBy node).toList.Pairwise (table.DeclaresFirst node.location)) ∧
      ∀ (var : VariableId) (declared : Variable), table.variables[var]? = some declared →
        declared.identifiers.size = declared.definitions.size := by
  have hAnalyze : (analyze ⟨{}, 9⟩ classAndLists).toOption.map (fun table =>
      table.declared.map fun place =>
        place.2.map fun var => table.variables[var]?.map Variable.name) =
          some [#[some "C", some "C"], #[some "b"], #[some "b", some "a"], #[some "a"],
            #[some "d", some "c"]] := by
    decide +kernel
  obtain ⟨table, hOk, hNames⟩ := exists_of_map_toOption _ hAnalyze
  exact ⟨table, hOk, hNames, declaredBy_mirrors_definitions hOk⟩

end Scoping.SymbolTable
