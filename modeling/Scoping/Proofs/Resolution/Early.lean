import Scoping.Proofs.Chronicle.Endings
import Scoping.Proofs.Placement.Finishing
import Scoping.Proofs.Resolution.DeadZone

/-! Which references of the finished table come too early: what the table says as
the scope of a name closes is what the whole walk has to say about it. -/

namespace Scoping

variable {settings : Settings} {root node ended parent : Node} {past begun : List Event}

theorem ComesTo.contains (h : ComesTo settings root past node) : root.Contains node := by
  cases h with
  | statement visit role => exact visit.contains
  | head visit role left kind => exact visit.contains.trans (Node.contains_of_child? left)

theorem Finishes.contains (h : Finishes settings root past ended) : root.Contains ended := by
  cases h with
  | declarator visit role split =>
      exact visit.contains.trans
        (Node.contains_of_mem_children (split ▸ List.mem_append_right _ List.mem_cons_self))
  | head visit role child left_kind mem values split =>
      exact (visit.contains.trans (Node.contains_of_child? child)).trans
        (Node.contains_of_mem_children mem)
  | definition visit role child split => exact visit.contains

/-- What finishes is no declaration that has declarators of its own. -/
theorem Finishes.location_ne (h : Finishes settings root past ended)
    (hComes : ComesTo settings root begun parent) : parent.location ≠ ended.location := by
  have hDeclarator : ∀ {declaration : Node}, root.Contains declaration →
      declaration.kind = "VariableDeclaration" → ended ∈ declaration.children "declarations" →
        parent.location ≠ ended.location := by
    intro declaration hInside hKind hMem hSame
    cases hComes with
    | statement visit role => exact visit.location_ne_declarator hInside hKind hMem hSame
    | head visit role left kind =>
        have hField := (Node.eq_of_same_location (Node.mem_children_of_child? left) hMem hSame).2
        exact absurd hField (by decide)
  cases h with
  | declarator visit role split =>
      exact hDeclarator visit.contains (Role.kind_eq role rfl)
        (split ▸ List.mem_append_right _ List.mem_cons_self)
  | head visit role child left_kind mem values split =>
      exact hDeclarator (visit.contains.trans (Node.contains_of_child? child)) left_kind mem
  | definition visit role child split =>
      intro hSame
      have hEq : parent = ended :=
        Node.Holds.eq_of_location (.inr hComes.contains) (.inr visit.contains) hSame
      subst hEq
      cases hComes with
      | statement visit other => rcases other with hRole | hRole <;> rw [hRole] at role <;> cases role
      | head visit other left kind =>
          rw [kind] at role
          cases role

namespace SymbolTable

variable {table next : SymbolTable} {tree : Tree} {id : ReferenceId} {reference : Reference}

/-- The statement around a definition is one that the walk comes to. -/
theorem exists_comesTo (hOk : analyze settings tree = .ok table) {var : VariableId}
    {declared : Variable} (hDeclared : table.variables[var]? = some declared)
    {definition : Definition} (hDefinition : definition ∈ declared.definitions)
    (hKind : definition.kind ≠ .implicitGlobal) (hParent : definition.parent = some parent) :
    ∃ begun, ComesTo settings tree.root begun parent := by
  have hChronicle := chronicle_of_analyze_eq_ok hOk
  obtain ⟨owner, hOwner, hVar | hImplicit⟩ := hChronicle.named.owned var declared hDeclared
  · obtain ⟨entry, hEntry, note, hNote, -, -, hEq⟩ :=
      hChronicle.exists_note hDeclared hOwner hVar hDefinition
    rw [hEq] at hParent
    rcases Entry.note_cases hNote with ⟨destination, frame, hEvent, -⟩ | ⟨block, inMethod, -, -, -, hMade⟩
    · obtain ⟨past, future, event, hArrives, rfl⟩ := mem_programLog.1 hEntry
      obtain rfl : event = _ := hEvent
      obtain ⟨-, begun, _, node, _, _, _, hVisit, -, -, -, hStands⟩ := exists_stands hArrives
      cases hStands with
      | declared role kind found =>
          cases found.symm.trans hParent
          exact ⟨begun, .statement hVisit (.inl role)⟩
      | looped left role child left_kind kind found =>
          cases found.symm.trans hParent
          exact ⟨_, .head hVisit role child left_kind⟩
      | imported role kind found =>
          cases found.symm.trans hParent
          exact ⟨begun, .statement hVisit (.inr role)⟩
      | owned _ _ _ found | outside _ _ found | function _ found => cases found.symm.trans hParent
    · rw [hMade] at hParent
      cases hParent
  · exact absurd ((hChronicle.assigned var ⟨_, owner, hOwner, hImplicit⟩).kind declared hDeclared
      definition hDefinition) hKind

/-- Events that end declarations neither define nor record anything. -/
theorem counts_of_onlyEnds {events : List Event} (h : OnlyEnds events)
    (hOk : table.run settings events = .ok next) :
    next.definitionCount = table.definitionCount ∧ next.references.size = table.references.size := by
  induction events generalizing table with
  | nil =>
      cases hOk
      exact ⟨rfl, rfl⟩
  | cons event events ih =>
      obtain ⟨node, rfl⟩ := h event List.mem_cons_self
      have hNotes := notesEnds_endDeclaration table node
      have hEnded : (table.endDeclaration node).run settings events = .ok next := hOk
      obtain ⟨hCount, hSize⟩ := ih (fun other hOther => h other (List.mem_cons_of_mem _ hOther)) hEnded
      exact ⟨hCount.trans hNotes.definitionCount, hSize.trans (by rw [hNotes.references])⟩

/-- What ends after a definition has finished after it, with as many references
recorded. -/
theorem endsAfter_iff_finishes
    (hOk : ({} : SymbolTable).run settings (programEvents settings root) = .ok table)
    {serial count : Nat} : EndsAfter settings (programEvents settings root) serial node count ↔
      ∃ past middle, Finishes settings root past node ∧
        ({} : SymbolTable).run settings past = .ok middle ∧ serial < middle.definitionCount ∧
          count = middle.references.size := by
  constructor
  · rintro ⟨before, after, last, hSplit, hLast, hSerial, rfl⟩
    obtain ⟨past, more, rfl, hMore, hFinishes⟩ := (arrives_of_events hSplit).exists_finishes hLast
    obtain ⟨middle, hMiddle, hRest⟩ := exists_run_of_append hLast
    obtain ⟨hCount, hSize⟩ := counts_of_onlyEnds hMore hRest
    exact ⟨past, middle, hFinishes, hMiddle, hCount ▸ hSerial, hSize⟩
  · rintro ⟨past, middle, hFinishes, hMiddle, hSerial, rfl⟩
    obtain ⟨more, rest, hMore, hEnds⟩ := hFinishes.exists_end
    have hEvents := hEnds.events_eq
    obtain ⟨last, hLast, -⟩ := exists_run_of_append (hEvents ▸ hOk)
    obtain ⟨found, hFound, hRest⟩ := exists_run_of_append hLast
    cases hFound.symm.trans hMiddle
    obtain ⟨hCount, hSize⟩ := counts_of_onlyEnds hMore hRest
    exact ⟨_, rest, last, hEvents, hLast, hCount.symm ▸ hSerial, hSize.symm⟩

theorem definitionCount_run {events : List Event} (h : Nested table table.stack)
    (hOk : table.run settings events = .ok next) : table.definitionCount ≤ next.definitionCount :=
  (run_induction (P := fun later => table.definitionCount ≤ later.definitionCount)
    (fun _ _ _ hNested hLe hApply => Nat.le_trans hLe (definitionCount_apply hNested hApply)) h
    (Nat.le_refl _) hOk).2

/-- A class or a lexical declaration finishes after it has been made. -/
theorem exists_finishes (hOk : analyze settings tree = .ok table) {var : VariableId}
    {declared : Variable} (hDeclared : table.variables[var]? = some declared)
    {definition : Definition} (hDefinition : definition ∈ declared.definitions)
    (hLexical : definition.isLexical = true) :
    ∃ past middle, Finishes settings tree.root past definition.node ∧
      ({} : SymbolTable).run settings past = .ok middle ∧
        definition.serial < middle.definitionCount := by
  obtain ⟨-, -, -, hRun⟩ := spec_of_analyze_eq_ok hOk
  obtain ⟨before, destination, identifier, made, rest, begun, hSplit, hBegun, hEq, hSerial⟩ :=
    allMade_of_run hRun var definition (definitionsOf_of_getElem? hDeclared ▸ hDefinition) hLexical
  obtain ⟨-, ahead, inMethod, node, _, first, after, hVisit, -, hTasks, rfl, hStands⟩ :=
    exists_stands (arrives_of_events hSplit)
  have hMade : made.isLexical = true := by
    rw [hEq] at hLexical
    exact hLexical
  obtain ⟨between, behind, rfl⟩ := List.append_of_mem (hStands.end_mem hMade hTasks)
  rw [← List.cons_append, ← List.append_assoc] at hTasks
  have hEnd := hVisit.inside hTasks
  rw [List.flatMap_append, List.flatMap_cons, Task.events_emit, ← List.append_assoc,
    ← List.append_assoc] at hEnd
  obtain ⟨last, hLast, -⟩ := exists_run_of_append (hEnd.events_eq ▸ hRun)
  obtain ⟨found, hFound, hMore⟩ := exists_run_of_append hLast
  cases hFound.symm.trans hBegun
  obtain ⟨past, more, hPast, hOnly, hFinishes⟩ := hEnd.exists_finishes hLast
  obtain ⟨middle, hMiddle, hEnds⟩ := exists_run_of_append (hPast ▸ hLast)
  refine ⟨past, middle, by rw [hEq]; exact hFinishes, hMiddle, ?_⟩
  rw [← (counts_of_onlyEnds hOnly hEnds).1]
  exact Nat.lt_of_lt_of_le hSerial (definitionCount_run (follows_after hBegun).nested hMore)

/-- A reference is recorded before any declaration of a variable has finished. The
node of a definition may be visited more than once, and what counts is how it
finishes after it has made that definition. -/
def ComesFirst (settings : Settings) (root : Node) (id : ReferenceId) (declared : Variable) : Prop :=
  ∀ definition ∈ declared.definitions, ∀ past middle,
    Finishes settings root past definition.node → ({} : SymbolTable).run settings past = .ok middle →
      definition.serial < middle.definitionCount → id < middle.references.size

/-- The first end that a variable remembers is the first of those that its
declarations come to. -/
theorem ended_iff_comesFirst (hOk : analyze settings tree = .ok table) {var : VariableId}
    {declared : Variable} (hDeclared : table.variables[var]? = some declared)
    (hLexical : ∀ definition ∈ declared.definitions, definition.isLexical = true) :
    (declared.initializedAt.all fun count => id < count) = true ↔
      ComesFirst settings tree.root id declared := by
  obtain ⟨-, -, -, hRun⟩ := spec_of_analyze_eq_ok hOk
  have hEnded := (ledgered_of_run hRun).ended var id
  rw [endedAt_of_getElem? hDeclared, definitionsOf_of_getElem? hDeclared] at hEnded
  have hNot : (declared.initializedAt.all fun count => id < count) = true ↔
      ¬ ∃ count ∈ declared.initializedAt, count ≤ id := by
    cases declared.initializedAt <;> simp
  rw [hNot, hEnded]
  constructor
  · intro hNone definition hMem past middle hFinishes hMiddle hSerial
    by_contra hLe
    exact hNone ⟨definition, hMem, definition.node, _, (endsAfter_iff_finishes hRun).2
      ⟨past, middle, hFinishes, hMiddle, hSerial, rfl⟩, .inl rfl, Nat.le_of_not_lt hLe⟩
  · rintro hFirst ⟨definition, hMem, node, count, hEnds, hStands, hLe⟩
    obtain ⟨past, middle, hFinishes, hMiddle, hSerial, rfl⟩ := (endsAfter_iff_finishes hRun).1 hEnds
    have hLocation : definition.node.location = node.location := by
      rcases hStands with hNode | ⟨parent, hParent, hSame⟩
      · exact hNode
      · have hKind : definition.kind ≠ .implicitGlobal := by
          have hIs := hLexical definition hMem
          intro hEq
          simp [Definition.isLexical, hEq] at hIs
        obtain ⟨begun, hComes⟩ := exists_comesTo hOk hDeclared hMem hKind hParent
        exact absurd hSame (hFinishes.location_ne hComes)
    obtain ⟨_, _, hOwn, -⟩ := exists_finishes hOk hDeclared hMem (hLexical definition hMem)
    have hNode : definition.node = node :=
      Node.Holds.eq_of_location (.inr hOwn.contains) (.inr hFinishes.contains) hLocation
    exact Nat.not_lt_of_le hLe
      (hFirst definition hMem past middle (hNode ▸ hFinishes) hMiddle hSerial)

/-- A definition by a class, or by a declaration that is no `var`. -/
theorem isLexical_iff {definition : Definition} : definition.isLexical = true ↔
    definition.kind = .className ∨
      (definition.kind = .variable ∧ definition.keyword ≠ some "var") := by
  simp [Definition.isLexical]

/-- A reference is in the dead zone of a name just if it resolves to a variable
that only classes and lexical declarations define, does not give that its first
value, belongs to the same function, and comes before the first of those
declarations has finished, as each of them does. -/
theorem inDeadZone_iff (hOk : analyze settings tree = .ok table) :
    (∀ (id : ReferenceId) (reference : Reference), table.references[id]? = some reference →
      (reference.inDeadZone = true ↔ ∃ var declared, reference.resolved = some var ∧
        table.variables[var]? = some declared ∧ reference.init = false ∧
        declared.definitions ≠ #[] ∧
        (∀ definition ∈ declared.definitions, definition.kind = .className ∨
          (definition.kind = .variable ∧ definition.keyword ≠ some "var")) ∧
        table.variableScope reference.scope = table.variableScope declared.scope ∧
        ComesFirst settings tree.root id declared)) ∧
    ∀ (var : VariableId) (declared : Variable), table.variables[var]? = some declared →
      ∀ definition ∈ declared.definitions, definition.kind = .className ∨
        (definition.kind = .variable ∧ definition.keyword ≠ some "var") →
          ∃ past middle, Finishes settings tree.root past definition.node ∧
            ({} : SymbolTable).run settings past = .ok middle ∧
              definition.serial < middle.definitionCount := by
  obtain ⟨-, -, -, hRun⟩ := spec_of_analyze_eq_ok hOk
  -- The flag is set as the reference is resolved, and nothing changes it or what it
  -- compares after.
  have hJudged : AllJudged table :=
    (run_induction (fun _ _ _ hNested hTable hApply => allJudged_apply hTable hNested hApply)
      (nested_empty : Nested {} (SymbolTable.stack {})) allJudged_empty hRun).2
  simp only [← isLexical_iff]
  refine ⟨fun id reference hReference => ?_, fun var declared hDeclared definition hDefinition =>
    exists_finishes hOk hDeclared hDefinition⟩
  have hHere := hJudged id reference hReference
  constructor
  · intro hZone
    cases hResolved : reference.resolved with
    | none => simp [hHere.unresolved hResolved] at hZone
    | some var =>
        obtain ⟨declared, owner, hDeclared, -, -, hVerdict⟩ := hHere.resolved var hResolved
        rw [hVerdict] at hZone
        simp only [isInDeadZone, Variable.hasDeadZone, sameFunction, Bool.and_eq_true] at hZone
        obtain ⟨⟨⟨hInit, hSome, hAll⟩, hSame⟩, hEnded⟩ := hZone
        have hAll := Array.all_eq_true'.1 hAll
        exact ⟨var, declared, rfl, hDeclared, by simpa using hInit, by simpa using hSome,
          hAll, by simpa using hSame, (ended_iff_comesFirst hOk hDeclared hAll).1 hEnded⟩
  · rintro ⟨var, declared, hResolved, hDeclared, hInit, hSome, hAll, hSame, hFirst⟩
    obtain ⟨found, owner, hFound, -, -, hVerdict⟩ := hHere.resolved var hResolved
    cases hFound.symm.trans hDeclared
    rw [hVerdict]
    simp only [isInDeadZone, Variable.hasDeadZone, sameFunction, Bool.and_eq_true]
    exact ⟨⟨⟨by simpa using hInit, by simpa using hSome, Array.all_eq_true'.2 hAll⟩,
      by simpa using hSame⟩, (ended_iff_comesFirst hOk hDeclared hAll).2 hFirst⟩

/-- The program `class C { [C]; } let x = x; x`. -/
def ownNames : Tree where
  root := {
    location := []
    kind := "Program"
    entries := [("type", .string "Program"), ("body", .array [
      .object [("type", .string "ClassDeclaration"), ("id", name "C"),
        ("body", .object [("type", .string "ClassBody"), ("body", .array [
          .object [("type", .string "PropertyDefinition"), ("computed", .bool true),
            ("key", name "C")]])])],
      .object [("type", .string "VariableDeclaration"), ("kind", .string "let"),
        ("declarations", .array [.object [("type", .string "VariableDeclarator"), ("id", name "x"),
          ("init", name "x")]])],
      .object [("type", .string "ExpressionStatement"), ("expression", name "x")]])] }
where
  name (text : String) : Json := .object [("type", .string "Identifier"), ("name", .string text)]

/-- The class and the variable are used before they have finished: the use inside
the class, whose scope is closed by then, and the first value. -/
theorem inDeadZone_iff_ownNames :
    ∃ table, analyze ⟨{}, 13⟩ ownNames = .ok table ∧
      table.references.map (fun reference => (reference.identifier.name, reference.inDeadZone)) =
        #[("C", true), ("x", false), ("x", true), ("x", false)] ∧
      (∀ (id : ReferenceId) (reference : Reference), table.references[id]? = some reference →
        (reference.inDeadZone = true ↔ ∃ var declared, reference.resolved = some var ∧
          table.variables[var]? = some declared ∧ reference.init = false ∧
          declared.definitions ≠ #[] ∧
          (∀ definition ∈ declared.definitions, definition.kind = .className ∨
            (definition.kind = .variable ∧ definition.keyword ≠ some "var")) ∧
          table.variableScope reference.scope = table.variableScope declared.scope ∧
          ComesFirst ⟨{}, 13⟩ ownNames.root id declared)) ∧
      ∀ (var : VariableId) (declared : Variable), table.variables[var]? = some declared →
        ∀ definition ∈ declared.definitions, definition.kind = .className ∨
          (definition.kind = .variable ∧ definition.keyword ≠ some "var") →
            ∃ past middle, Finishes ⟨{}, 13⟩ ownNames.root past definition.node ∧
              ({} : SymbolTable).run ⟨{}, 13⟩ past = .ok middle ∧
                definition.serial < middle.definitionCount := by
  have hAnalyze : (analyze ⟨{}, 13⟩ ownNames).toOption.map (fun table =>
      table.references.map fun reference => (reference.identifier.name, reference.inDeadZone)) =
        some #[("C", true), ("x", false), ("x", true), ("x", false)] := by
    decide +kernel
  obtain ⟨table, hOk, hZones⟩ := exists_of_map_toOption _ hAnalyze
  exact ⟨table, hOk, hZones, inDeadZone_iff hOk⟩

end SymbolTable

end Scoping
