import Scoping.Proofs.Resolution.Origins
import Scoping.Proofs.Walk.Bindings

/-! The identifiers that the definitions of a variable are by. A definition gives its
identifier as its name, but for those of a clause that catches an error. -/

namespace Scoping

/-- A definition gives an identifier as its name. A clause that catches an error
gives its whole parameter, of which the identifier is a target. -/
def Definition.Names (keys : ChildKeys) (identifier : Node) (definition : Definition) : Prop :=
  (definition.kind ≠ .catchClause → definition.name = identifier) ∧
    (definition.kind = .catchClause → definition.node.child? "param" = some definition.name ∧
      ∃ target ∈ Pattern.targetsIn keys definition.name, target.identifier = identifier)

variable {settings : Settings} {root node : Node} {binding : Binding}

theorem Definition.names_of_eq {keys : ChildKeys} {identifier : Node} {definition : Definition}
    (hKind : definition.kind ≠ .catchClause) (hName : definition.name = identifier) :
    definition.Names keys identifier :=
  ⟨fun _ => hName, fun hCatch => absurd hCatch hKind⟩

theorem Definition.Names.of_serial {keys : ChildKeys} {identifier : Node} {definition : Definition}
    (h : definition.Names keys identifier) (serial : Nat) :
    Definition.Names keys identifier { definition with serial } :=
  h

/-- All that a node binds is named by its definition. -/
theorem names_of_mem_bindings (h : binding ∈ bindings settings node) :
    binding.definition.Names settings.keys binding.identifier := by
  have hNamed : ∀ kind ≠ DefinitionKind.catchClause, binding ∈ node.named kind →
      binding.definition.Names settings.keys binding.identifier := by
    intro kind hKind hMem
    obtain ⟨name, -, rfl⟩ := List.mem_map.1 hMem
    exact Definition.names_of_eq hKind rfl
  have hDeclared : ∀ declaration : Node, binding ∈ declaration.declarations settings.keys →
      binding.definition.Names settings.keys binding.identifier := by
    intro declaration hMem
    obtain ⟨⟨declarator, position⟩, -, hId⟩ := List.mem_flatMap.1 hMem
    obtain ⟨id, -, hTarget⟩ := List.mem_flatMap.1 hId
    obtain ⟨target, -, rfl⟩ := List.mem_map.1 hTarget
    exact Definition.names_of_eq nofun rfl
  -- In the order of the roles. Only a clause that catches gives more than the identifier as
  -- the name.
  unfold bindings at h
  split at h
  · rcases List.mem_append.1 h with hName | hParameter
    · split at hName
      · exact hNamed .functionName nofun hName
      · cases hName
    · obtain ⟨⟨parameter, position⟩, -, hTarget⟩ := List.mem_flatMap.1 hParameter
      obtain ⟨target, -, rfl⟩ := List.mem_map.1 hTarget
      exact Definition.names_of_eq nofun rfl
  · rcases List.mem_append.1 h with hOuter | hInner
    · split at hOuter
      · exact hNamed .className nofun hOuter
      · cases hOuter
    · exact hNamed .className nofun hInner
  · obtain ⟨parameter, hParameter, hTarget⟩ := List.mem_flatMap.1 h
    obtain ⟨target, hMem, rfl⟩ := List.mem_map.1 hTarget
    exact ⟨fun hOther => absurd rfl hOther, fun _ =>
      ⟨Option.mem_toList.1 hParameter, target, hMem, rfl⟩⟩
  · exact hDeclared node h
  · split at h
    · obtain ⟨left, -, hLeft⟩ := List.mem_flatMap.1 h
      split at hLeft
      · exact hDeclared left hLeft
      · cases hLeft
    · cases h
  · split at h
    · obtain ⟨specifier, -, hName⟩ := List.mem_flatMap.1 h
      obtain ⟨name, -, hTarget⟩ := List.mem_flatMap.1 hName
      obtain ⟨target, -, rfl⟩ := List.mem_map.1 hTarget
      exact Definition.names_of_eq nofun rfl
    · cases h
  · cases h

/-- A note is of what its event binds. -/
theorem Entry.binding_of_note? {entry : Entry} {note : Note} (h : entry.note? settings = some note) :
    entry.2.event.binding? = some ⟨note.identifier, note.definition⟩ ∧
      note.identifier.isIdentifier = true := by
  constructor
  · rcases Entry.note_cases h with ⟨destination, frame, hEvent, -⟩ |
      ⟨block, inMethod, hEvent, -, hName, hDefinition⟩
    · rw [hEvent]
      rfl
    · rw [hEvent, hDefinition]
      simp [Event.binding?, hName]
  · unfold Entry.note? at h
    split at h
    · split at h
      · next hIdentifier =>
          obtain ⟨frame, -, rfl⟩ := Option.map_eq_some_iff.1 h
          exact hIdentifier
      · cases h
    · split at h
      · split at h
        · next hIdentifier =>
            cases h
            exact hIdentifier
        · cases h
      · cases h
    · cases h

namespace SymbolTable

variable {table : SymbolTable} {tree : Tree} {var : VariableId} {declared : Variable}

/-- What a note says is bound in the work at some node. -/
theorem exists_occurs_of_note {note : Note}
    (h : note ∈ (programLog settings root).filterMap (Entry.note? settings)) :
    note.identifier.isIdentifier = true ∧ ∃ past event begun inMethod node before after,
      event.binding? = some ⟨note.identifier, note.definition⟩ ∧
        Occurs settings root past event begun inMethod node before after := by
  obtain ⟨entry, hEntry, hFound⟩ := List.mem_filterMap.1 h
  obtain ⟨hBinding, hIdentifier⟩ := Entry.binding_of_note? hFound
  obtain ⟨past, future, event, hArrives, rfl⟩ := mem_programLog.1 hEntry
  obtain ⟨begun, inMethod, node, before, after, hOccurs⟩ :=
    hArrives.exists_occurs (Event.identifier?_of_binding? hBinding)
  exact ⟨hIdentifier, past, event, begun, inMethod, node, before, after, hBinding, hOccurs⟩

/-- A note of a name in a scope is by an identifier of that name, which names it. -/
theorem names_of_mem_notesOf {scope : ScopeId} {name : String} {note : Note}
    (h : note ∈ notesOf settings (programLog settings root) scope name) :
    note.identifier.isIdentifier = true ∧ note.identifier.name = name ∧
      note.definition.Names settings.keys note.identifier := by
  obtain ⟨hMem, hSame⟩ := List.mem_filter.1 h
  obtain ⟨hIdentifier, _, _, _, _, _, _, _, hBinding, hOccurs⟩ := exists_occurs_of_note hMem
  rw [decide_eq_true_eq] at hSame
  exact ⟨hIdentifier, hSame.2, names_of_mem_bindings (hOccurs.mem_bindings hBinding)⟩

/-- Each identifier of a variable has the name of it, and the definition in the same
place is named by the identifier. -/
theorem definitions_name_identifiers (hOk : analyze settings tree = .ok table)
    (hDeclared : table.variables[var]? = some declared) :
    List.Forall₂ (fun identifier definition => identifier.isIdentifier = true ∧
        identifier.name = declared.name ∧ Definition.Names settings.keys identifier definition)
      declared.identifiers.toList declared.definitions.toList := by
  rcases origin_of_analyze_eq_ok hOk hDeclared with ⟨-, hReports⟩ | ⟨-, hAssigned⟩
  · rw [show declared.identifiers.toList = _ from hReports.identifiers, List.forall₂_map_left_iff]
    refine ((List.forall₂_and_left _ _).2
      ⟨fun note => names_of_mem_notesOf, hReports.definitions⟩).imp ?_
    rintro note definition ⟨⟨hIdentifier, hName, hNames⟩, hMakes⟩
    exact ⟨hIdentifier, hName, hMakes.eq ▸ hNames.of_serial definition.serial⟩
  · rw [show declared.identifiers.toList = _ from hAssigned.identifiers, List.forall₂_map_left_iff]
    have hDefinitions : List.Forall₂ Eq (List.map _ _) _ :=
      List.forall₂_eq_eq_eq ▸ hAssigned.definitions.symm
    rw [List.forall₂_map_left_iff, List.forall₂_map_right_iff] at hDefinitions
    have hEach : ∀ assignment ∈ (table.leftAssignments 0).filter
        (fun assignment => assignment.1.name = declared.name),
          assignment.1.isIdentifier = true ∧ assignment.1.name = declared.name := by
      intro assignment hMem
      obtain ⟨hLeft, hName⟩ := List.mem_filter.1 hMem
      exact ⟨isIdentifier_of_mem_leftAssignments hOk hLeft, of_decide_eq_true hName⟩
    refine ((List.forall₂_and_left _ _).2 ⟨hEach, hDefinitions⟩).imp ?_
    rintro assignment definition ⟨⟨hIdentifier, hName⟩, hMade⟩
    refine ⟨hIdentifier, hName, Definition.names_of_eq ?_ ?_⟩
    · rw [show definition.kind = definition.unnumbered.kind from rfl, ← hMade]
      exact nofun
    · rw [show definition.name = definition.unnumbered.name from rfl, ← hMade]

/-- The program `try {} catch (…) {}`, with a parameter. -/
def catching (parameter : Json) : Tree where
  root := {
    location := []
    kind := "Program"
    entries := [("type", .string "Program"), ("body", .array [.object [
      ("type", .string "TryStatement"), ("block", block),
      ("handler", .object [("type", .string "CatchClause"), ("param", parameter),
        ("body", block)])]])] }
where
  block : Json := .object [("type", .string "BlockStatement"), ("body", .array [])]

/-- The program `try {} catch (e) {}`. -/
def errorCaught : Tree :=
  catching (.object [("type", .string "Identifier"), ("name", .string "e")])

/-- Where the whole parameter is the identifier, the definition is named by it. -/
theorem definitions_name_identifiers_errorCaught :
    ∃ table declared, analyze ⟨{}, 9⟩ errorCaught = .ok table ∧
      table.variables[0]? = some declared ∧ declared.name = "e" ∧
      declared.definitions.map (fun definition => (definition.kind, definition.name.name)) =
        #[(.catchClause, "e")] ∧
      List.Forall₂ (fun identifier definition => identifier.isIdentifier = true ∧
          identifier.name = declared.name ∧ Definition.Names (Settings.keys ⟨{}, 9⟩) identifier definition)
        declared.identifiers.toList declared.definitions.toList := by
  have hAnalyze : (analyze ⟨{}, 9⟩ errorCaught).toOption.map (fun table =>
      table.variables[0]?.map fun declared => (declared.name, declared.definitions.map fun definition =>
        (definition.kind, definition.name.name))) = some (some ("e", #[(.catchClause, "e")])) := by
    decide +kernel
  obtain ⟨table, hOk, hObserved⟩ := exists_of_map_toOption _ hAnalyze
  obtain ⟨declared, hDeclared, hSeen⟩ := Option.map_eq_some_iff.1 hObserved
  obtain ⟨hName, hDefinitions⟩ := Prod.mk.inj hSeen
  exact ⟨table, declared, hOk, hDeclared, hName, hDefinitions,
    definitions_name_identifiers hOk hDeclared⟩

/-- The program `try {} catch ({ a }) {}`. -/
def patternCaught : Tree :=
  catching (.object [("type", .string "ObjectPattern"), ("properties", .array [.object [
    ("type", .string "Property"), ("key", identifier), ("value", identifier),
    ("kind", .string "init"), ("shorthand", .bool true)]])])
where
  identifier : Json := .object [("type", .string "Identifier"), ("name", .string "a")]

/-- The definition of a name in a pattern that is caught gives the pattern as its name,
which is neither the identifier nor any other. -/
theorem pattern_named_patternCaught :
    ∃ table declared identifier definition, analyze ⟨{}, 9⟩ patternCaught = .ok table ∧
      table.variables[0]? = some declared ∧ declared.name = "a" ∧
      declared.identifiers[0]? = some identifier ∧ declared.definitions[0]? = some definition ∧
      identifier.name = "a" ∧ definition.name ≠ identifier ∧
      definition.name.kind = "ObjectPattern" ∧ definition.name.isIdentifier = false := by
  have hAnalyze : (analyze ⟨{}, 9⟩ patternCaught).toOption.map (fun table =>
      table.variables[0]?.map fun declared => (declared.name,
        declared.identifiers[0]?.map fun identifier => (identifier.name, identifier.isIdentifier),
        declared.definitions[0]?.map fun definition =>
          (definition.name.kind, definition.name.isIdentifier))) =
        some (some ("a", some ("a", true), some ("ObjectPattern", false))) := by
    decide +kernel
  obtain ⟨table, hOk, hObserved⟩ := exists_of_map_toOption _ hAnalyze
  obtain ⟨declared, hDeclared, hSeen⟩ := Option.map_eq_some_iff.1 hObserved
  simp only [Prod.mk.injEq] at hSeen
  obtain ⟨hName, hIdentifiers, hDefinitions⟩ := hSeen
  obtain ⟨identifier, hIdentifier, hRead⟩ := Option.map_eq_some_iff.1 hIdentifiers
  obtain ⟨definition, hDefinition, hKind⟩ := Option.map_eq_some_iff.1 hDefinitions
  simp only [Prod.mk.injEq] at hRead hKind
  refine ⟨table, declared, identifier, definition, hOk, hDeclared, hName, hIdentifier, hDefinition,
    hRead.1, fun hSame => ?_, hKind.1, hKind.2⟩
  rw [hSame, hRead.2] at hKind
  cases hKind.2

end SymbolTable

end Scoping
