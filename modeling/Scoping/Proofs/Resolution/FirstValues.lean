import Scoping.Proofs.Resolution.DeadZone
import Scoping.Proofs.Resolution.Repeats
import Scoping.Proofs.Walk.FirstValues

/-! What a use means that gives a name its first value. The name is defined by the same
identifier, where the same scopes are open. -/

namespace Scoping

variable {settings : Settings} {root node : Node} {past begun : List Event} {event : Event}
  {inMethod : Bool} {before after : List Task} {binding : Binding} {trail later : Trail}
  {destination : Destination} {definition : Definition}

/-- Of the names that take values only those of a `var` leave the scope that they are
in. -/
theorem Stands.destination_eq (h : Stands node trail later destination definition)
    (hTakes : definition.kind.takesValue = true) :
    destination = if definition.isVar then .variableScope else .current := by
  have hOther : definition.kind ≠ .variable → destination = .current →
      destination = if definition.isVar then .variableScope else .current := fun hKind hGoes => by
    rw [hGoes, Definition.isVar, decide_eq_false hKind]
    rfl
  have hNever : definition.kind.takesValue = false →
      destination = if definition.isVar then .variableScope else .current := fun hNot => by
    rw [hNot] at hTakes
    cases hTakes
  cases h with
  | declared role kind parent goes here => simpa [Definition.isVar, kind] using goes
  | looped left role child left_kind kind parent goes => simpa [Definition.isVar, kind] using goes
  | imported role kind => exact hNever (by rw [kind]; rfl)
  | owned scope owner role parent node_eq goes inside =>
      refine hOther (fun hKind => ?_) goes
      rw [hKind] at owner
      cases owner
  | outside role kind => exact hNever (by rw [kind]; rfl)
  | function kind => exact hNever (by rw [kind]; rfl)

/-- What takes a value at a place is not the name of a class. -/
theorem Occurs.not_namesClassAt (hCustom : settings.keys.custom = []) (hNames : root.NamesOnce)
    (h : Occurs settings root past event begun inMethod node before after)
    (hBinding : event.binding? = some binding) (hTakes : binding.definition.kind.takesValue = true) :
    ¬ NamesClassAt settings root binding.identifier.location := by
  rintro ⟨visited, rest, flag, other, name, hVisit, hKind, hName, hPlace⟩
  have hRole : Role.ofKind other.kind = .classDefinition := by
    rw [hKind]
    rfl
  have hNamed : (⟨name, { kind := .className, name, node := other }⟩ : Binding) ∈
      bindings settings other := by
    rw [bindings, hRole]
    exact List.mem_append_right _ (List.mem_map.2 ⟨name, Option.mem_toList.2 hName, rfl⟩)
  obtain ⟨_, _, _, _, hBinds, hThere⟩ := hVisit.exists_binds hNamed
  obtain ⟨-, -, rfl⟩ := h.same hCustom hNames hThere (Event.identifier?_of_binding? hBinding)
    (Event.identifier?_of_binding? hBinds) hPlace.symm
  have hOwn := role_of_takesValue (h.mem_bindings hBinding) hTakes
  rw [hRole] at hOwn
  simp at hOwn

namespace SymbolTable

variable {table : SymbolTable} {tree : Tree} {history : List Entry} {entry : Entry} {note : Note}
  {var : VariableId} {declared : Variable} {position : Nat} {identifier : Node} {id : ReferenceId}
  {reference : Reference} {future : List Event}

/-- An identifier and a definition stand at one position of a variable. -/
structure DefinedAt (table : SymbolTable) (var : VariableId) (declared : Variable) (position : Nat)
    (identifier : Node) (definition : Definition) : Prop where
  variable_ : table.variables[var]? = some declared
  identifier : declared.identifiers[position]? = some identifier
  definition : declared.definitions[position]? = some definition

theorem own_of_lookup? (hPlaced : Placed table)
    (hLookup : table.lookup? declared.scope identifier.name = some var) :
    Own table var declared :=
  hPlaced.exists_scope_of_lookup? hLookup

/-- What stands at an entry is at some position of the variable that it defines. -/
theorem Chronicle.exists_definedAt (h : Chronicle settings history table trail)
    (hEntry : entry ∈ history) (hNote : entry.note? settings = some note) :
    ∃ var declared position definition,
      table.DefinedAt var declared position note.identifier definition ∧
      declared.scope = note.scope ∧ table.lookup? note.scope note.identifier.name = some var ∧
      definition = { note.definition with serial := definition.serial } := by
  obtain ⟨var, declared, _, hLookup, hDeclared, hScope, -⟩ := h.exists_definition hEntry hNote
  have hReports := h.reports_own (ownVariable?_eq_some.2 ⟨hLookup, hDeclared⟩)
  have hMem : note ∈ notesOf settings history note.scope note.identifier.name :=
    List.mem_filter.2 ⟨List.mem_filterMap.2 ⟨entry, hEntry, hNote⟩, by simp⟩
  obtain ⟨position, hPosition, hAt⟩ := List.mem_iff_getElem.1 hMem
  have hLt : position < declared.definitions.toList.length :=
    hReports.definitions.length_eq ▸ hPosition
  have hMakes := hReports.definitions.get hPosition hLt
  refine ⟨var, declared, position, declared.definitions.toList[position], ⟨hDeclared, ?_, ?_⟩, hScope,
    hLookup, ?_⟩
  · rw [← Array.getElem?_toList, show declared.identifiers.toList = _ from hReports.identifiers,
      List.getElem?_map, List.getElem?_eq_getElem hPosition, hAt]
    rfl
  · rw [← Array.getElem?_toList, List.getElem?_eq_getElem hLt]
  · rw [← hAt]
    exact hMakes.eq

/-- A reference gives a name its first value, and a definition of the name is by the
same identifier. Unless it is by a `var`, both come where the same scope is the current
one. -/
structure FirstValue (settings : Settings) (history : List Entry) (id : ReferenceId)
    (reference : Reference) (entry other : Entry) (frame : Frame) (use : Use) (note : Note) : Prop where
  mem : entry ∈ history
  number : entry.2.number = id
  records : Entry.Records entry frame use
  identifier : reference.identifier = use.identifier
  scope : reference.scope = frame.scope
  defines : other ∈ history
  defined : Entry.note? settings other = some note
  same : note.identifier = reference.identifier
  takesValue : note.definition.kind.takesValue = true
  beside : note.definition.isVar = false → note.scope = frame.scope ∧ note.bodies = frame.bodies

theorem exists_firstValue (hOk : analyze settings tree = .ok table)
    (hReference : table.references[id]? = some reference) (hInit : reference.init = true) :
    ∃ entry other frame use note, FirstValue settings (programLog settings tree.root) id reference
      entry other frame use note := by
  obtain ⟨entry, hEntry, frame, use, hNumber, hRecords, hUse, hScope⟩ :=
    (chronicle_of_analyze_eq_ok hOk).exists_entry hReference
  have hIdentifier : reference.identifier = use.identifier := by
    rw [hUse, Use.identifier_under]
  have hFirst : use.init = true := by
    rw [hUse, Use.under] at hInit
    split at hInit <;> exact hInit
  obtain ⟨past, future, event, hArrives, rfl⟩ := mem_programLog.1 hEntry
  obtain rfl : event = .use use := hRecords.event
  obtain ⟨begun, inMethod, node, before, after, hOccurs⟩ := hArrives.exists_occurs rfl
  obtain ⟨later, destination, definition, first, last, hDefines, hTakes, hSame⟩ :=
    hOccurs.exists_define hFirst
  obtain ⟨rest, hThere⟩ := hDefines.arrives
  obtain ⟨found, hFound, hNote⟩ := exists_note_of_define hOk hThere hRecords.isIdentifier
  refine ⟨_, _, frame, use, ⟨_, _, _, definition⟩, hEntry, hNumber, hRecords, hIdentifier, hScope,
    entry_mem_programLog hThere, hNote, hIdentifier.symm, hTakes, fun hVar => ?_⟩
  obtain ⟨-, _, _, _, _, _, _, -, -, -, -, hStands⟩ := exists_stands hThere
  rw [hStands.destination_eq hTakes, show definition.isVar = false from hVar, ← hSame] at hFound
  obtain rfl : found = frame := Option.some.inj (hFound.symm.trans hRecords.current)
  exact ⟨rfl, rfl⟩

/-- The scope of the definition binds the reference, if it is static: the body of a
function hides no name from a use that comes when the body has begun as often. -/
theorem FirstValue.binds {other : Entry} {frame : Frame} {use : Use} {owner : Scope}
    (h : FirstValue settings history id reference entry other frame use note)
    (hChronicle : Chronicle settings history table []) (hPlaced : Placed table)
    (hReference : table.references[id]? = some reference) (hVar : note.definition.isVar = false)
    (hOwner : table.scopes[reference.scope]? = some owner)
    (hStatic : owner.dynamic = false ∨ settings.options.optimistic = true)
    (hLookup : table.lookup? reference.scope reference.identifier.name = some var)
    (hDeclared : table.variables[var]? = some declared) :
    table.verdict settings reference.scope id = .binds var := by
  obtain ⟨hScope, hBodies⟩ := h.beside hVar
  have hOwn : table.ownVariable? frame.scope reference.identifier.name = some (var, declared) :=
    ownVariable?_eq_some.2 ⟨h.scope ▸ hLookup, hDeclared⟩
  have hShown : ¬ owner.HidesUntilBody id declared := by
    rw [h.scope] at hOwner
    obtain ⟨last, hLast, hLastScope⟩ := hChronicle.recounts.shown _ owner hOwner
    rw [← h.number, hChronicle.hidesUntilBody_iff h.mem h.records.records
      (List.mem_of_mem_head? h.records.current) hLast hLastScope hOwner hOwn]
    rintro ⟨-, -, hBegun, -, hLate⟩
    have hMem : note ∈ notesOf settings history frame.scope reference.identifier.name :=
      List.mem_filter.2 ⟨List.mem_filterMap.2 ⟨other, h.defines, h.defined⟩, by simp [hScope, h.same]⟩
    exact Nat.not_le_of_lt (hBodies ▸ hBegun) (hLate note hMem)
  rw [verdict_of_static hOwner hReference (hPlaced.with_dynamic _ owner hOwner) hStatic, h.scope, hOwn]
  exact if_neg hShown

/-- A first value is in no dead zone. -/
theorem inDeadZone_of_init (hOk : analyze settings tree = .ok table)
    (hReference : table.references[id]? = some reference) (hInit : reference.init = true) :
    reference.inDeadZone = false := by
  have hJudged := allJudged_of_analyze_eq_ok hOk id reference hReference
  cases hResolved : reference.resolved with
  | none => exact hJudged.unresolved hResolved
  | some var =>
      obtain ⟨_, _, -, -, -, hZone⟩ := hJudged.resolved var hResolved
      rw [hZone, isInDeadZone, hInit]
      rfl

section Finished

variable (hOk : analyze settings tree = .ok table)
  (hKeys : settings.options.childVisitorKeys = none) (hNames : tree.root.NamesOnce)

include hKeys hNames

/-- An identifier that names what takes a value is that of no class. -/
theorem FirstValue.not_namesClassAt {other : Entry} {frame : Frame} {use : Use}
    (h : FirstValue settings (programLog settings tree.root) id reference entry other frame use note) :
    ¬ NamesClassAt settings tree.root reference.identifier.location := by
  obtain ⟨-, _, _, _, _, _, _, _, hBinding, hOccurs⟩ :=
    exists_occurs_of_note (List.mem_filterMap.2 ⟨other, h.defines, h.defined⟩)
  rw [← h.same]
  exact hOccurs.not_namesClassAt (Settings.keys_eq_of_none hKeys) hNames hBinding h.takesValue

include hOk

/-- Nothing else is declared by an identifier that is not the name of a class. -/
theorem DefinedAt.eq_of_identifier {other : VariableId} {found : Variable} {again : Nat} {same : Node}
    {definition : Definition} (h : table.DefinedAt var declared position identifier definition)
    (hOwn : Own table var declared) (hClass : ¬ NamesClassAt settings tree.root identifier.location)
    (hFound : table.variables[other]? = some found) (hAgain : found.identifiers[again]? = some same)
    (hSame : same.location = identifier.location) : other = var ∧ again = position := by
  have hVar : other = var := by
    by_contra hNe
    exact hClass (namesClassAt_of_shared hOk hKeys hNames h.variable_ hFound (Ne.symm hNe)
      (Array.mem_of_getElem? h.identifier) (Array.mem_of_getElem? hAgain) hSame.symm)
  subst hVar
  cases h.variable_.symm.trans hFound
  have hNodup := nodup_of_own hOk hKeys hNames h.variable_ hOwn
  have hHere : (declared.identifiers.toList.map Node.location)[again]? = some identifier.location := by
    rw [List.getElem?_map, Array.getElem?_toList, hAgain, Option.map_some, hSame]
  have hThere : (declared.identifiers.toList.map Node.location)[position]? =
      some identifier.location := by
    rw [List.getElem?_map, Array.getElem?_toList, h.identifier, Option.map_some]
  exact ⟨rfl, (List.getElem?_inj (List.getElem?_eq_some_iff.1 hHere).1 hNodup).1
    (hHere.trans hThere.symm)⟩

/-- A write that gives a name its first value is in no dead zone. One name is declared by
its identifier, once, as a parameter, a caught name or a variable. Unless that is by a
`var`, the name belongs to the scope of the write, and the write means it if the scope is
static, or taken for one. -/
theorem first_values_reach_their_names (hReference : table.references[id]? = some reference)
    (hInit : reference.init = true) :
    reference.inDeadZone = false ∧ ∃ var declared position definition,
      table.DefinedAt var declared position reference.identifier definition ∧
      definition.kind ∈ [DefinitionKind.parameter, .catchClause, .variable] ∧
      (∀ (other : VariableId) (found : Variable) (again : Nat) (same : Node),
        table.variables[other]? = some found → found.identifiers[again]? = some same →
          same.location = reference.identifier.location → other = var ∧ again = position) ∧
      (definition.isVar = false → declared.scope = reference.scope ∧
        ∃ owner, table.scopes[declared.scope]? = some owner ∧
          (owner.dynamic = false ∨ settings.options.optimistic = true →
            reference.resolved = some var)) := by
  have hChronicle := chronicle_of_analyze_eq_ok hOk
  have hPlaced := (spec_of_analyze_eq_ok hOk).2.1.toPlaced
  -- The write comes with the definition of the identifier, which says in which scope both
  -- stand.
  obtain ⟨entry, other, frame, use, note, hFirst⟩ := exists_firstValue hOk hReference hInit
  obtain ⟨var, declared, position, definition, hAt, hScope, hLookup, hMade⟩ :=
    hChronicle.exists_definedAt hFirst.defines hFirst.defined
  rw [hFirst.same] at hAt hLookup
  have hOwn : Own table var declared := own_of_lookup? hPlaced (hScope ▸ hLookup)
  have hKind : definition.kind = note.definition.kind := by
    rw [hMade]
  have hVar : definition.isVar = note.definition.isVar := by
    rw [hMade]
    rfl
  refine ⟨inDeadZone_of_init hOk hReference hInit, var, declared, position, definition, hAt, ?_,
    fun other found again same hFound hAgain =>
      hAt.eq_of_identifier hOk hKeys hNames hOwn (hFirst.not_namesClassAt hKeys hNames) hFound hAgain,
    fun hOther => ?_⟩
  · have hTakes := hFirst.takesValue
    rw [hKind]
    cases hNote : note.definition.kind <;> simp [hNote, DefinitionKind.takesValue] at hTakes ⊢
  · have hBeside := hVar ▸ hOther
    have hHere : declared.scope = reference.scope := by
      rw [hScope, (hFirst.beside hBeside).1, hFirst.scope]
    obtain ⟨owner, hOwner, -⟩ := hOwn
    refine ⟨hHere, owner, hOwner, fun hStatic => ?_⟩
    rw [hHere] at hOwner
    rw [← hScope, hHere] at hLookup
    obtain ⟨around, hAround⟩ := exists_enclosing_eq_cons table reference.scope
    rw [(settled_of_analyze_eq_ok hOk hReference).resolved_eq, hAround, meaning,
      hFirst.binds hChronicle hPlaced hReference hBeside hOwner hStatic hLookup hAt.variable_]

end Finished

/-- The program `function f(a = 1) { var a = 2; }`. -/
def defaultAndVar : Tree where
  root := {
    location := []
    kind := "Program"
    entries := [("type", .string "Program"), ("body", .array [.object [
      ("type", .string "FunctionDeclaration"), ("id", name "f"),
      ("params", .array [.object [("type", .string "AssignmentPattern"), ("left", name "a"),
        ("right", literal)]]),
      ("body", .object [("type", .string "BlockStatement"), ("body", .array [.object [
        ("type", .string "VariableDeclaration"), ("kind", .string "var"),
        ("declarations", .array [.object [("type", .string "VariableDeclarator"), ("id", name "a"),
          ("init", literal)]])]])])]])] }
where
  name (text : String) : Json := .object [("type", .string "Identifier"), ("name", .string text)]
  literal : Json := .object [("type", .string "Literal")]

theorem namesOnce_defaultAndVar : defaultAndVar.root.NamesOnce := by
  have hValue : Json.NamesOnce (.object defaultAndVar.root.entries) := by
    simp [defaultAndVar, defaultAndVar.name, defaultAndVar.literal]
  exact Node.namesOnce_of_ofJson? hValue rfl

/-- The default and the declarator give values to one name, which the parameter and the
body define. -/
theorem first_values_reach_their_names_defaultAndVar :
    ∃ table reference, analyze ⟨{}, 9⟩ defaultAndVar = .ok table ∧
      table.references.map (fun reference => (reference.init, reference.resolved)) =
        #[(true, some 2), (true, some 2)] ∧
      table.references[0]? = some reference ∧ reference.init = true ∧
      reference.inDeadZone = false ∧ ∃ var declared position definition,
        table.DefinedAt var declared position reference.identifier definition ∧
        definition.kind ∈ [DefinitionKind.parameter, .catchClause, .variable] ∧
        (∀ (other : VariableId) (found : Variable) (again : Nat) (same : Node),
          table.variables[other]? = some found → found.identifiers[again]? = some same →
            same.location = reference.identifier.location → other = var ∧ again = position) ∧
        (definition.isVar = false → declared.scope = reference.scope ∧
          ∃ owner, table.scopes[declared.scope]? = some owner ∧
            (owner.dynamic = false ∨ (⟨{}, 9⟩ : Settings).options.optimistic = true →
              reference.resolved = some var)) := by
  have hAnalyze : (analyze ⟨{}, 9⟩ defaultAndVar).toOption.map (fun table =>
      table.references.map fun reference => (reference.init, reference.resolved)) =
        some #[(true, some 2), (true, some 2)] := by
    decide +kernel
  obtain ⟨table, hOk, hSeen⟩ := exists_of_map_toOption _ hAnalyze
  have hFirst := congrArg (fun seen => seen[0]?) hSeen
  rw [Array.getElem?_map] at hFirst
  obtain ⟨reference, hReference, hRead⟩ := Option.map_eq_some_iff.1 hFirst
  have hInit : reference.init = true := (Prod.mk.inj hRead).1
  exact ⟨table, reference, hOk, hSeen, hReference, hInit,
    first_values_reach_their_names hOk rfl namesOnce_defaultAndVar hReference hInit⟩

end SymbolTable

end Scoping
