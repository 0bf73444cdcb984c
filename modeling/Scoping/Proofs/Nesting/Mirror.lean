import Scoping.Proofs.Chronicle.Program
import Scoping.Proofs.Nesting.Around
import Scoping.Tree.NamesOnce

/-! Scopes are nested as the nodes are that they belong to. The scopes around a
reference are all those whose nodes are around its identifier, and the scopes
around another scope are those among the earlier ones. -/

namespace Scoping

/-- Of two elements of a list one is before the other, if they are not the same. -/
theorem cases_of_append_cons_eq {α : Type} {first last before after : List α} {found other : α}
    (h : first ++ found :: last = before ++ other :: after) :
    (∃ middle, first = before ++ other :: middle ∧ after = middle ++ found :: last) ∨
      (first = before ∧ found = other) ∨
      ∃ middle, before = first ++ found :: middle ∧ last = middle ++ other :: after := by
  rcases List.append_eq_append_iff.1 h with ⟨more, rfl, hRest⟩ | ⟨more, rfl, hRest⟩
  · cases more with
    | nil => exact .inr (.inl ⟨(List.append_nil _).symm, (List.cons.inj hRest).1⟩)
    | cons same middle =>
        obtain ⟨rfl, hLast⟩ := List.cons.inj hRest
        exact .inr (.inr ⟨middle, rfl, hLast⟩)
  · cases more with
    | nil => exact .inr (.inl ⟨List.append_nil _, (List.cons.inj hRest).1.symm⟩)
    | cons same middle =>
        obtain ⟨rfl, hAfter⟩ := List.cons.inj hRest
        exact .inl ⟨middle, rfl, hAfter⟩

namespace SymbolTable

variable {settings : Settings} {table : SymbolTable} {tree : Tree} {past future : List Event}
  {event : Event} {place : Location} {position : ScopeId} {scope : Scope}

/-- Each scope has opened at an event, with as many others before as its number
says. -/
theorem exists_opening (hOk : analyze settings tree = .ok table)
    (hScope : table.scopes[position]? = some scope) :
    ∃ past future inMethod, Arrives settings tree.root past
        (.emit (.enter scope.kind scope.block inMethod)) future ∧
      past.countP Event.opens = position := by
  obtain ⟨entry, hEntry, hNumber, inMethod, hEvent⟩ :=
    (chronicle_of_analyze_eq_ok hOk).openings.known position scope hScope
  obtain ⟨past, future, event, hArrives, rfl⟩ := mem_programLog.1 hEntry
  obtain rfl : event = .enter scope.kind scope.block inMethod := hEvent
  exact ⟨past, future, inMethod, hArrives, hNumber⟩

/-- The scopes that are open as an event comes are those that have opened before
and are around its place. -/
theorem mem_open_iff (hOk : analyze settings tree = .ok table)
    (hKeys : settings.options.childVisitorKeys = none) (hNames : tree.root.NamesOnce)
    (hArrives : Arrives settings tree.root past (.emit event) future) (hPlace : place ∈ event.place?) :
    position ∈ (Trail.after settings past).map Frame.scope ↔
      position < past.countP Event.opens ∧ ∃ scope, table.scopes[position]? = some scope ∧
        Surrounds scope.kind scope.block place := by
  have hCustom := Settings.keys_eq_of_none hKeys
  constructor
  · intro hOpen
    obtain ⟨frame, hFrame, rfl⟩ := List.mem_map.1 hOpen
    obtain ⟨-, -, -, hRun⟩ := spec_of_analyze_eq_ok hOk
    rw [hArrives.events] at hRun
    obtain ⟨middle, hMiddle, -⟩ := exists_run_of_append hRun
    obtain ⟨scope, hScope, hPlaces⟩ := (chronicle_of_analyze_eq_ok hOk).openings.frames _
      (mem_programLog.2 ⟨past, future, event, hArrives, rfl⟩) frame hFrame
    refine ⟨?_, scope, hScope, ?_⟩
    · rw [← (sizes_after hMiddle).1]
      exact ((follows_after hMiddle).holder_lt hFrame).1
    · rw [hPlaces.kind, hPlaces.block]
      exact hArrives.surrounds hCustom hNames hPlace hFrame
  · rintro ⟨hEarlier, scope, hScope, hSurrounds⟩
    obtain ⟨before, after, inMethod, hOpens, rfl⟩ := exists_opening hOk hScope
    have hEvents := hArrives.events_eq
    rcases cases_of_append_cons_eq (hEvents.symm.trans hOpens.events_eq) with
      ⟨middle, rfl, -⟩ | ⟨rfl, -⟩ | ⟨middle, rfl, -⟩
    · rw [List.append_assoc, List.cons_append] at hEvents
      obtain ⟨frame, hFrame, hNumber⟩ := exists_mem_after hCustom hNames hEvents hPlace hSurrounds
      exact hNumber ▸ List.mem_map_of_mem hFrame
    · exact absurd hEarlier (Nat.lt_irrefl _)
    · rw [List.countP_append] at hEarlier
      exact absurd hEarlier (Nat.not_lt_of_le (Nat.le_add_right _ _))

/-- A scope that is around the place of an event has opened before it, unless the event
opens a scope of the same node. -/
theorem lt_or_same_of_surrounds (hOk : analyze settings tree = .ok table)
    (hKeys : settings.options.childVisitorKeys = none) (hNames : tree.root.NamesOnce)
    (hArrives : Arrives settings tree.root past (.emit event) future) (hPlace : place ∈ event.place?)
    (hScope : table.scopes[position]? = some scope) (hSurrounds : Surrounds scope.kind scope.block place) :
    position < past.countP Event.opens ∨
      ∃ kind block told, event = .enter kind block told ∧ scope.block.location = block.location := by
  obtain ⟨before, after, inMethod, hOpens, rfl⟩ := exists_opening hOk hScope
  have hEvents := hOpens.events_eq
  rcases cases_of_append_cons_eq (hArrives.events_eq.symm.trans hEvents) with
    ⟨middle, rfl, -⟩ | ⟨-, rfl⟩ | ⟨middle, rfl, -⟩
  · rw [List.countP_append, List.countP_cons_of_pos rfl]
    exact .inl (Nat.lt_add_of_pos_right (Nat.succ_pos _))
  · exact .inr ⟨_, _, _, rfl, rfl⟩
  · have hOrder := (orderly_programEvents (Settings.keys_eq_of_none hKeys) hNames).order
    rw [hEvents, List.append_assoc] at hOrder
    have hLater := (List.pairwise_cons.1 (List.pairwise_append.1 hOrder).2.1).1 _
      (List.mem_append_right _ List.mem_cons_self)
    cases event with
    | use usage =>
        cases hPlace
        exact absurd hSurrounds hLater
    | enter kind block told =>
        cases hPlace
        exact .inr ⟨kind, block, told, rfl, hLater hSurrounds⟩
    | _ => cases hPlace

/-- No scope that opens after a use is around it. -/
theorem lt_of_surrounds (hOk : analyze settings tree = .ok table)
    (hKeys : settings.options.childVisitorKeys = none) (hNames : tree.root.NamesOnce) {usage : Use}
    (hArrives : Arrives settings tree.root past (.emit (.use usage)) future)
    (hScope : table.scopes[position]? = some scope)
    (hSurrounds : Surrounds scope.kind scope.block usage.identifier.location) :
    position < past.countP Event.opens :=
  (lt_or_same_of_surrounds hOk hKeys hNames hArrives rfl hScope hSurrounds).resolve_right nofun

/-- No scope that opens after one of another node is around that node. -/
theorem lt_of_surrounds_scope (hOk : analyze settings tree = .ok table)
    (hKeys : settings.options.childVisitorKeys = none) (hNames : tree.root.NamesOnce) {inner : ScopeId}
    {inside : Scope} (hScope : table.scopes[position]? = some scope) (hInside : table.scopes[inner]? = some inside)
    (hSurrounds : Surrounds scope.kind scope.block inside.block.location)
    (hNe : scope.block.location ≠ inside.block.location) : position < inner := by
  obtain ⟨past, future, told, hArrives, rfl⟩ := exists_opening hOk hInside
  refine (lt_or_same_of_surrounds hOk hKeys hNames hArrives rfl hScope hSurrounds).resolve_right ?_
  rintro ⟨_, _, _, hEvent, hSame⟩
  cases hEvent
  exact hNe hSame

theorem mem_enclosing_reference_iff (hOk : analyze settings tree = .ok table)
    (hKeys : settings.options.childVisitorKeys = none) (hNames : tree.root.NamesOnce)
    {id : ReferenceId} {reference : Reference} (hReference : table.references[id]? = some reference) :
    position ∈ table.enclosing reference.scope ↔ ∃ scope, table.scopes[position]? = some scope ∧
      Surrounds scope.kind scope.block reference.identifier.location := by
  have hChronicle := chronicle_of_analyze_eq_ok hOk
  obtain ⟨entry, hEntry, rfl, frame, usage, hRecords⟩ := hChronicle.recordings.known id reference hReference
  obtain ⟨same, hSame, hUse, hScope⟩ := hChronicle.recordings.recorded entry hEntry frame usage hRecords
  cases hSame.symm.trans hReference
  have hEnclosing := hChronicle.surrounded entry hEntry frame hRecords.current
  obtain ⟨past, future, event, hArrives, rfl⟩ := mem_programLog.1 hEntry
  obtain rfl : event = .use usage := hRecords.event
  have hIdentifier : reference.identifier = usage.identifier :=
    (congrArg Use.identifier hUse).trans (usage.identifier_under frame.strict)
  rw [hScope, hEnclosing, hIdentifier, mem_open_iff hOk hKeys hNames hArrives rfl]
  refine ⟨And.right, fun hAround => ⟨?_, hAround⟩⟩
  obtain ⟨scope, hScope, hSurrounds⟩ := hAround
  exact lt_of_surrounds hOk hKeys hNames hArrives hScope hSurrounds

/-- The scopes around a scope are those that were open as it opened. -/
theorem enclosing_eq_cons (hOk : analyze settings tree = .ok table) {kind : ScopeKind} {block : Node}
    {inMethod : Bool} (hArrives : Arrives settings tree.root past (.emit (.enter kind block inMethod)) future) :
    table.enclosing (past.countP Event.opens) =
      past.countP Event.opens :: (Trail.after settings past).map Frame.scope := by
  have hChronicle := chronicle_of_analyze_eq_ok hOk
  have hEntry := mem_programLog.2 ⟨past, future, _, hArrives, rfl⟩
  obtain ⟨scope, hScope, -, -, hUpper⟩ :=
    hChronicle.openings.opened _ hEntry _ kind block ⟨rfl, inMethod, rfl⟩
  have hAround : table.upper? (past.countP Event.opens) = (Trail.after settings past).current? :=
    (upper?_of_getElem? hScope).trans hUpper
  cases hTrail : Trail.after settings past with
  | nil =>
      rw [hTrail] at hAround
      exact enclosing_of_outermost hAround
  | cons frame rest =>
      have hHead : frame ∈ (Trail.after settings past).head? := by rw [hTrail]; rfl
      have hOutside := hChronicle.surrounded _ hEntry frame hHead
      rw [hTrail] at hAround hOutside
      rw [enclosing_of_upper hAround (hChronicle.recounts.follows.nested.upper_lt _ _ hAround), hOutside]

theorem mem_enclosing_scope_iff (hOk : analyze settings tree = .ok table)
    (hKeys : settings.options.childVisitorKeys = none) (hNames : tree.root.NamesOnce)
    {inner : ScopeId} (hScope : table.scopes[inner]? = some scope) :
    (position ∈ table.enclosing inner ∧ position ≠ inner) ↔ position < inner ∧
      ∃ around, table.scopes[position]? = some around ∧
        Surrounds around.kind around.block scope.block.location := by
  obtain ⟨past, future, inMethod, hArrives, rfl⟩ := exists_opening hOk hScope
  rw [enclosing_eq_cons hOk hArrives, ← mem_open_iff hOk hKeys hNames hArrives rfl, List.mem_cons]
  refine ⟨fun h => h.1.resolve_left h.2, fun hOpen => ⟨.inr hOpen, ?_⟩⟩
  exact Nat.ne_of_lt ((mem_open_iff hOk hKeys hNames hArrives rfl).1 hOpen).1

/-- Scopes are nested as the nodes are that they belong to. The scopes around a
reference are just those whose nodes are around its identifier, and the scopes
around another scope are just those that have opened before it, and whose nodes
are around its own, or are the same. No document that was read has two entries of
one name in an object, see Tree.namesOnce_of_ofText?. -/
theorem enclosing_mirrors_nodes (hOk : analyze settings tree = .ok table)
    (hKeys : settings.options.childVisitorKeys = none) (hNames : tree.root.NamesOnce) :
    (∀ (id : ReferenceId) (reference : Reference), table.references[id]? = some reference →
      ∀ position, position ∈ table.enclosing reference.scope ↔
        ∃ scope, table.scopes[position]? = some scope ∧
          Surrounds scope.kind scope.block reference.identifier.location) ∧
    ∀ (inner : ScopeId) (scope : Scope), table.scopes[inner]? = some scope →
      ∀ position, (position ∈ table.enclosing inner ∧ position ≠ inner) ↔ position < inner ∧
        ∃ around, table.scopes[position]? = some around ∧
          Surrounds around.kind around.block scope.block.location :=
  ⟨fun _ _ hReference _ => mem_enclosing_reference_iff hOk hKeys hNames hReference,
    fun _ _ hScope _ => mem_enclosing_scope_iff hOk hKeys hNames hScope⟩

/-- The program `class C extends A { f = b; } with (o) x`. -/
def fieldAndWith : Tree where
  root := {
    location := []
    kind := "Program"
    entries := [("type", .string "Program"), ("body", .array [
      .object [("type", .string "ClassDeclaration"), ("id", name "C"), ("superClass", name "A"),
        ("body", .object [("type", .string "ClassBody"), ("body", .array [
          .object [("type", .string "PropertyDefinition"), ("key", name "f"),
            ("value", name "b")]])])],
      .object [("type", .string "WithStatement"), ("object", name "o"), ("body",
        .object [("type", .string "ExpressionStatement"), ("expression", name "x")])]])] }
where
  name (text : String) : Json := .object [("type", .string "Identifier"), ("name", .string text)]

theorem namesOnce_fieldAndWith : fieldAndWith.root.NamesOnce := by
  have hValue : Json.NamesOnce (.object fieldAndWith.root.entries) := by
    simp [fieldAndWith, fieldAndWith.name]
  exact Node.namesOnce_of_ofJson? hValue rfl

/-- What a class extends and what a `with` is about are outside of their scopes, which
are around the rest. -/
theorem enclosing_mirrors_nodes_fieldAndWith :
    ∃ table, analyze ⟨{}, 13⟩ fieldAndWith = .ok table ∧
      table.references.map (fun reference =>
        (reference.identifier.name, table.enclosing reference.scope)) =
          #[("A", [0]), ("b", [2, 1, 0]), ("o", [0]), ("x", [3, 0])] ∧
      (∀ (id : ReferenceId) (reference : Reference), table.references[id]? = some reference →
        ∀ position, position ∈ table.enclosing reference.scope ↔
          ∃ scope, table.scopes[position]? = some scope ∧
            Surrounds scope.kind scope.block reference.identifier.location) ∧
      ∀ (inner : ScopeId) (scope : Scope), table.scopes[inner]? = some scope →
        ∀ position, (position ∈ table.enclosing inner ∧ position ≠ inner) ↔ position < inner ∧
          ∃ around, table.scopes[position]? = some around ∧
            Surrounds around.kind around.block scope.block.location := by
  have hAnalyze : (analyze ⟨{}, 13⟩ fieldAndWith).toOption.map (fun table =>
      table.references.map fun reference =>
        (reference.identifier.name, table.enclosing reference.scope)) =
          some #[("A", [0]), ("b", [2, 1, 0]), ("o", [0]), ("x", [3, 0])] := by
    decide +kernel
  obtain ⟨table, hOk, hScopes⟩ := exists_of_map_toOption _ hAnalyze
  exact ⟨table, hOk, hScopes, enclosing_mirrors_nodes hOk rfl namesOnce_fieldAndWith⟩

end SymbolTable

end Scoping
