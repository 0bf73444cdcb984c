import Scoping.Proofs.Placement.FunctionNames
import Scoping.Proofs.Resolution.Finished
import Scoping.Proofs.Table.Leaving

/-! The names that a program makes global by assigning to them. They are told by
the references that are left in the global scope, and each of those by the node
whose work it is recorded in. -/

namespace Scoping.SymbolTable

variable {settings : Settings} {table : SymbolTable} {tree : Tree} {root node : Node}
  {past future : List Event} {event : Event} {id : ReferenceId} {use : Use} {global : Scope}

/-- After the walk of a program has begun a scope is open at each event. -/
theorem after_ne_nil (h : Arrives settings root past (.emit event) future)
    (hEvent : event ≠ .enter .global root false) : Trail.after settings past ≠ [] := by
  obtain ⟨number, rest, hSignals, -, hLog⟩ :=
    Trail.program_spec (map_event_numbered 0 0 (programEvents settings root))
  have hEntry := entry_mem_programLog h
  rw [programLog, hSignals] at hEntry
  rcases List.mem_cons.1 hEntry with hFirst | hRest
  · exact absurd (congrArg (fun entry => entry.2.event) hFirst) hEvent
  · exact hLog _ hRest

/-- The last thing that happens to the table of a program is that its global scope
closes. What each event and each closing keeps holds before that. -/
theorem exists_lastClose {P : SymbolTable → Prop}
    (hPop : ∀ (table : SymbolTable) (stack : List ScopeId), P table → Placed table →
      P { table with stack })
    (hClose : ∀ (table next : SymbolTable) (scope : ScopeId) (stack : List ScopeId), P table →
      Nested table (scope :: stack) → table.close settings scope = .ok next → P next)
    (hStep : ∀ (table next : SymbolTable) (event : Event), Nested table table.stack → P table →
      table.apply settings event = .ok next → P next)
    (hEmpty : P {}) (hOk : analyze settings tree = .ok table) :
    ∃ before entry, Nested before [0] ∧ P before ∧ before.scopes[(0 : ScopeId)]? = some entry ∧
      entry.kind = .global ∧ before.close settings 0 = .ok table := by
  obtain ⟨hStack, -, hRooted, hRun⟩ := spec_of_analyze_eq_ok hOk
  obtain ⟨openings, -, hProgram⟩ := Trail.exists_openings settings tree.root
  have hSplit : Walker.program { settings } tree.root =
      (.emit (.enter .global tree.root false) ::
        (openings ++ Walker.descend { settings } tree.root)) ++ .emit (.leave tree.root) :: [] := by
    simp [hProgram]
  have hArrives := Arrives.program hSplit
  rw [hArrives.events_eq] at hRun
  obtain ⟨middle, hMiddle, hLast⟩ := exists_run_of_append hRun
  obtain ⟨next, hLeave, hEnd⟩ := exists_of_bind_ok hLast
  cases hEnd
  obtain ⟨hNested, hKept⟩ := run_induction hStep nested_empty hEmpty hMiddle
  -- All that is open closes, the outermost scope last.
  obtain ⟨inner, last, hInner⟩ : ∃ inner last, middle.stack = inner ++ [last] := by
    have hOpen : middle.stack ≠ [] := fun hNil => by
      rw [(follows_after hMiddle).stack, List.map_eq_nil_iff] at hNil
      exact after_ne_nil hArrives nofun hNil
    exact ⟨_, _, (List.dropLast_append_getLast hOpen).symm⟩
  have hLeaving : middle.leaving tree.root = inner ++ [last] := by
    obtain ⟨hAll, -⟩ := closes_leaveAll hNested hLeave
    rw [hStack, List.append_nil] at hAll
    rw [← hAll, hInner]
  have hLeaves : (middle.leaving tree.root).foldlM
      (fun table _ => do return (← table.leave settings).2) middle = .ok table := hLeave
  rw [hLeaving, List.foldlM_append] at hLeaves
  obtain ⟨around, hAround, hOuter⟩ := exists_of_bind_ok hLeaves
  rw [hInner] at hNested
  obtain ⟨found, hFound, hCloses, hFoundKept⟩ :=
    exists_leaves settings hPop hClose inner hNested hInner hKept
  cases hFound.symm.trans hAround
  obtain ⟨closed, hClosed, hLeft, hSettles⟩ := exists_leave settings hCloses.nested hCloses.stack
  have hSame : closed = table := by
    rw [List.foldlM_cons, hLeft] at hOuter
    exact Except.ok.inj hOuter
  subst hSame
  have hBefore : Nested { around with stack := [] } [last] :=
    hCloses.nested.congr rfl fun _ before hBefore => ⟨before, hBefore, rfl⟩
  -- It is the first scope, which is the global one.
  obtain ⟨entry, hEntry, hUpper⟩ := hBefore.chain last [] (List.suffix_refl _)
  obtain ⟨after, hAfter, hEq⟩ := hSettles.scope last entry hEntry
  obtain rfl : last = 0 := hRooted.upper last after hAfter (by rw [hEq]; exact hUpper)
  obtain ⟨outermost, hOutermost, hKind⟩ := hRooted.global
  cases hOutermost.symm.trans hAfter
  refine ⟨_, entry, hBefore, hPop _ _ hFoundKept hCloses.nested.toPlaced, hEntry, ?_, hClosed⟩
  rw [hEq] at hKind
  exact hKind

/-- As the global scope closes, all references are accounted for, and it has no implicit globals
before that. -/
theorem exists_globalClose (hOk : analyze settings tree = .ok table) :
    ∃ before entry, Nested before [0] ∧ Accounted settings before ∧
      before.scopes[(0 : ScopeId)]? = some entry ∧ entry.kind = .global ∧
      entry.implicitVariables = #[] ∧ before.close settings 0 = .ok table := by
  obtain ⟨before, entry, hBefore, ⟨hWaits, hPristine⟩, hEntry, hKind, hClose⟩ := exists_lastClose
    (P := fun table => Accounted settings table ∧ Pristine table)
    (fun _ _ h hPlaced => ⟨accounted_pop h.1 hPlaced, h.2.of_eq rfl⟩)
    (fun _ _ _ _ h hNested hClose => ⟨accounted_close h.1 hNested hClose, h.2.close hNested hClose⟩)
    (fun _ _ _ hNested h hApply => ⟨accounted_apply h.1 hNested hApply,
      pristine_apply h.2 hNested hApply⟩)
    ⟨accounted_empty, pristine_empty⟩ hOk
  exact ⟨before, entry, hBefore, hWaits, hEntry, hKind,
    hPristine 0 entry hEntry ((hBefore.open_iff 0 entry hEntry).2 List.mem_cons_self), hClose⟩

/-- The walk visits a node and records a use that the work at the node brings. So
many uses have been recorded before it. -/
def RecordsAt (settings : Settings) (root : Node) (id : ReferenceId) (node : Node) (use : Use) :
    Prop :=
  ∃ begun inMethod rest before after, Arrives settings root begun (.visit inMethod node) rest ∧
    Walker.tasks { settings, inMethod } node = before ++ .emit (.use use) :: after ∧
    use.identifier.isIdentifier = true ∧
    id = (begun ++ before.flatMap (Task.events settings)).countP Event.records

/-- A reference is recorded in sloppy code, as a write to a target of what a node
assigns to. -/
def AssignsSloppily (settings : Settings) (root : Node) (table : SymbolTable) (id : ReferenceId)
    (node : Node) : Prop :=
  ∃ reference home use, table.references[id]? = some reference ∧
    table.scopes[reference.scope]? = some home ∧ home.strict = false ∧
    RecordsAt settings root id node use ∧ use.identifier = reference.identifier ∧
    use.access = reference.access ∧ use.Assigns settings.keys node

/-- What the walk records can make a global just if it assigns in sloppy code. -/
theorem exists_reference_of_recordsAt (hOk : analyze settings tree = .ok table)
    (h : RecordsAt settings tree.root id node use) :
    ∃ reference home, table.references[id]? = some reference ∧
      table.scopes[reference.scope]? = some home ∧ reference.identifier = use.identifier ∧
      reference.access = use.access ∧ ∀ source, reference.implicitGlobal = some source ↔
        source = node ∧ use.Assigns settings.keys node ∧ home.strict = false := by
  obtain ⟨begun, inMethod, rest, before, after, hVisit, hTasks, hIdentifier, rfl⟩ := h
  have hUse := hVisit.inside hTasks
  obtain ⟨frame, trail, hTrail⟩ := List.exists_cons_of_ne_nil (after_ne_nil hUse nofun)
  obtain ⟨home, hHome, hDescribes⟩ := describes_of_emit hOk hUse
    (setStrict_not_mem_inside hOk hVisit hTasks) (hTrail ▸ List.mem_cons_self)
  have hStrict := hDescribes.strict
  obtain ⟨reference, hFound, hSame, hScope⟩ :=
    (chronicle_of_analyze_eq_ok hOk).recordings.recorded _ (entry_mem_programLog hUse) frame use
      ⟨rfl, hIdentifier, by rw [hTrail]; rfl⟩
  have hNumber : (Numbered.after (begun ++ before.flatMap (Task.events settings))
      (.use use)).number =
        (begun ++ before.flatMap (Task.events settings)).countP Event.records := by
    simp [Numbered.after, Event.opens, Event.records, hIdentifier]
  rw [hNumber] at hFound
  have hTold : use.Told settings.keys node :=
    @Walker.told_of_mem_tasks { settings, inMethod } node use
      (hTasks ▸ List.mem_append_right _ List.mem_cons_self)
  refine ⟨reference, home, hFound, hScope ▸ hHome, ?_, ?_, fun source => ?_⟩
  · rw [hSame, Use.identifier_under]
  · rw [hSame]
    unfold Use.under
    split <;> rfl
  · rw [hSame, hStrict, ← and_assoc, ← hTold source]
    unfold Use.under
    split
    · next hStrict => simp [hStrict]
    · next hSloppy => simp [hSloppy]

/-- Every reference is recorded in the work at a node. -/
theorem exists_recordsAt (hOk : analyze settings tree = .ok table) {reference : Reference}
    (hFound : table.references[id]? = some reference) :
    ∃ node use, RecordsAt settings tree.root id node use := by
  obtain ⟨entry, hEntry, rfl, frame, use, hEvent, hIdentifier, -⟩ :=
    (chronicle_of_analyze_eq_ok hOk).recordings.known id reference hFound
  obtain ⟨past, future, event, hArrives, rfl⟩ := mem_programLog.1 hEntry
  cases hEvent
  cases hArrives with
  | program split =>
      rcases Walker.mem_program (split ▸ List.mem_append_right _ List.mem_cons_self) with
        hSimple | ⟨_, hTask⟩ | hTask | ⟨_, _, hTask⟩
      · exact hSimple.elim
      all_goals cases hTask
  | @inside begun rest inMethod node before after _ visit split =>
      refine ⟨node, use, begun, inMethod, rest, before, after, visit, split, hIdentifier, ?_⟩
      simp [Numbered.after, Event.opens, Event.records, hIdentifier]

/-- A reference can make a global just if it assigns in sloppy code. -/
theorem implicitGlobal_iff (hOk : analyze settings tree = .ok table) {reference : Reference}
    (hFound : table.references[id]? = some reference) :
    reference.implicitGlobal = some node ↔ AssignsSloppily settings tree.root table id node := by
  constructor
  · intro hMakes
    obtain ⟨source, use, hRecords⟩ := exists_recordsAt hOk hFound
    obtain ⟨same, home, hSame, hHome, hIdentifier, hAccess, hIff⟩ :=
      exists_reference_of_recordsAt hOk hRecords
    cases hSame.symm.trans hFound
    obtain ⟨rfl, hAssigns, hSloppy⟩ := (hIff node).1 hMakes
    exact ⟨reference, home, use, hFound, hHome, hSloppy, hRecords, hIdentifier.symm, hAccess.symm,
      hAssigns⟩
  · rintro ⟨other, home, use, hOther, hHome, hSloppy, hRecords, -, -, hAssigns⟩
    cases hOther.symm.trans hFound
    obtain ⟨same, place, hSame, hPlace, -, -, hIff⟩ := exists_reference_of_recordsAt hOk hRecords
    cases hSame.symm.trans hFound
    cases hPlace.symm.trans hHome
    exact (hIff node).2 ⟨rfl, hAssigns, hSloppy⟩

/-- What an assignment makes global is an identifier. -/
theorem isIdentifier_of_mem_leftAssignments (hOk : analyze settings tree = .ok table)
    {assignment : Node × Node} (h : assignment ∈ table.leftAssignments 0) :
    assignment.1.isIdentifier = true := by
  obtain ⟨-, -, hRooted, -⟩ := spec_of_analyze_eq_ok hOk
  obtain ⟨global, hGlobal, -⟩ := hRooted.global
  obtain ⟨id, -, reference, hReference, -, hIdentifier, -⟩ := (mem_leftAssignments hGlobal).1 h
  obtain ⟨source, use, hRecords⟩ := exists_recordsAt hOk hReference
  obtain ⟨same, _, hSame, -, hUse, -⟩ := exists_reference_of_recordsAt hOk hRecords
  cases hSame.symm.trans hReference
  obtain ⟨_, _, _, _, _, -, -, hNamed, -⟩ := hRecords
  rw [← hIdentifier, hUse, hNamed]

/-- What a variable lists has been resolved in a scope that finds the variable. -/
theorem Accounted.exists_lookup_of_mem (h : Accounted settings table) {var : VariableId}
    {declared : Variable} (hDeclared : table.variables[var]? = some declared)
    (hMem : id ∈ declared.references) :
    ∃ (scope : ScopeId) (owner : Scope) (reference : Reference),
      table.scopes[scope]? = some owner ∧ owner.pending = none ∧
      table.lookup? scope reference.identifier.name = some var := by
  have hCount : table.mentions var id ≠ 0 := by
    rw [mentions_of_getElem? hDeclared]
    exact Nat.ne_of_gt (Array.count_pos_iff.2 hMem)
  cases h id with
  | unknown _ foot | waiting _ _ _ _ _ _ foot | lost _ _ _ _ _ _ foot =>
      exact absurd (foot.listed var) hCount
  | resolved reference passed scope rest course owner at_owner closed found binds resolved foot =>
      rw [foot.listed, Ne, List.count_eq_zero, List.mem_singleton, not_not] at hCount
      subst hCount
      obtain ⟨same, entry, -, hLookup, -⟩ := exists_of_verdict_binds binds
      exact ⟨scope, owner, same, at_owner, closed, hLookup⟩

/-- No reference resolves to a variable that is not of a scope's own names. -/
theorem Accounted.references_eq_empty (h : Accounted settings table) (hPlaced : Placed table) {var : VariableId}
    {declared : Variable} (hDeclared : table.variables[var]? = some declared)
    (hOwn : ¬ table.Listed Scope.variables var) : declared.references = #[] := by
  refine Array.eq_empty_iff_forall_not_mem.2 fun id hMem => ?_
  obtain ⟨scope, owner, reference, -, -, hLookup⟩ := h.exists_lookup_of_mem hDeclared hMem
  obtain ⟨home, hHome, hListed⟩ := hPlaced.exists_scope_of_lookup? hLookup
  exact hOwn ⟨scope, home, hHome, hListed⟩

/-- What waits is not resolved. -/
theorem Accounted.unresolved_of_mem (h : Accounted settings table) {scope : ScopeId}
    {entry : Scope} (hEntry : table.scopes[scope]? = some entry) (hWaits : id ∈ entry.waiting) :
    ∃ reference, table.references[id]? = some reference ∧ reference.resolved = none := by
  obtain ⟨reference, passed, rest, course, unresolved, -⟩ :=
    (h id).exists_of_waits hEntry (Array.mem_toList_iff.2 hWaits)
  exact ⟨reference, course.found, unresolved⟩

/-- The names that a program makes global are told by what was left in its global
scope as that closed. -/
structure GlobalsOf (settings : Settings) (root : Node) (table : SymbolTable) (global : Scope) :
    Prop where
  /-- Only a write in sloppy code to a target of a plain assignment, or of the head
  of a loop, makes a global, and the node that makes it is the one that assigns. -/
  assigned : ∀ (id : ReferenceId) (reference : Reference), table.references[id]? = some reference →
    ∀ node, reference.implicitGlobal = some node ↔ AssignsSloppily settings root table id node
  /-- A name is made global just if such a write to it was left, and the global scope
  does not declare it. -/
  named : ∀ name, (table.lookupImplicit? 0 name).isSome = true ↔
    table.lookup? 0 name = none ∧ ∃ id ∈ global.implicitPending, ∃ reference node,
      table.references[id]? = some reference ∧ reference.identifier.name = name ∧
        AssignsSloppily settings root table id node
  /-- The names come in the order of the first such writes to them. -/
  listed : (global.implicitVariables.toList.map fun var => table.variables[var]?.map Variable.name) =
    ((table.leftAssignments 0).map fun assignment => assignment.1.name).eraseDups.map some
  /-- Each is defined by all the writes to it, and nothing resolves to it. -/
  defined : ∀ var ∈ global.implicitVariables, ∃ declared, table.variables[var]? = some declared ∧
    (declared.definitions.toList.map fun definition => (definition.name, definition.node)) =
      ((table.leftAssignments 0).filter fun assignment => assignment.1.name = declared.name) ∧
    declared.references = #[]
  /-- What was left of its name is unresolved, and has passed through. -/
  unresolved : ∀ id ∈ global.implicitPending, ∀ reference, table.references[id]? = some reference →
    (table.lookupImplicit? 0 reference.identifier.name).isSome = true →
      reference.resolved = none ∧ id ∈ global.through

/-- An assignment is left for a name just if a write to it that makes a global is, and the global
scope does not declare the name. -/
theorem exists_leftAssignment_iff (hOk : analyze settings tree = .ok table)
    (hGlobal : table.scopes[(0 : ScopeId)]? = some global) (name : String) :
    (∃ found ∈ table.leftAssignments 0, found.1.name = name) ↔
      table.lookup? 0 name = none ∧ ∃ id ∈ global.implicitPending, ∃ reference node,
        table.references[id]? = some reference ∧ reference.identifier.name = name ∧
          AssignsSloppily settings tree.root table id node := by
  constructor
  · rintro ⟨found, hFound, rfl⟩
    obtain ⟨id, hId, reference, hReference, hMakes, hIdentifier, hUnknown⟩ :=
      (mem_leftAssignments hGlobal).1 hFound
    exact ⟨hUnknown, id, hId, reference, found.2, hReference, by rw [hIdentifier],
      (implicitGlobal_iff hOk hReference).1 hMakes⟩
  · rintro ⟨hUnknown, id, hId, reference, node, hReference, rfl, hAssigns⟩
    exact ⟨(reference.identifier, node), (mem_leftAssignments hGlobal).2 ⟨id, hId, reference,
      hReference, (implicitGlobal_iff hOk hReference).2 hAssigns, rfl, hUnknown⟩, rfl⟩

/-- What waits in a scope that does not declare its name is unresolved after the scope closes. -/
theorem Accounted.unresolved_of_close {before : SymbolTable} {scope : ScopeId} {entry : Scope}
    (h : Accounted settings before) (hNested : Nested before [scope])
    (hClose : before.close settings scope = .ok table) (hEntry : before.scopes[scope]? = some entry)
    (hWaits : id ∈ entry.waiting) {reference : Reference} (hFound : table.references[id]? = some reference)
    (hUnknown : table.lookup? scope reference.identifier.name = none) : reference.resolved = none := by
  obtain ⟨waiting, hWaiting, hStill⟩ := h.unresolved_of_mem hEntry hWaits
  have hUse := getElem?_references_close hNested hClose id
  rw [hWaiting, hFound, Option.map_some, Option.map_some, Option.some.injEq] at hUse
  obtain ⟨same, hSame, hResolved⟩ := resolved_close hNested hClose hWaiting
    (by rw [← hUse, ← lookup?_close hNested hClose, hUnknown])
  cases hSame.symm.trans hFound
  rw [hResolved, hStill]

/-- Whatever is unresolved in the end has passed through the global scope. -/
theorem mem_through_of_unresolved (hOk : analyze settings tree = .ok table)
    (hGlobal : table.scopes[(0 : ScopeId)]? = some global) {reference : Reference}
    (hFound : table.references[id]? = some reference) (hUnresolved : reference.resolved = none) :
    id ∈ global.through := by
  obtain ⟨-, hNested, hRooted, -⟩ := spec_of_analyze_eq_ok hOk
  have hHeld := (settled_of_analyze_eq_ok hOk hFound).heldOnce hNested.toPlaced
  rcases hHeld.count_through_root hGlobal
    (hRooted.zero_mem_enclosing hNested.upper_lt hHeld.placed) with ⟨-, hOnce⟩ | ⟨hResolved, -⟩
  · exact Array.count_pos_iff.1 (hOnce ▸ Nat.one_pos)
  · exact absurd hUnresolved hResolved

/-- The implicit globals of every program are determined by the references that
were left in its global scope. -/
theorem implicitVariables_determined (hOk : analyze settings tree = .ok table) :
    ∃ global, table.globalScope = some 0 ∧ table.scopes[(0 : ScopeId)]? = some global ∧
      GlobalsOf settings tree.root table global := by
  obtain ⟨-, hNested, hRooted, -⟩ := spec_of_analyze_eq_ok hOk
  have hNamed := (chronicle_of_analyze_eq_ok hOk).named
  have hAccounted := accounted_of_analyze_eq_ok hOk
  -- What is left, and what is made of it, is settled as the global scope closes.
  obtain ⟨before, entry, hBefore, hWaits, hEntry, hKind, hNone, hClose⟩ :=
    exists_globalClose hOk
  obtain ⟨⟨hNames, hPairs⟩, global, hGlobal, hLeft⟩ :=
    makesGlobals_close hBefore hEntry hKind hNone hClose fun _ =>
      isIdentifier_of_mem_leftAssignments hOk
  have hMade : ∀ name, (table.lookupImplicit? 0 name).isSome = true ↔
      ∃ found ∈ table.leftAssignments 0, found.1.name = name := by
    intro name
    have hLookup := @isSome_lookupIn_iff table 0 Scope.implicitVariables name
    rw [hNames, List.mem_map_of_injective (Option.some_injective _), List.mem_eraseDups,
      List.mem_map] at hLookup
    rw [hNested.lookupImplicit?_eq]
    exact hLookup
  refine ⟨global, hRooted.globalScope, hGlobal, fun id reference hFound node =>
    implicitGlobal_iff hOk hFound, fun name => ?_, ?_, fun var hVar => ?_,
    fun id hId reference hFound hMakes => ?_⟩
  · rw [hMade, exists_leftAssignment_iff hOk hGlobal]
  · rw [← hNames, namesIn_of_getElem? hGlobal]
  · obtain ⟨declared, hDeclared, -⟩ := hNested.homes_implicit 0 global hGlobal var hVar
    refine ⟨declared, hDeclared, ?_, hAccounted.references_eq_empty hNested.toPlaced hDeclared fun hOwn =>
      hNamed.apart var hOwn ⟨0, global, hGlobal, hVar⟩⟩
    rw [← hPairs, namingIn, hNamed.others.found 0 global hGlobal var hVar declared hDeclared,
      Option.bind_some, hDeclared]
    rfl
  · obtain ⟨found, hFoundLeft, hName⟩ := (hMade _).1 hMakes
    obtain ⟨-, -, -, -, -, -, hUnknown⟩ := (mem_leftAssignments hGlobal).1 hFoundLeft
    rw [hName] at hUnknown
    have hUnresolved := hWaits.unresolved_of_close hBefore hClose hEntry (hLeft ▸ hId) hFound hUnknown
    exact ⟨hUnresolved, mem_through_of_unresolved hOk hGlobal hFound hUnresolved⟩

/-- The program `b = c; for (a of c); [b] = c; var d; d = c; e += c`. -/
def sloppyAssignments : Tree where
  root := {
    location := []
    kind := "Program"
    entries := [("type", .string "Program"), ("body", .array [
      assignment "=" (identifier "b"),
      .object [("type", .string "ForOfStatement"), ("left", identifier "a"),
        ("right", identifier "c"), ("body", .object [("type", .string "EmptyStatement")])],
      assignment "=" (.object [("type", .string "ArrayPattern"),
        ("elements", .array [identifier "b"])]),
      .object [("type", .string "VariableDeclaration"), ("kind", .string "var"),
        ("declarations", .array [.object [("type", .string "VariableDeclarator"),
          ("id", identifier "d")]])],
      assignment "=" (identifier "d"),
      assignment "+=" (identifier "e")])] }
where
  identifier (name : String) : Json :=
    .object [("type", .string "Identifier"), ("name", .string name)]
  assignment (operator : String) (left : Json) : Json :=
    .object [("type", .string "ExpressionStatement"), ("expression", .object [
      ("type", .string "AssignmentExpression"), ("operator", .string operator), ("left", left),
      ("right", identifier "c")])]

/-- What the program assigns to and does not declare is made global, in order. -/
theorem implicitVariables_determined_sloppyAssignments :
    ∃ table global, analyze ⟨{}, 9⟩ sloppyAssignments = .ok table ∧
      table.namesIn Scope.implicitVariables 0 = [some "b", some "a"] ∧
      table.globalScope = some 0 ∧ table.scopes[(0 : ScopeId)]? = some global ∧
      GlobalsOf ⟨{}, 9⟩ sloppyAssignments.root table global := by
  have hAnalyze : (analyze ⟨{}, 9⟩ sloppyAssignments).toOption.map
      (fun table => table.namesIn Scope.implicitVariables 0) = some [some "b", some "a"] := by
    decide +kernel
  obtain ⟨table, hOk, hNames⟩ := exists_of_map_toOption _ hAnalyze
  obtain ⟨global, hGlobal⟩ := implicitVariables_determined hOk
  exact ⟨table, global, hOk, hNames, hGlobal⟩

end Scoping.SymbolTable
