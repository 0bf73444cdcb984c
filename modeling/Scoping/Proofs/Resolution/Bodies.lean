import Scoping.Proofs.Chronicle.Endings
import Scoping.Proofs.Nesting.Mirror
import Scoping.Proofs.Placement.Definitions
import Scoping.Proofs.Resolution.Finished
import Scoping.Proofs.Walk.Holders

/-! The parameters of a function do not see what only its body declares. A scope
notes where the body begins by two numbers. They are those of the table with which
the walk comes to the body, so that the rule can be told by the walk alone: a
reference has been recorded by then, and a name has no definition yet. -/

namespace Scoping

/-- The walk of a program comes to the body of a function, with this table. The
scope of the function is the current one. -/
inductive ComesToBody (settings : Settings) (root : Node) (scope : ScopeId) (table : SymbolTable) :
    Prop where
  | function {past future : List Event} {inMethod : Bool} {node body : Node}
      {before after : List Task} (visit : Arrives settings root past (.visit inMethod node) future)
      (role : Role.ofKind node.kind = .function) (child : node.child? "body" = some body)
      (tasks : Walker.tasks { settings, inMethod } node = before ++ .visit inMethod body :: after)
      (run : ({} : SymbolTable).run settings (past ++ before.flatMap (Task.events settings)) =
        .ok table)
      (current : table.current = .ok scope) :
      ComesToBody settings root scope table

/-- The events of a function before its body begins, after some others. -/
def upToBody (settings : Settings) (opened : List Event) (inMethod : Bool) (node : Node) :
    List Event :=
  opened ++ .enter .function node inMethod ::
    (Walker.defineParameters { settings, inMethod } node).flatMap (Task.events settings)

variable {settings : Settings} {root node body : Node} {past opened future : List Event}
  {inMethod : Bool}

namespace Walker

variable {walker : Walker} {before after : List Task}

theorem tasks_of_function (hRole : Role.ofKind node.kind = .function)
    (hBody : node.child? "body" = some body) :
    walker.tasks node = (functionHead node ++ .emit (.enter .function node walker.inMethod) ::
      (walker.defineParameters node ++ [.emit .bodyStart])) ++
        .visit walker.inMethod body :: [.emit (.leave node)] := by
  rw [tasks, hRole]
  simp [defineFunction_eq, visitRequired, required, hBody, visit]

/-- The parameters of a function do not lead to its body. -/
theorem body_not_mem_visits (hBody : node.child? "body" = some body) :
    body ∉ Task.visits (walker.defineParameters node) := by
  intro hMem
  rw [visits_defineParameters] at hMem
  have hThere : node.location.InFields ["params"] body.location :=
    (Node.branches_flatMap_children fun parameter _ =>
      Pattern.branches_evaluatedIn walker.settings.keys parameter).here body hMem
  have hHere := Location.inFields_singleton.2 (Node.below_field_of_child? hBody)
  exact (hThere.apart hHere (by decide)).1 (List.suffix_refl _)

/-- The visit of the body comes right after the parameters. -/
theorem eq_of_split_body (hRole : Role.ofKind node.kind = .function)
    (hBody : node.child? "body" = some body)
    (hSplit : walker.tasks node = before ++ .visit walker.inMethod body :: after) :
    before = functionHead node ++ .emit (.enter .function node walker.inMethod) ::
      (walker.defineParameters node ++ [.emit .bodyStart]) := by
  refine (eq_of_append_cons_eq ((tasks_of_function hRole hBody).symm.trans hSplit) ?_ ?_).1
  · intro hMem
    have hVisit := Task.mem_visits.2 ⟨_, hMem⟩
    rw [Task.visits_append, visits_functionHead] at hVisit
    exact body_not_mem_visits hBody (by simpa using hVisit)
  · simp

theorem bodyStart_not_mem_of_neutral {tasks : List Task} (h : Neutral node tasks) :
    .emit .bodyStart ∉ tasks :=
  fun hMem => h _ hMem

/-- The parameters of a function are all that comes between its scope and its body. -/
theorem eq_of_split_bodyStart
    (hSplit : walker.defineFunction node = before ++ .emit .bodyStart :: after) :
    before = functionHead node ++ .emit (.enter .function node walker.inMethod) ::
        walker.defineParameters node ∧
      after = walker.visitRequired node "body" ++ [.emit (.leave node)] := by
  have hHead : .emit .bodyStart ∉ functionHead node := fun hMem => by
    rcases List.mem_append.1 hMem with hName | hScope
    · exact bodyStart_not_mem_of_neutral neutral_functionName hName
    · split at hScope <;> simp at hScope
  rw [defineFunction_eq, ← List.cons_append, ← List.append_assoc] at hSplit
  refine eq_of_append_cons_eq hSplit ?_ ?_
  · simp [hHead, bodyStart_not_mem_of_neutral neutral_defineParameters]
  · simp [bodyStart_not_mem_of_neutral neutral_visitRequired]

end Walker

theorem clear_functionHead (hClear : (Trail.after settings past).Clear node) :
    (Trail.after settings
      (past ++ (Walker.functionHead node).flatMap (Task.events settings))).Clear node := by
  have hName := Trail.after_append_of_neutral Walker.neutral_functionName hClear
  rw [Walker.functionHead, List.flatMap_append, ← List.append_assoc]
  by_cases hNamed : (node.kind = "FunctionExpression" && (node.child? "id").isSome) = true
  · rw [if_pos hNamed, List.flatMap_singleton, Task.events_emit, Trail.after_concat, hName]
    exact hClear.cons rfl
  · rw [if_neg hNamed, List.flatMap_nil, List.append_nil, hName]
    exact hClear

/-- As the body begins, the scope of the function is the current one. -/
theorem current?_upToBody (hClear : (Trail.after settings opened).Clear node) :
    (Trail.after settings (upToBody settings opened inMethod node)).current? =
      some (opened.countP Event.opens) := by
  rw [upToBody, List.append_cons, Trail.after_append_of_neutral Walker.neutral_defineParameters]
  · rw [Trail.after_concat]
    rfl
  · rw [Trail.after_concat]
    exact hClear.cons rfl

theorem flatMap_events_head (past : List Event) :
    past ++ (Walker.functionHead node ++ Task.emit (.enter .function node inMethod) ::
        Walker.defineParameters { settings, inMethod } node).flatMap (Task.events settings) =
      upToBody settings (past ++ (Walker.functionHead node).flatMap (Task.events settings)) inMethod
        node := by
  rw [upToBody, List.flatMap_append, List.flatMap_cons, Task.events_emit, List.singleton_append,
    List.append_assoc]

theorem flatMap_events_untilBody (past : List Event) :
    past ++ (Walker.functionHead node ++ Task.emit (.enter .function node inMethod) ::
        (Walker.defineParameters { settings, inMethod } node ++ [Task.emit .bodyStart])).flatMap
          (Task.events settings) =
      upToBody settings (past ++ (Walker.functionHead node).flatMap (Task.events settings)) inMethod
        node ++ [.bodyStart] := by
  rw [← flatMap_events_head, ← List.cons_append, ← List.append_assoc, List.flatMap_append,
    List.flatMap_singleton, Task.events_emit, List.append_assoc]

/-- Only as the walk visits a function, a body begins. -/
theorem exists_visit_of_bodyStart (h : Arrives settings root past (.emit .bodyStart) future) :
    ∃ begun inMethod node rest, Arrives settings root begun (.visit inMethod node) rest ∧
      Role.ofKind node.kind = .function ∧
      past = upToBody settings
        (begun ++ (Walker.functionHead node).flatMap (Task.events settings)) inMethod node := by
  rcases (tracks_stands settings root).emit h nofun with hProgram |
    ⟨begun, inMethod, node, rest, before, after, hVisit, hSplit, hPast, -, hRole⟩
  · rcases Walker.mem_program hProgram with hSimple | ⟨_, hTask⟩ | hTask | ⟨_, -, hTask⟩
    · exact hSimple.elim
    all_goals cases hTask
  · refine ⟨begun, inMethod, node, rest, hVisit, hRole, ?_⟩
    rw [Walker.tasks, (hRole : Role.ofKind node.kind = .function)] at hSplit
    obtain ⟨rfl, -⟩ := Walker.eq_of_split_bodyStart hSplit
    rw [hPast, flatMap_events_head]

namespace SymbolTable

/-- The body of the function of a scope begins after these of the events, with this
table. -/
structure BodyBegins (settings : Settings) (events past : List Event) (scope : ScopeId)
    (table : SymbolTable) : Prop where
  begins : ∃ future, events = past ++ .bodyStart :: future
  run : ({} : SymbolTable).run settings past = .ok table
  current : table.current = .ok scope

variable {table earlier next : SymbolTable} {tree : Tree} {scope : ScopeId} {owner : Scope}
  {event : Event} {start : BodyStart} {id : ReferenceId} {var : VariableId} {declared : Variable}

/-- The scope in which a body begins has the number of those that opened before it. -/
theorem BodyBegins.exists_visit (h : BodyBegins settings (programEvents settings root) past scope table) :
    ∃ opened inMethod node, Role.ofKind node.kind = .function ∧
      past = upToBody settings opened inMethod node ∧ opened.countP Event.opens = scope := by
  obtain ⟨future, hEvents⟩ := h.begins
  obtain ⟨begun, inMethod, node, rest, hVisit, hRole, rfl⟩ :=
    exists_visit_of_bodyStart (arrives_of_events hEvents)
  refine ⟨_, inMethod, node, hRole, rfl, ?_⟩
  have hCurrent := (follows_after h.run).current_eq_ok.1 h.current
  rw [current?_upToBody (clear_functionHead hVisit.clear)] at hCurrent
  exact Option.some.inj hCurrent

/-- A list of events comes to each number of open scopes once. -/
theorem eq_of_countP_opens {events first second : List Event} {one other : Event} {rest more : List Event}
    (hFirst : events = first ++ one :: rest) (hSecond : events = second ++ other :: more)
    (hOne : one.opens = true) (hOther : other.opens = true)
    (hCount : first.countP Event.opens = second.countP Event.opens) :
    first = second ∧ one = other := by
  rcases cases_of_append_cons_eq (hFirst.symm.trans hSecond) with
    ⟨middle, rfl, -⟩ | hSame | ⟨middle, rfl, -⟩
  · rw [List.countP_append, List.countP_cons_of_pos hOther] at hCount
    exact absurd hCount (by omega)
  · exact hSame
  · rw [List.countP_append, List.countP_cons_of_pos hOne] at hCount
    exact absurd hCount (by omega)

/-- In each scope at most one body begins. -/
theorem BodyBegins.unique {later : List Event}
    (h : BodyBegins settings (programEvents settings root) past scope table)
    (hOther : BodyBegins settings (programEvents settings root) later scope next) : next = table := by
  obtain ⟨opened, inMethod, node, -, rfl, hCount⟩ := h.exists_visit
  obtain ⟨again, flag, other, -, rfl, hSame⟩ := hOther.exists_visit
  obtain ⟨rest, hEvents⟩ := h.begins
  obtain ⟨more, hMore⟩ := hOther.begins
  simp only [upToBody, List.append_assoc, List.cons_append] at hEvents hMore
  obtain ⟨rfl, hEvent⟩ := eq_of_countP_opens hEvents hMore rfl rfl (hCount.trans hSame.symm)
  obtain ⟨-, rfl, rfl⟩ := Event.enter.inj hEvent
  exact Except.ok.inj (hOther.run.symm.trans h.run)

/-- Where a walk ends well, each function that it visits has a body. -/
theorem exists_body_of_visit
    (hOk : ({} : SymbolTable).run settings (programEvents settings root) = .ok next)
    (hVisit : Arrives settings root past (.visit inMethod node) future)
    (hRole : Role.ofKind node.kind = .function) : ∃ body, node.child? "body" = some body := by
  cases hBody : node.child? "body" with
  | some body => exact ⟨body, rfl⟩
  | none =>
      have hTasks : Walker.tasks { settings, inMethod } node = (Walker.functionHead node ++
          .emit (.enter .function node inMethod) ::
            (Walker.defineParameters { settings, inMethod } node ++ [.emit .bodyStart])) ++
          .emit (.fail (.missingField node.kind "body")) :: [.emit (.leave node)] := by
        rw [Walker.tasks, hRole]
        simp [Walker.defineFunction_eq, Walker.visitRequired, Walker.required, hBody]
      have hEvents := (hVisit.inside hTasks).events_eq
      have hNone : .fail (.missingField node.kind "body") ∉ programEvents settings root :=
        fail_not_mem_of_run hOk
      rw [hEvents] at hNone
      exact absurd (List.mem_append_right _ List.mem_cons_self) hNone

/-- The walk comes to the body of a function right after the body has begun. -/
theorem comesToBody_iff (hOk : ({} : SymbolTable).run settings (programEvents settings root) =
    .ok next) : ComesToBody settings root scope table ↔ ∃ past earlier,
      BodyBegins settings (programEvents settings root) past scope earlier ∧
        table = earlier.markBodyStart scope := by
  constructor
  · intro hComes
    cases hComes with
    | @function begun future inMethod node body before after visit role child tasks run current =>
        obtain rfl := Walker.eq_of_split_body role child tasks
        rw [flatMap_events_untilBody] at run
        obtain ⟨earlier, hEarlier, hLast⟩ := exists_run_of_append run
        obtain ⟨marked, hMarked, hEnd⟩ := exists_of_bind_ok hLast
        obtain ⟨home, hHome, hMark⟩ := exists_of_bind_ok hMarked
        cases hEnd
        cases hMark
        obtain rfl : scope = home := Except.ok.inj (current.symm.trans hHome)
        refine ⟨_, earlier, ⟨?_, hEarlier, hHome⟩, rfl⟩
        have hTasks : Walker.tasks { settings, inMethod } node =
            (Walker.functionHead node ++ .emit (.enter .function node inMethod) ::
              Walker.defineParameters { settings, inMethod } node) ++ .emit .bodyStart ::
                .visit inMethod body :: after := by
          rw [tasks]
          simp
        have hEvents := (visit.inside hTasks).events_eq
        rw [flatMap_events_head] at hEvents
        exact ⟨_, hEvents⟩
  · rintro ⟨past, earlier, hBegins, rfl⟩
    obtain ⟨future, hEvents⟩ := hBegins.begins
    obtain ⟨begun, inMethod, node, rest, hVisit, hRole, rfl⟩ :=
      exists_visit_of_bodyStart (arrives_of_events hEvents)
    obtain ⟨body, hBody⟩ := exists_body_of_visit hOk hVisit hRole
    refine .function hVisit hRole hBody (Walker.tasks_of_function hRole hBody) ?_ hBegins.current
    rw [flatMap_events_untilBody]
    refine run_concat hBegins.run ?_
    rw [apply, hBegins.current]
    rfl

theorem BodyBegins.append {events : List Event} (h : BodyBegins settings events past scope table)
    (more : List Event) : BodyBegins settings (events ++ more) past scope table := by
  obtain ⟨future, rfl⟩ := h.begins
  exact ⟨⟨future ++ more, by simp⟩, h.run, h.current⟩

/-- A body that has begun with one more event has begun before, or begins with it. -/
theorem BodyBegins.of_concat (h : BodyBegins settings (past ++ [event]) opened scope table) :
    BodyBegins settings past opened scope table ∨ event = .bodyStart ∧ opened = past := by
  obtain ⟨future, hEvents⟩ := h.begins
  rcases List.eq_nil_or_concat future with rfl | ⟨more, last, rfl⟩
  · obtain ⟨hPast, hEvent⟩ := List.append_inj' hEvents rfl
    exact .inr ⟨(List.cons.inj hEvent).1, hPast.symm⟩
  · rw [List.concat_eq_append, ← List.cons_append, ← List.append_assoc] at hEvents
    exact .inl ⟨⟨more, (List.append_inj' hEvents rfl).1⟩, h.run, h.current⟩

theorem BodyBegins.lt_size {events : List Event} (h : BodyBegins settings events past scope earlier)
    (hOk : ({} : SymbolTable).run settings events = .ok table) : scope < table.scopes.size := by
  obtain ⟨future, rfl⟩ := h.begins
  obtain ⟨found, hFound, hRest⟩ := exists_run_of_append hOk
  cases hFound.symm.trans h.run
  have hNested := (follows_after h.run).nested
  obtain ⟨entry, hEntry⟩ := hNested.exists_of_mem (mem_of_current_eq_ok h.current)
  rw [(sizes_run hNested hRest).1]
  exact Nat.lt_of_lt_of_le (lt_of_getElem?_scopes hEntry) (Nat.le_add_right _ _)

/-- What a function notes of its body is how large the table is as the body begins. It
notes that if the body begins at all. -/
theorem bodyStart_of_run (hOk : ({} : SymbolTable).run settings past = .ok table)
    (hOwner : table.scopes[scope]? = some owner) (hKind : owner.kind = .function) :
    (∀ start, owner.bodyStart = some start → ∃ before earlier,
        BodyBegins settings past before scope earlier ∧
          start = ⟨earlier.references.size, earlier.definitionCount⟩) ∧
      ∀ before earlier, BodyBegins settings past before scope earlier →
        owner.bodyStart.isSome = true := by
  -- The last event decides: it opens the scope, marks it, or leaves the mark that it has.
  induction past using List.reverseRecOn generalizing table owner with
  | nil =>
      cases hOk
      simp at hOwner
  | append_singleton past event ih =>
      obtain ⟨middle, hMiddle, hLast⟩ := exists_run_of_append hOk
      obtain ⟨next, hNext, hEnd⟩ := exists_of_bind_ok hLast
      cases hEnd
      have hFollows := follows_after hMiddle
      rcases exists_before hFollows hNext hOwner with ⟨before, hBefore, hChanges⟩ |
        ⟨rfl, kind, block, inMethod, strict, rfl, hFresh⟩
      · obtain ⟨hNotes, hSome⟩ := ih hMiddle hBefore (hChanges.kind ▸ hKind)
        rcases hChanges.bodyStart with ⟨hSame, hOther⟩ | ⟨hNew, rfl, hCurrent, -⟩
        · rw [hSame]
          refine ⟨fun start hStart => ?_, fun opened earlier hBegins => ?_⟩
          · obtain ⟨opened, earlier, hBegins, hSizes⟩ := hNotes start hStart
            exact ⟨opened, earlier, hBegins.append _, hSizes⟩
          · rcases hBegins.of_concat with hOld | ⟨hEvent, rfl⟩
            · exact hSome opened earlier hOld
            · refine absurd ⟨hEvent, ?_, hChanges.kind ▸ hKind⟩ hOther
              cases hBegins.run.symm.trans hMiddle
              exact hFollows.current_eq_ok.1 hBegins.current
        · rw [hNew]
          refine ⟨fun start hStart => ⟨past, middle, ⟨⟨[], rfl⟩, hMiddle,
            hFollows.current_eq_ok.2 hCurrent⟩, (Option.some.inj hStart).symm⟩, fun _ _ _ => rfl⟩
      · rw [hFresh]
        refine ⟨nofun, fun opened earlier hBegins => ?_⟩
        rcases hBegins.of_concat with hOld | ⟨hEvent, -⟩
        · exact absurd (hOld.lt_size hMiddle) (Nat.lt_irrefl _)
        · cases hEvent

/-- The scope in which a body begins is that of a function which the program has. -/
theorem BodyBegins.exists_function (hOk : analyze settings tree = .ok table)
    (h : BodyBegins settings (programEvents settings tree.root) past scope earlier) :
    ∃ owner, table.scopes[scope]? = some owner ∧ owner.kind = .function ∧
      owner.block.kind ≠ "Program" := by
  have hLt := h.lt_size (spec_of_analyze_eq_ok hOk).2.2.2
  obtain ⟨opened, inMethod, node, hRole, rfl, hNumber⟩ := h.exists_visit
  obtain ⟨future, hEvents⟩ := h.begins
  have hOwner := Array.getElem?_eq_getElem hLt
  obtain ⟨past, rest, told, hArrives, hCount⟩ := exists_opening hOk hOwner
  simp only [upToBody, List.append_assoc, List.cons_append] at hEvents
  obtain ⟨-, hEvent⟩ :=
    eq_of_countP_opens hArrives.events_eq hEvents rfl rfl (hCount.trans hNumber.symm)
  obtain ⟨hKind, hBlock, -⟩ := Event.enter.inj hEvent
  refine ⟨_, hOwner, hKind, fun hProgram => ?_⟩
  rw [hBlock] at hProgram
  rw [hProgram] at hRole
  cases hRole

/-- What a function notes of its body is how large the table is as the walk comes to it. -/
theorem bodyStart_eq_some_iff (hOk : analyze settings tree = .ok table)
    (hOwner : table.scopes[scope]? = some owner) (hKind : owner.kind = .function) :
    owner.bodyStart = some start ↔ ∃ middle, ComesToBody settings tree.root scope middle ∧
      start = ⟨middle.references.size, middle.definitionCount⟩ := by
  have hRun := (spec_of_analyze_eq_ok hOk).2.2.2
  obtain ⟨hNotes, hSome⟩ := bodyStart_of_run hRun hOwner hKind
  constructor
  · intro hStart
    obtain ⟨past, earlier, hBegins, hSizes⟩ := hNotes start hStart
    exact ⟨_, (comesToBody_iff hRun).2 ⟨past, earlier, hBegins, rfl⟩, hSizes⟩
  · rintro ⟨middle, hComes, rfl⟩
    obtain ⟨past, earlier, hBegins, rfl⟩ := (comesToBody_iff hRun).1 hComes
    obtain ⟨start, hStart⟩ := Option.isSome_iff_exists.1 (hSome past earlier hBegins)
    obtain ⟨again, other, hOther, rfl⟩ := hNotes start hStart
    rw [hStart, hBegins.unique hOther]
    rfl

/-- A later table has the same definitions under the numbers that were given out. -/
structure KeepsDefinitions (earlier later : SymbolTable) : Prop where
  count : earlier.definitionCount ≤ later.definitionCount
  mem_iff : ∀ var definition, definition ∈ earlier.definitionsOf var ↔
    definition ∈ later.definitionsOf var ∧ definition.serial < earlier.definitionCount

theorem KeepsDefinitions.congr (h : KeepsDefinitions earlier table)
    (hDefinitions : ∀ var, next.definitionsOf var = table.definitionsOf var)
    (hCount : next.definitionCount = table.definitionCount) : KeepsDefinitions earlier next :=
  ⟨hCount ▸ h.count, fun var definition => hDefinitions var ▸ h.mem_iff var definition⟩

/-- A new definition gets a number that has not been given out. -/
theorem KeepsDefinitions.addDefinition (h : KeepsDefinitions earlier table)
    (hVar : ∃ declared, table.variables[var]? = some declared) (identifier : Node)
    (definition : Definition) :
    KeepsDefinitions earlier (table.addDefinition var identifier definition) where
  count := Nat.le_succ_of_le h.count
  mem_iff := fun other found => by
    rw [h.mem_iff, mem_definitionsOf_addDefinition hVar, or_and_right, or_iff_left]
    rintro ⟨⟨-, rfl⟩, hLt⟩
    exact Nat.not_le_of_lt hLt h.count

theorem keepsDefinitions_apply (h : KeepsDefinitions earlier table)
    (hNested : Nested table table.stack) (hOk : table.apply settings event = .ok next) :
    KeepsDefinitions earlier next := by
  by_cases hEnd : ∃ node, event = .endDeclaration node
  · obtain ⟨node, rfl⟩ := hEnd
    cases hOk
    have hNotes := notesEnds_endDeclaration table node
    exact h.congr hNotes.definitionsOf hNotes.definitionCount
  · exact ledger_apply (P := KeepsDefinitions earlier) (Q := fun _ => True)
      (fun _ _ hSame hTable => hTable.congr hSame.definitionsOf hSame.definitionCount)
      (fun _ _ identifier definition _ hVar hTable =>
        hTable.addDefinition hVar identifier definition)
      hNested h (fun node hEq => hEnd ⟨node, hEq⟩) (fun _ _ => trivial) hOk

theorem keepsDefinitions_of_run {more : List Event}
    (hBegun : ({} : SymbolTable).run settings past = .ok earlier)
    (hOk : earlier.run settings more = .ok table) : KeepsDefinitions earlier table :=
  (run_induction (P := KeepsDefinitions earlier)
    (fun _ _ _ hNested hTable hApply => keepsDefinitions_apply hTable hNested hApply)
    (follows_after hBegun).nested
    ⟨Nat.le_refl _, fun var definition => (and_iff_left_of_imp
      ((ledgered_of_run hBegun).bounded var definition)).symm⟩ hOk).2

/-- A name has no definition in a table if all that it gets have later numbers. -/
theorem KeepsDefinitions.definitionsOf_eq_empty_iff (h : KeepsDefinitions earlier table) :
    earlier.definitionsOf var = #[] ↔
      ∀ definition ∈ table.definitionsOf var, earlier.definitionCount ≤ definition.serial := by
  simp only [Array.eq_empty_iff_forall_not_mem, h.mem_iff, not_and, Nat.not_lt]

/-- A name is defined only in the body of a function, and a reference has been
recorded before the walk comes to that body. -/
def HiddenByBody (settings : Settings) (root : Node) (table : SymbolTable) (scope : ScopeId)
    (id : ReferenceId) (var : VariableId) : Prop :=
  ∃ middle, ComesToBody settings root scope middle ∧ id < middle.references.size ∧
    table.definitionsOf var ≠ #[] ∧ middle.definitionsOf var = #[]

/-- What a scope tells by the numbers that it has noted is so by the walk. -/
theorem hidesUntilBody_iff_hiddenByBody (hOk : analyze settings tree = .ok table)
    (hOwner : table.scopes[scope]? = some owner) (hDeclared : table.variables[var]? = some declared) :
    owner.HidesUntilBody id declared ↔ table.HiddenByBody settings tree.root scope id var := by
  have hRun := (spec_of_analyze_eq_ok hOk).2.2.2
  have hKeeps : ∀ {middle}, ComesToBody settings tree.root scope middle →
      KeepsDefinitions middle table := fun hComes => by
    obtain ⟨past, earlier, hBegins, rfl⟩ := (comesToBody_iff hRun).1 hComes
    obtain ⟨future, hEvents⟩ := hBegins.begins
    rw [hEvents] at hRun
    obtain ⟨found, hFound, hRest⟩ := exists_run_of_append hRun
    cases hFound.symm.trans hBegins.run
    have hEarlier := keepsDefinitions_of_run hBegins.run hRest
    exact ⟨hEarlier.count, hEarlier.mem_iff⟩
  rw [Scope.HidesUntilBody, ← definitionsOf_of_getElem? hDeclared]
  constructor
  · rintro ⟨hKind, hProgram, start, hStart, hEarly, hSome, hLate⟩
    obtain ⟨middle, hComes, rfl⟩ := (bodyStart_eq_some_iff hOk hOwner hKind).1 hStart
    exact ⟨middle, hComes, hEarly, hSome, (hKeeps hComes).definitionsOf_eq_empty_iff.2 hLate⟩
  · rintro ⟨middle, hComes, hEarly, hSome, hNone⟩
    obtain ⟨past, earlier, hBegins, -⟩ := (comesToBody_iff hRun).1 hComes
    obtain ⟨same, hSame, hKind, hProgram⟩ := hBegins.exists_function hOk
    cases hSame.symm.trans hOwner
    exact ⟨hKind, hProgram, _, (bodyStart_eq_some_iff hOk hOwner hKind).2 ⟨middle, hComes, rfl⟩,
      hEarly, hSome, (hKeeps hComes).definitionsOf_eq_empty_iff.1 hNone⟩

/-- What a reference means does not depend on when it was resolved: it is what
one search outward finds in the finished table. The scopes around a scope fall
in number, so that the search goes all the way out. A scope lets out a name of its
own just if only the body of its function defines it, and the walk comes to that body
after the reference. -/
theorem resolved_eq_meaning (hOk : analyze settings tree = .ok table) :
    table.UppersFall ∧
    (∀ (id : ReferenceId) (reference : Reference), table.references[id]? = some reference →
      reference.resolved = table.meaning settings id (table.enclosing reference.scope)) ∧
    ∀ (scope : ScopeId) (owner : Scope) (name : String) (var : VariableId) (declared : Variable)
      (id : ReferenceId), table.scopes[scope]? = some owner →
        table.ownVariable? scope name = some (var, declared) →
          (owner.HidesUntilBody id declared ↔ table.HiddenByBody settings tree.root scope id var) :=
  ⟨(spec_of_analyze_eq_ok hOk).2.1.upper_lt,
    fun _ _ hFound => (settled_of_analyze_eq_ok hOk hFound).resolved_eq,
    fun _ _ _ _ _ _ hOwner hOwn =>
      hidesUntilBody_iff_hiddenByBody hOk hOwner (ownVariable?_eq_some.1 hOwn).2⟩

/-- The parameter is found, and what its default uses is not: the walk comes to the
body of the function after that, and the name has no definition yet. -/
theorem resolved_eq_meaning_defaultBeforeBody :
    ∃ (table : SymbolTable) (owner : Scope) (var : VariableId) (declared : Variable),
      analyze ⟨{}, 9⟩ defaultBeforeBody = .ok table ∧
      table.references.map Reference.resolved = #[some 2, none] ∧
      table.scopes[1]? = some owner ∧ table.ownVariable? 1 "x" = some (var, declared) ∧
      table.HiddenByBody ⟨{}, 9⟩ defaultBeforeBody.root 1 1 var ∧
      table.UppersFall ∧
      (∀ (id : ReferenceId) (reference : Reference), table.references[id]? = some reference →
        reference.resolved = table.meaning ⟨{}, 9⟩ id (table.enclosing reference.scope)) ∧
      ∀ (scope : ScopeId) (owner : Scope) (name : String) (var : VariableId) (declared : Variable)
        (id : ReferenceId), table.scopes[scope]? = some owner →
          table.ownVariable? scope name = some (var, declared) →
            (owner.HidesUntilBody id declared ↔
              table.HiddenByBody ⟨{}, 9⟩ defaultBeforeBody.root scope id var) := by
  have hAnalyze : (analyze ⟨{}, 9⟩ defaultBeforeBody).toOption.map (fun table =>
      (table.references.map Reference.resolved, table.scopes[1]?.bind fun owner =>
        (table.ownVariable? 1 "x").map fun own => decide (owner.HidesUntilBody 1 own.2))) =
          some (#[some 2, none], some true) := by
    decide +kernel
  obtain ⟨table, hOk, hSeen⟩ := exists_of_map_toOption _ hAnalyze
  obtain ⟨hResolved, hHidden⟩ := Prod.mk.inj hSeen
  obtain ⟨owner, hOwner, hHidden⟩ := Option.bind_eq_some_iff.1 hHidden
  obtain ⟨⟨var, declared⟩, hOwn, hHidden⟩ := Option.map_eq_some_iff.1 hHidden
  have hMeaning := resolved_eq_meaning hOk
  exact ⟨table, owner, var, declared, hOk, hResolved, hOwner, hOwn,
    (hMeaning.2.2 1 owner "x" var declared 1 hOwner hOwn).1 (of_decide_eq_true hHidden), hMeaning⟩

end SymbolTable

end Scoping
