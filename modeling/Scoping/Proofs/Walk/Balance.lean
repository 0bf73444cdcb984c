import Scoping.Proofs.Walk.Belonging
import Scoping.Proofs.Walk.Failing
import Scoping.Proofs.Walk.Numbering

/-! The scopes that the walk of a program opens and closes. Each is closed once,
and the first is the global scope, around all the others. -/

namespace Scoping.SymbolTable

/-- The scopes that an event closes, innermost first. -/
def closedBy (table : SymbolTable) : Event → List ScopeId
  | .leave block => table.leaving block
  | _ => []

/-- The scopes that a walk closes, in order, up to the event that it fails at. -/
def closings (settings : Settings) (table : SymbolTable) : List Event → List ScopeId
  | [] => []
  | event :: rest =>
      table.closedBy event ++
        match table.apply settings event with
        | .ok next => next.closings settings rest
        | .error _ => []

variable {settings : Settings} {table next : SymbolTable} {trail : Trail} {event : Event}
  {events : List Event}

theorem stack_apply_of_quiet (h : Nested table table.stack) (hEvent : event.IsQuiet ∨ ∃ use, event = .use use)
    (hOk : table.apply settings event = .ok next) : next.stack = table.stack := by
  rcases hEvent with hQuiet | ⟨use, rfl⟩
  · exact (advances_apply h hQuiet hOk).stack
  · obtain ⟨scope, -, hRecord⟩ := exists_record_of_apply hOk
    exact (spares_record h hRecord).2.2

/-- An event closes scopes that were open, and opens none but the next. -/
theorem count_apply (h : Nested table table.stack) (hOk : table.apply settings event = .ok next)
    (scope : ScopeId) :
    (table.closedBy event).count scope + next.stack.count scope +
        (List.range table.scopes.size).count scope =
      table.stack.count scope + (List.range next.scopes.size).count scope := by
  have hSize := (sizes_apply h hOk).1
  have hStay : event.IsQuiet ∨ (∃ use, event = .use use) → table.closedBy event = [] →
      event.opens = false → (table.closedBy event).count scope + next.stack.count scope +
        (List.range table.scopes.size).count scope =
      table.stack.count scope + (List.range next.scopes.size).count scope := by
    intro hQuiet hNone hOpens
    rw [hOpens] at hSize
    rw [stack_apply_of_quiet h hQuiet hOk, hNone, hSize]
    simp
  cases event with
  | enter kind block inMethod =>
      obtain ⟨-, -, -, hStack⟩ := nested_enter h hOk
      rw [(scopes_enter h hOk).1, hStack, List.range_succ, List.count_append, List.count_cons]
      simp only [closedBy, List.count_nil, List.count_singleton]
      omega
  | leave block =>
      obtain ⟨hSplit, -⟩ := closes_leaveAll h hOk
      rw [hSize, hSplit, List.count_append]
      rfl
  | use use => exact hStay (.inr ⟨use, rfl⟩) rfl rfl
  | fail failure => cases hOk
  | setStrict | define | directEval | thisExpression | bodyStart | endDeclaration =>
      exact hStay (.inl (by trivial)) rfl rfl

/-- Each scope that is open before a walk, or that the walk opens, is either
closed by it, and then once, or open in the end. -/
theorem closings_perm (h : Nested table table.stack)
    (hOk : table.run settings events = .ok next) :
    (table.closings settings events ++ next.stack ++ List.range table.scopes.size).Perm
      (table.stack ++ List.range next.scopes.size) := by
  rw [List.perm_iff_count]
  induction events generalizing table with
  | nil =>
      cases hOk
      intro scope
      simp [closings]
  | cons event events ih =>
      intro scope
      obtain ⟨middle, hMiddle, hRest⟩ := exists_of_bind_ok hOk
      have hStep := count_apply h hMiddle scope
      have hLater := ih (nested_apply h hMiddle) hRest scope
      simp only [closings, hMiddle, List.count_append] at hStep hLater ⊢
      omega

/-- The first scope is the global one, and every other scope is inside it. -/
structure Rooted (table : SymbolTable) : Prop where
  globalScope : table.globalScope = some 0
  global : ∃ entry, table.scopes[0]? = some entry ∧ entry.kind = .global
  upper : ∀ (scope : ScopeId) (entry : Scope), table.scopes[scope]? = some entry →
    entry.upper = none → scope = 0

theorem Rooted.of_keeps (h : Rooted table) (hGlobal : next.globalScope = table.globalScope)
    (hSize : next.scopes.size = table.scopes.size)
    (hScope : ∀ (scope : ScopeId) (before : Scope), table.scopes[scope]? = some before →
      ∃ after, next.scopes[scope]? = some after ∧ after.kind = before.kind ∧
        after.upper = before.upper) : Rooted next where
  globalScope := hGlobal.trans h.globalScope
  global := by
    obtain ⟨entry, hEntry, hKind⟩ := h.global
    obtain ⟨after, hAfter, hSame, -⟩ := hScope 0 entry hEntry
    exact ⟨after, hAfter, hSame.trans hKind⟩
  upper := fun scope after hAfter hNone => by
    have hBefore := Array.getElem?_eq_getElem (hSize ▸ lt_of_getElem?_scopes hAfter)
    obtain ⟨found, hFound, -, hUpper⟩ := hScope scope _ hBefore
    cases hFound.symm.trans hAfter
    exact h.upper scope _ hBefore (hUpper.symm.trans hNone)

/-- As long as a scope is open, no scope opens that is not inside another. -/
theorem rooted_apply (h : Rooted table) (hNested : Nested table table.stack)
    (hOpen : table.stack ≠ []) (hOk : table.apply settings event = .ok next) : Rooted next := by
  cases event with
  | enter kind block inMethod =>
      obtain ⟨-, -, hOld⟩ := scopes_enter hNested hOk
      obtain ⟨_, own, -, hOwn, hKind, hNext⟩ := enter_eq_ok hOk
      have hNotGlobal : kind ≠ .global := fun hGlobal => hOpen (hKind hGlobal)
      refine ⟨?_, ?_, fun scope entry hEntry hNone => ?_⟩
      · have hAdd := (advances_addScope hNested kind block _).trans (advances_declareOwn
          (advances_addScope hNested kind block _).nested List.mem_cons_self hOwn)
        rw [hNext, if_neg hNotGlobal]
        exact hAdd.globalScope.trans h.globalScope
      · obtain ⟨entry, hEntry, hGlobal⟩ := h.global
        exact ⟨_, hOld 0 entry hEntry, hGlobal⟩
      · rcases cases_of_enter hNested hOk hEntry with ⟨-, strict, hEq⟩ | ⟨before, hBefore, hEq⟩
        · rw [hEq] at hNone
          exact absurd (List.head?_eq_none_iff.1 hNone) hOpen
        · rw [hEq] at hNone
          exact h.upper scope before hBefore hNone
  | leave block =>
      obtain ⟨-, hCloses⟩ := closes_leaveAll hNested hOk
      refine h.of_keeps hCloses.globalScope hCloses.scopesSize fun scope before hBefore => ?_
      obtain ⟨after, hAfter, hSettles⟩ := hCloses.scope scope before hBefore
      exact ⟨after, hAfter, by rw [hSettles], by rw [hSettles]⟩
  | use use =>
      obtain ⟨scope, -, hRecord⟩ := exists_record_of_apply hOk
      have hGlobal : next.globalScope = table.globalScope := by
        rcases record_eq_ok hRecord with ⟨-, rfl⟩ | ⟨-, -, rfl⟩ <;> rfl
      refine h.of_keeps hGlobal (sizes_apply hNested hOk).1 fun position before hBefore => ?_
      obtain ⟨after, hAfter, hEq⟩ := getElem?_record hRecord hBefore
      exact ⟨after, hAfter, by rw [hEq], by rw [hEq]⟩
  | fail failure => cases hOk
  | setStrict | define | directEval | thisExpression | bodyStart | endDeclaration =>
      have hAdvances := advances_apply hNested (by trivial) hOk
      refine h.of_keeps hAdvances.globalScope hAdvances.scopesSize fun scope before hBefore => ?_
      obtain ⟨after, hAfter, hKept⟩ := (hAdvances.spares 0).keeps.scope scope before hBefore
      exact ⟨after, hAfter, hKept.kind, hKept.upper⟩

theorem rooted_run (h : Rooted table) (hFollows : Follows table trail)
    (hLog : ∀ entry ∈ trail.log settings (table.signals events), entry.1 ≠ [])
    (hOk : table.run settings events = .ok next) : Rooted next := by
  induction events generalizing table trail with
  | nil =>
      cases hOk
      exact h
  | cons event events ih =>
      obtain ⟨middle, hMiddle, hRest⟩ := exists_of_bind_ok hOk
      rw [signals_cons hFollows.nested hMiddle] at hLog
      have hOpen : table.stack ≠ [] := by
        rw [hFollows.stack]
        exact fun hNil => hLog _ List.mem_cons_self (List.map_eq_nil_iff.1 hNil)
      exact ih (rooted_apply h hFollows.nested hOpen hMiddle)
        (follows_apply hFollows (fits_signalFor table event) hMiddle)
        (fun entry hEntry => hLog entry (List.mem_cons_of_mem _ hEntry)) hRest

/-- Every way out leads to the global scope. -/
theorem Rooted.zero_mem_enclosing (h : Rooted table) (hFall : table.UppersFall) {scope : ScopeId}
    (hScope : scope < table.scopes.size) : 0 ∈ table.enclosing scope := by
  induction scope using Nat.strongRecOn with
  | ind scope ih =>
      have hEntry := Array.getElem?_eq_getElem hScope
      cases hUpper : table.scopes[scope].upper with
      | none =>
          rw [h.upper scope _ hEntry hUpper]
          exact mem_enclosing_self
      | some upper =>
          have hOut : table.upper? scope = some upper := by
            rw [upper?_of_getElem? hEntry, hUpper]
          have hLt := hFall scope upper hOut
          rw [enclosing_of_upper hOut hLt]
          exact List.mem_cons_of_mem _ (ih upper hLt (Nat.lt_trans hLt hScope))

/-- After its first event the walk of a program opens a global scope only for a
program inside. -/
theorem exists_programEvents (settings : Settings) (root : Node) :
    ∃ rest, programEvents settings root = .enter .global root false :: rest ∧
      ∀ event ∈ rest, (∀ failure, event = .fail failure → failure.IsMissingField) ∧
        ∀ block inMethod, event = .enter .global block inMethod →
          root.Contains block ∧ block.kind = "Program" := by
  obtain ⟨openings, hOpens, hProgram⟩ := Trail.exists_openings settings root
  refine ⟨_, by rw [programEvents, hProgram, List.flatMap_cons, Task.events_emit,
    List.singleton_append], ?_⟩
  intro event hEvent
  rw [List.flatMap_append, List.flatMap_append] at hEvent
  rcases List.mem_append.1 hEvent with hOpening | hEvent
  · obtain ⟨task, hTask, hMem⟩ := List.mem_flatMap.1 hOpening
    obtain ⟨found, rfl, hFound⟩ := hOpens task hTask
    rw [Task.events_emit, List.mem_singleton] at hMem
    subst hMem
    rcases hFound with hMarks | ⟨kind, inMethod, hKind, rfl⟩
    · constructor
      · rintro failure rfl
        exact hMarks.elim
      · rintro block inMethod rfl
        exact hMarks.elim
    · refine ⟨by simp, fun block flag hEq => ?_⟩
      cases hEq
      exact absurd rfl hKind
  · rcases List.mem_append.1 hEvent with hInside | hLast
    · obtain ⟨task, hTask, hMem⟩ := List.mem_flatMap.1 hInside
      obtain ⟨child, hChild, rfl⟩ := List.mem_map.1 hTask
      have hContains := ChildKeys.contains_of_mem_children hChild
      have hBelongs := (belongs_of_mem_events hMem).of_contains hContains
      constructor
      · rintro failure rfl
        exact hBelongs
      · rintro block inMethod rfl
        obtain ⟨hBlock, hGlobal⟩ := belongs_of_mem_events hMem
        refine ⟨?_, hGlobal rfl⟩
        rcases hBlock with rfl | hBlock
        · exact hContains
        · exact hContains.trans hBlock
    · rw [List.flatMap_cons, Task.events_emit, List.flatMap_nil, List.append_nil,
        List.mem_singleton] at hLast
      subst hLast
      exact ⟨by simp, by simp⟩

theorem mem_of_mem_log {signals : List Numbered} {entry : Trail × Numbered}
    (h : entry ∈ trail.log settings signals) : entry.2 ∈ signals := by
  induction signals generalizing trail with
  | nil => exact nomatch h
  | cons signal rest ih =>
      rcases List.mem_cons.1 h with rfl | hRest
      · exact List.mem_cons_self
      · exact List.mem_cons_of_mem _ (ih hRest)

/-- The walk of a program from the table that its first event leaves: a scope is
open at each event, and none in the end. -/
structure Begins (settings : Settings) (root : Node) (first : SymbolTable) (rest : List Event) :
    Prop where
  events : programEvents settings root = .enter .global root false :: rest
  opened : apply settings {} (.enter .global root false) = .ok first
  follows : Follows first [Trail.opening settings [] 0 .global root false]
  log : ∀ entry ∈ Trail.log settings [Trail.opening settings [] 0 .global root false]
    (first.signals rest), entry.1 ≠ []
  steps : Trail.steps settings [Trail.opening settings [] 0 .global root false]
    (first.signals rest) = []

theorem begins_of_first {root : Node} {first : SymbolTable} {rest : List Event}
    (hEvents : programEvents settings root = .enter .global root false :: rest)
    (hFirst : apply settings {} (.enter .global root false) = .ok first) :
    Begins settings root first rest := by
  obtain ⟨number, others, hSignals, hSteps, hLog⟩ := Trail.program_spec
    (map_event_numbered 0 0 (programEvents settings root))
  have hCons : numbered 0 0 (programEvents settings root) =
      ⟨0, .enter .global root false⟩ :: first.signals rest := by
    rw [hEvents]
    exact signals_cons nested_empty hFirst
  rw [hCons] at hSignals hSteps
  obtain ⟨hNumber, rfl⟩ := List.cons.inj hSignals
  cases hNumber
  exact ⟨hEvents, hFirst, follows_apply follows_empty (fits_signalFor {} _) hFirst, hLog, hSteps⟩

/-- The global scope, opened first, has number 0. -/
theorem Begins.rooted {root : Node} {first : SymbolTable} {rest : List Event}
    (h : Begins settings root first rest) : Rooted first := by
  obtain ⟨hSize, ⟨strict, -, after, hAfter, hEq⟩, -⟩ := scopes_enter nested_empty h.opened
  obtain ⟨_, own, -, -, -, hNext⟩ := enter_eq_ok h.opened
  refine ⟨by rw [hNext]; rfl, ⟨after, hAfter, by rw [hEq]; rfl⟩, fun scope entry hEntry _ => ?_⟩
  have hLt := lt_of_getElem?_scopes hEntry
  rw [hSize] at hLt
  exact Nat.lt_one_iff.1 hLt

/-- What holds of the table of every program: no scope is open, and the global
scope is around all the others. -/
theorem spec_of_analyze_eq_ok {tree : Tree} (hOk : analyze settings tree = .ok table) :
    table.stack = [] ∧ Nested table [] ∧ Rooted table ∧
      ({} : SymbolTable).run settings (programEvents settings tree.root) = .ok table := by
  obtain ⟨found, hRun, hEnd⟩ := exists_of_bind_ok hOk
  split at hEnd
  · next hEmpty =>
      cases hEnd
      have hStack := List.isEmpty_iff.1 hEmpty
      obtain ⟨rest, hEvents, -⟩ := exists_programEvents settings tree.root
      have hWalk := hRun
      rw [hEvents] at hWalk
      obtain ⟨first, hFirst, hRest⟩ := exists_of_bind_ok hWalk
      have hBegins := begins_of_first hEvents hFirst
      have hNested := (follows_run hBegins.follows hRest).nested
      rw [hStack] at hNested
      exact ⟨hStack, hNested, rooted_run hBegins.rooted hBegins.follows hBegins.log hRest, hRun⟩
  · cases hEnd

/-- What a walk of a program can fail with. -/
theorem failure_of_run {root : Node} {failure : Failure}
    (hError : ({} : SymbolTable).run settings (programEvents settings root) = .error failure) :
    failure.IsOfDocument ∨
      (failure = .nestedGlobal ∧ ∃ node, root.Contains node ∧ node.kind = "Program") := by
  obtain ⟨rest, hEvents, hRest⟩ := exists_programEvents settings root
  rw [hEvents, run_cons] at hError
  rcases cases_of_bind_error hError with hFirst | ⟨first, hFirst, hError⟩
  · rcases failure_of_enter hFirst with hDocument | ⟨-, -, hOpen⟩
    · exact .inl hDocument
    · exact absurd rfl hOpen
  · have hBegins := begins_of_first hEvents hFirst
    obtain ⟨entry, hEntry, middle, hFollows, hFails⟩ :=
      exists_of_run_eq_error hBegins.follows hError
    have hEvent : entry.2.event ∈ rest := by
      have hMem := List.mem_map_of_mem (f := Numbered.event) (mem_of_mem_log hEntry)
      rwa [signals, map_event_numbered] at hMem
    obtain ⟨hMissing, hGlobal⟩ := hRest _ hEvent
    rcases failure_of_apply hFollows (hBegins.log entry hEntry) hMissing hFails with
      hDocument | ⟨hNested, block, inMethod, hEnter⟩
    · exact .inl hDocument
    · exact .inr ⟨hNested, block, hGlobal block inMethod hEnter⟩

/-- A walk of a program that does not fail leaves no scope open. -/
theorem stack_of_run {root : Node}
    (hOk : ({} : SymbolTable).run settings (programEvents settings root) = .ok table) :
    table.stack = [] := by
  obtain ⟨rest, hEvents, -⟩ := exists_programEvents settings root
  rw [hEvents] at hOk
  obtain ⟨first, hFirst, hRest⟩ := exists_of_bind_ok hOk
  have hBegins := begins_of_first hEvents hFirst
  rw [(follows_run hBegins.follows hRest).stack, hBegins.steps]
  rfl

/-- An analysis fails only for a document that lacks a child, that has a
directive which cannot be read, or that has a program inside. Otherwise no scope
is left open, each scope that was opened has been closed once, and the global
scope is the one that was opened first. -/
theorem analyze_balanced (settings : Settings) (tree : Tree) :
    match analyze settings tree with
    | .error failure =>
        failure.IsMissingField ∨ failure = .splitDirective ∨
          (failure = .nestedGlobal ∧ ∃ node, tree.root.Contains node ∧ node.kind = "Program")
    | .ok table =>
        table.stack = [] ∧
          (closings settings {} (programEvents settings tree.root)).Perm
            (List.range table.scopes.size) ∧
          (∀ (scope : ScopeId) (entry : Scope), table.scopes[scope]? = some entry →
            entry.isClosed = true) ∧
          table.globalScope = some 0 ∧
          ∃ entry, table.scopes[0]? = some entry ∧ entry.kind = .global := by
  cases hRun : ({} : SymbolTable).run settings (programEvents settings tree.root) with
  | error failure =>
      have hResult : analyze settings tree = .error failure := by
        rw [analyze, hRun]
        rfl
      rw [hResult]
      rcases failure_of_run hRun with (hMissing | hDirective) | hNested
      · exact .inl hMissing
      · exact .inr (.inl hDirective)
      · exact .inr (.inr hNested)
  | ok table =>
      have hStack := stack_of_run hRun
      have hResult : analyze settings tree = .ok table := by
        simp [analyze, hRun, bind, Except.bind, pure, Except.pure, hStack]
      obtain ⟨-, hNested, hRooted, -⟩ := spec_of_analyze_eq_ok hResult
      rw [hResult]
      refine ⟨hStack, ?_, fun scope entry hEntry => ?_, hRooted.globalScope, hRooted.global⟩
      · have hPerm := closings_perm (nested_empty : Nested {} (SymbolTable.stack {})) hRun
        rw [hStack] at hPerm
        simpa using hPerm
      · have hClosed := hNested.open_iff scope entry hEntry
        simpa [Scope.isClosed] using hClosed

end Scoping.SymbolTable
