import Scoping.Proofs.Walk.Arriving
import Scoping.Proofs.Walk.Regular

/-! What a program does before it visits anything: it opens scopes of its own, and
says of them whether they are strict. -/

namespace Scoping

variable {settings : Settings} {root node : Node} {past future : List Event} {event : Event}
  {inMethod : Bool}

def programOpenings (settings : Settings) (root : Node) : List Event :=
  .enter .global root false ::
    ((if settings.globalReturn then [.setStrict false, .enter .function root false] else []) ++
      (if settings.hasBlockScopes && settings.isModule then [.enter .esModule root false] else []) ++
      if settings.knowsStrict && settings.options.impliedStrict then [.setStrict true] else [])

theorem program_eq_openings (settings : Settings) (root : Node) :
    Walker.program { settings } root = (programOpenings settings root).map .emit ++
      (Walker.descend { settings } root ++ [.emit (.leave root)]) := by
  simp only [Walker.program, programOpenings, List.map_cons, List.map_append, List.append_assoc,
    List.cons_append, apply_ite (List.map Task.emit), List.map_nil]

theorem flatMap_events_emit (settings : Settings) (events : List Event) :
    (events.map Task.emit).flatMap (Task.events settings) = events := by
  simp [List.flatMap_map, Task.events_emit]

theorem programEvents_eq_openings (settings : Settings) (root : Node) :
    programEvents settings root = programOpenings settings root ++
      ((Walker.descend { settings } root).flatMap (Task.events settings) ++ [.leave root]) := by
  rw [programEvents, program_eq_openings, List.flatMap_append, List.flatMap_append,
    flatMap_events_emit, List.flatMap_singleton, Task.events_emit]

theorem exists_of_mem_openings (h : event ∈ programOpenings settings root) :
    (∃ kind, event = .enter kind root false) ∨ ∃ strict, event = .setStrict strict := by
  unfold programOpenings at h
  grind

/-- A program begins neither with a use nor with a definition. -/
theorem not_prefix_openings (hEnter : ∀ kind, event ≠ .enter kind root false)
    (hMark : ∀ strict, event ≠ .setStrict strict) :
    ¬ past ++ [event] <+: programOpenings settings root := by
  intro hOpening
  rcases exists_of_mem_openings (hOpening.subset (List.mem_append_right _ List.mem_cons_self)) with
    ⟨kind, hEq⟩ | ⟨strict, hEq⟩
  · exact hEnter kind hEq
  · exact hMark strict hEq

/-- What a program has open as its first visit begins are scopes of its own. -/
theorem owned_openings (settings : Settings) (root : Node) :
    (Trail.after settings (programOpenings settings root)).Owned root := by
  unfold programOpenings
  cases settings.globalReturn <;> cases settings.hasBlockScopes && settings.isModule <;>
    cases settings.knowsStrict && settings.options.impliedStrict <;>
    simp [Trail.after, numbered, Trail.steps, Trail.step, Trail.opening, Trail.modifyHead, Trail.Owned]

/-- The visits of a program leave its scopes open, and its end finds them so. -/
theorem openings_suffix_after {ahead later : List Event}
    (h : (Walker.descend { settings } root).flatMap (Task.events settings) ++ [.leave root] =
      ahead ++ event :: later) :
    Trail.after settings (programOpenings settings root) <:+
      Trail.after settings (programOpenings settings root ++ ahead) := by
  rw [Trail.after_append]
  have hOwned := owned_openings settings root
  generalize Trail.after settings (programOpenings settings root) = base at hOwned ⊢
  generalize 0 + (programOpenings settings root).countP Event.opens = scopes
  generalize 0 + (programOpenings settings root).countP Event.records = references
  obtain ⟨signal, rest, hSignals⟩ : ∃ signal rest,
      numbered scopes references (ahead ++ event :: later) =
        numbered scopes references ahead ++ signal :: rest := by
    rw [numbered_append, numbered]
    exact ⟨_, _, rfl⟩
  have hEntry : (base.steps settings (numbered scopes references ahead), signal) ∈
      base.log settings (numbered scopes references (ahead ++ event :: later)) :=
    Trail.mem_log.2 ⟨_, rest, hSignals, rfl⟩
  obtain ⟨hSteps, hVisits⟩ := Trail.steps_of_neutral Walker.neutral_descend hOwned.clear
    (map_event_numbered scopes references
      ((Walker.descend { settings } root).flatMap (Task.events settings)))
  rw [← h, numbered_append, Trail.log_append, hSteps] at hEntry
  rcases List.mem_append.1 hEntry with hVisit | hEnd
  · exact hVisits _ hVisit
  · have hSame : base.steps settings (numbered scopes references ahead) = base :=
      congrArg Prod.fst (List.mem_singleton.1 hEnd)
    exact ⟨[], hSame.symm⟩

/-- A program opens its scopes first, and none of them closes before it ends. -/
theorem Arrives.openings_cases (h : Arrives settings root past (.emit event) future) :
    past ++ [event] <+: programOpenings settings root ∨
      ∃ ahead, past = programOpenings settings root ++ ahead ∧
        Trail.after settings (programOpenings settings root) <:+ Trail.after settings past := by
  have hEvents := (programEvents_eq_openings settings root).symm.trans h.events_eq
  rcases List.append_eq_append_iff.1 hEvents with ⟨ahead, rfl, hSplit⟩ | ⟨rest, hOpenings, hRest⟩
  · exact .inr ⟨ahead, rfl, openings_suffix_after hSplit⟩
  · cases rest with
    | nil =>
        rw [List.append_nil] at hOpenings
        exact .inr ⟨[], by rw [hOpenings, List.append_nil], hOpenings ▸ List.suffix_refl _⟩
    | cons first rest =>
        obtain ⟨rfl, -⟩ := List.cons.inj hRest
        exact .inl ⟨rest, by rw [hOpenings, List.append_assoc]; rfl⟩

/-- The scopes of a program are open before anything is visited. -/
theorem Arrives.openings_prefix (h : Arrives settings root past (.visit inMethod node) future) :
    programOpenings settings root <+: past := by
  generalize hTask : Task.visit inMethod node = task at h
  induction h generalizing inMethod node with
  | @program before after task split =>
      subst hTask
      rw [program_eq_openings, List.append_eq_append_iff] at split
      rcases split with ⟨visits, rfl, -⟩ | ⟨rest, hOpenings, hRest⟩
      · rw [List.flatMap_append, flatMap_events_emit]
        exact List.prefix_append _ _
      · cases rest with
        | nil =>
            rw [List.append_nil] at hOpenings
            have hPast : before.flatMap (Task.events settings) = programOpenings settings root := by
              rw [← hOpenings, flatMap_events_emit]
            exact hPast ▸ List.prefix_refl _
        | cons first rest =>
            obtain ⟨rfl, -⟩ := List.cons.inj hRest
            have hMem : Task.visit inMethod node ∈ (programOpenings settings root).map Task.emit :=
              hOpenings ▸ List.mem_append_right _ List.mem_cons_self
            obtain ⟨event, -, hEq⟩ := List.mem_map.1 hMem
            cases hEq
  | inside visit split ih => exact (ih rfl).trans (List.prefix_append _ _)

theorem Arrives.ne_nil_of_visit (h : Arrives settings root past (.visit inMethod node) future) :
    past ≠ [] := by
  rintro rfl
  exact absurd (List.prefix_nil.1 h.openings_prefix) (List.cons_ne_nil _ _)

namespace SymbolTable

variable {table : SymbolTable} {later ahead : List Event}

/-- A global scope opens first of all. -/
theorem eq_nil_of_enter_global {block : Node}
    (h : Arrives settings root past (.emit (.enter .global block inMethod)) future)
    (hRun : ({} : SymbolTable).run settings (past ++ .enter .global block inMethod :: later) =
      .ok table) : past = [] := by
  rcases h.openings_cases with hOpening | ⟨ahead, -, hSuffix⟩
  · -- Of the openings only the first is of a global scope.
    cases past with
    | nil => rfl
    | cons first past =>
        obtain ⟨rest, hOpenings⟩ := hOpening
        have hMem : .enter .global block inMethod ∈ past ++ [.enter .global block inMethod] ++ rest := by
          simp
        rw [show past ++ [.enter .global block inMethod] ++ rest = _ from
          (List.cons.inj hOpenings).2] at hMem
        grind
  · obtain ⟨middle, hMiddle, hEnter⟩ := exists_run_of_append hRun
    obtain ⟨next, hNext, -⟩ := exists_of_bind_ok hEnter
    obtain ⟨-, -, -, -, hOutermost, -⟩ := enter_eq_ok hNext
    have hStack := (follows_after hMiddle).stack.symm.trans (hOutermost rfl)
    rw [List.map_eq_nil_iff.1 hStack] at hSuffix
    exact absurd (List.suffix_nil.1 hSuffix) (owned_openings settings root).1

/-- Only the openings of a program say whether a scope is strict. A program inside it
would open a global scope first, which fails. -/
theorem setStrict_prefix_openings {strict : Bool}
    (h : Arrives settings root past (.emit (.setStrict strict)) future)
    (hRun : ({} : SymbolTable).run settings past = .ok table) :
    past ++ [.setStrict strict] <+: programOpenings settings root := by
  cases h with
  | @program before after task split =>
      rw [program_eq_openings] at split
      obtain ⟨ahead, behind, rfl, hOpenings⟩ := exists_of_append_eq
        ((List.nil_append _).trans split) List.not_mem_nil
        (by simp [Walker.descend, Walker.visit])
      rw [← flatMap_events_emit settings (programOpenings settings root), hOpenings]
      simp [List.flatMap_append, Task.events_emit]
  | @inside begun rest inMethod node before after task hVisit split =>
      have hRole := Walker.role_of_mem_setStrict
        (split ▸ List.mem_append_right before List.mem_cons_self)
      obtain ⟨inside, hTasks⟩ : ∃ inside, Walker.tasks { settings, inMethod } node =
          .emit (.enter .global node false) :: inside := by
        rw [Walker.tasks, hRole]
        exact ⟨_, rfl⟩
      have hBegins := hVisit.inside
        (show _ = [] ++ Task.emit (.enter .global node false) :: inside from hTasks)
      rw [List.flatMap_nil, List.append_nil] at hBegins
      rw [hTasks] at split
      cases before with
      | nil => cases split
      | cons first before =>
          obtain ⟨rfl, -⟩ := List.cons.inj split
          rw [List.flatMap_cons, Task.events_emit, List.singleton_append] at hRun
          exact absurd (eq_nil_of_enter_global hBegins hRun) hVisit.ne_nil_of_visit

/-- Once the openings are past, nothing says any more whether a scope is strict. -/
theorem setStrict_not_mem_of_run (strict : Bool)
    (hEvents : programEvents settings root = past ++ ahead ++ future)
    (hPast : programOpenings settings root <+: past)
    (hRun : ({} : SymbolTable).run settings (past ++ ahead) = .ok table) :
    .setStrict strict ∉ ahead := by
  intro hMem
  obtain ⟨before, after, rfl⟩ := List.append_of_mem hMem
  have hArrives := arrives_of_events (show programEvents settings root =
    past ++ before ++ .setStrict strict :: (after ++ future) by rw [hEvents]; simp)
  rw [← List.append_assoc] at hRun
  obtain ⟨middle, hMiddle, -⟩ := exists_run_of_append hRun
  have hLength := ((setStrict_prefix_openings hArrives hMiddle).trans hPast).length_le
  simp only [List.length_append, List.length_singleton] at hLength
  omega

end SymbolTable

/-- What a program itself opens is among its openings. -/
theorem countP_lt_of_enter {before after : List Task} {kind : ScopeKind} {block : Node}
    (h : Walker.program { settings } root = before ++ .emit (.enter kind block inMethod) :: after) :
    (before.flatMap (Task.events settings)).countP Event.opens <
      (programOpenings settings root).countP Event.opens := by
  have hLast : .emit (.enter kind block inMethod) ∉
      Walker.descend { settings } root ++ [.emit (.leave root)] := by
    simp [Walker.descend, Walker.visit]
  rw [program_eq_openings] at h
  obtain ⟨ahead, behind, rfl, hOpenings⟩ :=
    exists_of_append_eq ((List.nil_append _).trans h) List.not_mem_nil hLast
  rw [← flatMap_events_emit settings (programOpenings settings root), hOpenings,
    List.flatMap_append, List.flatMap_cons, Task.events_emit, List.singleton_append,
    List.countP_append, List.countP_cons_of_pos rfl]
  exact Nat.lt_add_of_pos_right (Nat.succ_pos _)

/-- The scopes of a program as its first visit begins. Whether its directives ask for
strict code is given, for its global scope and for that of the function that it is. -/
def programTrail (settings : Settings) (root : Node) (asks asksFunction : Bool) : Trail :=
  let hasModule := settings.hasBlockScopes && settings.isModule
  let implied := settings.knowsStrict && settings.options.impliedStrict && !hasModule
  let inner := if settings.globalReturn then 1 else 0
  (if hasModule then
    [{ scope := inner + 1, kind := .esModule, block := root, upper := some inner
       holder := inner + 1, strict := settings.knowsStrict }]
  else []) ++
    (if settings.globalReturn then
      [{ scope := 1, kind := .function, block := root, upper := some 0, holder := 1
         strict := implied || asksFunction }]
    else []) ++
    [{ scope := 0, kind := .global, block := root, upper := none, holder := 0
       strict := !settings.globalReturn && (implied || asks) }]

theorem after_programOpenings {asks asksFunction : Bool}
    (hAsks : Trail.opensStrict settings [] .global root false = .ok asks)
    (hFunction : settings.globalReturn = true →
      Trail.opensStrict settings (Trail.after settings [.enter .global root false, .setStrict false])
        .function root false = .ok asksFunction) :
    Trail.after settings (programOpenings settings root) =
      programTrail settings root asks asksFunction := by
  unfold programOpenings programTrail
  cases hReturn : settings.globalReturn <;>
    cases hModule : (settings.hasBlockScopes && settings.isModule) <;>
    cases hKnows : settings.knowsStrict <;>
    cases hImplied : settings.options.impliedStrict <;>
    simp_all [Trail.after, numbered, Event.opens, Trail.steps, Trail.step, Trail.opening, Trail.modifyHead,
      Trail.opensStrict, ScopeKind.holdsVars, Event.records]

/-- A program opens a scope for each that it has, innermost last. -/
theorem map_scope_programTrail (settings : Settings) (root : Node) (asks asksFunction : Bool) :
    (programTrail settings root asks asksFunction).map Frame.scope =
      (List.range ((programOpenings settings root).countP Event.opens)).reverse := by
  unfold programTrail programOpenings
  cases settings.globalReturn <;> cases settings.hasBlockScopes && settings.isModule <;>
    cases settings.knowsStrict && settings.options.impliedStrict <;> rfl

theorem countP_programOpenings (settings : Settings) (root : Node) :
    (programOpenings settings root).countP Event.opens =
      (if settings.globalReturn then 2 else 1) +
        if settings.hasBlockScopes && settings.isModule then 1 else 0 := by
  unfold programOpenings
  cases settings.globalReturn <;> cases settings.hasBlockScopes && settings.isModule <;>
    cases settings.knowsStrict && settings.options.impliedStrict <;> rfl

end Scoping
