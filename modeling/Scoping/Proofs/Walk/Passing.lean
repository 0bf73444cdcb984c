import Scoping.Proofs.Walk.Balance

/-! Whether a walk goes through. Its log tells: no table is needed to know which
event a walk ends at. -/

namespace Scoping

/-- An event can be told to a table that has these scopes open. -/
def Trail.Passes (settings : Settings) (trail : Trail) : Event → Prop
  | .enter kind block inMethod =>
      (∃ strict, trail.opensStrict settings kind block inMethod = .ok strict) ∧
        (kind = .functionName → ∃ name, block.child "id" = .ok name) ∧
        (kind = .global → trail = [])
  | .leave _ | .endDeclaration _ => True
  | .setStrict _ | .define .. | .use _ | .directEval | .thisExpression | .bodyStart => trail ≠ []
  | .fail _ => False

namespace SymbolTable

variable {settings : Settings} {table next : SymbolTable} {trail : Trail} {event : Event}

theorem exists_declareOwn_iff (table : SymbolTable) (scope : ScopeId) {kind : ScopeKind}
    {block : Node} : (∃ own, table.declareOwn scope kind block = .ok own) ↔
      (kind = .functionName → ∃ name, block.child "id" = .ok name) := by
  unfold declareOwn
  split
  · refine iff_of_true ?_ nofun
    split <;> exact ⟨_, rfl⟩
  · cases hName : block.child "id" with
    | error failure => exact iff_of_false (fun ⟨_, hOwn⟩ => nomatch hOwn) fun hAll => by simp at hAll
    | ok name => exact iff_of_true ⟨_, rfl⟩ fun _ => ⟨name, rfl⟩
  · next hKind => exact iff_of_true ⟨_, rfl⟩ fun hEq => absurd hEq hKind

theorem Follows.eq_nil_iff (h : Follows table trail) : table.stack = [] ↔ trail = [] := by
  rw [h.stack, List.map_eq_nil_iff]

theorem exists_enter_iff (h : Follows table trail) {kind : ScopeKind} {block : Node}
    {inMethod : Bool} :
    (∃ next, table.enter settings kind block inMethod = .ok next) ↔
      trail.Passes settings (.enter kind block inMethod) := by
  rw [Trail.Passes, ← h.opensStrict_eq, ← h.eq_nil_iff]
  constructor
  · rintro ⟨next, hOk⟩
    obtain ⟨strict, own, hStrict, hOwn, hGlobal, -⟩ := enter_eq_ok hOk
    exact ⟨⟨strict, hStrict⟩, (exists_declareOwn_iff _ _).1 ⟨own, hOwn⟩, hGlobal⟩
  · rintro ⟨⟨strict, hStrict⟩, hName, hGlobal⟩
    obtain ⟨own, hOwn⟩ := (exists_declareOwn_iff (table.addScope kind block strict).2
      table.scopes.size).2 hName
    simp only [enter_eq, hStrict, hOwn, bind, Except.bind]
    rw [if_neg fun hNested => hNested.2 (hGlobal hNested.1)]
    exact ⟨_, rfl⟩

theorem ne_nil_of_current {scope : ScopeId} (h : Follows table trail)
    (hCurrent : table.current = .ok scope) : trail ≠ [] := by
  obtain ⟨frame, rest, rfl, -⟩ := h.head hCurrent
  exact List.cons_ne_nil _ _

/-- An event can be told to a table just if it passes by the open scopes. -/
theorem exists_apply_iff (h : Follows table trail) :
    (∃ next, table.apply settings event = .ok next) ↔ trail.Passes settings event := by
  cases event with
  | enter kind block inMethod => exact exists_enter_iff h
  | leave block =>
      obtain ⟨next, hNext, -⟩ := exists_leaveAll settings (P := fun _ => True)
        (fun _ _ _ _ => trivial) (fun _ _ _ _ _ _ _ => trivial) h.nested trivial block
      exact iff_of_true ⟨next, hNext⟩ trivial
  | endDeclaration node => exact iff_of_true ⟨_, rfl⟩ trivial
  | fail failure => exact iff_of_false (fun ⟨_, hOk⟩ => nomatch hOk) id
  | use use =>
      constructor
      · rintro ⟨next, hOk⟩
        obtain ⟨scope, hCurrent, -⟩ := exists_of_bind_ok hOk
        exact ne_nil_of_current h hCurrent
      · intro hOpen
        obtain ⟨scope, hScope, hCurrent⟩ := exists_current h hOpen
        obtain ⟨entry, pending, hEntry, hPending⟩ := h.nested.pending_of_mem hScope
        simp only [apply, hCurrent, bind, Except.bind, record, hEntry, hPending, Option.bind_some]
        split <;> exact ⟨_, rfl⟩
  | setStrict | define | directEval | thisExpression | bodyStart =>
      constructor
      · rintro ⟨next, hOk⟩
        obtain ⟨scope, hCurrent, -⟩ := exists_of_bind_ok hOk
        exact ne_nil_of_current h hCurrent
      · intro hOpen
        obtain ⟨scope, -, hCurrent⟩ := exists_current h hOpen
        simp only [apply, hCurrent, bind, Except.bind, pure, Except.pure]
        exact ⟨_, rfl⟩

/-- A walk goes through just if each event of its log passes. -/
theorem exists_run_iff {events : List Event} (h : Follows table trail) :
    (∃ next, table.run settings events = .ok next) ↔
      ∀ entry ∈ trail.log settings (table.signals events),
        entry.1.Passes settings entry.2.event := by
  induction events generalizing table trail with
  | nil => exact iff_of_true ⟨_, rfl⟩ fun _ hEntry => nomatch hEntry
  | cons event events ih =>
      have hHere : (∃ next, table.apply settings event = .ok next) ↔ trail.Passes settings event :=
        exists_apply_iff h
      cases hMiddle : table.apply settings event with
      | error failure =>
          refine iff_of_false (fun ⟨next, hNext⟩ => ?_) fun hAll => ?_
          · rw [run_cons, hMiddle] at hNext
            cases hNext
          · obtain ⟨next, hNext⟩ := hHere.2 (hAll (trail, table.signalFor event) List.mem_cons_self)
            cases hMiddle.symm.trans hNext
      | ok middle =>
          have hRun : table.run settings (event :: events) = middle.run settings events := by
            rw [run_cons, hMiddle]
            rfl
          rw [hRun, ih (follows_apply h (fits_signalFor table event) hMiddle),
            signals_cons h.nested hMiddle, Trail.log, List.forall_mem_cons]
          exact (and_iff_right (hHere.1 ⟨middle, hMiddle⟩)).symm

/-- An analysis succeeds just if each entry of the log of the program passes. -/
theorem exists_analyze_iff {tree : Tree} :
    (∃ table, analyze settings tree = .ok table) ↔
      ∀ entry ∈ programLog settings tree.root, entry.1.Passes settings entry.2.event := by
  have hLog : programLog settings tree.root =
      Trail.log settings [] (signals {} (programEvents settings tree.root)) := rfl
  rw [hLog, ← exists_run_iff follows_empty]
  constructor
  · rintro ⟨table, hOk⟩
    exact ⟨table, (spec_of_analyze_eq_ok hOk).2.2.2⟩
  · rintro ⟨table, hRun⟩
    refine ⟨table, ?_⟩
    simp [analyze, hRun, bind, Except.bind, pure, Except.pure, stack_of_run hRun]

end SymbolTable

end Scoping
