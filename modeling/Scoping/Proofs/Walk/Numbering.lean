import Scoping.Proofs.Walk.Following

namespace Scoping

namespace Event

/-- Whether an event opens a scope. -/
def opens : Event → Bool
  | .enter .. => true
  | _ => false

/-- Whether an event records a reference. -/
def records : Event → Bool
  | .use found => found.identifier.isIdentifier
  | _ => false

end Event

/-- The events of a walk with the numbers of the scopes that they open and of
the references that they record, counted on from those that there are. -/
def numbered (scopes references : Nat) : List Event → List Numbered
  | [] => []
  | event :: rest =>
      ⟨if event.opens then scopes else if event.records then references else 0, event⟩ ::
        numbered (scopes + event.opens.toNat) (references + event.records.toNat) rest

/-- The log of a program with the numbers that the table gives. -/
def programLog (settings : Settings) (root : Node) : List (Trail × Numbered) :=
  Trail.log settings [] (numbered 0 0 (programEvents settings root))

@[simp] theorem map_event_numbered (scopes references : Nat) (events : List Event) :
    (numbered scopes references events).map Numbered.event = events := by
  induction events generalizing scopes references with
  | nil => rfl
  | cons event rest ih => simp [numbered, ih]

theorem numbered_append (scopes references : Nat) (first rest : List Event) :
    numbered scopes references (first ++ rest) = numbered scopes references first ++
      numbered (scopes + first.countP Event.opens) (references + first.countP Event.records) rest := by
  induction first generalizing scopes references with
  | nil => rfl
  | cons event first ih =>
      have hCount : ∀ (p : Event → Bool) (start : Nat),
          start + (p event).toNat + first.countP p = start + (event :: first).countP p := by
        intro p start
        rw [List.countP_cons]
        cases p event with
        | false => simp
        | true =>
            simp only [Bool.toNat_true, if_true]
            omega
      rw [List.cons_append, numbered, numbered, ih, List.cons_append, hCount, hCount]

namespace SymbolTable

variable {settings : Settings} {table next : SymbolTable} {trail : Trail} {event : Event}

/-- An event adds the scope that it opens and the reference that it records,
and no others. -/
theorem sizes_apply (h : Nested table table.stack)
    (hOk : table.apply settings event = .ok next) :
    next.scopes.size = table.scopes.size + event.opens.toNat ∧
      next.references.size = table.references.size + event.records.toNat := by
  cases event with
  | enter kind block inMethod =>
      obtain ⟨-, -, hReferences, -⟩ := nested_enter h hOk
      exact ⟨(scopes_enter h hOk).1, by simp [hReferences, Event.records]⟩
  | leave block =>
      obtain ⟨-, hCloses⟩ := closes_leaveAll h hOk
      exact ⟨hCloses.scopesSize, by simp [hCloses.referencesSize, Event.records]⟩
  | use use =>
      obtain ⟨scope, -, hRecord⟩ := exists_record_of_apply hOk
      have hSame : (table.useIn scope use).identifier = use.identifier := by
        unfold useIn
        split <;> rfl
      rcases record_eq_ok hRecord with ⟨hNone, rfl⟩ | ⟨hSome, -, rfl⟩
      · simp [Event.opens, Event.records, ← hSame, hNone]
      · simp [Event.opens, Event.records, ← hSame, hSome, modifyScope]
  | fail failure => cases hOk
  | setStrict | define | directEval | thisExpression | bodyStart | endDeclaration =>
      have hAdvances := advances_apply h (by trivial) hOk
      simp [hAdvances.scopesSize, hAdvances.references, Event.opens, Event.records]

/-- The next event with its number. -/
def signalFor (table : SymbolTable) (event : Event) : Numbered :=
  ⟨if event.opens then table.scopes.size else if event.records then table.references.size else 0,
    event⟩

theorem fits_signalFor (table : SymbolTable) (event : Event) :
    (table.signalFor event).Fits table := by
  rintro kind block inMethod (rfl : event = _)
  rfl

/-- The events of a walk with the numbers that fit the table. -/
def signals (table : SymbolTable) (events : List Event) : List Numbered :=
  numbered table.scopes.size table.references.size events

theorem signals_cons (h : Nested table table.stack) {events : List Event}
    (hOk : table.apply settings event = .ok next) :
    table.signals (event :: events) = table.signalFor event :: next.signals events := by
  obtain ⟨hScopes, hReferences⟩ := sizes_apply h hOk
  rw [signals, signals, numbered, hScopes, hReferences]
  rfl

/-- A table and a trail that are told the same events agree all along. -/
theorem follows_run {events : List Event} (h : Follows table trail)
    (hOk : table.run settings events = .ok next) :
    Follows next (trail.steps settings (table.signals events)) := by
  induction events generalizing table trail with
  | nil =>
      cases hOk
      exact h
  | cons event events ih =>
      obtain ⟨middle, hMiddle, hRest⟩ := exists_of_bind_ok hOk
      rw [signals_cons h.nested hMiddle]
      exact ih (follows_apply h (fits_signalFor table event) hMiddle) hRest

/-- A walk that fails does so at one of its events, with the scopes open that
the events before have left. -/
theorem exists_of_run_eq_error {events : List Event} {failure : Failure}
    (h : Follows table trail) (hError : table.run settings events = .error failure) :
    ∃ entry ∈ trail.log settings (table.signals events), ∃ middle : SymbolTable,
      Follows middle entry.1 ∧ middle.apply settings entry.2.event = .error failure := by
  induction events generalizing table trail with
  | nil => cases hError
  | cons event events ih =>
      rw [run_cons] at hError
      rcases cases_of_bind_error hError with hHere | ⟨middle, hMiddle, hRest⟩
      · exact ⟨(trail, table.signalFor event), List.mem_cons_self, table, h, hHere⟩
      · obtain ⟨entry, hEntry, hFails⟩ :=
          ih (follows_apply h (fits_signalFor table event) hMiddle) hRest
        rw [signals_cons h.nested hMiddle]
        exact ⟨entry, List.mem_cons_of_mem _ hEntry, hFails⟩

end SymbolTable

end Scoping
