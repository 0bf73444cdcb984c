import Mathlib.Logic.Equiv.Basic
import Scoping.Proofs.Reordering.Logs
import Scoping.Proofs.Walk.Numbering

/-! The numbers of scopes and references come from the order of the walk. Those
of a rearranged document are the numbers from before, exchanged. -/

namespace Scoping

/-- New numbers for the scopes and references of a walk. -/
structure Renumbering where
  scopes : Equiv.Perm Nat
  references : Equiv.Perm Nat

namespace Renumbering

variable (m : Renumbering)

def frame (frame : Frame) : Frame :=
  { frame with
    scope := m.scopes frame.scope
    upper := frame.upper.map m.scopes
    holder := m.scopes frame.holder }

def trail (trail : Trail) : Trail :=
  trail.map m.frame

def signal (signal : Numbered) : Numbered where
  number :=
    if signal.event.opens then m.scopes signal.number
    else if signal.event.records then m.references signal.number
    else signal.number
  event := signal.event

def entry (entry : Trail × Numbered) : Trail × Numbered :=
  (m.trail entry.1, m.signal entry.2)

variable {m} {settings : Settings}

/-- Nothing that a walk does depends on the numbers. -/
theorem step_signal (trail : Trail) (signal : Numbered) :
    (m.trail trail).step settings (m.signal signal) = m.trail (trail.step settings signal) := by
  obtain ⟨number, event⟩ := signal
  cases event with
  | enter kind block inMethod =>
      have hOpening : (m.trail trail).opening settings (m.scopes number) kind block inMethod =
          m.frame (trail.opening settings number kind block inMethod) := by
        unfold Trail.opening frame
        cases trail with
        | nil =>
            simp only [Renumbering.trail, List.map_nil, List.head?_nil, Option.map_none,
              Option.getD_none, ite_self]
        | cons outer rest =>
            simp only [Renumbering.trail, List.map_cons, List.head?_cons, Option.map_some,
              Option.getD_some, apply_ite m.scopes]
            rfl
      exact congrArg (· :: m.trail trail) hOpening
  | leave block => exact List.dropWhile_map
  | setStrict | bodyStart => cases trail <;> rfl
  | define | use | directEval | thisExpression | endDeclaration | fail => rfl

theorem log_signals (trail : Trail) (signals : List Numbered) :
    (m.trail trail).log settings (signals.map m.signal) =
      (trail.log settings signals).map m.entry := by
  induction signals generalizing trail with
  | nil => rfl
  | cons signal rest ih =>
      rw [List.map_cons, Trail.log, Trail.log, List.map_cons, step_signal, ih]
      rfl

/-- What is in another order has been exchanged position by position. -/
theorem exists_equiv_of_perm {α : Type} {before after : List α} (h : before.Perm after) :
    ∃ move : Equiv.Perm Nat, ∀ position, after[move position]? = before[position]? := by
  induction h with
  | nil => exact ⟨.refl _, fun _ => rfl⟩
  | cons item _ ih =>
      obtain ⟨move, hMove⟩ := ih
      refine ⟨⟨fun | 0 => 0 | position + 1 => move position + 1,
        fun | 0 => 0 | position + 1 => move.symm position + 1, ?_, ?_⟩, ?_⟩
      · rintro (_ | position) <;> simp
      · rintro (_ | position) <;> simp
      · rintro (_ | position)
        · rfl
        · exact hMove position
  | swap first second rest =>
      refine ⟨Equiv.swap 0 1, ?_⟩
      rintro (_ | _ | position)
      · rfl
      · rfl
      · rw [Equiv.swap_apply_of_ne_of_ne (by omega) (by omega)]
        rfl
  | trans _ _ ihFirst ihSecond =>
      obtain ⟨first, hFirst⟩ := ihFirst
      obtain ⟨second, hSecond⟩ := ihSecond
      exact ⟨first.trans second, fun position => (hSecond _).trans (hFirst position)⟩

theorem exists_map_eq_range {numbers : List Nat} {count : Nat}
    (h : numbers.Perm (List.range count)) :
    ∃ move : Equiv.Perm Nat, numbers.map move = List.range count := by
  obtain ⟨move, hMove⟩ := exists_equiv_of_perm h.symm
  have hLength : numbers.length = count := by rw [h.length_eq, List.length_range]
  refine ⟨move, List.ext_getElem (by simp [hLength]) fun position hFirst hSecond => ?_⟩
  rw [List.length_map] at hFirst
  rw [List.getElem_map, List.getElem_range]
  have hBound : position < numbers.length := hFirst
  obtain ⟨start, rfl⟩ := move.surjective position
  have hStart := hMove start
  rw [List.getElem?_eq_getElem hBound, eq_comm, List.getElem?_eq_some_iff] at hStart
  obtain ⟨hRange, hEq⟩ := hStart
  rw [← hEq, List.getElem_range]

/-- If the numbers of the chosen signals count on from a start, the first has
the start for its number, and the others count on. -/
theorem chosen_cons {chosen : Event → Bool} {move : Nat → Nat} {signal : Numbered}
    {rest : List Numbered} {start : Nat}
    (h : ((signal :: rest).filter fun signal => chosen signal.event).map
      (fun signal => move signal.number) =
        List.range' start ((signal :: rest).filter fun signal => chosen signal.event).length) :
    (chosen signal.event = true → move signal.number = start) ∧
      (rest.filter fun signal => chosen signal.event).map (fun signal => move signal.number) =
        List.range' (start + (chosen signal.event).toNat)
          (rest.filter fun signal => chosen signal.event).length := by
  cases hChosen : chosen signal.event with
  | false =>
      simp only [List.filter_cons, hChosen, Bool.false_eq_true, if_false] at h
      exact ⟨nofun, h⟩
  | true =>
      simp only [List.filter_cons, hChosen, if_true, List.map_cons, List.length_cons,
        List.range'_succ, List.cons.injEq] at h
      exact ⟨fun _ => h.1, h.2⟩

/-- Signals that are told in order what they open and what they record. -/
theorem map_signal_eq_numbered {signals : List Numbered} {scopes references : Nat}
    (hScopes : (signals.filter fun signal => signal.event.opens).map
      (fun signal => m.scopes signal.number) =
        List.range' scopes (signals.filter fun signal => signal.event.opens).length)
    (hReferences : (signals.filter fun signal => signal.event.records).map
      (fun signal => m.references signal.number) =
        List.range' references (signals.filter fun signal => signal.event.records).length)
    (hOthers : ∀ signal ∈ signals, signal.event.opens = false → signal.event.records = false →
      signal.number = 0) :
    signals.map m.signal = numbered scopes references (signals.map Numbered.event) := by
  induction signals generalizing scopes references with
  | nil => rfl
  | cons signal rest ih =>
      have hHere := hOthers signal List.mem_cons_self
      have hRest := fun other hOther => hOthers other (List.mem_cons_of_mem _ hOther)
      obtain ⟨hScope, hScopes⟩ := chosen_cons hScopes
      obtain ⟨hReference, hReferences⟩ := chosen_cons hReferences
      rw [List.map_cons, List.map_cons, numbered]
      refine List.cons_eq_cons.2 ⟨?_, ih hScopes hReferences hRest⟩
      rw [Renumbering.signal]
      congr 1
      split
      · next hOpens => exact hScope hOpens
      · next hOpens =>
          split
          · next hRecords => exact hReference hRecords
          · next hRecords => exact hHere (by simpa using hOpens) (by simpa using hRecords)

/-- The numbers that a walk gives to the events of one kind count on, if one of
its two counts goes up at just those events and gives them their numbers. -/
theorem numbers_chosen {chosen : Event → Bool} {f : Nat → Nat → Nat}
    (hNumber : ∀ event, chosen event = true → ∀ scopes references,
      (if event.opens then scopes else if event.records then references else 0) =
        f scopes references)
    (hCount : ∀ event scopes references,
      f (scopes + event.opens.toNat) (references + event.records.toNat) =
        f scopes references + (chosen event).toNat)
    (scopes references : Nat) (events : List Event) :
    ((numbered scopes references events).filter fun signal => chosen signal.event).map
        Numbered.number =
      List.range' (f scopes references) (events.filter chosen).length := by
  induction events generalizing scopes references with
  | nil => rfl
  | cons event rest ih =>
      have hRest := ih (scopes + event.opens.toNat) (references + event.records.toNat)
      rw [hCount] at hRest
      cases hChosen : chosen event with
      | false => simpa [numbered, List.filter_cons, hChosen] using hRest
      | true =>
          simpa [numbered, List.filter_cons, hChosen, List.range'_succ, hNumber event hChosen]
            using hRest

theorem numbers_opens (scopes references : Nat) (events : List Event) :
    ((numbered scopes references events).filter fun signal => signal.event.opens).map
        Numbered.number =
      List.range' scopes (events.filter Event.opens).length :=
  numbers_chosen (f := fun scopes _ => scopes) (fun _ hOpens _ _ => if_pos hOpens)
    (fun _ _ _ => rfl) scopes references events

theorem numbers_records (scopes references : Nat) (events : List Event) :
    ((numbered scopes references events).filter fun signal => signal.event.records).map
        Numbered.number =
      List.range' references (events.filter Event.records).length := by
  refine numbers_chosen (f := fun _ references => references)
    (fun event hRecords _ _ => ?_) (fun _ _ _ => rfl) scopes references events
  cases event with
  | use => exact if_pos hRecords
  | _ => cases hRecords

theorem numbers_others {scopes references : Nat} {events : List Event} {signal : Numbered}
    (h : signal ∈ numbered scopes references events) (hOpens : signal.event.opens = false)
    (hRecords : signal.event.records = false) : signal.number = 0 := by
  induction events generalizing scopes references with
  | nil => cases h
  | cons event rest ih =>
      rcases List.mem_cons.1 h with rfl | hRest
      · dsimp only at hOpens hRecords ⊢
        rw [hOpens, hRecords]
        rfl
      · exact ih hRest

theorem opens_event {r : Rearrangement} (event : Event) :
    (r.event event).opens = event.opens := by
  cases event <;> rfl

theorem records_event {r : Rearrangement} (event : Event) :
    (r.event event).records = event.records := by
  cases event <;> rfl

theorem map_eq_range' {signals : List Numbered} {move : Nat → Nat} {count : Nat}
    (h : (signals.map Numbered.number).map move = List.range count) :
    signals.map (fun signal => move signal.number) = List.range' 0 signals.length := by
  have hLength := congrArg List.length h
  rw [List.length_map, List.length_map, List.length_range] at hLength
  rw [hLength, ← List.range_eq_range', ← h, List.map_map]
  rfl

/-- What a walk of a rearranged document tells has the numbers from before,
exchanged. -/
theorem exists_renumbering {r : Rearrangement} {events : List Event} {moved : List Numbered}
    (hMoved : ((numbered 0 0 events).map r.signal).Perm moved) :
    ∃ m : Renumbering, numbered 0 0 (moved.map Numbered.event) = moved.map m.signal := by
  have hNumbers : ∀ (chosen : Event → Bool), (∀ event, chosen (r.event event) = chosen event) →
      (((numbered 0 0 events).filter fun signal => chosen signal.event).map Numbered.number).Perm
        ((moved.filter fun signal => chosen signal.event).map Numbered.number) := by
    intro chosen hSame
    have hPerm := (hMoved.filter fun signal => chosen signal.event).map Numbered.number
    rw [List.filter_map, List.map_map] at hPerm
    have hFilter : (fun signal : Numbered => chosen signal.event) ∘ r.signal =
        fun signal => chosen signal.event := funext fun signal => hSame signal.event
    rw [hFilter] at hPerm
    exact hPerm
  have hOpens := hNumbers Event.opens opens_event
  have hRecords := hNumbers Event.records records_event
  rw [numbers_opens, ← List.range_eq_range'] at hOpens
  rw [numbers_records, ← List.range_eq_range'] at hRecords
  obtain ⟨scopes, hMapScopes⟩ := exists_map_eq_range hOpens.symm
  obtain ⟨references, hMapReferences⟩ := exists_map_eq_range hRecords.symm
  refine ⟨⟨scopes, references⟩, (map_signal_eq_numbered ?_ ?_ ?_).symm⟩
  · exact map_eq_range' hMapScopes
  · exact map_eq_range' hMapReferences
  · intro signal hSignal hNotOpens hNotRecords
    obtain ⟨before, hBefore, rfl⟩ := List.mem_map.1 (hMoved.mem_iff.2 hSignal)
    have hNumber : before.number = 0 :=
      numbers_others hBefore ((opens_event before.event).symm.trans hNotOpens)
        ((records_event before.event).symm.trans hNotRecords)
    exact hNumber

theorem map_snd_log (settings : Settings) (trail : Trail) (signals : List Numbered) :
    (trail.log settings signals).map Prod.snd = signals := by
  induction signals generalizing trail with
  | nil => rfl
  | cons signal rest ih => rw [Trail.log, List.map_cons, ih]

/-- The log of a rearranged program has the entries of the log before, with the
numbers exchanged. -/
theorem exists_programLog_perm {r : Rearrangement} {root : Node} (hSuits : r.SuitsAll root)
    (hUnfailing : Rearrangement.Unfailing (programEvents settings root)) :
    ∃ m : Renumbering, ((programLog settings root).map fun entry => m.entry (r.entry entry)).Perm
      (programLog settings (r.node root)) := by
  obtain ⟨moved, hMoved, hMatches⟩ := Rearrangement.follows_program hSuits hUnfailing
    (numbered 0 0 (programEvents settings root)) (map_event_numbered 0 0 _)
  obtain ⟨-, hLog⟩ := hMatches [] nofun
  have hSignals := hLog.map Prod.snd
  have hMap : ((Trail.log settings [] (numbered 0 0 (programEvents settings root))).map
      r.entry).map Prod.snd = (numbered 0 0 (programEvents settings root)).map r.signal := by
    have hSnd := congrArg (List.map r.signal)
      (map_snd_log settings [] (numbered 0 0 (programEvents settings root)))
    rw [List.map_map] at hSnd ⊢
    exact hSnd
  rw [hMap, map_snd_log] at hSignals
  obtain ⟨m, hNumbered⟩ := exists_renumbering hSignals
  have hEntries := hLog.map m.entry
  rw [List.map_map, ← log_signals, ← hNumbered, hMoved] at hEntries
  exact ⟨m, hEntries⟩

end Renumbering

end Scoping
