import Scoping.Proofs.Chronicle.Changes

/-! The entries that a walk has gone through, and what they say of the scopes
that it has opened. -/

namespace Scoping

/-- An event with the scopes that are open as it comes. -/
abbrev Entry := Trail × Numbered

namespace Trail

/-- The scopes that an event closes, innermost first. -/
def closing (trail : Trail) : Event → List Frame
  | .leave block => trail.takeWhile fun frame => frame.block == block
  | _ => []

/-- A scope that is open, or that has been closed, as it was then. -/
def Knows (history : List Entry) (trail : Trail) (frame : Frame) : Prop :=
  frame ∈ trail ∨ ∃ entry ∈ history, frame ∈ entry.1.closing entry.2.event

theorem closing_subset {trail : Trail} {event : Event} {frame : Frame}
    (h : frame ∈ trail.closing event) : frame ∈ trail := by
  cases event with
  | leave block => exact (List.takeWhile_prefix _).subset h
  | _ => cases h

end Trail

/-- What an event that marks the current scope does to its frame. -/
def Frame.mark (frame : Frame) : Event → Frame
  | .setStrict strict => { frame with strict := strict }
  | .bodyStart => { frame with bodies := frame.bodies + 1 }
  | _ => frame

/-- A scope that is known after an event has been opened by it or marked by it,
or was known before. -/
inductive Trail.Learns (settings : Settings) (history : List Entry) (trail : Trail)
    (signal : Numbered) (frame : Frame) : Prop where
  | opened (kind : ScopeKind) (block : Node) (inMethod : Bool)
      (event : signal.event = .enter kind block inMethod)
      (eq : frame = trail.opening settings signal.number kind block inMethod)
  | marked (head : Frame) (rest : Trail) (marks : signal.event.Marks) (trail_eq : trail = head :: rest)
      (eq : frame = head.mark signal.event)
  | known (before : trail.Knows history frame)
      (other : signal.event.Marks → trail.current? ≠ some frame.scope)

namespace SymbolTable

/-- What the entries of a walk say of the scopes that it has opened. Each of
these is open, or has been closed at one of the entries. -/
structure Recounts (history : List Entry) (table : SymbolTable) (trail : Trail) : Prop where
  follows : Follows table trail
  closed : ∀ entry ∈ history, ∀ frame ∈ entry.1.closing entry.2.event,
    ∃ scope, table.scopes[frame.scope]? = some scope ∧ frame.Describes scope ∧
      scope.pending = none
  shown : ∀ (position : ScopeId) (scope : Scope), table.scopes[position]? = some scope →
    ∃ frame, trail.Knows history frame ∧ frame.scope = position
  earlier : ∀ entry ∈ history, ∀ frame ∈ entry.1,
    frame.scope < table.scopes.size ∧ frame.holder < table.scopes.size

variable {settings : Settings} {history : List Entry} {table next : SymbolTable} {trail : Trail}
  {event : Event} {frame : Frame}

theorem Recounts.describes (h : Recounts history table trail) (hKnows : trail.Knows history frame) :
    ∃ scope, table.scopes[frame.scope]? = some scope ∧ frame.Describes scope := by
  rcases hKnows with hOpen | ⟨entry, hEntry, hFrame⟩
  · exact h.follows.frame frame hOpen
  · obtain ⟨scope, hScope, hDescribes, -⟩ := h.closed entry hEntry frame hFrame
    exact ⟨scope, hScope, hDescribes⟩

theorem Recounts.not_mem_of_closed (h : Recounts history table trail) {entry : Entry}
    (hEntry : entry ∈ history) (hFrame : frame ∈ entry.1.closing entry.2.event) :
    frame.scope ∉ table.stack := by
  obtain ⟨scope, hScope, -, hClosed⟩ := h.closed entry hEntry frame hFrame
  rw [← h.follows.nested.open_iff _ scope hScope, hClosed]
  exact Bool.false_ne_true

/-- Only the current scope has the number of the current one. -/
theorem Recounts.current?_ne (h : Recounts history table trail) {head : Frame} {rest : Trail}
    (hTrail : trail = head :: rest)
    (hFrame : frame ∈ rest ∨ ∃ entry ∈ history, frame ∈ entry.1.closing entry.2.event) :
    trail.current? ≠ some frame.scope := by
  subst hTrail
  have hStack := h.follows.stack
  rw [List.map_cons] at hStack
  intro hEq
  have hSame : head.scope = frame.scope := Option.some.inj hEq
  rcases hFrame with hRest | ⟨entry, hEntry, hFrame⟩
  · have hNodup := h.follows.nested.nodup
    rw [hStack, List.nodup_cons] at hNodup
    exact hNodup.1 (hSame ▸ List.mem_map_of_mem hRest)
  · refine h.not_mem_of_closed hEntry hFrame ?_
    rw [hStack, ← hSame]
    exact List.mem_cons_self

/-- Where a scope that is known after an event comes from. -/
theorem Recounts.learns (h : Recounts history table trail) (signal : Numbered)
    (hKnows : (trail.step settings signal).Knows (history ++ [(trail, signal)]) frame) :
    trail.Learns settings history signal frame := by
  -- What is closed was so before, or is closed by this event.
  have hPast : (∃ entry ∈ history ++ [(trail, signal)], frame ∈ entry.1.closing entry.2.event) →
      (∃ entry ∈ history, frame ∈ entry.1.closing entry.2.event) ∨
        frame ∈ trail.closing signal.event := by
    rintro ⟨entry, hEntry, hFrame⟩
    rcases List.mem_append.1 hEntry with hOld | hNew
    · exact .inl ⟨entry, hOld, hFrame⟩
    · rw [List.mem_singleton.1 hNew] at hFrame
      exact .inr hFrame
  obtain ⟨number, event⟩ := signal
  cases event with
  | enter kind block inMethod =>
      rcases hKnows with hOpen | hClosed
      · rcases List.mem_cons.1 hOpen with rfl | hRest
        · exact .opened kind block inMethod rfl rfl
        · exact .known (.inl hRest) nofun
      · rcases hPast hClosed with hOld | hNew
        · exact .known (.inr hOld) nofun
        · cases hNew
  | leave block =>
      rcases hKnows with hOpen | hClosed
      · exact .known (.inl ((List.dropWhile_suffix _).subset hOpen)) nofun
      · rcases hPast hClosed with hOld | hNew
        · exact .known (.inr hOld) nofun
        · exact .known (.inl (Trail.closing_subset hNew)) nofun
  | setStrict | bodyStart =>
      cases trail with
      | nil =>
          rcases hKnows with hOpen | hClosed
          · cases hOpen
          · exact .known (.inr ((hPast hClosed).resolve_right nofun)) nofun
      | cons head rest =>
          rcases hKnows with hOpen | hClosed
          · rcases List.mem_cons.1 hOpen with rfl | hRest
            · exact .marked head rest trivial rfl rfl
            · exact .known (.inl (List.mem_cons_of_mem _ hRest))
                fun _ => h.current?_ne rfl (.inl hRest)
          · have hOld := (hPast hClosed).resolve_right nofun
            exact .known (.inr hOld) fun _ => h.current?_ne rfl (.inr hOld)
  | define | use | directEval | thisExpression | endDeclaration | fail =>
      rcases hKnows with hOpen | hClosed
      · exact .known (.inl hOpen) nofun
      · exact .known (.inr ((hPast hClosed).resolve_right nofun)) nofun

theorem recounts_empty : Recounts [] {} [] where
  follows := follows_empty
  closed := fun _ hEntry => nomatch hEntry
  shown := fun _ _ h => by simp at h
  earlier := fun _ hEntry => nomatch hEntry

/-- A scope is known by its number all along. -/
theorem Trail.Knows.exists_step {signal : Numbered} (h : trail.Knows history frame) :
    ∃ later, (trail.step settings signal).Knows (history ++ [(trail, signal)]) later ∧
      later.scope = frame.scope := by
  rcases h with hOpen | ⟨entry, hEntry, hFrame⟩
  · obtain ⟨number, event⟩ := signal
    cases event with
    | enter kind block inMethod => exact ⟨frame, .inl (List.mem_cons_of_mem _ hOpen), rfl⟩
    | leave block =>
        rw [← List.takeWhile_append_dropWhile (p := fun frame : Frame => frame.block == block)
          (l := trail), List.mem_append] at hOpen
        rcases hOpen with hCloses | hStays
        · exact ⟨frame, .inr ⟨_, List.mem_append_right _ List.mem_cons_self, hCloses⟩, rfl⟩
        · exact ⟨frame, .inl hStays, rfl⟩
    | setStrict | bodyStart =>
        cases trail with
        | nil => cases hOpen
        | cons head rest =>
            rcases List.mem_cons.1 hOpen with rfl | hRest
            · exact ⟨_, .inl List.mem_cons_self, rfl⟩
            · exact ⟨frame, .inl (List.mem_cons_of_mem _ hRest), rfl⟩
    | define | use | directEval | thisExpression | endDeclaration | fail =>
        exact ⟨frame, .inl hOpen, rfl⟩
  · exact ⟨frame, .inr ⟨entry, List.mem_append_left _ hEntry, hFrame⟩, rfl⟩

theorem Follows.holder_lt (h : Follows table trail) (hFrame : frame ∈ trail) :
    frame.scope < table.scopes.size ∧ frame.holder < table.scopes.size := by
  obtain ⟨scope, hScope, hDescribes⟩ := h.frame frame hFrame
  refine ⟨lt_of_getElem?_scopes hScope, ?_⟩
  rw [← hDescribes.variableScope]
  exact Nat.lt_of_le_of_lt (le_of_mem_enclosing (h.nested.holder _ scope hScope))
    (lt_of_getElem?_scopes hScope)

/-- What has been closed stays so, and as it was then. -/
theorem Recounts.closed_apply (h : Recounts history table trail)
    (hOk : table.apply settings event = .ok next) {entry : Entry} (hEntry : entry ∈ history)
    (hFrame : frame ∈ entry.1.closing entry.2.event) :
    ∃ after, next.scopes[frame.scope]? = some after ∧ frame.Describes after ∧
      after.pending = none := by
  obtain ⟨before, hBefore, hDescribes, hClosed⟩ := h.closed entry hEntry frame hFrame
  obtain ⟨after, hAfter, hChanges⟩ := changes_apply h.follows hOk hBefore
  have hStrict : after.strict = before.strict := by
    rcases hChanges.strict with hSame | ⟨hCurrent, -⟩
    · exact hSame
    · refine absurd ?_ (h.not_mem_of_closed hEntry hFrame)
      rw [h.follows.current?] at hCurrent
      exact List.mem_of_mem_head? hCurrent
  exact ⟨after, hAfter, ⟨hChanges.kind.trans hDescribes.kind,
    hChanges.block.trans hDescribes.block, hChanges.upper.trans hDescribes.upper,
    hChanges.variableScope.trans hDescribes.variableScope, hStrict.trans hDescribes.strict⟩,
    hChanges.closed hClosed⟩

/-- The scopes that the end of a node closes are closed after it. -/
theorem Follows.closed_leave (h : Follows table trail) {block : Node}
    (hOk : table.leaveAll settings block = .ok next)
    (hFrame : frame ∈ trail.closing (.leave block)) :
    ∃ after, next.scopes[frame.scope]? = some after ∧ frame.Describes after ∧
      after.pending = none := by
  obtain ⟨before, hBefore, hDescribes⟩ := h.frame frame (Trail.closing_subset hFrame)
  obtain ⟨hSplit, hCloses⟩ := closes_leaveAll h.nested hOk
  obtain ⟨after, hAfter, hSettles⟩ := hCloses.scope _ before hBefore
  have hLeaving : frame.scope ∈ table.leaving block := by
    rw [(h.split block).1]
    exact List.mem_map_of_mem hFrame
  have hGone : frame.scope ∉ next.stack := fun hMem => by
    have hNodup := h.nested.nodup
    rw [hSplit, List.nodup_append] at hNodup
    exact hNodup.2.2 _ hLeaving _ hMem rfl
  rw [← hCloses.nested.open_iff _ after hAfter] at hGone
  refine ⟨after, hAfter, ?_, by simpa using hGone⟩
  rw [hSettles]
  exact ⟨hDescribes.kind, hDescribes.block, hDescribes.upper, hDescribes.variableScope,
    hDescribes.strict⟩

theorem recounts_apply (h : Recounts history table trail)
    (hOk : table.apply settings event = .ok next) :
    Recounts (history ++ [(trail, table.signalFor event)]) next
      (trail.step settings (table.signalFor event)) := by
  have hSize := (sizes_apply h.follows.nested hOk).1
  refine ⟨follows_apply h.follows (fits_signalFor table event) hOk, ?_, ?_, ?_⟩
  · intro entry hEntry frame hFrame
    rcases List.mem_append.1 hEntry with hOld | hNew
    · exact h.closed_apply hOk hOld hFrame
    · rw [List.mem_singleton.1 hNew] at hFrame
      cases event with
      | leave block => exact h.follows.closed_leave hOk hFrame
      | _ => cases hFrame
  · intro position scope hScope
    by_cases hOld : position < table.scopes.size
    · obtain ⟨frame, hKnows, rfl⟩ := h.shown position _ (Array.getElem?_eq_getElem hOld)
      exact Trail.Knows.exists_step hKnows
    · have hLt := lt_of_getElem?_scopes hScope
      rw [hSize] at hLt
      cases event with
      | enter kind block inMethod =>
          have hEq : position = table.scopes.size :=
            Nat.le_antisymm (Nat.le_of_lt_succ hLt) (Nat.le_of_not_lt hOld)
          exact ⟨_, .inl List.mem_cons_self, hEq.symm⟩
      | _ => exact absurd hLt hOld
  · intro entry hEntry frame hFrame
    have hBefore : frame.scope < table.scopes.size ∧ frame.holder < table.scopes.size := by
      rcases List.mem_append.1 hEntry with hOld | hNew
      · exact h.earlier entry hOld frame hFrame
      · rw [List.mem_singleton.1 hNew] at hFrame
        exact h.follows.holder_lt hFrame
    have hLe : table.scopes.size ≤ next.scopes.size := by
      rw [hSize]
      exact Nat.le_add_right _ _
    exact ⟨Nat.lt_of_lt_of_le hBefore.1 hLe, Nat.lt_of_lt_of_le hBefore.2 hLe⟩

/-- What every event keeps of a table and the entries up to it holds of a table
and all the entries of its walk. -/
theorem recounts_induction {P : List Entry → SymbolTable → Trail → Prop}
    (hStep : ∀ (history : List Entry) (table next : SymbolTable) (trail : Trail) (event : Event),
      Recounts history table trail → P history table trail →
        table.apply settings event = .ok next →
          P (history ++ [(trail, table.signalFor event)]) next
            (trail.step settings (table.signalFor event)))
    {events : List Event} (h : Recounts history table trail) (hTable : P history table trail)
    (hOk : table.run settings events = .ok next) :
    Recounts (history ++ trail.log settings (table.signals events)) next
        (trail.steps settings (table.signals events)) ∧
      P (history ++ trail.log settings (table.signals events)) next
        (trail.steps settings (table.signals events)) := by
  induction events generalizing history table trail with
  | nil =>
      cases hOk
      rw [signals, numbered, Trail.log, List.append_nil]
      exact ⟨h, hTable⟩
  | cons event events ih =>
      obtain ⟨middle, hMiddle, hRest⟩ := exists_of_bind_ok hOk
      have hNext := ih (recounts_apply h hMiddle) (hStep _ _ _ _ _ h hTable hMiddle) hRest
      rw [signals_cons h.follows.nested hMiddle]
      rw [List.append_assoc] at hNext
      exact hNext

end SymbolTable

end Scoping
