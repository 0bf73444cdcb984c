import Scoping.Proofs.Chronicle.Flags

/-! What comes before the body of a function, and what comes after. The numbers
of references and definitions tell, and so does how often a body had begun. -/

namespace Scoping.SymbolTable

variable {settings : Settings} {history : List Entry} {table next : SymbolTable} {trail : Trail}
  {event : Event} {measure : BodyStart → Nat} {position : ScopeId} {bodies number : Nat}

/-- What stood in a scope as its body had begun so often comes before the last
beginning, just if there has been one more. -/
def Precedes (history : List Entry) (table : SymbolTable) (trail : Trail)
    (measure : BodyStart → Nat) (position : ScopeId) (bodies number : Nat) : Prop :=
  ∀ frame, trail.Knows history frame → frame.scope = position →
    ∀ scope, table.scopes[position]? = some scope → scope.kind = .function →
      bodies ≤ frame.bodies ∧
        ((∃ start, scope.bodyStart = some start ∧ number < measure start) ↔ bodies < frame.bodies)

/-- No body has begun later than now. -/
def Bounded (table : SymbolTable) : Prop :=
  ∀ (position : ScopeId) (scope : Scope), table.scopes[position]? = some scope →
    ∀ start ∈ scope.bodyStart,
      start.references ≤ table.references.size ∧ start.definitions ≤ table.definitionCount

theorem definitionCount_define (table : SymbolTable) (scope : ScopeId) (identifier : Node)
    (definition : Definition) :
    (table.define scope identifier definition).definitionCount =
      table.definitionCount + identifier.isIdentifier.toNat := by
  have hCount : (table.declare scope identifier.name).2.definitionCount = table.definitionCount := by
    unfold declare
    split <;> rfl
  unfold define
  split
  · next hIdentifier =>
      rw [hIdentifier]
      exact congrArg (· + 1) hCount
  · next hIdentifier => simp [hIdentifier]

theorem definitionCount_endDeclaration (table : SymbolTable) (node : Node) :
    (table.endDeclaration node).definitionCount = table.definitionCount :=
  endDeclaration_induction (P := fun next => next.definitionCount = table.definitionCount)
    (fun _ _ h => h) rfl node

/-- The number of definitions never falls. -/
theorem definitionCount_apply (h : Nested table table.stack)
    (hOk : table.apply settings event = .ok next) :
    table.definitionCount ≤ next.definitionCount := by
  cases event with
  | enter kind block inMethod =>
      obtain ⟨strict, own, -, hOwn, -, rfl⟩ := enter_eq_ok hOk
      have hAdd : (table.addScope kind block strict).2.definitionCount = table.definitionCount := by
        rw [addScope_snd]
        split <;> rfl
      dsimp only
      rw [← hAdd]
      unfold declareOwn at hOwn
      split at hOwn
      · split at hOwn
        · cases hOwn
          exact Nat.le_refl _
        · cases hOwn
          unfold declare
          split <;> exact Nat.le_refl _
      · obtain ⟨name, -, hNext⟩ := exists_of_bind_ok hOwn
        cases hNext
        rw [definitionCount_define]
        exact Nat.le_add_right _ _
      · cases hOwn
        exact Nat.le_refl _
  | leave block => exact (closes_leaveAll h hOk).2.definitionCount
  | define destination identifier definition =>
      obtain ⟨scope, -, hNext⟩ := exists_of_bind_ok hOk
      cases hNext
      rw [definitionCount_define]
      exact Nat.le_add_right _ _
  | use use =>
      obtain ⟨scope, -, hRecord⟩ := exists_record_of_apply hOk
      rcases record_eq_ok hRecord with ⟨-, rfl⟩ | ⟨-, -, rfl⟩ <;> exact Nat.le_refl _
  | directEval =>
      obtain ⟨scope, -, hNext⟩ := exists_of_bind_ok hOk
      cases hNext
      rw [detectEval_eq]
  | setStrict | thisExpression | bodyStart =>
      obtain ⟨scope, -, hNext⟩ := exists_of_bind_ok hOk
      cases hNext
      exact Nat.le_refl _
  | endDeclaration node =>
      cases hOk
      rw [definitionCount_endDeclaration]
  | fail failure => cases hOk

theorem bounded_apply (h : Follows table trail) (hBounded : Bounded table)
    (hOk : table.apply settings event = .ok next) : Bounded next := by
  intro position after hAfter start hStart
  have hReferences : table.references.size ≤ next.references.size := by
    rw [(sizes_apply h.nested hOk).2]
    exact Nat.le_add_right _ _
  have hDefinitions := definitionCount_apply h.nested hOk
  rcases exists_before h hOk hAfter with ⟨before, hBefore, hChanges⟩ |
    ⟨-, kind, block, inMethod, strict, -, hEq⟩
  · rcases hChanges.bodyStart with ⟨hSame, -⟩ | ⟨hNew, -⟩
    · rw [hSame] at hStart
      obtain ⟨hFirst, hSecond⟩ := hBounded position before hBefore start hStart
      exact ⟨Nat.le_trans hFirst hReferences, Nat.le_trans hSecond hDefinitions⟩
    · rw [hNew, Option.mem_some_iff] at hStart
      subst hStart
      exact ⟨hReferences, hDefinitions⟩
  · rw [hEq] at hStart
    cases hStart

/-- A scope that is open is known by one frame. -/
theorem Recounts.eq_of_scope (h : Recounts history table trail) {first second : Frame}
    (hFirst : first ∈ trail) (hSecond : trail.Knows history second)
    (hSame : second.scope = first.scope) : second = first := by
  rcases hSecond with hOpen | ⟨entry, hEntry, hFrame⟩
  · have hNodup := h.follows.nested.nodup
    rw [h.follows.stack] at hNodup
    exact List.inj_on_of_nodup_map hNodup hOpen hFirst hSame
  · refine absurd ?_ (h.not_mem_of_closed hEntry hFrame)
    rw [hSame, h.follows.stack]
    exact List.mem_map_of_mem hFirst

theorem Frame.scope_mark (frame : Frame) (event : Event) : (frame.mark event).scope = frame.scope := by
  cases event <;> rfl

/-- What comes before the body of a function still does after one more event. -/
theorem precedes_apply (hRecounts : Recounts history table trail)
    (h : Precedes history table trail measure position bodies number)
    (hNumber : number < measure ⟨table.references.size, table.definitionCount⟩)
    (hPosition : position < table.scopes.size) (hOk : table.apply settings event = .ok next) :
    Precedes (history ++ [(trail, table.signalFor event)]) next
      (trail.step settings (table.signalFor event)) measure position bodies number := by
  intro frame hKnows hScope after hAfter hKind
  obtain ⟨found, hFound, hChanges⟩ :=
    changes_apply hRecounts.follows hOk (Array.getElem?_eq_getElem hPosition)
  cases hFound.symm.trans hAfter
  have hBefore := Array.getElem?_eq_getElem hPosition
  rw [hChanges.kind] at hKind
  -- A frame that is known now has just opened, has just been marked, or was known before.
  cases hRecounts.learns (table.signalFor event) hKnows with
  | opened kind block inMethod hEvent hEq =>
      have hFresh : frame.scope = table.scopes.size := by
        rw [hEq]
        obtain rfl : event = .enter kind block inMethod := hEvent
        rfl
      exact absurd hPosition (by rw [← hScope, hFresh]; exact Nat.lt_irrefl _)
  | marked head rest hMarks hTrail hEq =>
      have hHead : trail.Knows history head := .inl (hTrail ▸ List.mem_cons_self)
      have hHere : head.scope = position := by rw [← hScope, hEq, Frame.scope_mark]
      obtain ⟨hLe, hIff⟩ := h head hHead hHere _ hBefore hKind
      have hCurrent : trail.current? = some position := by rw [hTrail, ← hHere]; rfl
      rcases hChanges.bodyStart with ⟨hSame, hNot⟩ | ⟨hNew, rfl, -⟩
      · have hBodies : frame.bodies = head.bodies := by
          rw [hEq]
          cases event with
          | bodyStart => exact absurd ⟨rfl, hCurrent, hKind⟩ hNot
          | _ => rfl
        rw [hSame, hBodies]
        exact ⟨hLe, hIff⟩
      · have hBodies : frame.bodies = head.bodies + 1 := by rw [hEq]; rfl
        rw [hBodies]
        exact ⟨Nat.le_succ_of_le hLe,
          iff_of_true ⟨_, hNew, hNumber⟩ (Nat.lt_succ_of_le hLe)⟩
  | known hOld hOther =>
      obtain ⟨hLe, hIff⟩ := h frame hOld hScope _ hBefore hKind
      rcases hChanges.bodyStart with ⟨hSame, -⟩ | ⟨-, rfl, hCurrent, -⟩
      · rw [hSame]
        exact ⟨hLe, hIff⟩
      · exact absurd (hScope ▸ hCurrent) (hOther trivial)

/-- What an event adds in an open scope comes after all that there is. -/
theorem precedes_new (hRecounts : Recounts history table trail) {frame : Frame}
    (hFrame : frame ∈ trail) (hSilent : event.IsSilent)
    (hOk : table.apply settings event = .ok next)
    (hBounded : ∀ (position : ScopeId) (scope : Scope), table.scopes[position]? = some scope →
      ∀ start ∈ scope.bodyStart, measure start ≤ number) :
    Precedes (history ++ [(trail, table.signalFor event)]) next
      (trail.step settings (table.signalFor event)) measure frame.scope frame.bodies number := by
  intro later hKnows hScope after hAfter _
  obtain ⟨before, hBefore, -⟩ := hRecounts.follows.frame frame hFrame
  obtain ⟨found, hFound, hChanges⟩ := changes_apply hRecounts.follows hOk hBefore
  cases hFound.symm.trans hAfter
  have hSame : after.bodyStart = before.bodyStart := by
    rcases hChanges.bodyStart with ⟨hSame, -⟩ | ⟨-, rfl, -⟩
    · exact hSame
    · exact hSilent.elim
  have hLater : later.bodies = frame.bodies := by
    cases hRecounts.learns (table.signalFor event) hKnows with
    | opened kind block inMethod hEvent hEq =>
        have hFresh : later.scope = table.scopes.size := by
          rw [hEq]
          obtain rfl : event = .enter kind block inMethod := hEvent
          rfl
        have hLt := (hRecounts.follows.holder_lt hFrame).1
        rw [← hScope, hFresh] at hLt
        exact absurd hLt (Nat.lt_irrefl _)
    | marked head rest hMarks hTrail hEq =>
        cases event <;> first | exact hMarks.elim | exact hSilent.elim
    | known hOld hOther => rw [hRecounts.eq_of_scope hFrame hOld hScope]
  rw [hLater, hSame]
  refine ⟨Nat.le_refl _, iff_of_false ?_ (Nat.lt_irrefl _)⟩
  rintro ⟨start, hStart, hLt⟩
  exact Nat.not_lt.2 (hBounded _ before hBefore start hStart) hLt

/-- The references of the entries come before the bodies of functions, or after
them, as the entries tell. -/
structure Timed (history : List Entry) (table : SymbolTable) (trail : Trail) : Prop where
  bounded : Bounded table
  references : ∀ entry ∈ history, entry.2.event.records = true →
    entry.2.number < table.references.size ∧ ∀ frame ∈ entry.1,
      Precedes history table trail BodyStart.references frame.scope frame.bodies entry.2.number

theorem timed_empty : Timed [] {} [] :=
  ⟨fun _ _ h => by simp at h, fun _ hEntry => (nomatch hEntry)⟩

theorem timed_apply (hRecounts : Recounts history table trail) (h : Timed history table trail)
    (hOk : table.apply settings event = .ok next) :
    Timed (history ++ [(trail, table.signalFor event)]) next
      (trail.step settings (table.signalFor event)) := by
  have hSize := (sizes_apply hRecounts.follows.nested hOk).2
  refine ⟨bounded_apply hRecounts.follows h.bounded hOk, fun entry hEntry hRecords => ?_⟩
  rcases List.mem_append.1 hEntry with hOld | hNew
  · obtain ⟨hLt, hPrecedes⟩ := h.references entry hOld hRecords
    refine ⟨?_, fun frame hFrame => precedes_apply hRecounts (hPrecedes frame hFrame) hLt
      (hRecounts.earlier entry hOld frame hFrame).1 hOk⟩
    rw [hSize]
    exact Nat.lt_of_lt_of_le hLt (Nat.le_add_right _ _)
  · obtain rfl := List.mem_singleton.1 hNew
    have hEvent : event.records = true := hRecords
    have hOpens : event.opens = false := by
      cases event <;> first | rfl | cases hEvent
    have hNumber : (table.signalFor event).number = table.references.size := by
      simp [signalFor, hOpens, hEvent]
    have hSilent : event.IsSilent := by
      cases event <;> trivial
    rw [hNumber, hSize, hEvent]
    refine ⟨Nat.lt_succ_self _, fun frame hFrame => precedes_new hRecounts hFrame hSilent hOk ?_⟩
    exact fun position scope hScope start hStart => (h.bounded position scope hScope start hStart).1

end Scoping.SymbolTable
