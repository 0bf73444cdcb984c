import Scoping.Proofs.Chronicle.Notes

/-! The names of each scope, with all that declares them, are what the entries
of the walk say. -/

namespace Scoping.SymbolTable

variable {settings : Settings} {history : List Entry} {table next : SymbolTable} {trail : Trail}
  {event : Event}

/-- What a note says of a definition. -/
structure Makes (history : List Entry) (table : SymbolTable) (trail : Trail) (note : Note)
    (definition : Definition) : Prop where
  eq : definition = { note.definition with serial := definition.serial }
  serial : definition.serial < table.definitionCount
  placed : note.scope < table.scopes.size
  precedes : Precedes history table trail BodyStart.definitions note.scope note.bodies
    definition.serial

/-- All that declares a name is what the notes say. -/
structure Reports (history : List Entry) (table : SymbolTable) (trail : Trail) (notes : List Note)
    (naming : Naming) : Prop where
  identifiers : naming.identifiers.toList = notes.map Note.identifier
  definitions : List.Forall₂ (Makes history table trail) notes naming.definitions.toList

/-- The names of all scopes are those that the entries declare. -/
structure Noted (settings : Settings) (history : List Entry) (table : SymbolTable)
    (trail : Trail) : Prop where
  reports : ∀ (scope : ScopeId) (name : String), Reports history table trail
    (notesOf settings history scope name) ((table.namingIn Scope.variables scope name).getD {})
  isSome : ∀ (scope : ScopeId) (name : String),
    (table.namingIn Scope.variables scope name).isSome = true ↔
      notesOf settings history scope name ≠ [] ∨
        (name = "arguments" ∧ ∃ entry ∈ history, Entry.OpensArguments entry scope)

theorem noted_empty : Noted settings [] {} [] := by
  have hNone : ∀ (scope : ScopeId) (name : String),
      ({} : SymbolTable).namingIn Scope.variables scope name = none := fun scope name => by
    simp [namingIn, lookupIn]
  refine ⟨fun scope name => ?_, fun scope name => ?_⟩
  · rw [hNone]
    exact ⟨rfl, .nil⟩
  · rw [hNone]
    simp [notesOf]

/-- What a note says of a definition stays so after one more event. -/
theorem Makes.apply {note : Note} {definition : Definition} (hRecounts : Recounts history table trail)
    (h : Makes history table trail note definition) (hOk : table.apply settings event = .ok next) :
    Makes (history ++ [(trail, table.signalFor event)]) next
      (trail.step settings (table.signalFor event)) note definition where
  eq := h.eq
  serial := Nat.lt_of_lt_of_le h.serial (definitionCount_apply hRecounts.follows.nested hOk)
  placed := by
    rw [(sizes_apply hRecounts.follows.nested hOk).1]
    exact Nat.lt_of_lt_of_le h.placed (Nat.le_add_right _ _)
  precedes := precedes_apply hRecounts h.precedes h.serial h.placed hOk

/-- What a note says of the definition that is made at its entry. -/
theorem makes_new {note : Note} (hRecounts : Recounts history table trail)
    (hBounded : Bounded table) (hOk : table.apply settings event = .ok next)
    (hNote : Entry.note? settings (trail, table.signalFor event) = some note) :
    Makes (history ++ [(trail, table.signalFor event)]) next
      (trail.step settings (table.signalFor event)) note
      { note.definition with serial := table.definitionCount } := by
  have hSize := (sizes_apply hRecounts.follows.nested hOk).1
  -- Two events make a definition: one that says so, and one that opens a scope for the name
  -- of a function.
  cases event with
  | define destination identifier definition =>
      obtain ⟨scope, -, hNext⟩ := exists_of_bind_ok hOk
      simp only [Entry.note?, signalFor] at hNote
      split at hNote
      · next hIdentifier =>
          obtain ⟨frame, hDestination, rfl⟩ := Option.map_eq_some_iff.1 hNote
          obtain ⟨current, hCurrent, -⟩ := exists_of_bind_ok hOk
          obtain ⟨found, hFrame, hFound, -⟩ :=
            hRecounts.follows.destination_eq settings hCurrent destination
          cases hFound.symm.trans hDestination
          refine ⟨rfl, ?_, ?_, ?_⟩
          · cases hNext
            rw [definitionCount_define, hIdentifier]
            exact Nat.lt_succ_self _
          · rw [hSize]
            exact Nat.lt_of_lt_of_le (hRecounts.follows.holder_lt hFrame).1 (Nat.le_add_right _ _)
          · exact precedes_new hRecounts hFrame trivial hOk fun position scope hScope start hStart =>
              (hBounded position scope hScope start hStart).2
      · cases hNote
  | enter kind block inMethod =>
      cases kind with
      | functionName =>
          obtain ⟨strict, own, -, hOwn, -, hNext⟩ := enter_eq_ok hOk
          obtain ⟨child, hChild, hDefine⟩ := exists_of_bind_ok hOwn
          simp only [Entry.note?, signalFor, hChild] at hNote
          split at hNote
          · next hIdentifier =>
              cases hNote
              refine ⟨rfl, ?_, ?_, ?_⟩
              · cases hDefine
                rw [hNext]
                dsimp only
                rw [definitionCount_define, hIdentifier, addScope_snd]
                split <;> exact Nat.lt_succ_self _
              · rw [hSize]
                exact Nat.lt_succ_self _
              · intro frame hKnows hScope scope hFound hKind
                obtain ⟨-, ⟨_, -, fresh, hFresh, hEq⟩, -⟩ := scopes_enter hRecounts.follows.nested hOk
                cases hFresh.symm.trans hFound
                rw [hEq] at hKind
                cases hKind
          · cases hNote
      | _ => cases hNote
  | _ => cases hNote

theorem filter_note?_eq_nil {entry : Entry} {scope : ScopeId} {name : String}
    (h : ∀ note ∈ entry.note? settings, ¬ (note.scope = scope ∧ note.identifier.name = name)) :
    (entry.note? settings).toList.filter
      (fun note => note.scope = scope ∧ note.identifier.name = name) = [] := by
  rw [List.filter_eq_nil_iff]
  intro note hNote
  rw [decide_eq_true_eq]
  exact h note (Option.mem_toList.1 hNote)

theorem noted_apply (hRecounts : Recounts history table trail) (hNamed : table.Named)
    (hBounded : Bounded table) (h : Noted settings history table trail)
    (hOk : table.apply settings event = .ok next) :
    Noted settings (history ++ [(trail, table.signalFor event)]) next
      (trail.step settings (table.signalFor event)) := by
  have hOpens : ∀ scope, (∃ entry ∈ history ++ [(trail, table.signalFor event)],
      Entry.OpensArguments entry scope) ↔ (∃ entry ∈ history, Entry.OpensArguments entry scope) ∨
        Entry.OpensArguments (trail, table.signalFor event) scope :=
    fun scope => exists_mem_concat
  have hOld : ∀ (scope : ScopeId) (name : String), List.Forall₂
      (Makes (history ++ [(trail, table.signalFor event)]) next
        (trail.step settings (table.signalFor event))) (notesOf settings history scope name)
        ((table.namingIn Scope.variables scope name).getD {}).definitions.toList :=
    fun scope name => (h.reports scope name).definitions.imp
      fun note definition hMakes => hMakes.apply hRecounts hOk
  refine ⟨fun scope name => ?_, fun scope name => ?_⟩
  · rw [notesOf_concat]
    cases namesChange_apply hRecounts.follows hNamed hOk scope name with
    | defined note hNote hScope hName hNaming =>
        have hAdded : (Entry.note? settings (trail, table.signalFor event)).toList.filter
            (fun note => note.scope = scope ∧ note.identifier.name = name) = [note] := by
          simp [hNote, hScope, hName]
        rw [hAdded, hNaming]
        refine ⟨?_, ?_⟩
        · simp [Naming.add, (h.reports scope name).identifiers]
        · simp only [Option.getD_some, Naming.add, Array.toList_push]
          exact List.rel_append (hOld scope name) (.cons (makes_new hRecounts hBounded hOk hNote) .nil)
    | kept hOther hSame hIsSome =>
        rw [filter_note?_eq_nil hOther, hSame, List.append_nil]
        exact ⟨(h.reports scope name).identifiers, hOld scope name⟩
  · rw [notesOf_concat, hOpens]
    cases namesChange_apply hRecounts.follows hNamed hOk scope name with
    | defined note hNote hScope hName hNaming =>
        have hAdded : note ∈ (Entry.note? settings (trail, table.signalFor event)).toList.filter
            (fun note => note.scope = scope ∧ note.identifier.name = name) := by
          simp [hNote, hScope, hName]
        rw [hNaming]
        refine iff_of_true rfl (.inl fun hNil => ?_)
        rw [List.append_eq_nil_iff] at hNil
        rw [hNil.2] at hAdded
        cases hAdded
    | kept hOther hSame hIsSome =>
        rw [filter_note?_eq_nil hOther, List.append_nil, hIsSome, h.isSome, and_or_left, or_assoc]

end Scoping.SymbolTable
