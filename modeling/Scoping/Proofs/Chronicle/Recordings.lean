import Scoping.Proofs.Chronicle.History

/-! The references of a table: one for each use that the walk has gone through,
in the scope that was the current one. -/

namespace Scoping

/-- A use as it is recorded. In strict code it makes no global. -/
def Use.under (use : Use) (strict : Bool) : Use :=
  if strict then { use with implicitGlobal := none } else use

theorem Use.identifier_under (use : Use) (strict : Bool) :
    (use.under strict).identifier = use.identifier := by
  unfold Use.under
  split <;> rfl

/-- The use at an entry, in the scope that is the current one there. -/
structure Entry.Records (entry : Entry) (frame : Frame) (use : Use) : Prop where
  event : entry.2.event = .use use
  isIdentifier : use.identifier.isIdentifier = true
  current : entry.1.head? = some frame

namespace SymbolTable

/-- A use at an entry is recorded, and nothing else is. -/
structure Recordings (history : List Entry) (table : SymbolTable) : Prop where
  recorded : ∀ entry ∈ history, ∀ frame use, Entry.Records entry frame use →
    ∃ reference, table.references[entry.2.number]? = some reference ∧
      reference.toUse = use.under frame.strict ∧ reference.scope = frame.scope
  known : ∀ (id : ReferenceId) (reference : Reference), table.references[id]? = some reference →
    ∃ entry ∈ history, entry.2.number = id ∧ ∃ frame use, Entry.Records entry frame use

variable {settings : Settings} {history : List Entry} {table next : SymbolTable} {trail : Trail}
  {event : Event} {id : ReferenceId}

theorem lt_of_getElem?_references {reference : Reference}
    (h : table.references[id]? = some reference) : id < table.references.size :=
  (Array.getElem?_eq_some_iff.1 h).1

/-- A reference keeps what it is a use of, and where it stands. -/
theorem reference_apply (h : Nested table table.stack)
    (hOk : table.apply settings event = .ok next) {before : Reference}
    (hBefore : table.references[id]? = some before) :
    ∃ after, next.references[id]? = some after ∧ after.toUse = before.toUse ∧
      after.scope = before.scope := by
  cases event with
  | enter kind block inMethod =>
      obtain ⟨-, -, hReferences, -⟩ := nested_enter h hOk
      exact ⟨before, hReferences ▸ hBefore, rfl, rfl⟩
  | leave block =>
      obtain ⟨after, hAfter, hSettles⟩ := (closes_leaveAll h hOk).2.reference id before hBefore
      exact ⟨after, hAfter, by rw [hSettles], by rw [hSettles]⟩
  | use use =>
      obtain ⟨scope, -, hRecord⟩ := exists_record_of_apply hOk
      have hNe : id ≠ table.references.size := Nat.ne_of_lt (lt_of_getElem?_references hBefore)
      refine ⟨before, ?_, rfl, rfl⟩
      rw [(spares_record h hRecord).2.1.reference id hNe, hBefore]
  | fail failure => cases hOk
  | setStrict | define | directEval | thisExpression | bodyStart | endDeclaration =>
      have hAdvances := advances_apply h (by trivial) hOk
      exact ⟨before, hAdvances.references ▸ hBefore, rfl, rfl⟩

theorem Follows.useIn_eq {frame : Frame} {rest : Trail} (h : Follows table (frame :: rest))
    (use : Use) : table.useIn frame.scope use = use.under frame.strict := by
  obtain ⟨scope, hScope, hDescribes⟩ := h.frame frame List.mem_cons_self
  rw [useIn, hScope, Option.any_some, hDescribes.strict, Use.under]

/-- What a use adds to the references. -/
theorem exists_reference_of_use (h : Follows table trail) {use : Use}
    (hIdentifier : use.identifier.isIdentifier = true)
    (hOk : table.apply settings (.use use) = .ok next) :
    ∃ frame rest, trail = frame :: rest ∧
      next.references[table.references.size]? =
        some { use.under frame.strict with scope := frame.scope } := by
  obtain ⟨scope, hCurrent, hRecord⟩ := exists_of_bind_ok hOk
  obtain ⟨frame, rest, rfl, rfl⟩ := h.head hCurrent
  refine ⟨frame, rest, rfl, ?_⟩
  rw [h.useIn_eq] at hRecord
  rcases record_eq_ok hRecord with ⟨hNone, -⟩ | ⟨-, -, rfl⟩
  · rw [Use.identifier_under, hIdentifier] at hNone
    cases hNone
  · simp

theorem recordings_empty : Recordings [] {} :=
  ⟨fun _ hEntry => (nomatch hEntry), fun _ _ h => by simp at h⟩

theorem recordings_apply (hRecounts : Recounts history table trail) (h : Recordings history table)
    (hOk : table.apply settings event = .ok next) :
    Recordings (history ++ [(trail, table.signalFor event)]) next := by
  have hFollows := hRecounts.follows
  have hNumber : ∀ {use : Use}, use.identifier.isIdentifier = true →
      (table.signalFor (.use use)).number = table.references.size := fun hIdentifier => by
    simp [signalFor, Event.opens, Event.records, hIdentifier]
  refine ⟨fun entry hEntry frame use hRecords => ?_, fun id reference hFound => ?_⟩
  · rcases List.mem_append.1 hEntry with hOld | hNew
    · obtain ⟨before, hBefore, hUse, hScope⟩ := h.recorded entry hOld frame use hRecords
      obtain ⟨after, hAfter, hSame, hHome⟩ := reference_apply hFollows.nested hOk hBefore
      exact ⟨after, hAfter, hSame.trans hUse, hHome.trans hScope⟩
    · obtain rfl := List.mem_singleton.1 hNew
      obtain ⟨rfl, hIdentifier, hCurrent⟩ := hRecords
      obtain ⟨head, rest, rfl, hAdded⟩ := exists_reference_of_use hFollows hIdentifier hOk
      cases hCurrent
      rw [hNumber hIdentifier]
      exact ⟨_, hAdded, rfl, rfl⟩
  · by_cases hOld : id < table.references.size
    · obtain ⟨entry, hEntry, hRest⟩ := h.known id _ (Array.getElem?_eq_getElem hOld)
      exact ⟨entry, List.mem_append_left _ hEntry, hRest⟩
    · have hLt := lt_of_getElem?_references hFound
      rw [(sizes_apply hFollows.nested hOk).2] at hLt
      have hRecords : event.records = true := by
        cases hCase : event.records with
        | true => rfl
        | false =>
            rw [hCase] at hLt
            exact absurd hLt hOld
      rw [hRecords] at hLt
      have hEq : id = table.references.size :=
        Nat.le_antisymm (Nat.le_of_lt_succ hLt) (Nat.le_of_not_lt hOld)
      cases event with
      | use use =>
          obtain ⟨head, rest, rfl, -⟩ := exists_reference_of_use hFollows hRecords hOk
          exact ⟨_, List.mem_append_right _ List.mem_cons_self, hEq ▸ hNumber hRecords, head, use,
            rfl, hRecords, rfl⟩
      | _ => cases hRecords

end SymbolTable

end Scoping
