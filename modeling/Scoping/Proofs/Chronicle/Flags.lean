import Scoping.Proofs.Chronicle.History

/-! The flags of a scope: each is set by the entries that the walk has gone
through, and by nothing else. -/

namespace Scoping

/-- A call of eval at an entry makes a scope dynamic. -/
def Entry.Clouds (entry : Entry) (scope : ScopeId) : Prop :=
  entry.2.event = .directEval ∧ scope ∈ entry.1.outward

/-- An entry is of this event, and a `var` there goes to the scope. -/
def Entry.HoldsAt (entry : Entry) (event : Event) (scope : ScopeId) : Prop :=
  entry.2.event = event ∧ entry.1.holder? = some scope

namespace SymbolTable

/-- The flags of all scopes are those that the entries set. -/
structure Flags (history : List Entry) (table : SymbolTable) : Prop where
  directEval : ∀ (position : ScopeId) (scope : Scope), table.scopes[position]? = some scope →
    (scope.directEval = true ↔ ∃ entry ∈ history, Entry.HoldsAt entry .directEval position)
  usesThis : ∀ (position : ScopeId) (scope : Scope), table.scopes[position]? = some scope →
    (scope.usesThis = true ↔ ∃ entry ∈ history, Entry.HoldsAt entry .thisExpression position)
  dynamic : ∀ (position : ScopeId) (scope : Scope), table.scopes[position]? = some scope →
    (scope.dynamic = true ↔ scope.kind = .withBody ∨
      ∃ entry ∈ history, Entry.Clouds entry position)

variable {settings : Settings} {history : List Entry} {table next : SymbolTable} {trail : Trail}
  {event : Event} {position : ScopeId}

theorem exists_mem_concat {p : Entry → Prop} {entry : Entry} :
    (∃ other ∈ history ++ [entry], p other) ↔ (∃ other ∈ history, p other) ∨ p entry := by
  simp only [List.mem_append, List.mem_singleton, or_and_right, exists_or, exists_eq_left]

/-- No entry sets a flag of a scope that is still to be opened. -/
theorem Recounts.not_holdsAt (h : Recounts history table trail) {entry : Entry}
    (hEntry : entry ∈ history) (event : Event) :
    ¬ Entry.HoldsAt entry event table.scopes.size := by
  rintro ⟨-, hHolder⟩
  obtain ⟨frame, hFrame, hEq⟩ := Option.map_eq_some_iff.1 hHolder
  have hLt := (h.earlier entry hEntry frame (List.mem_of_mem_head? hFrame)).2
  rw [hEq] at hLt
  exact Nat.lt_irrefl _ hLt

theorem Recounts.not_clouds (h : Recounts history table trail) {entry : Entry}
    (hEntry : entry ∈ history) : ¬ Entry.Clouds entry table.scopes.size := by
  rintro ⟨-, hMem⟩
  obtain ⟨frame, hFrame, hEq⟩ := List.mem_map.1 (Trail.mem_of_mem_outward hMem)
  have hLt := (h.earlier entry hEntry frame hFrame).1
  rw [hEq] at hLt
  exact Nat.lt_irrefl _ hLt

/-- A scope that is there after an event has been there before, unless the
event has opened it. -/
theorem exists_before (h : Follows table trail) (hOk : table.apply settings event = .ok next)
    {after : Scope} (hAfter : next.scopes[position]? = some after) :
    (∃ before, table.scopes[position]? = some before ∧
      Scope.Changes table trail event position before after) ∨
    (position = table.scopes.size ∧ ∃ kind block inMethod strict, event = .enter kind block inMethod ∧
      after = { table.freshScope kind block strict with
        «variables» := after.variables, names := after.names }) := by
  by_cases hOld : position < table.scopes.size
  · obtain ⟨found, hFound, hChanges⟩ :=
      changes_apply h hOk (Array.getElem?_eq_getElem hOld)
    cases hFound.symm.trans hAfter
    exact .inl ⟨_, Array.getElem?_eq_getElem hOld, hChanges⟩
  · have hLt := lt_of_getElem?_scopes hAfter
    rw [(sizes_apply h.nested hOk).1] at hLt
    cases event with
    | enter kind block inMethod =>
        rcases cases_of_enter h.nested hOk hAfter with ⟨rfl, strict, hEq⟩ | ⟨before, hBefore, -⟩
        · exact .inr ⟨rfl, kind, block, inMethod, strict, rfl, hEq⟩
        · exact absurd (lt_of_getElem?_scopes hBefore) hOld
    | _ => exact absurd hLt hOld

theorem flags_empty : Flags [] {} :=
  ⟨fun _ _ h => by simp at h, fun _ _ h => by simp at h, fun _ _ h => by simp at h⟩

/-- A flag that one kind of event sets, for the scope that a `var` goes to. -/
theorem holdsAt_apply {flag : Scope → Bool} {setting : Event} {after : Scope}
    (hRecounts : Recounts history table trail) (hOk : table.apply settings event = .ok next)
    (hOpens : setting.opens = false)
    (hBefore : ∀ before, table.scopes[position]? = some before →
      (flag before = true ↔ ∃ entry ∈ history, Entry.HoldsAt entry setting position))
    (hChanges : ∀ before, Scope.Changes table trail event position before after →
      (flag after = true ↔
        flag before = true ∨ (event = setting ∧ trail.holder? = some position)))
    (hFresh : ∀ kind block strict vars names,
      flag { table.freshScope kind block strict with «variables» := vars, names } = false)
    (hAfter : next.scopes[position]? = some after) :
    flag after = true ↔ ∃ entry ∈ history ++ [(trail, table.signalFor event)],
      Entry.HoldsAt entry setting position := by
  rw [exists_mem_concat]
  rcases exists_before hRecounts.follows hOk hAfter with ⟨before, hFound, hKept⟩ |
    ⟨rfl, kind, block, inMethod, strict, rfl, hEq⟩
  · rw [hChanges before hKept, hBefore before hFound]
    exact Iff.rfl
  · rw [hEq, hFresh]
    refine iff_of_false Bool.false_ne_true (not_or.2 ⟨?_, ?_⟩)
    · rintro ⟨entry, hEntry, hHolds⟩
      exact hRecounts.not_holdsAt hEntry _ hHolds
    · rintro ⟨rfl, -⟩
      cases hOpens

theorem flags_apply (hRecounts : Recounts history table trail) (h : Flags history table)
    (hOk : table.apply settings event = .ok next) :
    Flags (history ++ [(trail, table.signalFor event)]) next := by
  refine ⟨fun position after hAfter => ?_, fun position after hAfter => ?_,
    fun position after hAfter => ?_⟩
  · exact holdsAt_apply hRecounts hOk rfl (h.directEval position)
      (fun _ hChanges => hChanges.directEval) (fun _ _ _ _ _ => rfl) hAfter
  · exact holdsAt_apply hRecounts hOk rfl (h.usesThis position)
      (fun _ hChanges => hChanges.usesThis) (fun _ _ _ _ _ => rfl) hAfter
  · rw [exists_mem_concat]
    rcases exists_before hRecounts.follows hOk hAfter with ⟨before, hBefore, hChanges⟩ |
      ⟨rfl, kind, block, inMethod, strict, rfl, hEq⟩
    · rw [hChanges.dynamic, hChanges.kind, h.dynamic position before hBefore, or_assoc]
      exact Iff.rfl
    · rw [hEq]
      simp only [freshScope, decide_eq_true_eq]
      refine (or_iff_left (not_or.2 ⟨?_, fun hHolds => by cases hHolds.1⟩)).symm
      rintro ⟨entry, hEntry, hClouds⟩
      exact hRecounts.not_clouds hEntry hClouds

end SymbolTable

end Scoping
