import Scoping.Proofs.Chronicle.Flags

/-! The scopes around a scope are those that were open as it was, and the scopes
right inside it are its children. -/

namespace Scoping.SymbolTable

/-- The children of a scope are the scopes that it is right around. -/
def Parented (table : SymbolTable) : Prop :=
  ∀ (position : ScopeId) (scope : Scope), table.scopes[position]? = some scope →
    ∀ child, scope.children.count child = if table.upper? child = some position then 1 else 0

/-- The scopes that are open at an entry stay those around the current one. -/
def Surrounded (history : List Entry) (table : SymbolTable) : Prop :=
  ∀ entry ∈ history, ∀ frame ∈ entry.1.head?,
    table.enclosing frame.scope = entry.1.map Frame.scope

variable {settings : Settings} {history : List Entry} {table next : SymbolTable} {trail : Trail}
  {event : Event} {position : ScopeId}

/-- A scope is opened in the current one, and stays in it. -/
theorem upper?_apply (h : Follows table trail) (hOk : table.apply settings event = .ok next)
    (child : ScopeId) :
    next.upper? child = if event.opens = true ∧ child = table.scopes.size then table.stack.head?
      else table.upper? child := by
  by_cases hOld : child < table.scopes.size
  · obtain ⟨after, hAfter, hChanges⟩ := changes_apply h hOk (Array.getElem?_eq_getElem hOld)
    rw [if_neg fun hNew => Nat.ne_of_lt hOld hNew.2, upper?_of_getElem? hAfter, hChanges.upper,
      upper?_of_getElem? (Array.getElem?_eq_getElem hOld)]
  · have hNone : table.scopes[child]? = none := Array.getElem?_eq_none (Nat.le_of_not_lt hOld)
    cases hChild : next.scopes[child]? with
    | none =>
        have hEmpty : next.upper? child = none := by simp [upper?, hChild]
        have hBefore : table.upper? child = none := by simp [upper?, hNone]
        rw [hEmpty, hBefore]
        split
        · next hNew =>
            rw [Array.getElem?_eq_none_iff, (sizes_apply h.nested hOk).1, hNew.1, hNew.2] at hChild
            exact absurd hChild (Nat.not_succ_le_self _)
        · rfl
    | some after =>
        rcases exists_before h hOk hChild with ⟨before, hBefore, -⟩ |
          ⟨rfl, kind, block, inMethod, strict, rfl, hEq⟩
        · cases hNone.symm.trans hBefore
        · rw [if_pos ⟨rfl, rfl⟩, upper?_of_getElem? hChild, hEq]
          rfl

theorem Nested.upper?_ne (h : Nested table table.stack) {child : ScopeId} :
    table.upper? child ≠ some table.scopes.size := fun hUpper => by
  obtain ⟨entry, hEntry, -⟩ := upper?_eq_some.1 hUpper
  exact absurd (Nat.lt_trans (h.upper_lt _ _ hUpper) (lt_of_getElem?_scopes hEntry))
    (Nat.lt_irrefl _)

theorem Nested.head?_ne (h : Nested table table.stack) :
    table.stack.head? ≠ some table.scopes.size := fun hHead => by
  obtain ⟨entry, hEntry⟩ := h.exists_of_mem (List.mem_of_mem_head? hHead)
  exact absurd (lt_of_getElem?_scopes hEntry) (Nat.lt_irrefl _)

theorem parented_empty : Parented {} :=
  fun _ _ h => by simp at h

theorem parented_apply (h : Follows table trail) (hParented : Parented table)
    (hOk : table.apply settings event = .ok next) : Parented next := by
  intro position after hAfter child
  have hUpper := upper?_apply h hOk child
  rcases exists_before h hOk hAfter with ⟨before, hBefore, hChanges⟩ |
    ⟨rfl, kind, block, inMethod, strict, rfl, hEq⟩
  · have hCount := hParented position before hBefore child
    rw [hChanges.children]
    by_cases hNew : event.opens = true ∧ child = table.scopes.size
    · have hFresh : table.upper? child = none := by simp [upper?, hNew.2]
      rw [hFresh, if_neg (by simp)] at hCount
      rw [hUpper, if_pos hNew]
      by_cases hHead : table.stack.head? = some position
      · rw [if_pos ⟨hNew.1, hHead⟩, if_pos hHead, ← hNew.2, Array.count_push_self, hCount]
      · rw [if_neg fun hBoth => hHead hBoth.2, if_neg hHead, hCount]
    · rw [hUpper, if_neg hNew, ← hCount]
      split
      · next hHead => exact count_push_of_ne fun hEq => hNew ⟨hHead.1, hEq⟩
      · rfl
  · have hNone : after.children = #[] := by rw [hEq]; rfl
    have hNever : next.upper? child ≠ some table.scopes.size := by
      rw [hUpper]
      split
      · exact h.nested.head?_ne
      · exact h.nested.upper?_ne
    rw [hNone, Array.count_empty, if_neg hNever]

theorem surrounded_empty : Surrounded [] {} :=
  fun _ hEntry => nomatch hEntry

theorem surrounded_apply (hRecounts : Recounts history table trail)
    (h : Surrounded history table) (hOk : table.apply settings event = .ok next) :
    Surrounded (history ++ [(trail, table.signalFor event)]) next := by
  have hFollows := hRecounts.follows
  intro entry hEntry frame hFrame
  have hBefore : frame ∈ entry.1 ∧ frame.scope < table.scopes.size ∧
      table.enclosing frame.scope = entry.1.map Frame.scope := by
    refine ⟨List.mem_of_mem_head? hFrame, ?_⟩
    rcases List.mem_append.1 hEntry with hOld | hNew
    · exact ⟨(hRecounts.earlier entry hOld frame (List.mem_of_mem_head? hFrame)).1,
        h entry hOld frame hFrame⟩
    · obtain rfl := List.mem_singleton.1 hNew
      obtain ⟨rest, rfl⟩ : ∃ rest, trail = frame :: rest := List.head?_eq_some_iff.1 hFrame
      refine ⟨(hFollows.holder_lt List.mem_cons_self).1, ?_⟩
      refine hFollows.nested.enclosing_eq ?_
      simp [hFollows.stack]
  obtain ⟨-, hLt, hEnclosing⟩ := hBefore
  rw [← hEnclosing]
  refine enclosing_congr fun position hPosition => ?_
  rw [upper?_apply hFollows hOk, if_neg]
  exact fun hNew => Nat.ne_of_lt (Nat.lt_of_le_of_lt hPosition hLt) hNew.2

end Scoping.SymbolTable
