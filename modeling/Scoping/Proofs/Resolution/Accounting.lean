import Scoping.Proofs.Resolution.Standing
import Scoping.Proofs.Table.Events

namespace Scoping.SymbolTable

/-- Every reference is accounted for, those to come included. -/
def Accounted (settings : Settings) (table : SymbolTable) : Prop :=
  ∀ id, Standing settings table id

variable {settings : Settings} {table next : SymbolTable} {stack : List ScopeId}
  {scope : ScopeId}

theorem closing_of_keeps (settings : Settings) (hKeeps : Keeps table next) {owner : Scope}
    (hOwner : table.scopes[scope]? = some owner) (hClosed : owner.pending = none) :
    ∃ later, next.scopes[scope]? = some later ∧ later.pending = none ∧
      later.closing settings = owner.closing settings := by
  obtain ⟨later, hLater, hKept⟩ := hKeeps.scope scope owner hOwner
  obtain ⟨hPending, hDynamic, -⟩ := hKept.closed hClosed
  exact ⟨later, hLater, hPending, by simp only [Scope.closing, hKept.kind, hDynamic]⟩

/-- A closed scope deals with all the references that it has released, one
after another, and what it does to one leaves the others as they are. -/
theorem accounted_closeReferences (ids : List ReferenceId) (hNodup : ids.Nodup)
    (hNested : Nested table stack) {owner : Scope} (hOwner : table.scopes[scope]? = some owner)
    (hClosed : owner.pending = none) (hUpper : ∀ upper ∈ table.upper? scope, upper ∈ stack)
    (hReleased : ∀ id ∈ ids, ∃ reference passed rest,
      Released settings table scope id reference passed rest)
    (hOthers : ∀ id ∉ ids, Standing settings table id)
    (hOk : ids.foldlM (closeReference settings scope (owner.closing settings)) table = .ok next) :
    Accounted settings next := by
  induction ids generalizing table owner with
  | nil =>
      cases hOk
      exact fun id => hOthers id List.not_mem_nil
  | cons first ids ih =>
      obtain ⟨hFirst, hNodup⟩ := List.nodup_cons.1 hNodup
      rw [List.foldlM_cons] at hOk
      obtain ⟨middle, hMiddle, hRest⟩ := exists_of_bind_ok hOk
      obtain ⟨found, hFound, hMoves⟩ :=
        exists_closeReference settings (owner.closing settings) hNested first hUpper
      cases hFound.symm.trans hMiddle
      obtain ⟨later, hLater, hPending, hClosing⟩ :=
        closing_of_keeps settings hMoves.spares.keeps hOwner hClosed
      rw [← hClosing] at hRest
      -- What is dealt with first is different from the others, and so spares how they
      -- stand.
      refine ih hNodup hMoves.nested hLater hPending (by rw [hMoves.upper?]; exact hUpper) ?_ ?_
        hRest
      · intro id hId
        obtain ⟨reference, passed, rest, hHand⟩ := hReleased id (List.mem_cons_of_mem _ hId)
        exact ⟨reference, passed, rest, hHand.of_spares hNested.toPlaced hMoves.spares
          fun hEq => hFirst (hEq ▸ hId)⟩
      · intro id hId
        by_cases hEq : id = first
        · subst hEq
          obtain ⟨reference, passed, rest, hHand⟩ := hReleased id List.mem_cons_self
          exact hHand.closeReference hNested hOwner hClosed hUpper hMiddle
        · exact (hOthers id (by simp [hEq, hId])).of_spares hNested.toPlaced hMoves.spares hEq

theorem mem_waiting_iff {entry : Scope} (hEntry : table.scopes[scope]? = some entry)
    {id : ReferenceId} {recorded waiting through : List ScopeId} {listed : List VariableId}
    (hFoot : Footprint table id recorded waiting through listed) :
    id ∈ entry.waiting.toList ↔ scope ∈ waiting := by
  rw [Array.mem_toList_iff, ← Array.count_pos_iff, ← occurrences_of_getElem? hEntry, hFoot.waiting,
    List.count_pos_iff]

/-- Of all references just those that wait in a scope have come by it and are still to
be dealt with. -/
theorem Standing.exists_of_waits {id : ReferenceId} (h : Standing settings table id) {entry : Scope}
    (hEntry : table.scopes[scope]? = some entry) (hWaits : id ∈ entry.waiting.toList) :
    ∃ reference passed rest, Course settings table id reference passed (scope :: rest) ∧
      reference.resolved = none ∧ Footprint table id [reference.scope] [scope] passed [] := by
  cases h with
  | unknown _ foot | resolved _ _ _ _ _ _ _ _ _ _ _ foot | lost _ _ _ _ _ _ foot =>
      exact absurd ((mem_waiting_iff hEntry foot).1 hWaits) List.not_mem_nil
  | waiting reference passed position rest course unresolved foot =>
      obtain rfl := List.mem_singleton.1 ((mem_waiting_iff hEntry foot).1 hWaits)
      exact ⟨reference, passed, rest, course, unresolved, foot⟩

theorem count_waiting_le_one (h : Accounted settings table) {entry : Scope}
    (hEntry : table.scopes[scope]? = some entry) (id : ReferenceId) :
    entry.waiting.count id ≤ 1 := by
  have hNone : ∀ {recorded through : List ScopeId} {listed : List VariableId},
      Footprint table id recorded [] through listed → entry.waiting.count id ≤ 1 := fun hFoot => by
    rw [← occurrences_of_getElem? hEntry, hFoot.waiting]
    exact Nat.zero_le 1
  cases h id with
  | unknown _ foot => exact hNone foot
  | resolved _ _ _ _ _ _ _ _ _ _ _ foot => exact hNone foot
  | lost _ _ _ _ _ _ foot => exact hNone foot
  | waiting _ _ position _ _ _ foot =>
      rw [← occurrences_of_getElem? hEntry, foot.waiting]
      exact List.count_le_length

/-- A scope that closes releases the references that wait in it, and no others. -/
theorem standing_closeHead (hPlaced : Placed table) {entry : Scope}
    (hEntry : table.scopes[scope]? = some entry) {id : ReferenceId}
    (h : Standing settings table id) :
    (id ∈ entry.waiting.toList → ∃ reference passed rest,
      Released settings (table.closeHead scope) scope id reference passed rest) ∧
    (id ∉ entry.waiting.toList → Standing settings (table.closeHead scope) id) := by
  have hKeeps := keeps_closeHead table scope
  refine ⟨fun hMem => ?_, fun hNotMem => h.of_keeps hPlaced hKeeps rfl fun {_ waiting _ _} foot => ?_⟩
  · obtain ⟨reference, passed, rest, course, unresolved, foot⟩ := h.exists_of_waits hEntry hMem
    refine ⟨reference, passed, rest, course.of_keeps hPlaced hKeeps course.found rfl rfl rfl,
      unresolved, ?_⟩
    simpa using foot.closeHead scope
  · have hElsewhere : scope ∉ waiting := fun hHere => hNotMem ((mem_waiting_iff hEntry foot).2 hHere)
    have hSame : waiting.filter (· ≠ scope) = waiting :=
      List.filter_eq_self.2 fun position hPosition =>
        decide_eq_true fun hEq => hElsewhere (hEq ▸ hPosition)
    exact hSame ▸ foot.closeHead scope

/-- Closing a scope leaves no reference unaccounted for. -/
theorem accounted_close (h : Accounted settings table) (hNested : Nested table (scope :: stack))
    (hOk : table.close settings scope = .ok next) : Accounted settings next := by
  obtain ⟨entry, middle, hFrom⟩ := exists_closesFrom hNested
  rw [hFrom.close] at hOk
  obtain ⟨before, hBefore, hSettles⟩ := hFrom.closes.scope scope entry hFrom.found
  have hHead : (middle.closeHead scope).scopes[scope]? = some { before with pending := none } := by
    simp [closeHead, hBefore]
  have hClosing : ({ before with pending := none } : Scope).closing settings =
      entry.closing settings := by
    rw [hSettles]
    rfl
  have hMiddle : Accounted settings middle := fun id =>
    (h id).of_advances hNested.toPlaced hFrom.advances
  have hSame : ∀ id, before.waiting.count id = entry.waiting.count id := fun id => by
    obtain ⟨found, hFound, hSpares⟩ := (hFrom.advances.spares (id + 1)).scope scope entry hFrom.found
    cases hFound.symm.trans hBefore
    exact hSpares.waiting id (Nat.ne_of_lt (Nat.lt_succ_self id))
  have hMem : ∀ id, id ∈ entry.waiting.toList ↔ id ∈ before.waiting.toList := fun id => by
    simp only [Array.mem_toList_iff, ← Array.count_pos_iff, hSame]
  have hNodup : entry.waiting.toList.Nodup :=
    List.nodup_iff_count_le_one.2 fun id => by
      simpa using count_waiting_le_one h hFrom.found id
  rw [← hClosing] at hOk
  have hPlaced := hFrom.closes.nested.toPlaced
  refine accounted_closeReferences entry.waiting.toList hNodup hFrom.closesHead.nested hHead rfl
    hFrom.upper (fun id hId => ?_) (fun id hId => ?_) hOk
  · exact (standing_closeHead hPlaced hBefore (hMiddle id)).1 ((hMem id).1 hId)
  · exact (standing_closeHead hPlaced hBefore (hMiddle id)).2
      fun hThere => hId ((hMem id).2 hThere)

/-- A use that is recorded waits in the scope it stands in. -/
theorem accounted_record (h : Accounted settings table) (hNested : Nested table stack)
    {use : Use} (hOk : table.record scope use = .ok next) :
    Accounted settings next := by
  intro id
  have hSpares := (spares_record hNested hOk).2.1
  by_cases hNew : id = table.references.size
  · rcases record_eq_ok hOk with ⟨-, rfl⟩ | ⟨-, ⟨entry, hEntry, hOpen⟩, rfl⟩
    · exact h id
    · subst hNew
      have hNone : table.references[table.references.size]? = none :=
        Array.getElem?_eq_none (Nat.le_refl _)
      cases h table.references.size with
      | unknown found foot =>
          obtain ⟨around, hAround⟩ := exists_enclosing_eq_cons table scope
          refine .waiting { use with scope } [] scope around ⟨?_, ?_, ?_, ?_, rfl⟩ rfl ?_
          · simp
          · simpa [modifyScope] using lt_of_getElem?_scopes hEntry
          · rw [List.nil_append, ← hAround]
            exact enclosing_of_keeps hSpares.keeps (lt_of_getElem?_scopes hEntry)
          · exact ⟨fun _ hMem => absurd hMem List.not_mem_nil,
              fun _ hMem => absurd hMem List.not_mem_nil⟩
          · have hPush : Footprint { table with
                references := table.references.push { use with scope } } table.references.size [] []
                [] [] := ⟨foot.recorded, foot.waiting, foot.through, foot.listed⟩
            exact hPush.record hEntry hOpen
      | waiting _ _ _ _ course | resolved _ _ _ _ course | lost _ _ _ course =>
          exact absurd (hNone.symm.trans course.found) (by simp)
  · exact (h id).of_spares hNested.toPlaced hSpares hNew

theorem accounted_pop (h : Accounted settings table) (hPlaced : Placed table) :
    Accounted settings { table with stack } := by
  intro id
  have hSame : Spares (id + 1) table { table with stack } := spares_of_eq rfl rfl rfl
  exact (h id).of_spares hPlaced hSame (Nat.ne_of_lt (Nat.lt_succ_self id))

/-- What one event does keeps every reference accounted for. -/
theorem accounted_apply {event : Event} (h : Accounted settings table)
    (hNested : Nested table table.stack) (hOk : table.apply settings event = .ok next) :
    Accounted settings next := by
  cases event with
  | enter kind block inMethod =>
      obtain ⟨-, hSpares, -, -⟩ := nested_enter hNested hOk
      exact fun id => (h id).of_spares hNested.toPlaced (hSpares (id + 1))
        (Nat.ne_of_lt (Nat.lt_succ_self id))
  | leave block =>
      obtain ⟨found, hFound, -, -, hAccounted⟩ := exists_leaveAll settings
        (fun _ _ => accounted_pop) (fun _ _ _ _ => accounted_close) hNested h block
      cases hFound.symm.trans hOk
      exact hAccounted
  | use use =>
      obtain ⟨scope, hScope, hRecord⟩ := exists_record_of_apply hOk
      exact accounted_record h hNested hRecord
  | fail failure => cases hOk
  | setStrict | define | directEval | thisExpression | bodyStart | endDeclaration =>
      exact fun id => (h id).of_advances hNested.toPlaced (advances_apply hNested (by trivial) hOk)

end Scoping.SymbolTable
