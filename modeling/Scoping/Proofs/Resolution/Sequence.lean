import Scoping.Proofs.Chronicle.Program
import Scoping.Proofs.Resolution.Globals
import Scoping.Proofs.Resolution.Totals
import Scoping.Proofs.Table.Distributing

/-! The order in which lists hold references: that in which they were recorded.
What waits in a scope has been recorded before what waits further in, so that a
scope that closes hands on nothing but what comes after all that waits in the
scopes around. -/

namespace Scoping.SymbolTable

def IsOpen (table : SymbolTable) (position : ScopeId) : Prop :=
  ∃ entry, table.scopes[position]? = some entry ∧ entry.pending ≠ none

/-- Every scope that has closed has handed on what it did not resolve, or there is no
scope around it that references could pass by. -/
def Relays (settings : Settings) (table : SymbolTable) : Prop :=
  ∀ (position : ScopeId) (entry : Scope), table.scopes[position]? = some entry →
    entry.pending = none → settings.options.optimistic = true ∨ entry.dynamic = false ∨
      entry.kind = .withBody ∨ entry.upper = none

/-- All references are held in the order in which they were recorded. -/
structure InSequence (settings : Settings) (table : SymbolTable) : Prop where
  recorded : ∀ position, (table.holdingsOf position).recorded.Pairwise (· < ·)
  left : ∀ position, (table.holdingsOf position).left.Pairwise (· < ·)
  waiting : ∀ position, (table.holdingsOf position).waiting.Pairwise (· < ·)
  inward : ∀ outer inner, outer < inner → ∀ first ∈ (table.holdingsOf outer).waiting,
    ∀ second ∈ (table.holdingsOf inner).waiting, first < second
  listed : ∀ var, (table.marksOf var).references.toList.Pairwise (· < ·)
  through : Relays settings table → ∀ position,
    (table.holdingsOf position).through.Pairwise (· < ·) ∧
      (table.IsOpen position → (table.holdingsOf position).through = [])

variable {settings : Settings} {table next middle : SymbolTable} {stack : List ScopeId}
  {tree : Tree} {scope position : ScopeId} {id : ReferenceId} {var : VariableId} {event : Event}
  {entry : Scope}

/-- At first no list has a reference in it. -/
theorem inSequence_empty (settings : Settings) : InSequence settings {} where
  recorded := fun _ => .nil
  left := fun _ => .nil
  waiting := fun _ => .nil
  inward := fun _ _ _ _ hFirst => nomatch hFirst
  listed := fun _ => .nil
  through := fun _ _ => ⟨.nil, fun _ => rfl⟩

/-- What closed scopes have handed on can be told from a later table. -/
theorem Relays.of_keeps (h : Relays settings next) (hKeeps : Keeps table next) :
    Relays settings table := fun position entry hEntry hClosed => by
  obtain ⟨after, hAfter, hKept⟩ := hKeeps.scope position entry hEntry
  obtain ⟨hStill, hDynamic, -⟩ := hKept.closed hClosed
  have hRelays := h position after hAfter hStill
  rwa [hDynamic, hKept.kind, hKept.upper] at hRelays

/-- A scope that is open later has been open before, or keeps no reference yet. -/
theorem Keeps.isOpen (h : Keeps table next) (hOpen : next.IsOpen position) :
    table.IsOpen position ∨ table.scopes[position]? = none := by
  cases hBefore : table.scopes[position]? with
  | none => exact .inr rfl
  | some before =>
      refine .inl ⟨before, hBefore, fun hClosed => ?_⟩
      obtain ⟨after, hAfter, hStill⟩ := hOpen
      obtain ⟨found, hFound, hKept⟩ := h.scope position before hBefore
      cases hFound.symm.trans hAfter
      exact hStill (hKept.closed hClosed).1

/-- Only the scopes on the stack are open. -/
theorem Nested.mem_of_isOpen (h : Nested table stack) (hOpen : table.IsOpen position) :
    position ∈ stack := by
  obtain ⟨entry, hEntry, hPending⟩ := hOpen
  exact (h.open_iff position entry hEntry).1 (Option.isSome_iff_ne_none.2 hPending)

theorem Nested.isOpen_of_mem (h : Nested table stack) (hScope : scope ∈ stack) :
    table.IsOpen scope := by
  obtain ⟨entry, pending, hEntry, hPending⟩ := h.pending_of_mem hScope
  exact ⟨entry, hEntry, by rw [hPending]; nofun⟩

/-- A closed scope has nothing waiting in it. -/
theorem isOpen_of_waits (hId : id ∈ (table.holdingsOf position).waiting) :
    table.IsOpen position := by
  cases hEntry : table.scopes[position]? with
  | none =>
      rw [holdingsOf_of_none hEntry] at hId
      cases hId
  | some entry =>
      rw [holdingsOf_of_getElem? hEntry] at hId
      refine ⟨entry, hEntry, fun hClosed => ?_⟩
      simp [Scope.holdings, Scope.waiting, hClosed] at hId

/-- Nothing waits further in than the current scope. -/
theorem Nested.le_of_waits (h : Nested table (scope :: stack))
    (hId : id ∈ (table.holdingsOf position).waiting) : position ≤ scope := by
  have hMem := h.mem_of_isOpen (isOpen_of_waits hId)
  rw [← h.enclosing_eq (List.suffix_refl _)] at hMem
  exact le_of_mem_enclosing hMem

/-- What a table holds it has recorded. -/
theorem Accounted.lt_size_of_mem (h : Accounted settings table)
    (hId : id ∈ (table.holdingsOf position).recorded ∨ id ∈ (table.holdingsOf position).waiting) :
    id < table.references.size := by
  by_contra hNew
  have hNone : table.references[id]? = none := Array.getElem?_eq_none (Nat.le_of_not_lt hNew)
  have hFoot : Footprint table id [] [] [] [] := by
    cases h id with
    | unknown found foot => exact foot
    | waiting _ _ _ _ course | resolved _ _ _ _ course | lost _ _ _ course =>
        exact nomatch hNone.symm.trans course.found
  cases hEntry : table.scopes[position]? with
  | none =>
      rw [holdingsOf_of_none hEntry] at hId
      rcases hId with hId | hId <;> cases hId
  | some entry =>
      rw [holdingsOf_of_getElem? hEntry] at hId
      have hRecorded := hFoot.recorded position
      have hWaiting := hFoot.waiting position
      rw [occurrences_of_getElem? hEntry, List.count_nil, Array.count_eq_zero] at hRecorded hWaiting
      exact hId.elim (fun hMem => hRecorded (Array.mem_toList_iff.1 hMem))
        fun hMem => hWaiting (Array.mem_toList_iff.1 hMem)

/-- As long as a scope is open, nothing has been resolved in it. -/
theorem Accounted.references_eq_empty_of_isOpen (h : Accounted settings table)
    (hPlaced : Placed table) (hOwner : table.ownerOf var = some scope) (hOpen : table.IsOpen scope) :
    (table.marksOf var).references = #[] := by
  obtain ⟨declared, hDeclared, rfl⟩ := Option.map_eq_some_iff.1 hOwner
  obtain ⟨entry, hEntry, hPending⟩ := hOpen
  rw [marksOf_of_getElem? hDeclared]
  refine Array.eq_empty_iff_forall_not_mem.2 fun id hMem => ?_
  obtain ⟨position, owner, reference, hOwner, hClosed, hLookup⟩ := h.exists_lookup_of_mem hDeclared hMem
  obtain ⟨found, hFound, hHome, -⟩ := hPlaced.exists_of_lookup? hLookup
  cases hFound.symm.trans hDeclared
  rw [hHome] at hEntry
  cases hEntry.symm.trans hOwner
  exact hPending hClosed

/-- As long as nothing passes through a scope, what has passed stays in order. -/
theorem InSequence.through_of_eq (h : InSequence settings table) (hKeeps : Keeps table next)
    (hThrough : ∀ position, (next.holdingsOf position).through = (table.holdingsOf position).through)
    (hRelays : Relays settings next) (position : ScopeId) :
    (next.holdingsOf position).through.Pairwise (· < ·) ∧
      (next.IsOpen position → (next.holdingsOf position).through = []) := by
  obtain ⟨hSorted, hOpen⟩ := h.through (hRelays.of_keeps hKeeps) position
  rw [hThrough]
  refine ⟨hSorted, fun hStill => ?_⟩
  rcases hKeeps.isOpen hStill with hBefore | hNone
  · exact hOpen hBefore
  · rw [holdingsOf_of_none hNone]

/-- A change that moves no reference. -/
theorem InSequence.of_same (h : InSequence settings table) (hHoldings : SameHoldings table next)
    (hMarks : SameMarks table next) (hKeeps : Keeps table next) : InSequence settings next where
  recorded := fun position => by rw [hHoldings]; exact h.recorded position
  left := fun position => by rw [hHoldings]; exact h.left position
  waiting := fun position => by rw [hHoldings]; exact h.waiting position
  inward := fun outer inner hLt => by rw [hHoldings, hHoldings]; exact h.inward outer inner hLt
  listed := fun var => by rw [hMarks]; exact h.listed var
  through := h.through_of_eq hKeeps fun position => by rw [hHoldings]

/-- A later item at the end keeps a list in order. -/
theorem pairwise_concat {ids : List ReferenceId} (h : ids.Pairwise (· < ·))
    (hLast : ∀ other ∈ ids, other < id) : (ids ++ [id]).Pairwise (· < ·) :=
  List.pairwise_append.2 ⟨h, List.pairwise_singleton _ id, fun other hOther _ hId =>
    List.mem_singleton.1 hId ▸ hLast other hOther⟩

/-- What is recorded comes last in the current scope, and so after all that waits. -/
theorem inSequence_record (h : InSequence settings table) (hAccounted : Accounted settings table)
    (hNested : Nested table (scope :: stack)) {use : Use}
    (hOk : table.record scope use = .ok next) : InSequence settings next := by
  rcases holdingsOf_record hOk with rfl | hHoldings
  · exact h
  have hKeeps : Keeps table next := (spares_record hNested hOk).2.1.keeps
  have hMarks : SameMarks table next := sameMarks_record hOk
  have hThrough : ∀ position, (next.holdingsOf position).through =
      (table.holdingsOf position).through := fun position => by
    rw [hHoldings]
    split <;> rfl
  have hWaits : ∀ position id, id ∈ (next.holdingsOf position).waiting →
      id ∈ (table.holdingsOf position).waiting ∨ (position = scope ∧ id = table.references.size) :=
    fun position id hId => by
      rw [hHoldings] at hId
      split at hId
      · next hEq => simpa [hEq] using hId
      · exact .inl hId
  refine ⟨fun position => ?_, fun position => ?_, fun position => ?_, ?_,
    fun var => by rw [hMarks]; exact h.listed var, h.through_of_eq hKeeps hThrough⟩
  · rw [hHoldings]
    split
    · exact pairwise_concat (h.recorded position) fun _ hOther =>
        hAccounted.lt_size_of_mem (.inl hOther)
    · exact h.recorded position
  · rw [hHoldings]
    split <;> exact h.left position
  · rw [hHoldings]
    split
    · exact pairwise_concat (h.waiting position) fun _ hOther =>
        hAccounted.lt_size_of_mem (.inr hOther)
    · exact h.waiting position
  · intro outer inner hLt first hFirst second hSecond
    rcases hWaits outer first hFirst with hOld | ⟨rfl, -⟩
    · rcases hWaits inner second hSecond with hOther | ⟨-, rfl⟩
      · exact h.inward outer inner hLt first hOld second hOther
      · exact hAccounted.lt_size_of_mem (.inr hOld)
    · rcases hWaits inner second hSecond with hOther | ⟨rfl, -⟩
      · exact absurd hLt (Nat.not_lt_of_le (hNested.le_of_waits hOther))
      · exact absurd hLt (Nat.lt_irrefl _)

/-- A scope that closes lets nothing wait in it any more, and a global one keeps what
has waited. -/
theorem ClosesFrom.holdings (h : ClosesFrom scope stack entry table middle) (position : ScopeId) :
    let start := middle.closeHead scope
    (start.holdingsOf position).recorded = (table.holdingsOf position).recorded ∧
      (start.holdingsOf position).through = (table.holdingsOf position).through ∧
      ((start.holdingsOf position).left = (table.holdingsOf position).left ∨
        (start.holdingsOf position).left = (table.holdingsOf position).waiting) ∧
      (start.holdingsOf position).waiting =
        if position = scope then [] else (table.holdingsOf position).waiting := by
  have hMiddle : middle.holdingsOf position = table.holdingsOf position ∨
      middle.holdingsOf position =
        { table.holdingsOf position with left := (table.holdingsOf position).waiting } := by
    refine h.cases (P := fun middle => middle.holdingsOf position = table.holdingsOf position ∨
      middle.holdingsOf position =
        { table.holdingsOf position with left := (table.holdingsOf position).waiting })
      (fun _ => ?_) (.inl rfl)
    rw [holdingsOf_defineImplicit]
    split
    · exact .inr rfl
    · exact .inl rfl
  intro start
  rw [holdingsOf_closeHead]
  rcases hMiddle with hSame | hLeft
  · rw [hSame]
    split <;> exact ⟨rfl, rfl, .inl rfl, rfl⟩
  · rw [hLeft]
    split <;> exact ⟨rfl, rfl, .inr rfl, rfl⟩

/-- How a scope has closed: what had waited in it is distributed, once it waits no more. -/
theorem ClosesFrom.distributes (h : ClosesFrom scope stack entry table middle)
    (hOk : table.close settings scope = .ok next) :
    Distributes scope (entry.closing settings) (table.holdingsOf scope).waiting
      (middle.closeHead scope) next := by
  rw [h.close] at hOk
  have hIds : (table.holdingsOf scope).waiting = entry.waiting.toList := by
    rw [holdingsOf_of_getElem? h.found]
    rfl
  rw [hIds]
  exact distributes_closeReferences _ h.closesHead.nested h.upper hOk

/-- A closed scope that relays has handed on what it did not resolve. -/
theorem ClosesFrom.handsOn (h : ClosesFrom scope stack entry table middle)
    (hNested : Nested table (scope :: stack)) (hOk : table.close settings scope = .ok next)
    (hRelays : Relays settings next) :
    HandsOn (middle.closeHead scope) scope (entry.closing settings) := by
  obtain ⟨found, hFound, hCloses⟩ := exists_close settings hNested
  cases hFound.symm.trans hOk
  obtain ⟨after, hAfter, hSettles⟩ := hCloses.scope scope entry h.found
  have hClosed : after.pending = none := by
    have hOpen := hCloses.nested.open_iff scope after hAfter
    simpa [(List.nodup_cons.1 hNested.nodup).1] using hOpen
  have hKinds : settings.options.optimistic = true ∨ entry.dynamic = false ∨
      entry.kind = .withBody ∨ entry.upper = none := by
    have hAll := hRelays scope after hAfter hClosed
    rwa [hSettles] at hAll
  by_cases hResolves : (!entry.dynamic || settings.options.optimistic) = true
  · exact .inl (if_pos hResolves)
  · rcases hKinds with hOptimistic | hStatic | hWith | hOutermost
    · simp [hOptimistic] at hResolves
    · simp [hStatic] at hResolves
    · refine .inr (.inl ?_)
      rw [Scope.closing, if_neg hResolves, hWith]
    · refine .inr (.inr ?_)
      rw [h.closesHead.upper?, upper?_of_getElem? h.found]
      exact hOutermost

section Closing

variable (h : InSequence settings table) (hFrom : ClosesFrom scope stack entry table middle)
  (hNested : Nested table (scope :: stack)) (hOk : table.close settings scope = .ok next)

include hFrom hNested in
/-- The scope around the one that closes is the innermost that stays open. -/
theorem upper?_of_closesFrom : (middle.closeHead scope).upper? scope = stack.head? := by
  obtain ⟨found, hFound, hUpper⟩ := hNested.chain scope stack (List.suffix_refl _)
  rw [hFrom.closesHead.upper?, upper?_of_getElem? hFound, hUpper]

include hNested in
/-- The scope around has opened before the one that closes. -/
theorem lt_of_head? {upper : ScopeId} (hHead : stack.head? = some upper) : upper < scope := by
  obtain ⟨found, hFound, hUpper⟩ := hNested.chain scope stack (List.suffix_refl _)
  exact hNested.upper_lt scope upper (by rw [upper?_of_getElem? hFound, hUpper, hHead])

include hFrom hNested hOk

/-- What waits once a scope has closed has waited there before, or comes from the scope. -/
theorem waits_of_close (hId : id ∈ (next.holdingsOf position).waiting) :
    (position ≠ scope ∧ id ∈ (table.holdingsOf position).waiting) ∨
      (stack.head? = some position ∧ id ∈ (table.holdingsOf scope).waiting) := by
  rcases (hFrom.distributes hOk).waiting.mem hId with hOld | ⟨hUpper, hItem⟩
  · rw [(hFrom.holdings position).2.2.2] at hOld
    split at hOld
    · cases hOld
    · next hNe => exact .inl ⟨hNe, hOld⟩
  · exact .inr ⟨upper?_of_closesFrom hFrom hNested ▸ hUpper, hItem⟩

include h

/-- What waits in a scope once another has closed waits in order. -/
theorem waiting_close (position : ScopeId) :
    (next.holdingsOf position).waiting.Pairwise (· < ·) := by
  have hStart := (hFrom.holdings position).2.2.2
  refine (hFrom.distributes hOk).waiting.pairwise (h.waiting scope) ?_ fun hUpper first hFirst => ?_
  · rw [hStart]
    split
    · exact .nil
    · exact h.waiting position
  · rw [upper?_of_closesFrom hFrom hNested] at hUpper
    rw [hStart] at hFirst
    split at hFirst
    · cases hFirst
    · exact h.inward position scope (lt_of_head? hNested hUpper) first hFirst

/-- What waits further out has still been recorded before what waits further in. -/
theorem inward_close (hAfter : Nested next stack) (outer inner : ScopeId) (hLt : outer < inner) :
    ∀ first ∈ (next.holdingsOf outer).waiting, ∀ second ∈ (next.holdingsOf inner).waiting,
      first < second := by
  intro first hFirst second hSecond
  rcases waits_of_close hFrom hNested hOk hSecond with ⟨-, hInner⟩ | ⟨hHead, hItem⟩
  · rcases waits_of_close hFrom hNested hOk hFirst with ⟨-, hOuter⟩ | ⟨hHead, -⟩
    · exact h.inward outer inner hLt first hOuter second hInner
    · -- The scope around is the current one now, and nothing waits further in.
      obtain ⟨rest, rfl⟩ := List.head?_eq_some_iff.1 hHead
      exact absurd hLt (Nat.not_lt_of_le (hAfter.le_of_waits hSecond))
  · have hInside := lt_of_head? hNested hHead
    rcases waits_of_close hFrom hNested hOk hFirst with ⟨-, hOuter⟩ | ⟨hOther, -⟩
    · exact h.inward outer scope (hLt.trans hInside) first hOuter second hItem
    · cases hOther.symm.trans hHead
      exact absurd hLt (Nat.lt_irrefl _)

/-- A variable gets references of a closing scope after all that it has from scopes inside.
-/
theorem listed_close (hAccounted : Accounted settings table) (var : VariableId) :
    (next.marksOf var).references.toList.Pairwise (· < ·) := by
  have hMarks : SameMarks table (middle.closeHead scope) :=
    (hFrom.cases (P := SameMarks table) (fun _ => sameMarks_defineImplicit table scope)
      (.refl table)).trans (sameMarks_of_eq rfl)
  refine (hFrom.distributes hOk).listed.pairwise (h.waiting scope)
    (by rw [hMarks]; exact h.listed var) fun hOwner first hFirst => ?_
  have hMiddle : Accounted settings middle := fun id =>
    (hAccounted id).of_advances hNested.toPlaced hFrom.advances
  have hNone : ((middle.closeHead scope).marksOf var).references = #[] :=
    hMiddle.references_eq_empty_of_isOpen hFrom.advances.nested.toPlaced hOwner
      (hFrom.advances.nested.isOpen_of_mem List.mem_cons_self)
  rw [hNone] at hFirst
  cases hFirst

/-- A scope is passed in order, and an open one has been passed by nothing. -/
theorem through_close (hAfter : Nested next stack) (hRelays : Relays settings next)
    (position : ScopeId) : (next.holdingsOf position).through.Pairwise (· < ·) ∧
      (next.IsOpen position → (next.holdingsOf position).through = []) := by
  have hKeeps := keeps_close hNested hOk
  have hThrough := (hFrom.distributes hOk).through (hFrom.handsOn hNested hOk hRelays)
  have hStart := (hFrom.holdings position).2.1
  obtain ⟨hSorted, hOpen⟩ := h.through (hRelays.of_keeps hKeeps) position
  refine ⟨hThrough.pairwise (h.waiting scope) (by rw [hStart]; exact hSorted) ?_, fun hStill => ?_⟩
  · rintro rfl first hFirst
    rw [hStart, hOpen (hNested.isOpen_of_mem List.mem_cons_self)] at hFirst
    cases hFirst
  · have hMem := hAfter.mem_of_isOpen hStill
    have hNe : position ≠ scope := fun hEq => (List.nodup_cons.1 hNested.nodup).1 (hEq ▸ hMem)
    exact ((hThrough position).2 hNe).trans
      (hStart.trans (hOpen (hNested.isOpen_of_mem (List.mem_cons_of_mem _ hMem))))

omit hFrom in
/-- A scope that closes hands to the scope around only what comes after all that waits
there. -/
theorem inSequence_close (hAccounted : Accounted settings table) : InSequence settings next := by
  obtain ⟨entry, middle, hFrom⟩ := exists_closesFrom hNested
  obtain ⟨found, hFound, hCloses⟩ := exists_close settings hNested
  cases hFound.symm.trans hOk
  refine ⟨fun position => ?_, fun position => ?_, waiting_close h hFrom hNested hOk,
    inward_close h hFrom hNested hOk hCloses.nested, listed_close h hFrom hNested hOk hAccounted,
    through_close h hFrom hNested hOk hCloses.nested⟩
  · rw [(hFrom.distributes hOk).recorded, (hFrom.holdings position).1]
    exact h.recorded position
  · rw [(hFrom.distributes hOk).left]
    rcases (hFrom.holdings position).2.2.1 with hSame | hLeft
    · rw [hSame]
      exact h.left position
    · rw [hLeft]
      exact h.waiting position

end Closing

/-- Every event of a walk keeps all references in order. -/
theorem inSequence_apply (h : Accounted settings table ∧ InSequence settings table)
    (hNested : Nested table table.stack) (hOk : table.apply settings event = .ok next) :
    Accounted settings next ∧ InSequence settings next := by
  refine ⟨accounted_apply h.1 hNested hOk, ?_⟩
  by_cases hUse : ∃ use, event = .use use
  · obtain ⟨use, rfl⟩ := hUse
    obtain ⟨scope, hCurrent, hRecord⟩ := exists_of_bind_ok hOk
    obtain ⟨rest, hStack⟩ := exists_of_current_eq_ok hCurrent
    exact inSequence_record h.2 h.1 (hStack ▸ hNested) hRecord
  by_cases hLeave : ∃ block, event = .leave block
  · obtain ⟨block, rfl⟩ := hLeave
    obtain ⟨found, hFound, -, -, hNext⟩ := exists_leaveAll settings
      (P := fun table => Accounted settings table ∧ InSequence settings table)
      (fun _ _ hTable hPlaced => ⟨accounted_pop hTable.1 hPlaced,
        hTable.2.of_same (sameHoldings_of_eq rfl) (sameMarks_of_eq rfl) (.of_eq rfl rfl)⟩)
      (fun _ _ _ _ hTable hNested hClose => ⟨accounted_close hTable.1 hNested hClose,
        inSequence_close hTable.2 hNested hClose hTable.1⟩) hNested h block
    cases hFound.symm.trans hOk
    exact hNext.2
  · exact h.2.of_same (sameHoldings_apply hNested (fun use hEq => hUse ⟨use, hEq⟩)
      (fun block hEq => hLeave ⟨block, hEq⟩) hOk)
      (sameMarks_apply (fun block hEq => hLeave ⟨block, hEq⟩) hOk)
      (spares_apply hNested (fun block hEq => hLeave ⟨block, hEq⟩) hOk).keeps

/-- At the end of an analysis all lists are in order. -/
theorem inSequence_of_analyze_eq_ok (hOk : analyze settings tree = .ok table) :
    InSequence settings table :=
  (run_induction (P := fun table => Accounted settings table ∧ InSequence settings table)
    (fun _ _ _ hNested hTable hApply => inSequence_apply hTable hNested hApply)
    (nested_empty : Nested {} (SymbolTable.stack {}))
    ⟨accounted_empty, inSequence_empty settings⟩ (spec_of_analyze_eq_ok hOk).2.2.2).2.2

/-- If only the global scope and bodies of `with` are dynamic, every other scope hands on
what it does not resolve. -/
theorem relays_of_dynamic (hOutermost : Outermost table)
    (h : settings.options.optimistic = true ∨
      ∀ (position : ScopeId) (entry : Scope), table.scopes[position]? = some entry →
        entry.dynamic = true → entry.kind = .global ∨ entry.kind = .withBody) :
    Relays settings table := fun position entry hEntry _ => by
  rcases h with hOptimistic | hKinds
  · exact .inl hOptimistic
  · cases hDynamic : entry.dynamic with
    | false => exact .inr (.inl rfl)
    | true =>
        rcases hKinds position entry hEntry hDynamic with hGlobal | hWith
        · exact .inr (.inr (.inr (hOutermost position entry hEntry hGlobal)))
        · exact .inr (.inr (.inl hWith))

/-- The lists of a finished table hold references in the order in which they were
recorded. -/
structure InOrder (settings : Settings) (table : SymbolTable) (global : Scope) : Prop where
  references : ∀ (position : ScopeId) (entry : Scope), table.scopes[position]? = some entry →
    entry.references.toList.Pairwise (· < ·)
  resolved : ∀ (var : VariableId) (declared : Variable), table.variables[var]? = some declared →
    declared.references.toList.Pairwise (· < ·)
  left : global.implicitPending.toList.Pairwise (· < ·)
  /-- Any other dynamic scope lets a reference out of all scopes around it at once, ahead of
  those that wait there. -/
  through : (settings.options.optimistic = true ∨
      ∀ (position : ScopeId) (entry : Scope), table.scopes[position]? = some entry →
        entry.dynamic = true → entry.kind = .global ∨ entry.kind = .withBody) →
    ∀ (position : ScopeId) (entry : Scope), table.scopes[position]? = some entry →
      entry.through.toList.Pairwise (· < ·)

/-- However late the references of inner scopes come to a list, each list is in the order
in which the walk has recorded them. -/
theorem references_pairwise_lt (hOk : analyze settings tree = .ok table) :
    ∃ root global, table.globalScope = some root ∧ table.scopes[root]? = some global ∧
      InOrder settings table global := by
  have hSequence := inSequence_of_analyze_eq_ok hOk
  have hRooted := (spec_of_analyze_eq_ok hOk).2.2.1
  obtain ⟨global, hGlobal, -⟩ := hRooted.global
  refine ⟨0, global, hRooted.globalScope, hGlobal, fun position entry hEntry => ?_,
    fun var declared hDeclared => ?_, ?_, fun hDynamic position entry hEntry => ?_⟩
  · have hRecorded := hSequence.recorded position
    rwa [holdingsOf_of_getElem? hEntry] at hRecorded
  · have hListed := hSequence.listed var
    rwa [marksOf_of_getElem? hDeclared] at hListed
  · have hLeft := hSequence.left 0
    rwa [holdingsOf_of_getElem? hGlobal] at hLeft
  · have hRelays := relays_of_dynamic (chronicle_of_analyze_eq_ok hOk).outermost hDynamic
    have hThrough := (hSequence.through hRelays position).1
    rwa [holdingsOf_of_getElem? hEntry] at hThrough

/-- What the function and the `with` in it have let through is in order. -/
theorem references_pairwise_lt_withInsideFunction :
    ∃ table root global, analyze ⟨{}, 9⟩ withInsideFunction = .ok table ∧
      table.scopes.map Scope.through = #[#[], #[0, 1], #[0, 1], #[1]] ∧
      table.globalScope = some root ∧ table.scopes[root]? = some global ∧
      InOrder ⟨{}, 9⟩ table global ∧
      ∀ (position : ScopeId) (entry : Scope), table.scopes[position]? = some entry →
        entry.through.toList.Pairwise (· < ·) := by
  have hAnalyze : (analyze ⟨{}, 9⟩ withInsideFunction).toOption.map (fun table =>
      (table.scopes.map Scope.through,
        table.scopes.toList.all fun entry => !entry.dynamic || decide (entry.kind = .withBody))) =
        some (#[#[], #[0, 1], #[0, 1], #[1]], true) := by
    decide +kernel
  obtain ⟨table, hOk, hObserved⟩ := exists_of_map_toOption _ hAnalyze
  obtain ⟨hThrough, hDynamic⟩ := Prod.mk.inj hObserved
  obtain ⟨root, global, hRoot, hGlobal, hOrder⟩ := references_pairwise_lt hOk
  refine ⟨table, root, global, hOk, hThrough, hRoot, hGlobal, hOrder,
    hOrder.through (.inr fun position entry hEntry hTrue => ?_)⟩
  have hEach := List.all_eq_true.1 hDynamic entry
    (Array.mem_toList_iff.2 (Array.mem_of_getElem? hEntry))
  rw [hTrue] at hEach
  exact .inr (by simpa using hEach)

end Scoping.SymbolTable
