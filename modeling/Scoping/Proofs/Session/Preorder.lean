import Mathlib.Order.Nat
import Scoping.Proofs.Table.Nested

/-! A scope opens after the one around it and before anything outside of that
opens, so that all the scopes in one follow it without a gap. -/

namespace Scoping.SymbolTable

/-- The scopes right inside one, in the order that it lists them in. -/
def childrenOf (table : SymbolTable) (scope : ScopeId) : List ScopeId :=
  (table.scopes[scope]?.map fun entry => entry.children.toList).getD []

/-- A scope and all those in it, each before the ones inside it. A scope is
opened before those inside it, so that the positions grow. -/
def preorder (table : SymbolTable) (scope : ScopeId) : List ScopeId :=
  scope :: (table.childrenOf scope).flatMap fun child =>
    if scope < child ∧ child < table.scopes.size then table.preorder child else []
termination_by table.scopes.size - scope
decreasing_by
  rename_i h
  exact Nat.sub_lt_sub_left (Nat.lt_trans h.1 h.2) h.1

/-- The scopes that no other is around. -/
def roots (table : SymbolTable) : List ScopeId :=
  (List.range table.scopes.size).filter fun scope => table.upper? scope = none

/-- The number of scopes around a scope. -/
def depth (table : SymbolTable) (scope : ScopeId) : Nat :=
  (table.enclosing scope).length - 1

/-- Scopes list what is right inside them in order of opening, and each scope
opens right inside the last one or one around that. -/
structure Consecutive (table : SymbolTable) : Prop where
  upper_lt : table.UppersFall
  children : ∀ scope, table.childrenOf scope =
    (List.range table.scopes.size).filter fun child => table.upper? child = some scope
  adjoining : ∀ scope upper : Nat, table.upper? (scope + 1) = some upper →
    upper ∈ table.enclosing scope

-- Positions are numbers to `omega` only under that name.
variable {table : SymbolTable} {scope upper inner : Nat} {around : Option Nat}

theorem depth_of_upper (hFall : table.UppersFall) (hUpper : table.upper? scope = some upper) :
    table.depth scope = table.depth upper + 1 := by
  obtain ⟨rest, hRest⟩ := exists_enclosing_eq_cons table upper
  rw [depth, depth, enclosing_of_upper hUpper (hFall _ _ hUpper), hRest]
  rfl

/-- A scope lies deeper than those around it. -/
theorem depth_lt_of_mem_enclosing (h : inner ∈ table.enclosing scope) (hNe : inner ≠ scope) :
    table.depth inner < table.depth scope := by
  obtain ⟨passed, rest, hSplit⟩ := List.append_of_mem h
  obtain ⟨outer, hOuter⟩ := exists_enclosing_eq_cons table scope
  have hPassed : 0 < passed.length := by
    cases passed with
    | nil =>
        rw [hOuter] at hSplit
        exact absurd (List.cons.inj hSplit).1.symm hNe
    | cons _ _ => exact Nat.succ_pos _
  rw [depth, depth, enclosing_of_append hSplit, hSplit, List.length_append, List.length_cons]
  omega

namespace Consecutive

/-- A scope that is around a later one is around every scope between the two. -/
theorem mem_enclosing_of_le (h : table.Consecutive) {between : Nat}
    (hBetween : between ≤ scope) (hInner : inner ≤ between) (hMem : inner ∈ table.enclosing scope) :
    inner ∈ table.enclosing between := by
  induction scope, hBetween using Nat.le_induction with
  | base => exact hMem
  | succ scope hLe ih =>
      rcases mem_enclosing_cases hMem with rfl | ⟨upper, hUpper, hRest⟩
      · exact absurd hInner (Nat.not_le_of_lt (Nat.lt_succ_of_le hLe))
      · exact ih (enclosing_subset_of_mem (h.adjoining scope upper hUpper) hRest)

/-- The scope around a scope is the last one before it that lies one less deep. -/
theorem depth_ne_of_between (h : table.Consecutive) (hUpper : table.upper? scope = some upper)
    {between : Nat} (hAfter : upper < between) (hBefore : between < scope) :
    table.depth between + 1 ≠ table.depth scope := by
  have hMem := h.mem_enclosing_of_le (Nat.le_of_lt hBefore) (Nat.le_of_lt hAfter)
    (upper_mem_enclosing h.upper_lt hUpper)
  have hDeeper := depth_lt_of_mem_enclosing hMem (Nat.ne_of_lt hAfter)
  have hDepth := depth_of_upper h.upper_lt hUpper
  omega

theorem preorder_eq (h : table.Consecutive) (scope : Nat) :
    table.preorder scope = scope :: (table.childrenOf scope).flatMap table.preorder := by
  rw [preorder]
  congr 1
  refine List.flatMap_congr fun child hChild => if_pos ?_
  rw [h.children] at hChild
  obtain ⟨hRange, hUpper⟩ := List.mem_filter.1 hChild
  exact ⟨h.upper_lt _ _ (of_decide_eq_true hUpper), List.mem_range.1 hRange⟩

/-- Some scopes without a gap, of which each is right inside one same scope or
lies in others of them. No later scope lies in any. -/
structure Segment (table : SymbolTable) (around : Option Nat) (first last : Nat) : Prop where
  outside : ∀ outer : Nat, around = some outer → outer < first
  inside : ∀ scope, first ≤ scope → scope < last → table.upper? scope = around ∨
    ∃ upper : Nat, first ≤ upper ∧ table.upper? scope = some upper
  complete : ∀ scope upper : Nat, last ≤ scope → table.upper? scope = some upper →
    upper < first ∨ last ≤ upper

/-- A scope that is right inside the same one as the first ends what lies in
the first. -/
theorem Segment.upper_lt_or_le (h : table.Consecutive) {first next last : Nat}
    (hSegment : Segment table around first last) (hNext : next = last ∨ table.upper? next = around)
    (hLe : next ≤ scope) (hUpper : table.upper? scope = some upper) :
    upper < first ∨ next ≤ upper := by
  rcases hNext with rfl | hSibling
  · exact hSegment.complete scope upper hLe hUpper
  · by_contra hBetween
    obtain ⟨hFirst, hLt⟩ : first ≤ upper ∧ upper < next := by omega
    have hMem := h.mem_enclosing_of_le hLe (Nat.le_of_lt hLt)
      (upper_mem_enclosing h.upper_lt hUpper)
    rcases mem_enclosing_cases hMem with rfl | ⟨outer, hOuter, hRest⟩
    · exact Nat.lt_irrefl _ hLt
    · have hOutside := hSegment.outside outer (hSibling ▸ hOuter)
      exact Nat.not_lt_of_le (Nat.le_trans hFirst (le_of_mem_enclosing hRest)) hOutside

/-- The first scope of a segment is followed by those in it, and these by the
rest of the segment. -/
theorem Segment.exists_next (h : table.Consecutive) {first last : Nat}
    (hSegment : Segment table around first last) (hLt : first < last) :
    ∃ next : Nat, first < next ∧ next ≤ last ∧ table.upper? first = around ∧
      (∀ scope, first < scope → scope < next → table.upper? scope ≠ around) ∧
      Segment table (some first) (first + 1) next ∧ Segment table around next last ∧
      ∀ scope, next ≤ scope → table.upper? scope ≠ some first := by
  -- The next scope with the same one around it, or else the end of the segment.
  have hExists : ∃ next : Nat, first < next ∧ (next = last ∨ table.upper? next = around) :=
    ⟨last, hLt, .inl rfl⟩
  classical
  obtain ⟨hAfter, hNext⟩ := Nat.find_spec hExists
  have hLe : Nat.find hExists ≤ last := Nat.find_min' hExists ⟨hLt, .inl rfl⟩
  have hMin : ∀ scope : Nat, first < scope → scope < Nat.find hExists →
      table.upper? scope ≠ around :=
    fun scope hScope hBefore hEq => Nat.find_min hExists hBefore ⟨hScope, .inr hEq⟩
  generalize Nat.find hExists = next at *
  -- All that comes from there on is further out than the first scope, or inside what comes
  -- there.
  have hClear : ∀ scope upper : Nat, next ≤ scope → table.upper? scope = some upper →
      upper < first ∨ next ≤ upper :=
    fun scope upper hScope hUpper => hSegment.upper_lt_or_le h hNext hScope hUpper
  refine ⟨next, hAfter, hLe, ?_, hMin, ⟨?_, ?_, ?_⟩, ⟨?_, ?_, ?_⟩, ?_⟩
  · rcases hSegment.inside first (Nat.le_refl _) hLt with hAround | ⟨upper, hUpperLe, hUpper⟩
    · exact hAround
    · exact absurd (h.upper_lt _ _ hUpper) (Nat.not_lt_of_le hUpperLe)
  · rintro outer ⟨⟩
    exact Nat.lt_succ_self first
  · intro scope hScope hBefore
    rcases hSegment.inside scope (by omega) (by omega) with hAround | ⟨upper, hUpperLe, hUpper⟩
    · exact absurd hAround (hMin scope hScope hBefore)
    · rcases Nat.eq_or_lt_of_le hUpperLe with rfl | hInner
      · exact .inl hUpper
      · exact .inr ⟨upper, hInner, hUpper⟩
  · intro scope upper hScope hUpper
    have := hClear scope upper hScope hUpper
    omega
  · exact fun outer hOuter => Nat.lt_trans (hSegment.outside outer hOuter) hAfter
  · intro scope hScope hBefore
    rcases hSegment.inside scope (by omega) hBefore with hAround | ⟨upper, hUpperLe, hUpper⟩
    · exact .inl hAround
    · refine .inr ⟨upper, ?_, hUpper⟩
      have := hClear scope upper hScope hUpper
      omega
  · intro scope upper hScope hUpper
    have := hSegment.complete scope upper hScope hUpper
    omega
  · intro scope hScope hUpper
    have := hClear scope first hScope hUpper
    omega

theorem filter_range'_eq_nil {start count : Nat} {p : Nat → Bool}
    (h : ∀ position, start ≤ position → position < start + count → p position = false) :
    (List.range' start count).filter p = [] :=
  List.filter_eq_nil_iff.2 fun position hMem => by
    obtain ⟨hStart, hEnd⟩ := List.mem_range'_1.1 hMem
    simp [h position hStart hEnd]

theorem range'_append_sub {first next last : Nat} (hFirst : first ≤ next) (hLast : next ≤ last) :
    List.range' first (next - first) ++ List.range' next (last - next) =
      List.range' first (last - first) := by
  have hAppend := List.range'_append_1 (s := first) (m := next - first) (n := last - next)
  rwa [Nat.add_sub_cancel' hFirst, show next - first + (last - next) = last - first by omega]
    at hAppend

/-- The scopes right inside one are among those between it and the next one
outside of it. -/
theorem childrenOf_eq (h : table.Consecutive) {first next : Nat} (hLt : first < next)
    (hSize : next ≤ table.scopes.size)
    (hClear : ∀ scope, next ≤ scope → table.upper? scope ≠ some first) :
    table.childrenOf first = (List.range' (first + 1) (next - (first + 1))).filter fun child =>
      table.upper? child = some first := by
  have hBefore : (List.range' 0 (first + 1 - 0)).filter
      (fun child => table.upper? child = some first) = [] := by
    refine filter_range'_eq_nil fun position _ hEnd => decide_eq_false fun hUpper => ?_
    have hFall : first < position := h.upper_lt _ _ hUpper
    omega
  have hAfter : (List.range' next (table.scopes.size - next)).filter
      (fun child => table.upper? child = some first) = [] :=
    filter_range'_eq_nil fun position hStart _ => decide_eq_false (hClear position hStart)
  rw [h.children, List.range_eq_range', ← Nat.sub_zero table.scopes.size,
    ← range'_append_sub (Nat.zero_le next) hSize, ← range'_append_sub (Nat.zero_le (first + 1)) hLt,
    List.filter_append, List.filter_append, hBefore, hAfter, List.nil_append, List.append_nil]

/-- A segment is what its scopes that lie right inside the same one are and what
lies in each, one after the other. -/
theorem flatMap_preorder_eq (h : table.Consecutive) {first last : Nat}
    (hSize : last ≤ table.scopes.size) (hSegment : Segment table around first last) :
    ((List.range' first (last - first)).filter fun scope => table.upper? scope = around).flatMap
      table.preorder = List.range' first (last - first) := by
  -- By induction on the length. The first scope takes all up to the next one beside it.
  induction hCount : last - first using Nat.strong_induction_on
    generalizing around first last with
  | _ count ih =>
      subst hCount
      rcases Nat.lt_or_ge first last with hLt | hGe
      · obtain ⟨next, hAfter, hNext, hFirst, hInner, hBelow, hRest, hClear⟩ :=
          hSegment.exists_next h hLt
        have hSplit : List.range' first (last - first) =
            first :: (List.range' (first + 1) (next - (first + 1)) ++
              List.range' next (last - next)) := by
          rw [← range'_append_sub (Nat.le_of_lt hAfter) hNext, ← List.cons_append,
            ← List.range'_succ, show next - (first + 1) + 1 = next - first by omega]
        have hSkip : (List.range' (first + 1) (next - (first + 1))).filter
            (fun scope => table.upper? scope = around) = [] :=
          filter_range'_eq_nil fun scope hStart hEnd =>
            decide_eq_false (hInner scope hStart (by omega))
        calc ((List.range' first (last - first)).filter fun scope =>
                table.upper? scope = around).flatMap table.preorder
            = table.preorder first ++ ((List.range' next (last - next)).filter fun scope =>
                table.upper? scope = around).flatMap table.preorder := by
              rw [hSplit, List.filter_cons, if_pos (decide_eq_true hFirst), List.filter_append,
                hSkip, List.nil_append, List.flatMap_cons]
          _ = first :: (table.childrenOf first).flatMap table.preorder ++
                List.range' next (last - next) := by
              rw [h.preorder_eq, ih _ (by omega) hSize hRest rfl]
          _ = List.range' first (last - first) := by
              rw [h.childrenOf_eq hAfter (Nat.le_trans hNext hSize) hClear,
                ih _ (by omega) (Nat.le_trans hNext hSize) hBelow rfl, hSplit, List.cons_append]
      · rw [Nat.sub_eq_zero_of_le hGe]
        rfl

/-- All the scopes are the outermost ones with what lies in each. -/
theorem flatMap_preorder_roots (h : table.Consecutive) :
    table.roots.flatMap table.preorder = List.range table.scopes.size := by
  have hAll : Segment table none 0 table.scopes.size := by
    refine ⟨nofun, fun scope _ _ => ?_, fun scope upper hScope hUpper => ?_⟩
    · cases hUpper : table.upper? scope with
      | none => exact .inl rfl
      | some upper => exact .inr ⟨upper, Nat.zero_le upper, rfl⟩
    · obtain ⟨entry, hEntry, -⟩ := upper?_eq_some.1 hUpper
      exact absurd (Array.getElem?_eq_some_iff.1 hEntry).1 (Nat.not_lt_of_le hScope)
  have hListing := h.flatMap_preorder_eq (Nat.le_refl _) hAll
  rw [Nat.sub_zero, ← List.range_eq_range'] at hListing
  exact hListing

end Consecutive

end Scoping.SymbolTable
