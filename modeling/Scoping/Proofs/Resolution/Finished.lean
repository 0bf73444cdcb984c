import Scoping.Proofs.Resolution.Accounting
import Scoping.Proofs.Walk.Balance

/-! What the finished table of a program says of its references. Each means what
one search outward finds, and is held where that search has come by. -/

namespace Scoping.SymbolTable

variable {settings : Settings} {table : SymbolTable} {tree : Tree} {id : ReferenceId}
  {reference : Reference}

theorem accounted_empty : Accounted settings {} := fun _ =>
  .unknown rfl ⟨fun _ => rfl, fun _ => rfl, fun _ => rfl, fun _ => rfl⟩

theorem accounted_of_analyze_eq_ok (hOk : analyze settings tree = .ok table) :
    Accounted settings table := by
  obtain ⟨-, -, -, hRun⟩ := spec_of_analyze_eq_ok hOk
  exact (run_induction (P := Accounted settings)
    (fun _ _ _ hNested hTable hApply => accounted_apply hTable hNested hApply)
    (nested_empty : Nested {} (SymbolTable.stack {})) accounted_empty hRun).2

/-- A reference of a finished table has found its variable at the end of its
course, or has been lost there. -/
inductive Settled (settings : Settings) (table : SymbolTable) (id : ReferenceId)
    (reference : Reference) : Prop where
  | resolved (passed around : List ScopeId) (scope : ScopeId) (var : VariableId)
      (course : Course settings table id reference passed (scope :: around))
      (binds : table.verdict settings scope id = .binds var)
      (resolved : reference.resolved = some var)
      (foot : Footprint table id [reference.scope] [] passed [var])
  | lost (passed hidden : List ScopeId) (course : Course settings table id reference passed hidden)
      (stops : ∀ scope ∈ hidden.head?, table.verdict settings scope id = .stop)
      (unresolved : reference.resolved = none)
      (foot : Footprint table id [reference.scope] [] (passed ++ hidden) [])

theorem settled_of_accounted (h : Accounted settings table) (hNested : Nested table [])
    (hFound : table.references[id]? = some reference) : Settled settings table id reference := by
  cases h id with
  | unknown found => exact absurd (hFound.symm.trans found) (by simp)
  | waiting other passed scope rest course unresolved foot =>
      have hWaits := foot.waiting scope
      cases hEntry : table.scopes[scope]? with
      | none => simp [occurrences, hEntry] at hWaits
      | some entry =>
          have hClosed : entry.pending = none := by simpa using hNested.open_iff scope entry hEntry
          simp [occurrences, hEntry, Scope.waiting, hClosed] at hWaits
  | resolved other passed scope rest course owner at_owner closed var binds resolved foot =>
      cases hFound.symm.trans course.found
      exact .resolved passed rest scope var course binds resolved foot
  | lost other passed hidden course stops unresolved foot =>
      cases hFound.symm.trans course.found
      exact .lost passed hidden course (fun scope hHead => (stops scope hHead).1) unresolved foot

theorem settled_of_analyze_eq_ok (hOk : analyze settings tree = .ok table)
    (hFound : table.references[id]? = some reference) : Settled settings table id reference :=
  settled_of_accounted (accounted_of_analyze_eq_ok hOk) (spec_of_analyze_eq_ok hOk).2.1 hFound

/-- What a reference of a finished table has resolved to is what one search outward
finds. -/
theorem Settled.resolved_eq (h : Settled settings table id reference) :
    reference.resolved = table.meaning settings id (table.enclosing reference.scope) := by
  cases h with
  | resolved passed around scope var course binds resolved foot =>
      rw [course.enclosing, meaning_append_of_outward course.letOut.outward, meaning, binds, resolved]
  | lost passed hidden course stops unresolved foot =>
      rw [course.enclosing, meaning_append_of_outward course.letOut.outward, unresolved]
      cases hidden with
      | nil => rfl
      | cons scope around => rw [meaning, stops scope rfl]

/-- Everywhere that a finished table holds a reference. -/
structure HeldOnce (table : SymbolTable) (id : ReferenceId) (reference : Reference) : Prop where
  placed : reference.scope < table.scopes.size
  recorded : ∀ (scope : ScopeId) (entry : Scope), table.scopes[scope]? = some entry →
    entry.references.count id = if scope = reference.scope then 1 else 0
  unresolved : reference.resolved = none →
    (∀ (scope : ScopeId) (entry : Scope), table.scopes[scope]? = some entry →
      entry.through.count id = if scope ∈ table.enclosing reference.scope then 1 else 0) ∧
    ∀ (var : VariableId) (entry : Variable), table.variables[var]? = some entry →
      entry.references.count id = 0
  resolved : ∀ var, reference.resolved = some var →
    ∃ declared passed around, table.variables[var]? = some declared ∧
      declared.name = reference.identifier.name ∧
      table.enclosing reference.scope = passed ++ declared.scope :: around ∧
      (∀ (scope : ScopeId) (entry : Scope), table.scopes[scope]? = some entry →
        entry.through.count id = if scope ∈ passed then 1 else 0) ∧
      ∀ (other : VariableId) (entry : Variable), table.variables[other]? = some entry →
        entry.references.count id = if other = var then 1 else 0

theorem count_singleton_eq_ite {α : Type} [DecidableEq α] (home position : α) :
    [home].count position = if position = home then 1 else 0 := by
  by_cases h : position = home
  · simp [h]
  · simp [h, Ne.symm h]

theorem Footprint.through_of_nodup {recorded waiting through : List ScopeId}
    {listed : List VariableId} (h : Footprint table id recorded waiting through listed)
    (hNodup : through.Nodup) {scope : ScopeId} {entry : Scope}
    (hEntry : table.scopes[scope]? = some entry) :
    entry.through.count id = if scope ∈ through then 1 else 0 := by
  rw [← occurrences_of_getElem? hEntry, h.through, hNodup.count]

theorem Footprint.recorded_singleton {home : ScopeId} {waiting through : List ScopeId}
    {listed : List VariableId} (h : Footprint table id [home] waiting through listed)
    {scope : ScopeId} {entry : Scope} (hEntry : table.scopes[scope]? = some entry) :
    entry.references.count id = if scope = home then 1 else 0 := by
  rw [← occurrences_of_getElem? hEntry, h.recorded, count_singleton_eq_ite]

theorem Settled.heldOnce (h : Settled settings table id reference) (hPlaced : Placed table) :
    HeldOnce table id reference := by
  cases h with
  | resolved passed around scope var course binds resolved foot =>
      obtain ⟨found, declared, hFound, hLookup, hDeclared⟩ := exists_of_verdict_binds binds
      cases hFound.symm.trans course.found
      obtain ⟨same, hSame, hHome, hNamed⟩ := hPlaced.exists_of_lookup? hLookup
      cases hSame.symm.trans hDeclared
      refine ⟨course.placed, fun _ _ hEntry => foot.recorded_singleton hEntry, fun hNone => ?_,
        fun other hOther => ?_⟩
      · rw [resolved] at hNone
        cases hNone
      · cases hOther.symm.trans resolved
        have hNodup : (passed ++ scope :: around).Nodup := course.enclosing ▸ enclosing_nodup
        refine ⟨declared, passed, around, hDeclared, hNamed, by rw [hHome, course.enclosing],
          fun _ _ hEntry => foot.through_of_nodup (List.nodup_append.1 hNodup).1 hEntry,
          fun other entry hEntry => ?_⟩
        rw [← mentions_of_getElem? hEntry, foot.listed, count_singleton_eq_ite]
  | lost passed hidden course stops unresolved foot =>
      refine ⟨course.placed, fun _ _ hEntry => foot.recorded_singleton hEntry, fun _ => ?_,
        fun var hVar => ?_⟩
      · rw [← course.enclosing] at foot
        refine ⟨fun _ _ hEntry => foot.through_of_nodup enclosing_nodup hEntry,
          fun var entry hEntry => ?_⟩
        rw [← mentions_of_getElem? hEntry, foot.listed, List.count_nil]
      · rw [unresolved] at hVar
        cases hVar

/-- The outermost scope holds a reference just if it is unresolved. -/
theorem HeldOnce.count_through_root (h : HeldOnce table id reference) {root : Scope}
    (hRoot : table.scopes[0]? = some root) (hInside : 0 ∈ table.enclosing reference.scope) :
    reference.resolved = none ∧ root.through.count id = 1 ∨
      reference.resolved ≠ none ∧ root.through.count id = 0 := by
  cases hResolved : reference.resolved with
  | none =>
      refine .inl ⟨rfl, ?_⟩
      rw [(h.unresolved hResolved).1 0 root hRoot, if_pos hInside]
  | some var =>
      obtain ⟨declared, passed, around, -, -, hWay, hThrough, -⟩ := h.resolved var hResolved
      refine .inr ⟨nofun, ?_⟩
      have hPassed : 0 ∉ passed := fun hMem => by
        have hFalls : (passed ++ declared.scope :: around).Pairwise (· > ·) :=
          hWay ▸ enclosing_sortedGT
        exact Nat.not_lt_zero _
          ((List.pairwise_append.1 hFalls).2.2 0 hMem declared.scope List.mem_cons_self)
      rw [hThrough 0 root hRoot, if_neg hPassed]

/-- A reference that is still to come is held nowhere. -/
theorem Accounted.footprint_of_none (h : Accounted settings table)
    (hNone : table.references[id]? = none) : Footprint table id [] [] [] [] := by
  have hUnknown : ∀ {other : Reference}, table.references[id]? ≠ some other :=
    fun hSome => nomatch hNone.symm.trans hSome
  cases h id with
  | unknown found foot => exact foot
  | waiting other passed scope rest course => exact absurd course.found hUnknown
  | resolved other passed scope rest course => exact absurd course.found hUnknown
  | lost other passed hidden course => exact absurd course.found hUnknown

theorem Accounted.count_through (h : Accounted settings table) {scope : ScopeId} {entry : Scope}
    (hEntry : table.scopes[scope]? = some entry) (hNone : table.references[id]? = none) :
    entry.through.count id = 0 := by
  rw [← occurrences_of_getElem? hEntry, (h.footprint_of_none hNone).through, List.count_nil]

/-- What a scope lists as recorded in it stands in it. -/
theorem Accounted.scope_of_mem (h : Accounted settings table) (hNested : Nested table [])
    {scope : ScopeId} {entry : Scope} (hEntry : table.scopes[scope]? = some entry)
    (hMem : id ∈ entry.references) :
    ∃ reference, table.references[id]? = some reference ∧ reference.scope = scope := by
  have hCount := Array.count_pos_iff.2 hMem
  cases hFound : table.references[id]? with
  | none =>
      rw [← occurrences_of_getElem? hEntry, (h.footprint_of_none hFound).recorded] at hCount
      cases hCount
  | some reference =>
      have hHeld := (settled_of_accounted h hNested hFound).heldOnce hNested.toPlaced
      rw [hHeld.recorded scope entry hEntry] at hCount
      split at hCount
      · next hScope => exact ⟨reference, rfl, hScope.symm⟩
      · cases hCount

/-- Every reference is held once by the scope that recorded it, once by each
scope that it has passed through, and once by the variable that it means, if it
means one. What passes through the global scope is just what is unresolved. -/
theorem references_heldOnce (hOk : analyze settings tree = .ok table) :
    (∀ (id : ReferenceId) (reference : Reference), table.references[id]? = some reference →
      HeldOnce table id reference) ∧
    ∃ root entry, table.globalScope = some root ∧ table.scopes[root]? = some entry ∧
      (∀ scope < table.scopes.size, root ∈ table.enclosing scope) ∧
      entry.through.toList.Nodup ∧
      ∀ id, id ∈ entry.through ↔
        ∃ reference, table.references[id]? = some reference ∧ reference.resolved = none := by
  obtain ⟨-, hNested, hRooted, -⟩ := spec_of_analyze_eq_ok hOk
  have hHeld : ∀ (id : ReferenceId) (reference : Reference),
      table.references[id]? = some reference → HeldOnce table id reference :=
    fun id reference hFound => (settled_of_analyze_eq_ok hOk hFound).heldOnce hNested.toPlaced
  obtain ⟨entry, hEntry, -⟩ := hRooted.global
  have hRoot : ∀ scope < table.scopes.size, 0 ∈ table.enclosing scope :=
    fun scope hScope => hRooted.zero_mem_enclosing hNested.upper_lt hScope
  -- What passes through the global scope is counted there just once, and only if it means
  -- nothing.
  have hCount : ∀ id, entry.through.count id = 1 ∧ (∃ reference,
        table.references[id]? = some reference ∧ reference.resolved = none) ∨
      entry.through.count id = 0 ∧ ¬ ∃ reference,
        table.references[id]? = some reference ∧ reference.resolved = none := by
    intro id
    cases hFound : table.references[id]? with
    | none =>
        exact .inr ⟨(accounted_of_analyze_eq_ok hOk).count_through hEntry hFound, by simp⟩
    | some reference =>
        have hHolds := hHeld id reference hFound
        rcases hHolds.count_through_root hEntry (hRoot _ hHolds.placed) with
          ⟨hUnresolved, hOnce⟩ | ⟨hResolved, hNever⟩
        · exact .inl ⟨hOnce, reference, rfl, hUnresolved⟩
        · exact .inr ⟨hNever, by simpa using hResolved⟩
  refine ⟨hHeld, 0, entry, hRooted.globalScope, hEntry, hRoot,
    List.nodup_iff_count_le_one.2 fun id => ?_, fun id => ?_⟩
  · rw [Array.count_toList]
    rcases hCount id with ⟨hOnce, -⟩ | ⟨hNever, -⟩
    · exact hOnce.le
    · exact hNever.trans_le (Nat.zero_le 1)
  · rw [← Array.count_pos_iff]
    rcases hCount id with ⟨hOnce, hUnresolved⟩ | ⟨hNever, hResolved⟩
    · exact iff_of_true (hOnce ▸ Nat.one_pos) hUnresolved
    · exact iff_of_false (hNever ▸ Nat.lt_irrefl 0) hResolved

/-- The program `function f(a = x) { var x }`, whose body declares what the
default of its parameter uses. -/
def defaultBeforeBody : Tree where
  root := {
    location := []
    kind := "Program"
    entries := [("type", .string "Program"), ("body", .array [.object [
      ("type", .string "FunctionDeclaration"),
      ("id", identifier "f"),
      ("params", .array [.object [("type", .string "AssignmentPattern"),
        ("left", identifier "a"), ("right", identifier "x")]]),
      ("body", .object [("type", .string "BlockStatement"), ("body", .array [.object [
        ("type", .string "VariableDeclaration"), ("kind", .string "var"),
        ("declarations", .array [.object [("type", .string "VariableDeclarator"),
          ("id", identifier "x")]])]])])]])] }
where
  identifier (name : String) : Json :=
    .object [("type", .string "Identifier"), ("name", .string name)]

/-- The second reference is the only one that passes through the global scope. -/
theorem references_heldOnce_defaultBeforeBody :
    ∃ table, analyze ⟨{}, 9⟩ defaultBeforeBody = .ok table ∧
      table.scopes.map Scope.through = #[#[1], #[1], #[]] ∧
      (∀ (id : ReferenceId) (reference : Reference), table.references[id]? = some reference →
        HeldOnce table id reference) ∧
      ∃ root entry, table.globalScope = some root ∧ table.scopes[root]? = some entry ∧
        (∀ scope < table.scopes.size, root ∈ table.enclosing scope) ∧
        entry.through.toList.Nodup ∧
        ∀ id, id ∈ entry.through ↔
          ∃ reference, table.references[id]? = some reference ∧ reference.resolved = none := by
  have hAnalyze : (analyze ⟨{}, 9⟩ defaultBeforeBody).toOption.map
      (fun table => table.scopes.map Scope.through) = some #[#[1], #[1], #[]] := by
    decide +kernel
  obtain ⟨table, hOk, hThrough⟩ := exists_of_map_toOption _ hAnalyze
  exact ⟨table, hOk, hThrough, references_heldOnce hOk⟩

end Scoping.SymbolTable
