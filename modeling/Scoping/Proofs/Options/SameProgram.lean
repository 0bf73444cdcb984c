import Scoping.Proofs.Chronicle.Program
import Scoping.Proofs.Table.Leaving
import Scoping.Proofs.Table.Outline
import Scoping.Proofs.Walk.Arriving

/-! Two analyses of one program that differ at most in what they resolve. All the
way they have tables of one outline, up to the end of the program, where the names
are made global that each has left over. -/

namespace Scoping

namespace SymbolTable

variable {settings first second : Settings} {table next other later before prior : SymbolTable}
  {stack : List ScopeId} {scope : ScopeId} {node : Node} {tree : Tree} {trail : Trail}

theorem outline_leave {left : Option ScopeId × SymbolTable} (hStack : table.stack = scope :: stack)
    {entry : Scope} (hEntry : table.scopes[scope]? = some entry) (hKind : entry.kind ≠ .global)
    (hOk : table.leave settings = .ok left) : left.2.outline = { table.outline with stack } := by
  rw [leave, hStack] at hOk
  obtain ⟨closed, hClosed, hLeft⟩ := exists_of_bind_ok hOk
  split at hLeft
  · cases hLeft
    change closed.outline = SymbolTable.outline { table with stack }
    exact outline_close hEntry hKind hClosed
  · cases hLeft

/-- Scopes that close are not open any more, which is all that the outline shows of
it, as long as none of them is global. -/
theorem outline_leaves (scopes : List ScopeId)
    (hKinds : ∀ scope ∈ scopes, ∃ entry, table.outline.scopes[scope]? = some entry ∧
      entry.kind ≠ .global)
    (hStack : table.stack = scopes ++ stack)
    (hOk : scopes.foldlM (fun table _ => do return (← table.leave settings).2) table = .ok next) :
    next.outline = { table.outline with stack } := by
  induction scopes generalizing table with
  | nil =>
      cases hOk
      obtain rfl : next.stack = stack := hStack
      rfl
  | cons scope scopes ih =>
      obtain ⟨middle, hMiddle, hRest⟩ := exists_of_bind_ok hOk
      obtain ⟨left, hLeft, hEnd⟩ := exists_of_bind_ok hMiddle
      cases hEnd
      obtain ⟨entry, hEntry, hKind⟩ := hKinds scope List.mem_cons_self
      obtain ⟨found, hFound, rfl⟩ : ∃ found, table.scopes[scope]? = some found ∧
          found.outline = entry := by simpa using hEntry
      have hOutline := outline_leave hStack hFound hKind hLeft
      rw [ih ?_ ?_ hRest, hOutline]
      · rw [hOutline]
        exact fun inner hInner => hKinds inner (List.mem_cons_of_mem _ hInner)
      · exact congrArg (fun outline : SymbolTable => outline.stack) hOutline

theorem leaving_outline (table : SymbolTable) (node : Node) :
    table.outline.leaving node = table.leaving node := by
  have hBlock : ∀ scope : ScopeId,
      (table.outline.scopes[scope]?.any fun entry => entry.block == node) =
        table.scopes[scope]?.any fun entry => entry.block == node := fun scope => by
    simp only [getElem?_scopes_outline, Option.any_map]
    rfl
  simp only [leaving, hBlock]
  rfl

/-- As long as a scope stays open, no scope that closes is global. -/
theorem kind_ne_global_of_leaving (hNested : Nested table table.stack)
    (hOutermost : Outermost table) (hSplit : table.stack = table.leaving node ++ stack)
    (hOpen : stack ≠ []) :
    ∀ scope ∈ table.leaving node, ∃ entry, table.outline.scopes[scope]? = some entry ∧
      entry.kind ≠ .global := by
  intro scope hScope
  obtain ⟨inner, around, hLeaving⟩ := List.append_of_mem hScope
  rw [hLeaving, List.append_assoc, List.cons_append] at hSplit
  obtain ⟨entry, hEntry, hUpper⟩ := hNested.chain scope (around ++ stack) ⟨inner, hSplit.symm⟩
  refine ⟨entry.outline, by simp [hEntry], fun hKind => hOpen ?_⟩
  rw [hOutermost scope entry hEntry hKind] at hUpper
  exact (List.append_eq_nil_iff.1 (List.head?_eq_none_iff.1 hUpper.symm)).2

/-- Tables of one outline have one outline after the end of a node that leaves a
scope open. -/
theorem outline_eq_of_leaveAll (hNested : Nested table table.stack) (hOutermost : Outermost table)
    (hOther : Nested other other.stack) (hSame : table.outline = other.outline)
    (hOpen : next.stack ≠ []) (hOk : table.leaveAll first node = .ok next)
    (hLater : other.leaveAll second node = .ok later) : next.outline = later.outline := by
  obtain ⟨hSplit, -⟩ := closes_leaveAll hNested hOk
  obtain ⟨hOtherSplit, -⟩ := closes_leaveAll hOther hLater
  have hStack : table.stack = other.stack := by
    rw [← stack_outline table, ← stack_outline other, hSame]
  have hLeaving : table.leaving node = other.leaving node := by
    rw [← leaving_outline table, ← leaving_outline other, hSame]
  have hEnd : next.stack = later.stack := by
    rw [← hStack, hSplit, ← hLeaving] at hOtherSplit
    exact List.append_cancel_left hOtherSplit
  have hKinds := kind_ne_global_of_leaving hNested hOutermost hSplit hOpen
  have hOtherKinds := hKinds
  rw [hLeaving, hSame] at hOtherKinds
  rw [outline_leaves _ hKinds hSplit hOk, outline_leaves _ hOtherKinds hOtherSplit hLater, hSame,
    hEnd]

/-- As long as scopes are open before each event, and one more is to come, two runs
have tables of one outline. -/
theorem outline_eq_of_run (hAlike : first.OpenAlike second) {events : List Event} {last : Event}
    (hFollows : Follows table trail) (hOutermost : Outermost table)
    (hOther : Nested other other.stack)
    (hLog : ∀ entry ∈ trail.log first (table.signals (events ++ [last])), entry.1 ≠ [])
    (hSame : table.outline = other.outline) (hOk : table.run first events = .ok next)
    (hLater : other.run second events = .ok later) :
    Nested next next.stack ∧ Nested later later.stack ∧ next.stack ≠ [] ∧
      next.outline = later.outline := by
  induction events generalizing table other trail with
  | nil =>
      cases hOk
      cases hLater
      refine ⟨hFollows.nested, hOther, fun hNil => ?_, hSame⟩
      rw [hFollows.stack, List.map_eq_nil_iff] at hNil
      exact hLog _ List.mem_cons_self hNil
  | cons event events ih =>
      obtain ⟨middle, hMiddle, hRest⟩ := exists_of_bind_ok hOk
      obtain ⟨between, hBetween, hEnd⟩ := exists_of_bind_ok hLater
      rw [List.cons_append, signals_cons hFollows.nested hMiddle] at hLog
      have hLogRest : ∀ entry ∈ (trail.step first (table.signalFor event)).log first
          (middle.signals (events ++ [last])), entry.1 ≠ [] :=
        fun entry hEntry => hLog entry (List.mem_cons_of_mem _ hEntry)
      have hMiddleFollows := follows_apply hFollows (fits_signalFor table event) hMiddle
      have hOpen : middle.stack ≠ [] := fun hNil => by
        rw [hMiddleFollows.stack, List.map_eq_nil_iff] at hNil
        obtain ⟨signal, signals, hSignals⟩ :
            ∃ signal signals, middle.signals (events ++ [last]) = signal :: signals := by
          cases events <;> exact ⟨_, _, rfl⟩
        refine hLogRest (_, signal) ?_ hNil
        rw [hSignals]
        exact List.mem_cons_self
      have hMiddleSame : middle.outline = between.outline := by
        by_cases hLeave : ∃ block, event = .leave block
        · obtain ⟨block, rfl⟩ := hLeave
          exact outline_eq_of_leaveAll hFollows.nested hOutermost hOther hSame hOpen hMiddle hBetween
        · exact outline_eq_of_apply hAlike (fun block hEq => hLeave ⟨block, hEq⟩) hSame hMiddle
            hBetween
      exact ih hMiddleFollows (outermost_apply hFollows hOutermost hMiddle)
        (nested_apply hOther hBetween) hLogRest hMiddleSame hRest hEnd

/-- The walk of a program ends with the end of its root. -/
theorem exists_programEvents_append (settings : Settings) (root : Node) :
    ∃ events, programEvents settings root =
      .enter .global root false :: (events ++ [.leave root]) := by
  obtain ⟨opened, hOpened⟩ : ∃ opened, Walker.program { settings } root =
      .emit (.enter .global root false) :: (opened ++ [.emit (.leave root)]) := ⟨_, rfl⟩
  refine ⟨opened.flatMap (Task.events settings), ?_⟩
  rw [programEvents, hOpened, List.flatMap_cons, List.flatMap_append, List.flatMap_singleton,
    Task.events_emit, Task.events_emit, List.singleton_append]

/-- The table of a program before its end, at which all that is open closes. -/
structure Ends (settings : Settings) (root : Node) (before table : SymbolTable) : Prop where
  nested : Nested before before.stack
  open_ : before.stack ≠ []
  pristine : Pristine before
  assigned : AllAssigned before
  leaves : before.leaveAll settings root = .ok table

/-- What a walk has led to before the end of a program. -/
theorem ends_of_run {events : List Event} (hOk : ({} : SymbolTable).run settings events = .ok before)
    (hOpen : before.stack ≠ []) (hLeaves : before.leaveAll settings tree.root = .ok table) :
    Ends settings tree.root before table := by
  obtain ⟨hNested, hPristine, hAssigned, -⟩ := run_induction
    (P := fun table => Pristine table ∧ AllAssigned table ∧ Named table)
    (fun _ _ _ hNested h hApply => ⟨pristine_apply h.1 hNested hApply,
      allAssigned_apply h.2.1 h.2.2 hNested hApply, named_apply hNested h.2.2 hApply⟩)
    nested_empty ⟨pristine_empty, allAssigned_empty, named_empty⟩ hOk
  exact ⟨hNested, hOpen, hPristine, hAssigned, hLeaves⟩

/-- Two analyses that may differ in what they resolve come to the end of a program
with tables of one outline. -/
theorem exists_ends (hRead : first.ReadAlike second) (hAlike : first.OpenAlike second)
    (hOk : analyze first tree = .ok table) (hOther : analyze second tree = .ok other) :
    ∃ before prior, before.outline = prior.outline ∧ Ends first tree.root before table ∧
      Ends second tree.root prior other := by
  have hRun := (spec_of_analyze_eq_ok hOk).2.2.2
  have hOtherRun := (spec_of_analyze_eq_ok hOther).2.2.2
  obtain ⟨events, hEvents⟩ := exists_programEvents_append first tree.root
  rw [hEvents] at hRun
  rw [← programEvents_congr hRead, hEvents] at hOtherRun
  obtain ⟨opened, hOpened, hRest⟩ := exists_of_bind_ok hRun
  obtain ⟨begun, hBegun, hOtherRest⟩ := exists_of_bind_ok hOtherRun
  obtain ⟨before, hBefore, hLast⟩ := exists_run_of_append hRest
  obtain ⟨_, hLeave, hEnd⟩ := exists_of_bind_ok hLast
  cases hEnd
  obtain ⟨prior, hPrior, hOtherLast⟩ := exists_run_of_append hOtherRest
  obtain ⟨_, hOtherLeave, hOtherEnd⟩ := exists_of_bind_ok hOtherLast
  cases hOtherEnd
  have hBegins := begins_of_first hEvents hOpened
  have hOutermost : Outermost opened :=
    outermost_apply follows_empty (fun _ _ h => by simp at h) hOpened
  have hSame : opened.outline = begun.outline :=
    outline_eq_of_apply hAlike (fun _ hEq => by cases hEq) rfl hOpened hBegun
  obtain ⟨-, -, hOpen, hOutline⟩ := outline_eq_of_run hAlike hBegins.follows hOutermost
    (nested_apply nested_empty hBegun) hBegins.log hSame hBefore hPrior
  have hOtherOpen : prior.stack ≠ [] := by
    rwa [← stack_outline prior, ← hOutline, stack_outline]
  have hWay : ({} : SymbolTable).run first (.enter .global tree.root false :: events) = .ok before := by
    rw [run_cons, hOpened]
    exact hBefore
  have hOtherWay : ({} : SymbolTable).run second (.enter .global tree.root false :: events) =
      .ok prior := by
    rw [run_cons, hBegun]
    exact hPrior
  exact ⟨before, prior, hOutline, ends_of_run hWay hOpen hLeave,
    ends_of_run hOtherWay hOtherOpen hOtherLeave⟩

/-- What is seen of an array is what is seen of its entries. -/
theorem map_eq_of_getElem? {α β : Type} {view : α → β} {before after : Array α}
    (hSize : after.size = before.size)
    (h : ∀ (position : Nat) (entry : α), before[position]? = some entry →
      ∃ later, after[position]? = some later ∧ view later = view entry) :
    after.map view = before.map view := by
  refine Array.ext_getElem? fun position => ?_
  rw [Array.getElem?_map, Array.getElem?_map]
  cases hBefore : before[position]? with
  | none =>
      rw [Array.getElem?_eq_none_iff] at hBefore
      rw [Array.getElem?_eq_none_iff.2 (hSize ▸ hBefore)]
  | some entry =>
      obtain ⟨later, hLater, hView⟩ := h position entry hBefore
      rw [hLater, Option.map_some, Option.map_some, hView]

namespace Ends

variable {root : Node}

theorem closes (h : Ends settings root before table) :
    Closes table.stack { before with stack := table.stack } table :=
  (closes_leaveAll h.nested h.leaves).2

theorem map_scopes (h : Ends settings root before table) :
    table.scopes.map Scope.outline = before.scopes.map Scope.outline := by
  refine map_eq_of_getElem? h.closes.scopesSize fun position entry hBefore => ?_
  obtain ⟨after, hAfter, hSettles⟩ := h.closes.scope position entry hBefore
  exact ⟨after, hAfter, hSettles.outline_eq⟩

theorem map_references (h : Ends settings root before table) :
    table.references.map Reference.outline = before.references.map Reference.outline := by
  refine map_eq_of_getElem? h.closes.referencesSize fun id entry hBefore => ?_
  obtain ⟨after, hAfter, hSettles⟩ := h.closes.reference id entry hBefore
  exact ⟨after, hAfter, hSettles.outline_eq⟩

/-- Before its end a program has made nothing global: the global scope is still
open. -/
theorem not_implicit (h : Ends settings tree.root before table)
    (hOk : analyze settings tree = .ok table) (var : VariableId) : ¬ before.Implicit var := by
  rintro ⟨position, entry, hEntry, hVar⟩
  obtain ⟨-, hNested, hRooted, -⟩ := spec_of_analyze_eq_ok hOk
  have hKind := (h.assigned var ⟨position, entry, hEntry, hVar⟩).global position entry hEntry hVar
  obtain ⟨after, hAfter, hEq⟩ := h.closes.scope position entry hEntry
  have hUpper : after.upper = none :=
    (chronicle_of_analyze_eq_ok hOk).outermost position after hAfter (by rw [hEq]; exact hKind)
  obtain rfl : position = 0 := hRooted.upper position after hAfter hUpper
  have hInside : (0 : ScopeId) ∈ before.stack := by
    obtain ⟨inner, around, hStack⟩ := List.exists_cons_of_ne_nil h.open_
    have hInner : inner ∈ before.stack := hStack ▸ List.mem_cons_self
    have hLt : inner < table.scopes.size := h.closes.scopesSize ▸ h.nested.lt_of_mem hInner
    have hWay : table.enclosing inner = before.enclosing inner :=
      enclosing_congr fun place _ => h.closes.upper? place
    exact h.nested.enclosing_subset hInner
      (hWay ▸ hRooted.zero_mem_enclosing hNested.upper_lt hLt)
  have hNone := h.pristine 0 entry hEntry ((h.nested.open_iff 0 entry hEntry).2 hInside)
  rw [hNone] at hVar
  exact absurd hVar (by simp)

/-- What was declared before the end stays, and what comes after it is global. -/
theorem implicit_iff (h : Ends settings tree.root before table)
    (hOk : analyze settings tree = .ok table) (var : VariableId) :
    table.Implicit var ↔ before.variables.size ≤ var ∧ var < table.variables.size := by
  obtain ⟨-, hNested, -, -⟩ := spec_of_analyze_eq_ok hOk
  constructor
  · rintro ⟨position, entry, hEntry, hVar⟩
    refine ⟨Nat.le_of_not_lt fun hLt => ?_, hNested.toPlaced.homes_implicit.lt_size hEntry hVar⟩
    obtain ⟨-, -, -, hOwn⟩ := h.closes.variable_ var _ (Array.getElem?_eq_getElem hLt)
      (h.not_implicit hOk var)
    exact hOwn ⟨position, entry, hEntry, hVar⟩
  · rintro ⟨hNew, hLt⟩
    obtain ⟨entry, hEntry, hDeclared | hImplicit⟩ := (chronicle_of_analyze_eq_ok hOk).named.owned
      var _ (Array.getElem?_eq_getElem hLt)
    · -- A name of the scope itself was there before.
      have hScopeLt := lt_of_getElem?_scopes hEntry
      rw [h.closes.scopesSize] at hScopeLt
      obtain ⟨after, hAfter, hEq⟩ := h.closes.scope _ _ (Array.getElem?_eq_getElem hScopeLt)
      cases hAfter.symm.trans hEntry
      rw [hEq] at hDeclared
      exact absurd (h.nested.toPlaced.homes_variables.lt_size (Array.getElem?_eq_getElem hScopeLt)
        hDeclared) (Nat.not_lt.2 hNew)
    · exact ⟨_, entry, hEntry, hImplicit⟩

theorem map_variables (h : Ends settings tree.root before table)
    (hOk : analyze settings tree = .ok table) {var : VariableId} (hLt : var < before.variables.size) :
    table.variables[var]?.map Variable.outline = before.variables[var]?.map Variable.outline := by
  have hBefore := Array.getElem?_eq_getElem hLt
  obtain ⟨after, hAfter, hSettles, -⟩ :=
    h.closes.variable_ var _ hBefore (h.not_implicit hOk var)
  rw [hAfter, hBefore, Option.map_some, Option.map_some, hSettles.outline_eq]

end Ends

/-- Two tables of one program. The scopes and the uses are the same but for what is
resolved. So are the variables that are declared, and those come first: all others
are made global by assignments. -/
structure SameProgram (table other : SymbolTable) : Prop where
  scopes : table.scopes.map Scope.outline = other.scopes.map Scope.outline
  references : table.references.map Reference.outline = other.references.map Reference.outline
  «variables» : ∃ count, (∀ var < count,
      table.variables[var]?.map Variable.outline = other.variables[var]?.map Variable.outline) ∧
    (∀ var, table.Implicit var ↔ count ≤ var ∧ var < table.variables.size) ∧
    ∀ var, other.Implicit var ↔ count ≤ var ∧ var < other.variables.size

/-- What a program declares and uses does not depend on what is resolved. -/
theorem sameProgram_of_analyze (hRead : first.ReadAlike second) (hAlike : first.OpenAlike second)
    (hOk : analyze first tree = .ok table) (hOther : analyze second tree = .ok other) :
    SameProgram table other := by
  obtain ⟨before, prior, hOutline, hEnds, hOtherEnds⟩ := exists_ends hRead hAlike hOk hOther
  have hScopes : before.scopes.map Scope.outline = prior.scopes.map Scope.outline :=
    congrArg SymbolTable.scopes hOutline
  have hReferences : before.references.map Reference.outline =
      prior.references.map Reference.outline := congrArg SymbolTable.references hOutline
  have hSize : before.variables.size = prior.variables.size := by
    rw [← @size_variables_outline before, hOutline, size_variables_outline]
  refine ⟨?_, ?_, before.variables.size, fun var hLt => ?_, hEnds.implicit_iff hOk, ?_⟩
  · rw [hEnds.map_scopes, hOtherEnds.map_scopes, hScopes]
  · rw [hEnds.map_references, hOtherEnds.map_references, hReferences]
  · rw [hEnds.map_variables hOk hLt, hOtherEnds.map_variables hOther (hSize ▸ hLt),
      ← getElem?_variables_outline, ← getElem?_variables_outline, hOutline]
  · rw [hSize]
    exact hOtherEnds.implicit_iff hOther

end SymbolTable

end Scoping
