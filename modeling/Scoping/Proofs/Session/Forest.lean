import Mathlib.Data.List.Find
import Scoping.Proofs.Chronicle.Surroundings
import Scoping.Proofs.Session.Preorder
import Scoping.Proofs.Table.Registry

/-! Whatever scopes a caller opens and closes by hand, they make trees, one for
each scope that was opened with none open. The list of all scopes, the children
of each, the stack and the index of the scopes of a node are written at different
times, and agree about these trees. -/

namespace Scoping.SymbolTable

variable {settings : Settings} {table next : SymbolTable} {command : Command} {commands : List Command}
  {stack : List ScopeId} {scope upper position : ScopeId}

/-- The innermost of a scope and those around it that a `var` goes no further
than. Where there is none, it is the outermost. -/
def nearestHolder (table : SymbolTable) (scope : ScopeId) : ScopeId :=
  ((table.enclosing scope).find? fun outer => table.scopes[outer]?.any fun entry =>
    entry.kind ∈ [.global, .esModule, .function, .fieldInitializer, .staticBlock]).getD
      ((table.enclosing scope).getLastD scope)

/-- The trees that scopes make, and what is open of them. -/
structure Forest (table : SymbolTable) : Prop where
  /-- The open scopes are each right inside the one below it on the stack, and
  the last is an outermost one. -/
  chain : ∀ scope rest, scope :: rest <:+ table.stack →
    scope < table.scopes.size ∧ table.upper? scope = rest.head?
  open_iff : ∀ (position : ScopeId) (scope : Scope), table.scopes[position]? = some scope →
    (scope.isClosed = false ↔ position ∈ table.stack)
  /-- Every scope is once in the list of all scopes, which is in order of opening. -/
  opened : table.opened.toList = List.range table.scopes.size
  /-- Each scope is once among the children of the one around it, in order of
  opening, and among those of no other. -/
  children : ∀ (position : ScopeId) (scope : Scope), table.scopes[position]? = some scope →
    scope.children.toList =
      table.opened.toList.filter fun child => table.upper? child = some position
  /-- The list of all scopes is made of the trees, one after the other, with each
  scope before what is in it. -/
  preorder : table.opened.toList = table.roots.flatMap table.preorder
  /-- The scope around a scope is the last one before it that lies one less deep. -/
  upper : ∀ scope upper, table.upper? scope = some upper →
    upper < scope ∧ table.depth scope = table.depth upper + 1 ∧
      ∀ between, upper < between → between < scope → table.depth scope ≠ table.depth between + 1
  holder : ∀ (position : ScopeId) (scope : Scope), table.scopes[position]? = some scope →
    scope.variableScope = table.nearestHolder position
  /-- The scopes that are found with a node are those of all scopes that have it as
  their block, in the same order. -/
  acquired : ∀ node, table.scopesOf node = table.opened.toList.filter fun scope =>
    table.scopes[scope]?.any fun entry => entry.block == node

/-- What makes scopes a forest and is kept from one step to the next: besides
the order of opening, that the open scopes are around the last that has opened. -/
structure Growing (table : SymbolTable) : Prop where
  consecutive : table.Consecutive
  latest : ∀ last, last + 1 = table.scopes.size → table.stack <:+ table.enclosing last
  holder : ∀ (position : ScopeId) (scope : Scope), table.scopes[position]? = some scope →
    scope.variableScope = table.nearestHolder position

/-- Two tables with the same scopes at the same places. -/
structure SamePlaces (table next : SymbolTable) : Prop where
  size : next.scopes.size = table.scopes.size
  scope : ∀ (position : ScopeId) (before : Scope), table.scopes[position]? = some before →
    ∃ after, next.scopes[position]? = some after ∧ after.kind = before.kind ∧
      after.upper = before.upper ∧ after.variableScope = before.variableScope ∧
      after.children = before.children

theorem childrenOf_of_getElem? {entry : Scope} (h : table.scopes[scope]? = some entry) :
    table.childrenOf scope = entry.children.toList := by
  simp [childrenOf, h]

theorem nearestHolder_congr
    (hKind : ∀ position ≤ scope, next.scopes[position]?.map Scope.kind =
      table.scopes[position]?.map Scope.kind)
    (hEnclosing : next.enclosing scope = table.enclosing scope) :
    next.nearestHolder scope = table.nearestHolder scope := by
  unfold nearestHolder
  rw [hEnclosing]
  congr 1
  refine List.find?_congr fun outer hOuter => ?_
  have hSame := hKind outer (le_of_mem_enclosing hOuter)
  cases hBefore : table.scopes[outer]? with
  | none =>
      rw [hBefore, Option.map_none, Option.map_eq_none_iff] at hSame
      rw [hSame]
  | some before =>
      rw [hBefore, Option.map_some, Option.map_eq_some_iff] at hSame
      obtain ⟨after, hAfter, hEq⟩ := hSame
      rw [hAfter, Option.any_some, Option.any_some, hEq]

theorem SamePlaces.getElem?_map (h : SamePlaces table next) {α : Type} {field : Scope → α}
    (hField : ∀ before after : Scope, after.kind = before.kind → after.upper = before.upper →
      after.variableScope = before.variableScope → after.children = before.children →
        field after = field before) (position : ScopeId) :
    next.scopes[position]?.map field = table.scopes[position]?.map field := by
  cases hBefore : table.scopes[position]? with
  | some before =>
      obtain ⟨after, hAfter, hKind, hUpper, hHolder, hChildren⟩ := h.scope position before hBefore
      rw [hAfter, Option.map_some, Option.map_some, hField before after hKind hUpper hHolder hChildren]
  | none =>
      have hNone : next.scopes[position]? = none := by
        rw [Array.getElem?_eq_none_iff, h.size]
        exact Array.getElem?_eq_none_iff.1 hBefore
      rw [hNone]

theorem SamePlaces.upper? (h : SamePlaces table next) (position : ScopeId) :
    next.upper? position = table.upper? position := by
  have hSame : next.scopes[position]?.map Scope.upper = table.scopes[position]?.map Scope.upper :=
    h.getElem?_map (fun _ _ _ hUpper _ _ => hUpper) position
  unfold SymbolTable.upper?
  cases hBefore : table.scopes[position]? <;> cases hAfter : next.scopes[position]? <;>
    simp_all

/-- Scopes stay as they grew where none opens. Some of the open ones may close. -/
theorem Growing.of_samePlaces (h : table.Growing) (hSame : SamePlaces table next)
    (hStack : next.stack <:+ table.stack) : next.Growing := by
  have hUpper := hSame.upper?
  have hEnclosing : ∀ position, next.enclosing position = table.enclosing position :=
    fun position => enclosing_congr fun inner _ => hUpper inner
  refine ⟨⟨fun position upper => ?_, fun position => ?_, fun position upper => ?_⟩,
    fun last hLast => ?_, fun position after hAfter => ?_⟩
  · rw [hUpper]
    exact h.consecutive.upper_lt position upper
  · rw [hSame.size, childrenOf, hSame.getElem?_map fun _ _ _ _ _ hChildren => by rw [hChildren]]
    simp only [hUpper]
    exact h.consecutive.children position
  · rw [hUpper, hEnclosing]
    exact h.consecutive.adjoining position upper
  · rw [hEnclosing]
    exact hStack.trans (h.latest last (hSame.size ▸ hLast))
  · have hHolder : next.scopes[position]?.map Scope.variableScope =
        table.scopes[position]?.map Scope.variableScope :=
      hSame.getElem?_map (fun _ _ _ _ hHolder _ => hHolder) position
    rw [hAfter, Option.map_some, eq_comm, Option.map_eq_some_iff] at hHolder
    obtain ⟨before, hBefore, hEq⟩ := hHolder
    rw [← hEq, h.holder position before hBefore]
    exact (nearestHolder_congr (fun inner _ => hSame.getElem?_map (fun _ _ hKind _ _ _ => hKind) inner)
      (hEnclosing position)).symm

/-- What a `var` in a scope goes to is the scope itself, or else what one right
around that goes to. -/
theorem nearestHolder_of_enclosing {entry : Scope} (hEntry : table.scopes[scope]? = some entry)
    {rest : List ScopeId} (hEnclosing : table.enclosing scope = scope :: rest) :
    table.nearestHolder scope = if entry.kind.holdsVars then scope
      else (rest.head?.map table.nearestHolder).getD scope := by
  have hKind : decide (entry.kind ∈ [.global, .esModule, .function, .fieldInitializer,
      .staticBlock]) = entry.kind.holdsVars := by
    cases entry.kind <;> rfl
  unfold nearestHolder
  rw [hEnclosing, List.find?_cons, hEntry, Option.any_some, hKind]
  cases entry.kind.holdsVars with
  | true => rfl
  | false =>
      cases rest with
      | nil => rfl
      | cons upper rest =>
          have hSplit : table.enclosing scope = [scope] ++ upper :: rest := hEnclosing
          have hUpper := enclosing_of_append hSplit
          rw [List.head?_cons, Option.map_some, Option.getD_some, hUpper]
          rfl

/-- A scope that opens does not change the way out of the others. -/
theorem upper?_enter (h : Nested table table.stack) {kind : ScopeKind} {block : Node}
    {inMethod : Bool} (hOk : table.enter settings kind block inMethod = .ok next)
    (child : ScopeId) :
    next.upper? child = if child = table.scopes.size then table.stack.head?
      else table.upper? child := by
  obtain ⟨hSize, ⟨strict, -, fresh, hFresh, hFreshEq⟩, hOld⟩ := scopes_enter h hOk
  split
  · next hNew => rw [hNew, upper?_of_getElem? hFresh, hFreshEq]; rfl
  · next hNe =>
      cases hBefore : table.scopes[child]? with
      | some before =>
          rw [upper?_of_getElem? hBefore, upper?_of_getElem? (hOld child before hBefore)]
      | none =>
          have hNone : next.scopes[child]? = none := by
            rw [Array.getElem?_eq_none_iff] at hBefore ⊢
            exact hSize ▸ Nat.lt_of_le_of_ne hBefore (Ne.symm hNe)
          simp [upper?, hBefore, hNone]

/-- A scope that opens is the last child of the current one. -/
theorem childrenOf_enter (h : Nested table table.stack) (hChildren : table.Consecutive)
    {kind : ScopeKind} {block : Node} {inMethod : Bool}
    (hOk : table.enter settings kind block inMethod = .ok next) (scope : ScopeId) :
    next.childrenOf scope =
      (List.range next.scopes.size).filter fun child => next.upper? child = some scope := by
  obtain ⟨hSize, ⟨strict, -, fresh, hFresh, hFreshEq⟩, hOld⟩ := scopes_enter h hOk
  have hUpper := upper?_enter h hOk
  cases hBefore : table.scopes[scope]? with
  | some before =>
      have hSame : (List.range table.scopes.size).filter
          (fun child => next.upper? child = some scope) = table.childrenOf scope := by
        rw [hChildren.children]
        refine List.filter_congr fun child hChild => ?_
        rw [hUpper, if_neg (Nat.ne_of_lt (List.mem_range.1 hChild))]
      rw [hSize, List.range_succ, List.filter_append, hSame,
        childrenOf_of_getElem? (hOld scope before hBefore), childrenOf_of_getElem? hBefore,
        List.filter_singleton, hUpper, if_pos rfl]
      by_cases hHead : table.stack.head? = some scope
      · simp [hHead]
      · simp [hHead]
  | none =>
      have hEmpty : next.childrenOf scope = [] := by
        rcases Nat.eq_or_lt_of_le (Array.getElem?_eq_none_iff.1 hBefore) with rfl | hLt
        · rw [childrenOf_of_getElem? hFresh, hFreshEq]
          rfl
        · have hNone : next.scopes[scope]? = none := Array.getElem?_eq_none (hSize ▸ hLt)
          simp [childrenOf, hNone]
      rw [hEmpty, eq_comm, List.filter_eq_nil_iff]
      intro child hChild hInside
      have hLt := (nested_enter h hOk).1.upper_lt _ _ (of_decide_eq_true hInside)
      have hLast := List.mem_range.1 hChild
      rw [hSize] at hLast
      exact Nat.not_lt_of_le (Array.getElem?_eq_none_iff.1 hBefore)
        (Nat.lt_of_lt_of_le hLt (Nat.le_of_lt_succ hLast))

/-- The forest grows by a scope that opens. -/
theorem Growing.enter (h : table.Growing) (hNested : Nested table table.stack) {kind : ScopeKind}
    {block : Node} {inMethod : Bool} (hOk : table.enter settings kind block inMethod = .ok next) :
    next.Growing := by
  obtain ⟨hSize, -, hOld⟩ := scopes_enter hNested hOk
  obtain ⟨hNext, -, -, hStack⟩ := nested_enter hNested hOk
  have hUpper := upper?_enter hNested hOk
  -- What is around the scopes that were there stays.
  have hEnclosing : ∀ position < table.scopes.size,
      next.enclosing position = table.enclosing position := fun position hLt =>
    enclosing_congr fun inner hLe => by
      rw [hUpper, if_neg (Nat.ne_of_lt (Nat.lt_of_le_of_lt hLe hLt))]
  have hNew : next.enclosing table.scopes.size = table.scopes.size :: table.stack :=
    hNext.enclosing_eq (hStack ▸ List.suffix_refl _)
  have hHolder : ∀ position < table.scopes.size,
      next.nearestHolder position = table.nearestHolder position := fun position hLt =>
    nearestHolder_congr (fun inner hLe => by
      have hInner := Array.getElem?_eq_getElem (Nat.lt_of_le_of_lt hLe hLt)
      rw [hOld inner _ hInner, hInner]
      rfl) (hEnclosing position hLt)
  refine ⟨⟨hNext.upper_lt, childrenOf_enter hNested h.consecutive hOk, fun last upper hLast => ?_⟩,
    fun last hLast => ?_, fun position after hAfter => ?_⟩
  · rw [hUpper] at hLast
    split at hLast
    · next hEq =>
        rw [hEnclosing last (hEq ▸ Nat.lt_succ_self last)]
        exact (h.latest last hEq).subset (List.mem_of_mem_head? hLast)
    · obtain ⟨entry, hEntry, -⟩ := upper?_eq_some.1 hLast
      rw [hEnclosing last (Nat.lt_of_succ_lt (lt_of_getElem?_scopes hEntry))]
      exact h.consecutive.adjoining last upper hLast
  · rw [hSize, Nat.succ_inj] at hLast
    have hAll : next.enclosing last = next.stack := by rw [hLast, hNew, hStack]
    exact hAll ▸ List.suffix_refl _
  · rcases cases_of_enter hNested hOk hAfter with ⟨rfl, told, hEq⟩ | ⟨before, hBefore, hEq⟩
    · rw [nearestHolder_of_enclosing hAfter hNew, hEq]
      simp only [freshScope]
      congr 2
      cases hHead : table.stack.head? with
      | none => rfl
      | some upper =>
          obtain ⟨entry, hEntry⟩ := hNested.exists_of_mem (List.mem_of_mem_head? hHead)
          rw [Option.map_some, Option.map_some, variableScope_of_getElem? hEntry,
            hHolder upper (lt_of_getElem?_scopes hEntry), h.holder upper entry hEntry]
    · rw [hHolder position (lt_of_getElem?_scopes hBefore), hEq]
      exact h.holder position before hBefore

theorem samePlaces_modifyScope {change : Scope → Scope}
    (hKind : ∀ entry, (change entry).kind = entry.kind)
    (hUpper : ∀ entry, (change entry).upper = entry.upper)
    (hHolder : ∀ entry, (change entry).variableScope = entry.variableScope)
    (hChildren : ∀ entry, (change entry).children = entry.children) :
    SamePlaces table (table.modifyScope scope change) where
  size := Array.size_modify
  scope := fun position before hBefore => by
    rw [getElem?_modifyScope, hBefore]
    split
    · exact ⟨change before, rfl, hKind before, hUpper before, hHolder before, hChildren before⟩
    · exact ⟨before, rfl, rfl, rfl, rfl, rfl⟩

theorem Closes.samePlaces (h : Closes stack table next) : SamePlaces table next where
  size := h.scopesSize
  scope := fun position before hBefore => by
    obtain ⟨after, hAfter, hSettles⟩ := h.scope position before hBefore
    refine ⟨after, hAfter, ?_⟩
    rw [hSettles]
    exact ⟨rfl, rfl, rfl, rfl⟩

/-- The end of the current scope can always be told, and leads to the scope
around it. Where no scope is open, nothing happens. -/
theorem exists_leave_eq_ok (settings : Settings) (h : Nested table table.stack) :
    ∃ next, table.leave settings = .ok (table.stack.head?, next) ∧
      (table.stack = [] → next = table) ∧
      Closes table.stack.tail { table with stack := table.stack.tail } next := by
  cases hStack : table.stack with
  | nil =>
      have hSame : { table with stack := [] } = table := by rw [← hStack]
      refine ⟨table, ?_, fun _ => rfl, ?_⟩
      · simp [leave, hStack]
      · rw [List.tail_nil, hSame]
        exact .refl (hStack ▸ h)
  | cons scope stack =>
      obtain ⟨next, -, hLeave, hCloses⟩ := exists_leave settings (hStack ▸ h) hStack
      exact ⟨next, hLeave, fun hNil => absurd hNil (List.cons_ne_nil _ _), hCloses⟩

/-- The open scopes stay nested with every command. -/
theorem nested_obey (h : Nested table table.stack) (hOk : table.obey settings command = .ok next) :
    Nested next next.stack := by
  cases command with
  | enter kind block inMethod => exact (nested_enter h hOk).1
  | leave =>
      obtain ⟨left, hLeave, hNext⟩ := exists_of_bind_ok hOk
      obtain ⟨after, hAfter, -, hCloses⟩ := exists_leave_eq_ok settings h
      cases hAfter.symm.trans hLeave
      cases hNext
      exact hCloses.stack ▸ hCloses.nested
  | setStrict strict =>
      obtain ⟨scope, hCurrent, hNext⟩ := exists_of_bind_ok hOk
      cases hNext
      exact (advances_setStrict h (mem_of_current_eq_ok hCurrent) strict).nested
  | thisExpression =>
      obtain ⟨scope, hCurrent, hNext⟩ := exists_of_bind_ok hOk
      cases hNext
      exact (advances_detectThis h (mem_of_current_eq_ok hCurrent)).nested

/-- The forest goes on to grow with every command. -/
theorem growing_obey (hNested : Nested table table.stack) (h : table.Growing)
    (hOk : table.obey settings command = .ok next) : next.Growing := by
  cases command with
  | enter kind block inMethod => exact h.enter hNested hOk
  | leave =>
      obtain ⟨left, hLeave, hNext⟩ := exists_of_bind_ok hOk
      obtain ⟨after, hAfter, -, hCloses⟩ := exists_leave_eq_ok settings hNested
      cases hAfter.symm.trans hLeave
      cases hNext
      have hPlaces := hCloses.samePlaces
      refine h.of_samePlaces ⟨hPlaces.size, hPlaces.scope⟩ ?_
      rw [hCloses.stack]
      exact List.tail_suffix _
  | setStrict strict =>
      obtain ⟨scope, -, hNext⟩ := exists_of_bind_ok hOk
      cases hNext
      refine h.of_samePlaces (samePlaces_modifyScope ?_ ?_ ?_ ?_) (List.suffix_refl _)
      all_goals exact fun _ => rfl
  | thisExpression =>
      obtain ⟨scope, -, hNext⟩ := exists_of_bind_ok hOk
      cases hNext
      refine h.of_samePlaces (samePlaces_modifyScope ?_ ?_ ?_ ?_) (List.suffix_refl _)
      all_goals exact fun _ => rfl

theorem growing_empty : Growing {} where
  consecutive := ⟨fun _ _ h => by simp [upper?] at h, fun _ => by simp [childrenOf],
    fun _ _ h => by simp [upper?] at h⟩
  latest := fun _ h => by simp at h
  holder := fun _ _ h => by simp at h

/-- What every command keeps is kept by a session. -/
theorem session_induction {P : SymbolTable → Prop}
    (hStep : ∀ (table next : SymbolTable) (command : Command), Nested table table.stack →
      P table → table.obey settings command = .ok next → P next)
    (h : Nested table table.stack) (hTable : P table)
    (hOk : table.session settings commands = .ok next) : Nested next next.stack ∧ P next := by
  refine foldlM_induction (P := fun table => Nested table table.stack ∧ P table)
    (fun table next command h hOk => ?_) commands ⟨h, hTable⟩ hOk
  exact ⟨nested_obey h.1 hOk, hStep table next command h.1 h.2 hOk⟩

theorem Growing.forest (h : table.Growing) (hRegistered : table.Registered)
    (hNested : Nested table table.stack) : table.Forest where
  chain := fun scope rest hSuffix => by
    obtain ⟨entry, hEntry, hUpper⟩ := hNested.chain scope rest hSuffix
    exact ⟨lt_of_getElem?_scopes hEntry, (upper?_of_getElem? hEntry).trans hUpper⟩
  open_iff := fun position scope hScope => by
    rw [← hNested.open_iff position scope hScope, Scope.isClosed]
    cases scope.pending <;> simp
  children := fun position scope hScope => by
    rw [← childrenOf_of_getElem? hScope, h.consecutive.children, hRegistered.opened]
  opened := hRegistered.opened
  preorder := hRegistered.opened.trans h.consecutive.flatMap_preorder_roots.symm
  upper := fun scope upper hUpper => ⟨hNested.upper_lt _ _ hUpper,
    depth_of_upper hNested.upper_lt hUpper,
    fun between hAfter hBefore => (h.consecutive.depth_ne_of_between hUpper hAfter hBefore).symm⟩
  holder := h.holder
  acquired := fun node => by rw [hRegistered.scopesOf_eq, hRegistered.opened]

/-- Scopes that are opened and closed by hand, in any order that is possible at
all, make a forest at any time. The end of a scope can always be told then, and
where no scope is open it changes nothing. -/
theorem forest_of_session (hOk : ({} : SymbolTable).session settings commands = .ok table) :
    table.Forest ∧ ∃ next, table.leave settings = .ok (table.stack.head?, next) ∧
      next.stack = table.stack.tail ∧ (table.stack = [] → next = table) := by
  obtain ⟨hNested, hGrowing, hRegistered⟩ := session_induction
    (P := fun table => Growing table ∧ Registered table)
    (fun _ _ _ hNested h hNext => ⟨growing_obey hNested h.1 hNext,
      (builds_obey hNext).registered h.2⟩)
    nested_empty ⟨growing_empty, registered_empty⟩ hOk
  obtain ⟨next, hLeave, hSame, hCloses⟩ := exists_leave_eq_ok settings hNested
  exact ⟨hGrowing.forest hRegistered hNested, next, hLeave, hCloses.stack, hSame⟩

/-- A strict program with two functions in it, the second of which opens another
scope. After both are closed a second tree begins, on the node of the first. -/
def twoTrees : List Command :=
  [.enter .global program false, .setStrict true, .enter .function callee true, .thisExpression,
    .leave, .enter .function callee false, .enter .catchClause program false, .leave, .leave,
    .leave, .leave, .enter .withBody program false]
where
  program : Node := { location := [], kind := "Program", entries := [("body", .array [])] }
  callee : Node := { location := [.field "body"], kind := "FunctionExpression", entries := [] }

theorem forest_of_session_twoTrees :
    ∃ table, ({} : SymbolTable).session ⟨{}, 9⟩ twoTrees = .ok table ∧
      (table.scopes.map Scope.upper, table.stack) = (#[none, some 0, some 0, some 2, none], [4]) ∧
      table.Forest ∧ ∃ next, table.leave ⟨{}, 9⟩ = .ok (table.stack.head?, next) ∧
        next.stack = table.stack.tail ∧ (table.stack = [] → next = table) := by
  have hSession : (({} : SymbolTable).session ⟨{}, 9⟩ twoTrees).toOption.map (fun table =>
      (table.scopes.map Scope.upper, table.stack)) =
        some (#[none, some 0, some 0, some 2, none], [4]) := by
    decide +kernel
  obtain ⟨table, hOk, hScopes⟩ := exists_of_map_toOption _ hSession
  exact ⟨table, hOk, hScopes, forest_of_session hOk⟩

end Scoping.SymbolTable
