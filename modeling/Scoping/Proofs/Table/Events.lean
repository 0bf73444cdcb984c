import Scoping.Analyze
import Scoping.Proofs.Table.Closing

namespace Scoping

/-- An event that opens and closes no scope, and that records no use. -/
def Event.IsQuiet : Event → Prop
  | .enter .. | .leave _ | .use _ | .fail _ => False
  | _ => True

namespace SymbolTable

variable {settings : Settings} {table next : SymbolTable} {stack : List ScopeId}
  {scope : ScopeId} {event : Event}

theorem exists_of_current_eq_ok (h : table.current = .ok scope) :
    ∃ rest, table.stack = scope :: rest := by
  unfold current at h
  split at h
  · next rest hStack =>
      cases h
      exact ⟨rest, hStack⟩
  · cases h

theorem mem_of_current_eq_ok (h : table.current = .ok scope) : scope ∈ table.stack := by
  obtain ⟨rest, hStack⟩ := exists_of_current_eq_ok h
  rw [hStack]
  exact List.mem_cons_self

/-- A definition goes to an open scope. -/
theorem Nested.destination_mem (h : Nested table stack) (hScope : scope ∈ stack)
    (destination : Destination) : table.destination settings scope destination ∈ stack := by
  cases destination with
  | current => exact hScope
  | variableScope => exact h.variableScope_mem hScope
  | functionDeclaration =>
      simp only [SymbolTable.destination]
      split
      · exact hScope
      · exact h.variableScope_mem hScope

/-- What a quiet event does to the table. -/
theorem advances_apply (h : Nested table table.stack) (hQuiet : event.IsQuiet)
    (hOk : table.apply settings event = .ok next) : Advances table.stack table next := by
  cases event with
  | enter | leave | use | fail => exact hQuiet.elim
  | setStrict strict =>
      obtain ⟨scope, hCurrent, hNext⟩ := exists_of_bind_ok hOk
      cases hNext
      exact advances_setStrict h (mem_of_current_eq_ok hCurrent) strict
  | define destination identifier definition =>
      obtain ⟨scope, hCurrent, hNext⟩ := exists_of_bind_ok hOk
      cases hNext
      exact advances_define h (h.destination_mem (mem_of_current_eq_ok hCurrent) destination) _ _
  | directEval =>
      obtain ⟨scope, hCurrent, hNext⟩ := exists_of_bind_ok hOk
      cases hNext
      exact advances_detectEval h (h.variableScope_mem (mem_of_current_eq_ok hCurrent))
  | thisExpression =>
      obtain ⟨scope, hCurrent, hNext⟩ := exists_of_bind_ok hOk
      cases hNext
      exact advances_detectThis h (h.variableScope_mem (mem_of_current_eq_ok hCurrent))
  | bodyStart =>
      obtain ⟨scope, hCurrent, hNext⟩ := exists_of_bind_ok hOk
      cases hNext
      exact advances_markBodyStart h (mem_of_current_eq_ok hCurrent)
  | endDeclaration node =>
      cases hOk
      exact advances_endDeclaration h node

/-- A use is recorded in the current scope. -/
theorem exists_record_of_apply {use : Use} (hOk : table.apply settings (.use use) = .ok next) :
    ∃ scope ∈ table.stack, table.record scope (table.useIn scope use) = .ok next := by
  obtain ⟨scope, hCurrent, hNext⟩ := exists_of_bind_ok hOk
  exact ⟨scope, mem_of_current_eq_ok hCurrent, hNext⟩

/-- Only as a scope closes anything happens to the references that there are. -/
theorem spares_apply (h : Nested table table.stack) (hEvent : ∀ block, event ≠ .leave block)
    (hOk : table.apply settings event = .ok next) : Spares table.references.size table next := by
  cases event with
  | enter kind block inMethod => exact (nested_enter h hOk).2.1 _
  | leave block => exact absurd rfl (hEvent block)
  | use use =>
      obtain ⟨scope, -, hRecord⟩ := exists_record_of_apply hOk
      exact (spares_record h hRecord).2.1
  | fail failure => cases hOk
  | setStrict | define | directEval | thisExpression | bodyStart | endDeclaration =>
      exact (advances_apply h (by trivial) hOk).spares _

/-- The current scopes that the end of a node closes, innermost first. -/
def leaving (table : SymbolTable) (node : Node) : List ScopeId :=
  table.stack.takeWhile fun scope => table.scopes[scope]?.any fun entry => entry.block == node

/-- Leaving some of the open scopes, innermost first, always succeeds. What
each closing keeps is kept by all of them. -/
theorem exists_leaves (settings : Settings) {P : SymbolTable → Prop}
    (hPop : ∀ (table : SymbolTable) (stack : List ScopeId), P table → Placed table →
      P { table with stack })
    (hClose : ∀ (table next : SymbolTable) (scope : ScopeId) (stack : List ScopeId), P table →
      Nested table (scope :: stack) → table.close settings scope = .ok next → P next)
    (scopes : List ScopeId) (h : Nested table (scopes ++ stack))
    (hStack : table.stack = scopes ++ stack) (hTable : P table) :
    ∃ next, scopes.foldlM (fun table _ => do return (← table.leave settings).2) table = .ok next ∧
      Closes stack { table with stack } next ∧ P next := by
  induction scopes generalizing table with
  | nil =>
      refine ⟨table, rfl, ?_, hTable⟩
      have hSame : { table with stack } = table := by rw [← show table.stack = stack from hStack]
      rw [hSame]
      exact .refl h
  | cons scope scopes ih =>
      obtain ⟨middle, hOk, hLeave, hCloses⟩ := exists_leave settings h hStack
      have hOpen : Nested { table with stack := scopes ++ stack } (scope :: (scopes ++ stack)) :=
        h.congr rfl fun _ before hBefore => ⟨before, hBefore, rfl⟩
      obtain ⟨next, hRest, hClosesRest, hNext⟩ := ih hCloses.nested hCloses.stack
        (hClose _ middle scope _ (hPop table _ hTable h.toPlaced) hOpen hOk)
      refine ⟨next, ?_, hCloses.trans_with hClosesRest, hNext⟩
      rw [List.foldlM_cons, hLeave]
      exact hRest

/-- The end of a node closes the current scopes of the node, and nothing can
go wrong with that. -/
theorem exists_leaveAll (settings : Settings) {P : SymbolTable → Prop}
    (hPop : ∀ (table : SymbolTable) (stack : List ScopeId), P table → Placed table →
      P { table with stack })
    (hClose : ∀ (table next : SymbolTable) (scope : ScopeId) (stack : List ScopeId), P table →
      Nested table (scope :: stack) → table.close settings scope = .ok next → P next)
    (h : Nested table table.stack) (hTable : P table) (node : Node) :
    ∃ next, table.leaveAll settings node = .ok next ∧
      table.stack = table.leaving node ++ next.stack ∧
      Closes next.stack { table with stack := next.stack } next ∧ P next := by
  have hSplit : table.stack = table.leaving node ++ table.stack.dropWhile fun scope =>
      table.scopes[scope]?.any fun entry => entry.block == node :=
    List.takeWhile_append_dropWhile.symm
  obtain ⟨next, hOk, hCloses, hNext⟩ := exists_leaves settings hPop hClose (table.leaving node)
    (hSplit ▸ h) hSplit hTable
  have hStack : next.stack = table.stack.dropWhile fun scope =>
    table.scopes[scope]?.any fun entry => entry.block == node := hCloses.stack
  rw [← hStack] at hSplit hCloses
  exact ⟨next, hOk, hSplit, hCloses, hNext⟩

/-- What the end of a node does to the table. -/
theorem closes_leaveAll (h : Nested table table.stack) {node : Node}
    (hOk : table.leaveAll settings node = .ok next) :
    table.stack = table.leaving node ++ next.stack ∧
      Closes next.stack { table with stack := next.stack } next := by
  obtain ⟨found, hFound, hSplit, hCloses, -⟩ := exists_leaveAll settings (P := fun _ => True)
    (fun _ _ _ _ => trivial) (fun _ _ _ _ _ _ _ => trivial) h trivial node
  cases hFound.symm.trans hOk
  exact ⟨hSplit, hCloses⟩

/-- The open scopes stay nested along a walk. -/
theorem nested_apply (h : Nested table table.stack) (hOk : table.apply settings event = .ok next) :
    Nested next next.stack := by
  cases event with
  | enter kind block inMethod => exact (nested_enter h hOk).1
  | leave block =>
      exact (closes_leaveAll h hOk).2.nested
  | use use =>
      obtain ⟨scope, -, hRecord⟩ := exists_record_of_apply hOk
      obtain ⟨hNested, -, hStack⟩ := spares_record h hRecord
      exact hStack ▸ hNested
  | fail failure => cases hOk
  | setStrict | define | directEval | thisExpression | bodyStart | endDeclaration =>
      have hAdvances := advances_apply h (by trivial) hOk
      exact hAdvances.stack ▸ hAdvances.nested

theorem run_cons (settings : Settings) (table : SymbolTable) (event : Event) (rest : List Event) :
    table.run settings (event :: rest) =
      table.apply settings event >>= fun next => next.run settings rest :=
  List.foldlM_cons

/-- What every event keeps is kept by a walk. -/
theorem run_induction {P : SymbolTable → Prop}
    (hStep : ∀ (table next : SymbolTable) (event : Event), Nested table table.stack → P table →
      table.apply settings event = .ok next → P next)
    {events : List Event} (h : Nested table table.stack) (hTable : P table)
    (hOk : table.run settings events = .ok next) : Nested next next.stack ∧ P next := by
  refine foldlM_induction (P := fun table => Nested table table.stack ∧ P table)
    (fun table next event h hOk => ?_) events ⟨h, hTable⟩ hOk
  exact ⟨nested_apply h.1 hOk, hStep table next event h.1 h.2 hOk⟩

end SymbolTable

end Scoping
