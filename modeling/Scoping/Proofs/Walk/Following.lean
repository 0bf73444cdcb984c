import Scoping.Proofs.Table.Effects
import Scoping.Proofs.Walk.Trail

namespace Scoping

/-- An open scope of a table is as the events have given it. -/
structure Frame.Describes (frame : Frame) (entry : Scope) : Prop where
  kind : entry.kind = frame.kind
  block : entry.block = frame.block
  upper : entry.upper = frame.upper
  variableScope : entry.variableScope = frame.holder
  strict : entry.strict = frame.strict

/-- The table and the events agree on the scopes that are open. -/
structure SymbolTable.Follows (table : SymbolTable) (trail : Trail) : Prop where
  nested : SymbolTable.Nested table table.stack
  stack : table.stack = trail.map Frame.scope
  frame : ∀ frame ∈ trail, ∃ entry, table.scopes[frame.scope]? = some entry ∧
    frame.Describes entry

/-- A scope that opens has the next number. -/
def Numbered.Fits (table : SymbolTable) (signal : Numbered) : Prop :=
  ∀ kind block inMethod, signal.event = .enter kind block inMethod →
    signal.number = table.scopes.size

namespace SymbolTable

variable {settings : Settings} {table next : SymbolTable} {trail : Trail} {signal : Numbered}

theorem follows_empty : Follows {} [] :=
  ⟨nested_empty, rfl, fun _ h => nomatch h⟩

theorem Follows.opensStrict_eq (h : Follows table trail) (kind : ScopeKind) (block : Node)
    (inMethod : Bool) :
    table.opensStrict settings kind block inMethod =
      trail.opensStrict settings kind block inMethod := by
  have hStrict : (table.stack.head?.any fun upper => table.scopes[upper]?.any Scope.strict) =
      trail.head?.any Frame.strict := by
    rw [h.stack]
    cases trail with
    | nil => rfl
    | cons frame rest =>
        obtain ⟨entry, hEntry, hDescribes⟩ := h.frame frame List.mem_cons_self
        simp [hEntry, hDescribes.strict]
  simp only [SymbolTable.opensStrict, Trail.opensStrict, hStrict]

theorem Follows.holder_eq (h : Follows table trail) :
    table.stack.head?.map table.variableScope = trail.head?.map Frame.holder := by
  rw [h.stack]
  cases trail with
  | nil => rfl
  | cons frame rest =>
      obtain ⟨entry, hEntry, hDescribes⟩ := h.frame frame List.mem_cons_self
      simp [SymbolTable.variableScope, hEntry, hDescribes.variableScope]

/-- Scopes that keep all that their frames say of them. -/
theorem Follows.of_same (h : Follows table trail) (hNested : Nested next next.stack)
    (hStack : next.stack = table.stack)
    (hScope : ∀ (position : ScopeId) (before : Scope), table.scopes[position]? = some before →
      ∃ after, next.scopes[position]? = some after ∧ after.kind = before.kind ∧
        after.block = before.block ∧ after.upper = before.upper ∧
        after.variableScope = before.variableScope ∧ after.strict = before.strict) :
    Follows next trail where
  nested := hNested
  stack := hStack.trans h.stack
  frame := fun frame hFrame => by
    obtain ⟨before, hBefore, hDescribes⟩ := h.frame frame hFrame
    obtain ⟨after, hAfter, hKind, hBlock, hUpper, hHolder, hStrict⟩ := hScope _ _ hBefore
    exact ⟨after, hAfter, hKind.trans hDescribes.kind, hBlock.trans hDescribes.block,
      hUpper.trans hDescribes.upper, hHolder.trans hDescribes.variableScope,
      hStrict.trans hDescribes.strict⟩

theorem Follows.head (h : Follows table trail) {scope : ScopeId} (hCurrent : table.current = .ok scope) :
    ∃ frame rest, trail = frame :: rest ∧ frame.scope = scope := by
  obtain ⟨rest, hStack⟩ := exists_of_current_eq_ok hCurrent
  rw [h.stack] at hStack
  obtain ⟨frame, around, rfl, hScope, -⟩ := List.map_eq_cons_iff.1 hStack
  exact ⟨frame, around, rfl, hScope⟩

/-- The scopes that a node closes are the same by the table and by the events. -/
theorem Follows.split (h : Follows table trail) (node : Node) :
    table.leaving node = (trail.takeWhile fun frame => frame.block == node).map Frame.scope ∧
      table.stack = table.leaving node ++ (trail.without node).map Frame.scope := by
  have hSame : ∀ frame ∈ trail, (table.scopes[frame.scope]?.any fun entry => entry.block == node) =
      (frame.block == node) := fun frame hFrame => by
    obtain ⟨entry, hEntry, hDescribes⟩ := h.frame frame hFrame
    simp [hEntry, hDescribes.block]
  have hLeaving : table.leaving node =
      (trail.takeWhile fun frame => frame.block == node).map Frame.scope := by
    rw [leaving, h.stack, List.takeWhile_map]
    congr 1
    clear h
    induction trail with
    | nil => rfl
    | cons frame rest ih =>
        have hRest := ih fun other hOther => hSame other (List.mem_cons_of_mem _ hOther)
        simp only [List.takeWhile_cons, Function.comp_apply, hSame frame List.mem_cons_self, hRest]
  refine ⟨hLeaving, ?_⟩
  rw [hLeaving, Trail.without, ← List.map_append, List.takeWhile_append_dropWhile, h.stack]

/-- A change of the current scope that both the table and the trail make. -/
theorem Follows.modifyHead {frame changed : Frame} {rest : Trail}
    (h : Follows table (frame :: rest)) (hNested : Nested next next.stack)
    (hStack : next.stack = table.stack) (hScope : changed.scope = frame.scope)
    (hHead : ∀ before, table.scopes[frame.scope]? = some before → frame.Describes before →
      ∃ after, next.scopes[frame.scope]? = some after ∧ changed.Describes after)
    (hOthers : ∀ position ≠ frame.scope, next.scopes[position]? = table.scopes[position]?) :
    Follows next (changed :: rest) where
  nested := hNested
  stack := by rw [hStack, h.stack, List.map_cons, List.map_cons, hScope]
  frame := fun other hOther => by
    rcases List.mem_cons.1 hOther with rfl | hRest
    · obtain ⟨before, hBefore, hDescribes⟩ := h.frame frame List.mem_cons_self
      rw [hScope]
      exact hHead before hBefore hDescribes
    · have hNe : other.scope ≠ frame.scope := fun hEq => by
        have hNodup := h.nested.nodup
        rw [h.stack, List.map_cons, List.nodup_cons] at hNodup
        exact hNodup.1 (hEq ▸ List.mem_map_of_mem hRest)
      obtain ⟨entry, hEntry, hDescribes⟩ := h.frame other (List.mem_cons_of_mem _ hRest)
      exact ⟨entry, (hOthers _ hNe).trans hEntry, hDescribes⟩

/-- A scope that opens is the current one, and has the next number. -/
theorem follows_enter {number : Nat} {kind : ScopeKind} {block : Node} {inMethod : Bool}
    (h : Follows table trail) (hNumber : number = table.scopes.size)
    (hOk : table.apply settings (.enter kind block inMethod) = .ok next) :
    Follows next (trail.step settings ⟨number, .enter kind block inMethod⟩) := by
  have hNested := nested_apply h.nested hOk
  obtain ⟨-, ⟨strict, hStrict, after, hAfter, hEq⟩, hOld⟩ := scopes_enter h.nested hOk
  obtain ⟨-, -, -, hStack⟩ := nested_enter h.nested hOk
  rw [h.opensStrict_eq] at hStrict
  refine ⟨hNested, ?_, fun frame hFrame => ?_⟩
  · rw [hStack, h.stack, Trail.step, List.map_cons, Trail.opening, hNumber]
  · rcases List.mem_cons.1 hFrame with rfl | hRest
    · refine ⟨after, ?_, ?_⟩
      · rw [Trail.opening, hNumber]
        exact hAfter
      · have hUpper : table.stack.head? = trail.head?.map Frame.scope := by
          rw [h.stack, List.head?_map]
        rw [hEq]
        refine ⟨rfl, rfl, hUpper, ?_, ?_⟩
        · simp only [freshScope, Trail.opening, hNumber, h.holder_eq]
        · simp [Trail.opening, freshScope, hStrict]
    · obtain ⟨before, hBefore, hDescribes⟩ := h.frame frame hRest
      exact ⟨_, hOld _ before hBefore, hDescribes.kind, hDescribes.block, hDescribes.upper,
        hDescribes.variableScope, hDescribes.strict⟩

/-- The scopes of a node that are open close together. -/
theorem follows_leave {number : Nat} {block : Node} (h : Follows table trail)
    (hOk : table.apply settings (.leave block) = .ok next) :
    Follows next (trail.step settings ⟨number, .leave block⟩) := by
  have hNested := nested_apply h.nested hOk
  obtain ⟨hSplit, hCloses⟩ := closes_leaveAll h.nested hOk
  have hRest := (h.split block).2
  rw [hSplit] at hRest
  refine ⟨hNested, List.append_cancel_left hRest, fun frame hFrame => ?_⟩
  obtain ⟨before, hBefore, hDescribes⟩ := h.frame frame
    ((List.dropWhile_suffix _).subset hFrame)
  obtain ⟨after, hAfter, hSettles⟩ := hCloses.scope _ before hBefore
  refine ⟨after, hAfter, ?_⟩
  rw [hSettles]
  exact ⟨hDescribes.kind, hDescribes.block, hDescribes.upper, hDescribes.variableScope,
    hDescribes.strict⟩

/-- Only the current scope is told whether it is strict. -/
theorem follows_setStrict {number : Nat} {strict : Bool} (h : Follows table trail)
    (hOk : table.apply settings (.setStrict strict) = .ok next) :
    Follows next (trail.step settings ⟨number, .setStrict strict⟩) := by
  have hNested := nested_apply h.nested hOk
  obtain ⟨scope, hCurrent, hNext⟩ := exists_of_bind_ok hOk
  obtain ⟨frame, rest, rfl, rfl⟩ := h.head hCurrent
  cases hNext
  refine h.modifyHead hNested rfl rfl (fun before hBefore hDescribes => ?_) fun position hNe => ?_
  · exact ⟨{ before with strict }, by simp [setStrict, hBefore], hDescribes.kind,
      hDescribes.block, hDescribes.upper, hDescribes.variableScope, rfl⟩
  · simp [setStrict, Ne.symm hNe]

/-- The body of a function begins in the current scope, of which no frame says where. -/
theorem follows_bodyStart {number : Nat} (h : Follows table trail)
    (hOk : table.apply settings .bodyStart = .ok next) :
    Follows next (trail.step settings ⟨number, .bodyStart⟩) := by
  have hNested := nested_apply h.nested hOk
  obtain ⟨scope, hCurrent, hNext⟩ := exists_of_bind_ok hOk
  obtain ⟨frame, rest, rfl, rfl⟩ := h.head hCurrent
  cases hNext
  refine h.modifyHead hNested rfl rfl (fun before hBefore hDescribes => ?_) fun position hNe => ?_
  · rw [markBodyStart, getElem?_modifyScope, if_pos rfl, hBefore]
    refine ⟨_, rfl, ?_⟩
    dsimp only
    split <;> exact ⟨hDescribes.kind, hDescribes.block, hDescribes.upper,
      hDescribes.variableScope, hDescribes.strict⟩
  · rw [markBodyStart, getElem?_modifyScope, if_neg (Ne.symm hNe)]

/-- The table and the events agree on the open scopes all along a walk. -/
theorem follows_apply (h : Follows table trail) (hFits : signal.Fits table)
    (hOk : table.apply settings signal.event = .ok next) :
    Follows next (trail.step settings signal) := by
  have hNested := nested_apply h.nested hOk
  obtain ⟨number, event⟩ := signal
  -- Scopes open, close or are marked as strict. No other event changes what a frame shows
  -- of a scope.
  cases event with
  | enter kind block inMethod => exact follows_enter h (hFits kind block inMethod rfl) hOk
  | leave block => exact follows_leave h hOk
  | setStrict strict => exact follows_setStrict h hOk
  | define destination identifier definition =>
      obtain ⟨scope, hCurrent, hNext⟩ := exists_of_bind_ok hOk
      cases hNext
      refine h.of_same hNested (advances_apply h.nested (by trivial) hOk).stack ?_
      intro position before hBefore
      obtain ⟨after, hAfter, hEq, -⟩ := (names_define table _ identifier definition).scope _ _ hBefore
      exact ⟨after, hAfter, by rw [hEq], by rw [hEq], by rw [hEq], by rw [hEq], by rw [hEq]⟩
  | use use =>
      obtain ⟨scope, hScope, hRecord⟩ := exists_record_of_apply hOk
      refine h.of_same hNested (spares_record h.nested hRecord).2.2 ?_
      intro position before hBefore
      obtain ⟨after, hAfter, hEq⟩ := getElem?_record hRecord hBefore
      exact ⟨after, hAfter, by rw [hEq], by rw [hEq], by rw [hEq], by rw [hEq], by rw [hEq]⟩
  | directEval =>
      obtain ⟨scope, hCurrent, hNext⟩ := exists_of_bind_ok hOk
      cases hNext
      refine h.of_same hNested (advances_apply h.nested (by trivial) hOk).stack ?_
      intro position before hBefore
      rw [getElem?_detectEval, hBefore]
      exact ⟨_, rfl, rfl, rfl, rfl, rfl, rfl⟩
  | thisExpression =>
      obtain ⟨scope, hCurrent, hNext⟩ := exists_of_bind_ok hOk
      cases hNext
      refine h.of_same hNested rfl fun position before hBefore => ?_
      rw [detectThis, getElem?_modifyScope, hBefore]
      split
      · exact ⟨_, rfl, rfl, rfl, rfl, rfl, rfl⟩
      · exact ⟨before, rfl, rfl, rfl, rfl, rfl, rfl⟩
  | bodyStart => exact follows_bodyStart h hOk
  | endDeclaration node =>
      cases hOk
      refine h.of_same hNested (advances_endDeclaration h.nested node).stack ?_
      intro position before hBefore
      rw [scopes_endDeclaration]
      exact ⟨before, hBefore, rfl, rfl, rfl, rfl, rfl⟩
  | fail failure => cases hOk

end SymbolTable

end Scoping
