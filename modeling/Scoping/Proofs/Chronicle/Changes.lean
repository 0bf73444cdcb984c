import Scoping.Proofs.Walk.Numbering

/-! What an event changes of the scopes that are there. The trail alone tells
which of them it is about. -/

namespace Scoping

namespace Trail

/-- The current scope. -/
def current? (trail : Trail) : Option ScopeId :=
  trail.head?.map Frame.scope

/-- The scope that a `var` goes to. -/
def holder? (trail : Trail) : Option ScopeId :=
  trail.head?.map Frame.holder

/-- The scope that a `var` goes to and those around it. -/
def outward (trail : Trail) : List ScopeId :=
  match trail with
  | frame :: _ => (trail.map Frame.scope).dropWhile fun scope => scope ≠ frame.holder
  | [] => []

theorem mem_of_mem_outward {trail : Trail} {position : ScopeId} (h : position ∈ trail.outward) :
    position ∈ trail.map Frame.scope := by
  unfold outward at h
  split at h
  · exact (List.dropWhile_suffix _).subset h
  · cases h

end Trail

/-- What an event changes of a scope, its names and its references apart. The
current scope gets the one that opens for a child. -/
structure Scope.Changes (table : SymbolTable) (trail : Trail) (event : Event) (position : ScopeId)
    (before after : Scope) : Prop where
  kind : after.kind = before.kind
  block : after.block = before.block
  upper : after.upper = before.upper
  variableScope : after.variableScope = before.variableScope
  children : after.children =
    if event.opens = true ∧ table.stack.head? = some position then
      before.children.push table.scopes.size
    else before.children
  strict : after.strict = before.strict ∨
    (trail.current? = some position ∧ event = .setStrict after.strict)
  directEval : after.directEval = true ↔ before.directEval = true ∨
    (event = .directEval ∧ trail.holder? = some position)
  usesThis : after.usesThis = true ↔ before.usesThis = true ∨
    (event = .thisExpression ∧ trail.holder? = some position)
  dynamic : after.dynamic = true ↔ before.dynamic = true ∨
    (event = .directEval ∧ position ∈ trail.outward)
  bodyStart : (after.bodyStart = before.bodyStart ∧ ¬ (event = .bodyStart ∧
      trail.current? = some position ∧ before.kind = .function)) ∨
    (after.bodyStart = some ⟨table.references.size, table.definitionCount⟩ ∧ event = .bodyStart ∧
      trail.current? = some position ∧ before.kind = .function)
  closed : before.pending = none → after.pending = none

/-- An event that changes no flag of any scope. -/
def Event.IsSilent : Event → Prop
  | .setStrict _ | .directEval | .thisExpression | .bodyStart => False
  | _ => True

variable {settings : Settings} {table next : SymbolTable} {trail : Trail} {event : Event}
  {position : ScopeId} {before after : Scope}

theorem Scope.changes_of_isSilent (hSilent : event.IsSilent) (hKind : after.kind = before.kind)
    (hBlock : after.block = before.block) (hUpper : after.upper = before.upper)
    (hHolder : after.variableScope = before.variableScope)
    (hChildren : after.children =
      if event.opens = true ∧ table.stack.head? = some position then
        before.children.push table.scopes.size
      else before.children) (hStrict : after.strict = before.strict)
    (hEval : after.directEval = before.directEval) (hThis : after.usesThis = before.usesThis)
    (hDynamic : after.dynamic = before.dynamic) (hStart : after.bodyStart = before.bodyStart)
    (hClosed : before.pending = none → after.pending = none) :
    Scope.Changes table trail event position before after := by
  refine ⟨hKind, hBlock, hUpper, hHolder, hChildren, .inl hStrict, ?_, ?_, ?_, .inl ⟨hStart, ?_⟩, hClosed⟩
  · rw [hEval]
    refine (or_iff_left ?_).symm
    rintro ⟨rfl, -⟩
    exact hSilent
  · rw [hThis]
    refine (or_iff_left ?_).symm
    rintro ⟨rfl, -⟩
    exact hSilent
  · rw [hDynamic]
    refine (or_iff_left ?_).symm
    rintro ⟨rfl, -⟩
    exact hSilent
  · rintro ⟨rfl, -⟩
    exact hSilent

namespace SymbolTable

theorem Follows.current? (h : Follows table trail) : trail.current? = table.stack.head? := by
  rw [h.stack, List.head?_map]
  rfl

theorem Follows.current_eq_ok (h : Follows table trail) {scope : ScopeId} :
    table.current = .ok scope ↔ trail.current? = some scope := by
  rw [h.current?, current]
  cases table.stack <;> simp

theorem Follows.holder? (h : Follows table trail) {scope : ScopeId}
    (hCurrent : table.current = .ok scope) : trail.holder? = some (table.variableScope scope) := by
  rw [Trail.holder?, ← h.holder_eq, ← h.current?, h.current_eq_ok.1 hCurrent]
  rfl

/-- The scopes that a direct eval makes dynamic. -/
theorem Follows.outward (h : Follows table trail) {scope : ScopeId}
    (hCurrent : table.current = .ok scope) :
    trail.outward = table.enclosing (table.variableScope scope) := by
  obtain ⟨frame, rest, rfl, rfl⟩ := h.head hCurrent
  have hHolder : frame.holder = table.variableScope frame.scope :=
    Option.some.inj (h.holder? hCurrent)
  have hMem := h.nested.variableScope_mem (mem_of_current_eq_ok hCurrent)
  rw [Trail.outward, ← h.stack, hHolder]
  obtain ⟨inner, around, hSplit⟩ := List.append_of_mem hMem
  have hNodup := h.nested.nodup
  rw [hSplit, List.nodup_append] at hNodup
  have hInner : ∀ other ∈ inner, other ≠ table.variableScope frame.scope :=
    fun other hOther => hNodup.2.2 other hOther _ List.mem_cons_self
  rw [h.nested.enclosing_eq (hSplit ▸ List.suffix_append inner _), hSplit,
    List.dropWhile_append_of_pos (by simpa using hInner), List.dropWhile_cons_of_neg (by simp)]

/-- A scope that is closed stays so, and nothing else is told of the scopes that close. -/
theorem changes_leave (h : Follows table trail) {block : Node}
    (hOk : table.apply settings (.leave block) = .ok next) (hBefore : table.scopes[position]? = some before) :
    ∃ after, next.scopes[position]? = some after ∧
      Scope.Changes table trail (.leave block) position before after := by
  obtain ⟨-, hCloses⟩ := closes_leaveAll h.nested hOk
  obtain ⟨after, hAfter, hSettles⟩ := hCloses.scope position before hBefore
  have hNested := nested_apply h.nested hOk
  refine ⟨after, hAfter, ?_⟩
  rw [hSettles]
  refine Scope.changes_of_isSilent trivial rfl rfl rfl rfl rfl rfl rfl rfl rfl rfl fun hNone => ?_
  have hHere := hNested.open_iff position after hAfter
  have hThere := h.nested.open_iff position before hBefore
  have hStack : position ∈ next.stack → position ∈ table.stack := fun hMem => by
    rw [(closes_leaveAll h.nested hOk).1]
    exact List.mem_append_right _ hMem
  cases hPending : after.pending with
  | none => rfl
  | some pending => simp_all

/-- The body of a function begins once its parameters are past. -/
theorem changes_bodyStart (h : Follows table trail)
    (hOk : table.apply settings .bodyStart = .ok next) (hBefore : table.scopes[position]? = some before) :
    ∃ after, next.scopes[position]? = some after ∧
      Scope.Changes table trail .bodyStart position before after := by
  obtain ⟨scope, hCurrent, hNext⟩ := exists_of_bind_ok hOk
  cases hNext
  rw [markBodyStart, getElem?_modifyScope, hBefore]
  have hHere := h.current_eq_ok.1 hCurrent
  by_cases hEq : scope = position
  · subst hEq
    rw [if_pos rfl, Option.map_some]
    by_cases hKind : before.kind = .function
    · rw [if_pos hKind]
      exact ⟨_, rfl, rfl, rfl, rfl, rfl, rfl, .inl rfl, by simp, by simp, by simp,
        .inr ⟨rfl, rfl, hHere, hKind⟩, id⟩
    · rw [if_neg hKind]
      exact ⟨_, rfl, rfl, rfl, rfl, rfl, rfl, .inl rfl, by simp, by simp, by simp,
        .inl ⟨rfl, fun hAll => hKind hAll.2.2⟩, id⟩
  · rw [if_neg hEq]
    refine ⟨_, rfl, rfl, rfl, rfl, rfl, rfl, .inl rfl, by simp, by simp, by simp,
      .inl ⟨rfl, fun hAll => ?_⟩, id⟩
    exact hEq (Option.some.inj (hHere.symm.trans hAll.2.1))

/-- Only the current scope is told whether it is strict. -/
theorem changes_setStrict (h : Follows table trail) {strict : Bool}
    (hOk : table.apply settings (.setStrict strict) = .ok next)
    (hBefore : table.scopes[position]? = some before) :
    ∃ after, next.scopes[position]? = some after ∧
      Scope.Changes table trail (.setStrict strict) position before after := by
  obtain ⟨scope, hCurrent, hNext⟩ := exists_of_bind_ok hOk
  cases hNext
  rw [setStrict, getElem?_modifyScope, hBefore]
  split
  · next hEq =>
      subst hEq
      exact ⟨_, rfl, rfl, rfl, rfl, rfl, rfl, .inr ⟨h.current_eq_ok.1 hCurrent, rfl⟩, by simp,
        by simp, by simp, by simp, id⟩
  · exact ⟨before, rfl, rfl, rfl, rfl, rfl, rfl, .inl rfl, by simp, by simp, by simp, by simp, id⟩

/-- A `this` is told to the scope that a `var` would go to. -/
theorem changes_thisExpression (h : Follows table trail)
    (hOk : table.apply settings .thisExpression = .ok next)
    (hBefore : table.scopes[position]? = some before) :
    ∃ after, next.scopes[position]? = some after ∧
      Scope.Changes table trail .thisExpression position before after := by
  obtain ⟨scope, hCurrent, hNext⟩ := exists_of_bind_ok hOk
  cases hNext
  rw [detectThis, getElem?_modifyScope, hBefore]
  have hHolder := h.holder? hCurrent
  split
  · next hEq =>
      exact ⟨_, rfl, rfl, rfl, rfl, rfl, rfl, .inl rfl, by simp, by simp [hHolder, hEq], by simp,
        by simp, id⟩
  · next hNe =>
      exact ⟨before, rfl, rfl, rfl, rfl, rfl, rfl, .inl rfl, by simp, by simp [hHolder, hNe],
        by simp, by simp, id⟩

/-- An event changes the scopes that are there as its trail tells. -/
theorem changes_apply (h : Follows table trail) (hOk : table.apply settings event = .ok next)
    (hBefore : table.scopes[position]? = some before) :
    ∃ after, next.scopes[position]? = some after ∧
      Scope.Changes table trail event position before after := by
  cases event with
  | enter kind block inMethod =>
      obtain ⟨-, -, hOld⟩ := scopes_enter h.nested hOk
      refine ⟨_, hOld position before hBefore,
        Scope.changes_of_isSilent trivial rfl rfl rfl rfl ?_ rfl rfl rfl rfl rfl id⟩
      simp [Event.opens]
  | leave block => exact changes_leave h hOk hBefore
  | setStrict strict => exact changes_setStrict h hOk hBefore
  | define destination identifier definition =>
      obtain ⟨scope, -, hNext⟩ := exists_of_bind_ok hOk
      cases hNext
      obtain ⟨after, hAfter, hEq, -⟩ :=
        (names_define table _ identifier definition).scope position before hBefore
      refine ⟨after, hAfter, ?_⟩
      rw [hEq]
      exact Scope.changes_of_isSilent trivial rfl rfl rfl rfl rfl rfl rfl rfl rfl rfl id
  | use use =>
      obtain ⟨scope, -, hRecord⟩ := exists_record_of_apply hOk
      obtain ⟨after, hAfter, hEq⟩ := getElem?_record hRecord hBefore
      refine ⟨after, hAfter, ?_⟩
      have hClosed := ((spares_record h.nested hRecord).2.1.scope position before hBefore)
      obtain ⟨found, hFound, hSpares⟩ := hClosed
      cases hFound.symm.trans hAfter
      have hPending := hSpares.pending_eq_none
      rw [hEq] at hPending ⊢
      exact Scope.changes_of_isSilent trivial rfl rfl rfl rfl rfl rfl rfl rfl rfl rfl hPending
  | directEval =>
      obtain ⟨scope, hCurrent, hNext⟩ := exists_of_bind_ok hOk
      cases hNext
      rw [getElem?_detectEval, hBefore]
      refine ⟨_, rfl, rfl, rfl, rfl, rfl, rfl, .inl rfl, ?_, by simp, ?_, by simp, id⟩
      · simp [h.holder? hCurrent]
      · simp [h.outward hCurrent]
  | thisExpression => exact changes_thisExpression h hOk hBefore
  | bodyStart => exact changes_bodyStart h hOk hBefore
  | endDeclaration node =>
      cases hOk
      rw [scopes_endDeclaration]
      exact ⟨before, hBefore,
        Scope.changes_of_isSilent trivial rfl rfl rfl rfl rfl rfl rfl rfl rfl rfl id⟩
  | fail failure => cases hOk

end SymbolTable

end Scoping
