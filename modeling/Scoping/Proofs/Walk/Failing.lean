import Scoping.Proofs.Walk.Following

/-! Which failures a walk can end in. -/

namespace Scoping

theorem eq_of_unquoted_eq_error {text : String} {failure : Failure}
    (h : unquoted text = .error failure) : failure = .splitDirective := by
  unfold unquoted at h
  split at h
  · cases h
  · split at h
    · split at h <;> cases h
      rfl
    · split at h <;> cases h
      rfl

namespace Node

theorem eq_of_directive?_eq_error {node : Node} {failure : Failure}
    (h : node.directive? = .error failure) : failure = .splitDirective := by
  unfold directive? at h
  split at h
  · cases h
  · split at h
    · cases h
    · cases h
    · split at h
      · cases h
      · split at h
        · cases h
        · next value _ =>
            rcases cases_of_bind_error h with hText | ⟨raw, -, hRead⟩
            · exact eq_of_unquoted_eq_error hText
            · cases hRead

theorem eq_of_prologueIsStrict_eq_error {nodes : List Node} {failure : Failure}
    (h : prologueIsStrict nodes = .error failure) : failure = .splitDirective := by
  induction nodes with
  | nil => cases h
  | cons node rest ih =>
      rw [prologueIsStrict] at h
      rcases cases_of_bind_error h with hDirective | ⟨text?, -, hRest⟩
      · exact eq_of_directive?_eq_error hDirective
      · cases text? with
        | none => cases hRest
        | some text =>
            dsimp only at hRest
            split at hRest
            · cases hRest
            · exact ih hRest

end Node

/-- A child is missing, or a directive cannot be read. -/
def Failure.IsOfDocument (failure : Failure) : Prop :=
  failure.IsMissingField ∨ failure = .splitDirective

namespace SymbolTable

variable {settings : Settings} {table : SymbolTable} {trail : Trail} {failure : Failure}

theorem isMissingField_of_hasExpressionBody {node : Node}
    (h : hasExpressionBody node = .error failure) : failure.IsMissingField := by
  unfold hasExpressionBody at h
  split at h
  · rcases cases_of_bind_error h with hBody | ⟨body, -, hKind⟩
    · exact Pattern.isMissingField_of_child hBody
    · cases hKind
  · cases h

theorem isOfDocument_of_strictByDirective {kind : ScopeKind} {block : Node}
    (h : strictByDirective kind block = .error failure) : failure.IsOfDocument := by
  unfold strictByDirective at h
  split at h
  · exact .inr (Node.eq_of_prologueIsStrict_eq_error h)
  · rcases cases_of_bind_error h with hBody | ⟨isExpression, -, hDirectives⟩
    · exact .inl (isMissingField_of_hasExpressionBody hBody)
    · split at hDirectives
      · cases hDirectives
      · split at hDirectives
        · exact .inr (Node.eq_of_prologueIsStrict_eq_error hDirectives)
        · split at hDirectives
          · exact .inr (Node.eq_of_prologueIsStrict_eq_error hDirectives)
          · cases hDirectives
  · cases h

theorem isOfDocument_of_opensStrict {kind : ScopeKind} {block : Node} {inMethod : Bool}
    (h : table.opensStrict settings kind block inMethod = .error failure) :
    failure.IsOfDocument := by
  unfold opensStrict at h
  split at h
  · cases h
  · split at h
    · cases h
    · split at h
      · cases h
      · exact isOfDocument_of_strictByDirective h

theorem isMissingField_of_declareOwn {scope : ScopeId} {kind : ScopeKind} {block : Node}
    (h : table.declareOwn scope kind block = .error failure) : failure.IsMissingField := by
  unfold declareOwn at h
  split at h
  · split at h <;> cases h
  · rcases cases_of_bind_error h with hName | ⟨name, -, hDefined⟩
    · exact Pattern.isMissingField_of_child hName
    · cases hDefined
  · cases h

/-- A scope that cannot be opened is one of a document that is not well formed,
or a global one that is not the outermost. -/
theorem failure_of_enter {kind : ScopeKind} {block : Node} {inMethod : Bool}
    (h : table.enter settings kind block inMethod = .error failure) :
    failure.IsOfDocument ∨ (failure = .nestedGlobal ∧ kind = .global ∧ table.stack ≠ []) := by
  rw [enter_eq] at h
  rcases cases_of_bind_error h with hStrict | ⟨strict, -, hOpened⟩
  · exact .inl (isOfDocument_of_opensStrict hStrict)
  rcases cases_of_bind_error hOpened with hOwn | ⟨own, -, hPushed⟩
  · exact .inl (.inl (isMissingField_of_declareOwn hOwn))
  split at hPushed
  · next hNested =>
      cases hPushed
      exact .inr ⟨rfl, hNested⟩
  · cases hPushed

theorem exists_current (h : Follows table trail) (hOpen : trail ≠ []) :
    ∃ scope ∈ table.stack, table.current = .ok scope := by
  obtain ⟨frame, rest, rfl⟩ := List.exists_cons_of_ne_nil hOpen
  have hStack := h.stack
  rw [List.map_cons] at hStack
  refine ⟨frame.scope, by rw [hStack]; exact List.mem_cons_self, ?_⟩
  rw [current, hStack]

/-- An event can be told to a table with a scope open, unless it finds a fault
in the document or opens a global scope. -/
theorem failure_of_apply {event : Event} (h : Follows table trail) (hOpen : trail ≠ [])
    (hFail : ∀ found, event = .fail found → found.IsMissingField)
    (hError : table.apply settings event = .error failure) :
    failure.IsOfDocument ∨
      (failure = .nestedGlobal ∧ ∃ block inMethod, event = .enter .global block inMethod) := by
  obtain ⟨scope, hScope, hCurrent⟩ := exists_current h hOpen
  cases event with
  | enter kind block inMethod =>
      rcases failure_of_enter hError with hDocument | ⟨hNested, rfl, -⟩
      · exact .inl hDocument
      · exact .inr ⟨hNested, block, inMethod, rfl⟩
  | leave block =>
      obtain ⟨found, hFound, -⟩ := exists_leaveAll settings (P := fun _ => True)
        (fun _ _ _ _ => trivial) (fun _ _ _ _ _ _ _ => trivial) h.nested trivial block
      cases hFound.symm.trans hError
  | use use =>
      obtain ⟨entry, pending, hEntry, hPending⟩ := h.nested.pending_of_mem hScope
      simp only [apply, hCurrent, bind, Except.bind, record, hEntry, hPending,
        Option.bind_some] at hError
      split at hError <;> cases hError
  | fail found =>
      cases hError
      exact .inl (.inl (hFail failure rfl))
  | endDeclaration node => cases hError
  | setStrict | define | directEval | thisExpression | bodyStart =>
      simp only [apply, hCurrent, bind, Except.bind, pure, Except.pure] at hError
      cases hError

end SymbolTable

end Scoping
