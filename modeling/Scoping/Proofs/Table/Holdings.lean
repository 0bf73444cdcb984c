import Scoping.Proofs.Table.Marks

/-! The lists of references that a scope keeps. A use that is recorded is put at the
end of two of them. Otherwise only a scope that closes adds to a list, and all
that it adds has waited in it, in the same order. -/

namespace Scoping

/-- The lists of references that a scope keeps: those recorded in it, those that
wait in it, those that have passed through it, and those that were left in it. -/
structure Scope.Holdings where
  recorded : List ReferenceId := []
  waiting : List ReferenceId := []
  through : List ReferenceId := []
  left : List ReferenceId := []
  deriving Inhabited

def Scope.holdings (entry : Scope) : Scope.Holdings :=
  ⟨entry.references.toList, entry.waiting.toList, entry.through.toList,
    entry.implicitPending.toList⟩

/-- A list before and after some more of these items, in their order. -/
def Gains (items before after : List ReferenceId) : Prop :=
  ∃ added, after = before ++ added ∧ added.Sublist items

namespace Gains

variable {items more before middle after : List ReferenceId}

theorem refl (items before : List ReferenceId) : Gains items before before :=
  ⟨[], (List.append_nil before).symm, List.nil_sublist items⟩

theorem concat (before : List ReferenceId) (id : ReferenceId) : Gains [id] before (before ++ [id]) :=
  ⟨[id], rfl, .refl [id]⟩

theorem append (hFirst : Gains items before middle) (hSecond : Gains more middle after) :
    Gains (items ++ more) before after := by
  obtain ⟨first, rfl, hItems⟩ := hFirst
  obtain ⟨second, rfl, hMore⟩ := hSecond
  exact ⟨first ++ second, List.append_assoc before first second, hItems.append hMore⟩

end Gains

namespace SymbolTable

/-- The references that a scope keeps; none if it is still to come. -/
def holdingsOf (table : SymbolTable) (position : ScopeId) : Scope.Holdings :=
  (table.scopes[position]?.map Scope.holdings).getD {}

/-- Two tables whose scopes keep the same references. -/
def SameHoldings (table next : SymbolTable) : Prop :=
  ∀ position, next.holdingsOf position = table.holdingsOf position

variable {settings : Settings} {table next : SymbolTable} {stack : List ScopeId}
  {scope position : ScopeId} {id : ReferenceId} {var : VariableId} {event : Event}

theorem holdingsOf_of_getElem? {entry : Scope} (h : table.scopes[position]? = some entry) :
    table.holdingsOf position = entry.holdings := by
  rw [holdingsOf, h]
  rfl

theorem holdingsOf_of_none (h : table.scopes[position]? = none) :
    table.holdingsOf position = {} := by
  rw [holdingsOf, h]
  rfl

theorem SameHoldings.refl (table : SymbolTable) : SameHoldings table table :=
  fun _ => rfl

theorem SameHoldings.trans {third : SymbolTable} (hFirst : SameHoldings table next)
    (hSecond : SameHoldings next third) : SameHoldings table third :=
  fun position => (hSecond position).trans (hFirst position)

/-- Variables and references themselves have no part in which scope keeps which. -/
theorem sameHoldings_of_eq (hScopes : next.scopes = table.scopes) : SameHoldings table next :=
  fun _ => by rw [holdingsOf, hScopes, holdingsOf]

/-- A change of one scope is one of what it keeps. -/
theorem holdingsOf_modifyScope {change : Scope → Scope} (keep : Scope.Holdings → Scope.Holdings)
    (hChange : ∀ entry, (change entry).holdings = keep entry.holdings) (hNone : keep {} = {})
    (position : ScopeId) :
    (table.modifyScope scope change).holdingsOf position =
      if position = scope then keep (table.holdingsOf position) else table.holdingsOf position := by
  rw [holdingsOf, holdingsOf, getElem?_modifyScope]
  by_cases hEq : scope = position
  · rw [if_pos hEq, if_pos hEq.symm]
    cases table.scopes[position]? with
    | none => exact hNone.symm
    | some entry => exact hChange entry
  · rw [if_neg hEq, if_neg (Ne.symm hEq)]

/-- A change of a scope outside of its lists of references. -/
theorem sameHoldings_modifyScope {change : Scope → Scope}
    (hChange : ∀ entry, (change entry).holdings = entry.holdings) :
    SameHoldings table (table.modifyScope scope change) := fun position => by
  rw [holdingsOf_modifyScope id hChange rfl]
  exact ite_self _

/-- What adds names to a scope adds no reference to its lists. -/
theorem Names.sameHoldings (h : Names scope table next) : SameHoldings table next := fun position => by
  cases hBefore : table.scopes[position]? with
  | none =>
      have hNone : next.scopes[position]? = none := by
        rw [Array.getElem?_eq_none_iff, h.size]
        exact Array.getElem?_eq_none_iff.1 hBefore
      rw [holdingsOf_of_none hBefore, holdingsOf_of_none hNone]
  | some before =>
      obtain ⟨after, hAfter, hEq, -⟩ := h.scope position before hBefore
      rw [holdingsOf_of_getElem? hBefore, holdingsOf_of_getElem? hAfter, hEq]
      rfl

/-- A scope that opens keeps no reference yet. -/
theorem sameHoldings_enter (h : Nested table table.stack) {kind : ScopeKind} {block : Node}
    {inMethod : Bool} (hOk : table.enter settings kind block inMethod = .ok next) :
    SameHoldings table next := fun position => by
  obtain ⟨hSize, ⟨strict, -, fresh, hFresh, hEq⟩, hOld⟩ := scopes_enter h hOk
  rcases Nat.lt_trichotomy position table.scopes.size with hLt | rfl | hGt
  · have hBefore := Array.getElem?_eq_getElem hLt
    rw [holdingsOf_of_getElem? hBefore, holdingsOf_of_getElem? (hOld position _ hBefore)]
    rfl
  · rw [holdingsOf_of_none (Array.getElem?_eq_none (Nat.le_refl _)), holdingsOf_of_getElem? hFresh, hEq]
    rfl
  · rw [holdingsOf_of_none (Array.getElem?_eq_none hGt.le),
      holdingsOf_of_none (Array.getElem?_eq_none (hSize ▸ hGt))]

theorem sameHoldings_detectEval (table : SymbolTable) (scope : ScopeId) :
    SameHoldings table (table.detectEval scope) := fun position => by
  rw [holdingsOf, holdingsOf, getElem?_detectEval]
  cases table.scopes[position]? <;> rfl

theorem sameHoldings_markBodyStart (table : SymbolTable) (scope : ScopeId) :
    SameHoldings table (table.markBodyStart scope) :=
  sameHoldings_modifyScope fun entry => by
    split <;> rfl

/-- A reference is noted only as it is recorded, and as a scope closes. -/
theorem sameHoldings_apply (h : Nested table table.stack) (hUse : ∀ use, event ≠ .use use)
    (hLeave : ∀ block, event ≠ .leave block) (hOk : table.apply settings event = .ok next) :
    SameHoldings table next := by
  cases event with
  | enter kind block inMethod => exact sameHoldings_enter h hOk
  | leave block => exact absurd rfl (hLeave block)
  | use use => exact absurd rfl (hUse use)
  | fail failure => cases hOk
  | define destination identifier definition =>
      obtain ⟨scope, -, hNext⟩ := exists_of_bind_ok hOk
      cases hNext
      exact (names_define _ _ _ _).sameHoldings
  | directEval =>
      obtain ⟨scope, -, hNext⟩ := exists_of_bind_ok hOk
      cases hNext
      exact sameHoldings_detectEval _ _
  | bodyStart =>
      obtain ⟨scope, -, hNext⟩ := exists_of_bind_ok hOk
      cases hNext
      exact sameHoldings_markBodyStart _ _
  | setStrict | thisExpression =>
      obtain ⟨scope, -, hNext⟩ := exists_of_bind_ok hOk
      cases hNext
      exact sameHoldings_modifyScope fun _ => rfl
  | endDeclaration node =>
      cases hOk
      exact sameHoldings_of_eq (scopes_endDeclaration table node)

/-- A use that is recorded comes last in its scope. -/
theorem holdingsOf_record {use : Use} (hOk : table.record scope use = .ok next) :
    next = table ∨ ∀ position, next.holdingsOf position =
      if position = scope then
        { table.holdingsOf position with
          recorded := (table.holdingsOf position).recorded ++ [table.references.size]
          waiting := (table.holdingsOf position).waiting ++ [table.references.size] }
      else table.holdingsOf position := by
  rcases record_eq_ok hOk with ⟨-, rfl⟩ | ⟨-, ⟨entry, hEntry, hOpen⟩, rfl⟩
  · exact .inl rfl
  · refine .inr fun position => ?_
    obtain ⟨pending, hPending⟩ := Option.isSome_iff_exists.1 hOpen
    rw [holdingsOf, getElem?_modifyScope]
    by_cases hEq : scope = position
    · subst hEq
      rw [if_pos rfl, if_pos rfl, holdingsOf_of_getElem? hEntry]
      simp [hEntry, hPending, Scope.holdings, Scope.waiting]
    · rw [if_neg hEq, if_neg (Ne.symm hEq)]
      rfl

theorem sameHoldings_declareImplicit (table : SymbolTable) (scope : ScopeId) (name : String) :
    SameHoldings table (table.declareImplicit scope name).2 := by
  unfold declareImplicit
  split
  · exact .refl table
  · have hAdd : SameHoldings table (table.addVariable scope name).2 := sameHoldings_of_eq rfl
    exact hAdd.trans (sameHoldings_modifyScope fun _ => rfl)

theorem sameHoldings_defineGlobals (found : List (Node × Node)) (table : SymbolTable) :
    SameHoldings table (found.foldl (defineGlobal scope) table) := by
  induction found generalizing table with
  | nil => exact .refl table
  | cons first found ih =>
      exact ((sameHoldings_declareImplicit table scope first.1.name).trans
        (sameHoldings_of_eq rfl)).trans (ih _)

/-- As a scope makes names global, it keeps what waits in it. -/
theorem holdingsOf_defineImplicit (table : SymbolTable) (scope position : ScopeId) :
    (table.defineImplicit scope).holdingsOf position =
      if position = scope then
        { table.holdingsOf position with left := (table.holdingsOf position).waiting }
      else table.holdingsOf position := by
  rw [defineImplicit_eq, holdingsOf_modifyScope
    (fun holdings => { holdings with left := holdings.waiting }) (fun _ => rfl) rfl,
    sameHoldings_defineGlobals _ table position]

/-- A scope that closes waits for nothing more. What has passed through it stays noted. -/
theorem holdingsOf_closeHead (table : SymbolTable) (scope position : ScopeId) :
    (table.closeHead scope).holdingsOf position =
      if position = scope then { table.holdingsOf position with waiting := [] }
      else table.holdingsOf position :=
  holdingsOf_modifyScope (fun holdings => { holdings with waiting := [] }) (fun _ => rfl) rfl
    position

end SymbolTable

end Scoping
