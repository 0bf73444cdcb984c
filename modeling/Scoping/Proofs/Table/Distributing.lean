import Scoping.Proofs.Table.Holdings

/-! How a scope that closes distributes the references that waited in it: to the
scope around, where they wait again, and to its own variables. A scope that
hands them on puts them through no other scope. -/

namespace Scoping

/-- Lists before and after some of them have got more of these items, in their order. -/
def GainsAt {ι : Type} (target : ι → Prop) (items : List ReferenceId)
    (before after : ι → List ReferenceId) : Prop :=
  ∀ position, Gains items (before position) (after position) ∧
    (¬ target position → after position = before position)

namespace GainsAt

variable {ι : Type} {target : ι → Prop} {items more : List ReferenceId}
  {before middle after : ι → List ReferenceId}

theorem of_eq (h : ∀ position, after position = before position) :
    GainsAt target items before after :=
  fun position => ⟨h position ▸ .refl items _, fun _ => h position⟩

theorem mono {further : ι → Prop} (h : GainsAt target items before after)
    (hTarget : ∀ position, target position → further position) :
    GainsAt further items before after :=
  fun position => ⟨(h position).1, fun hNot => (h position).2 fun hTo => hNot (hTarget position hTo)⟩

/-- What is gained later comes after what was gained before. -/
theorem append (hFirst : GainsAt target items before middle)
    (hSecond : GainsAt target more middle after) : GainsAt target (items ++ more) before after :=
  fun position => ⟨(hFirst position).1.append (hSecond position).1, fun hNot =>
    ((hSecond position).2 hNot).trans ((hFirst position).2 hNot)⟩

theorem mem (h : GainsAt target items before after) {position : ι} {id : ReferenceId}
    (hId : id ∈ after position) : id ∈ before position ∨ (target position ∧ id ∈ items) := by
  by_cases hTarget : target position
  · obtain ⟨added, hAfter, hAdded⟩ := (h position).1
    rw [hAfter] at hId
    exact (List.mem_append.1 hId).imp_right fun hNew => ⟨hTarget, hAdded.subset hNew⟩
  · rw [(h position).2 hTarget] at hId
    exact .inl hId

/-- Lists stay in order if all that they get comes after what they have. -/
theorem pairwise (h : GainsAt target items before after) {position : ι}
    (hItems : items.Pairwise (· < ·)) (hBefore : (before position).Pairwise (· < ·))
    (hAfter : target position → ∀ first ∈ before position, ∀ second ∈ items, first < second) :
    (after position).Pairwise (· < ·) := by
  by_cases hTarget : target position
  · obtain ⟨added, hEq, hAdded⟩ := (h position).1
    rw [hEq]
    exact List.pairwise_append.2 ⟨hBefore, hItems.sublist hAdded, fun first hFirst second hSecond =>
      hAfter hTarget first hFirst second (hAdded.subset hSecond)⟩
  · rw [(h position).2 hTarget]
    exact hBefore

end GainsAt

namespace SymbolTable

/-- The scope that a variable belongs to. -/
def ownerOf (table : SymbolTable) (var : VariableId) : Option ScopeId :=
  table.variables[var]?.map Variable.scope

/-- A scope that closes hands on what it does not resolve, or there is no scope around it
that it could pass by. -/
def HandsOn (table : SymbolTable) (scope : ScopeId) (closing : Closing) : Prop :=
  closing = .resolving ∨ closing = .tainting ∨ table.upper? scope = none

/-- What a scope that closes does with these references, one after another. -/
structure Distributes (scope : ScopeId) (closing : Closing) (ids : List ReferenceId)
    (table next : SymbolTable) : Prop where
  recorded : ∀ position, (next.holdingsOf position).recorded = (table.holdingsOf position).recorded
  left : ∀ position, (next.holdingsOf position).left = (table.holdingsOf position).left
  waiting : GainsAt (fun position => table.upper? scope = some position) ids
    (fun position => (table.holdingsOf position).waiting)
    fun position => (next.holdingsOf position).waiting
  listed : GainsAt (fun var => table.ownerOf var = some scope) ids
    (fun var => (table.marksOf var).references.toList)
    fun var => (next.marksOf var).references.toList
  through : HandsOn table scope closing → GainsAt (· = scope) ids
    (fun position => (table.holdingsOf position).through)
    fun position => (next.holdingsOf position).through

variable {settings : Settings} {table next : SymbolTable} {stack : List ScopeId}
  {scope position : ScopeId} {closing : Closing} {id : ReferenceId} {ids more : List ReferenceId}
  {var : VariableId}

theorem SameNames.ownerOf (h : SameNames table next) (var : VariableId) :
    next.ownerOf var = table.ownerOf var := by
  have hNames := congrArg (Option.map Prod.fst) (h.names var)
  rwa [Option.map_map, Option.map_map] at hNames

theorem Distributes.refl (table : SymbolTable) : Distributes scope closing ids table table :=
  ⟨fun _ => rfl, fun _ => rfl, .of_eq fun _ => rfl, .of_eq fun _ => rfl, fun _ => .of_eq fun _ => rfl⟩

/-- References are dealt with one after another, as long as neither the scope around nor the
owners of variables change. -/
theorem Distributes.append {third : SymbolTable} (hFirst : Distributes scope closing ids table next)
    (hSecond : Distributes scope closing more next third)
    (hUpper : next.upper? scope = table.upper? scope)
    (hOwner : ∀ var, next.ownerOf var = table.ownerOf var) :
    Distributes scope closing (ids ++ more) table third where
  recorded := fun position => (hSecond.recorded position).trans (hFirst.recorded position)
  left := fun position => (hSecond.left position).trans (hFirst.left position)
  waiting := hFirst.waiting.append (by simpa only [hUpper] using hSecond.waiting)
  listed := hFirst.listed.append (by simpa only [hOwner] using hSecond.listed)
  through := fun hHands => (hFirst.through hHands).append
    (hSecond.through (by simpa only [HandsOn, hUpper] using hHands))

/-- A list that a change of a scope does not concern. -/
theorem holding_modifyScope (list : Scope.Holdings → List ReferenceId) {change : Scope → Scope}
    (hChange : ∀ entry, list (change entry).holdings = list entry.holdings) (position : ScopeId) :
    list ((table.modifyScope scope change).holdingsOf position) = list (table.holdingsOf position) := by
  rw [holdingsOf, holdingsOf, getElem?_modifyScope]
  split
  · cases table.scopes[position]? with
    | none => rfl
    | some entry => exact hChange entry
  · rfl

/-- A change of one scope adds to a list of that scope alone. -/
theorem gainsAt_modifyScope (list : Scope.Holdings → List ReferenceId) {change : Scope → Scope}
    (hChange : ∀ entry, Gains ids (list entry.holdings) (list (change entry).holdings)) :
    GainsAt (· = scope) ids (fun position => list (table.holdingsOf position))
      fun position => list ((table.modifyScope scope change).holdingsOf position) := fun position => by
  simp only [holdingsOf, getElem?_modifyScope]
  split
  · next hEq =>
      refine ⟨?_, fun hNe => absurd hEq.symm hNe⟩
      cases table.scopes[position]? with
      | none => exact .refl ids _
      | some entry => exact hChange entry
  · exact ⟨.refl ids _, fun _ => rfl⟩

/-- Resolution only adds to what a variable of the scope lists. -/
theorem distributes_resolve (hNested : Nested table stack)
    (hVar : table.resolution? scope id = some var) :
    Distributes scope closing [id] table (table.resolve scope id var) := by
  obtain ⟨reference, hReference, hLookup⟩ := exists_of_resolution? hVar
  obtain ⟨declared, hDeclared, hOwner, -⟩ := hNested.exists_of_lookup? hLookup
  have hSame : SameHoldings table (table.resolve scope id var) := by
    refine sameHoldings_of_eq ?_
    simp [SymbolTable.resolve, hReference, hDeclared, modifyVariable, modifyReference]
  refine ⟨fun position => by rw [hSame], fun position => by rw [hSame],
    .of_eq fun position => by rw [hSame], fun other => ?_, fun _ => .of_eq fun position => by rw [hSame]⟩
  simp only [marksOf_resolve hReference hDeclared]
  by_cases hEq : var = other
  · have hOwns : table.ownerOf other = some scope := by
      rw [← hEq, ownerOf, hDeclared, Option.map_some, hOwner]
    refine ⟨?_, fun hNot => absurd hOwns hNot⟩
    rw [if_pos hEq, hEq, Array.toList_push]
    exact .concat _ id
  · rw [if_neg hEq]
    exact ⟨.refl _ _, fun _ => rfl⟩

/-- A reference passes through a scope. -/
def pass (table : SymbolTable) (scope : ScopeId) (id : ReferenceId) : SymbolTable :=
  table.modifyScope scope fun entry => { entry with through := entry.through.push id }

/-- A reference waits in a scope, if that is open. -/
def await (table : SymbolTable) (scope : ScopeId) (id : ReferenceId) : SymbolTable :=
  table.modifyScope scope fun entry =>
    { entry with pending := entry.pending.map fun pending => pending.push id }

/-- A reference that passes through a scope comes last in what has passed through it. -/
theorem through_pass (table : SymbolTable) (scope : ScopeId) (id : ReferenceId) :
    GainsAt (· = scope) [id] (fun position => (table.holdingsOf position).through)
      fun position => ((table.pass scope id).holdingsOf position).through := by
  refine gainsAt_modifyScope Scope.Holdings.through fun entry => ?_
  simp only [Scope.holdings, Array.toList_push]
  exact .concat _ id

/-- A reference that passes through a scope is nowhere else. -/
theorem holding_pass (table : SymbolTable) (scope : ScopeId) (id : ReferenceId)
    (position : ScopeId) :
    ((table.pass scope id).holdingsOf position).recorded = (table.holdingsOf position).recorded ∧
      ((table.pass scope id).holdingsOf position).waiting = (table.holdingsOf position).waiting ∧
      ((table.pass scope id).holdingsOf position).left = (table.holdingsOf position).left := by
  refine ⟨holding_modifyScope Scope.Holdings.recorded ?_ position,
    holding_modifyScope Scope.Holdings.waiting ?_ position,
    holding_modifyScope Scope.Holdings.left ?_ position⟩ <;> exact fun _ => rfl

/-- A reference that waits anew waits behind all others. -/
theorem waiting_await (table : SymbolTable) (scope : ScopeId) (id : ReferenceId) :
    GainsAt (· = scope) [id] (fun position => (table.holdingsOf position).waiting)
      fun position => ((table.await scope id).holdingsOf position).waiting := by
  refine gainsAt_modifyScope Scope.Holdings.waiting fun entry => ?_
  cases hPending : entry.pending with
  | none => simpa [Scope.holdings, Scope.waiting, hPending] using Gains.refl [id] []
  | some pending =>
      simpa [Scope.holdings, Scope.waiting, hPending] using Gains.concat pending.toList id

/-- Waiting changes no list but that of what waits. -/
theorem holding_await (table : SymbolTable) (scope : ScopeId) (id : ReferenceId)
    (position : ScopeId) :
    ((table.await scope id).holdingsOf position).recorded = (table.holdingsOf position).recorded ∧
      ((table.await scope id).holdingsOf position).through = (table.holdingsOf position).through ∧
      ((table.await scope id).holdingsOf position).left = (table.holdingsOf position).left := by
  refine ⟨holding_modifyScope Scope.Holdings.recorded ?_ position,
    holding_modifyScope Scope.Holdings.through ?_ position,
    holding_modifyScope Scope.Holdings.left ?_ position⟩ <;> exact fun _ => rfl

/-- What a scope lets through waits in the scope around. -/
theorem delegate_eq_ok (hOk : table.delegate scope id = .ok next) :
    (table.upper? scope = none ∧ next = table.pass scope id) ∨
      ∃ upper, table.upper? scope = some upper ∧ next = (table.pass scope id).await upper id := by
  unfold delegate at hOk
  split at hOk
  · next hUpper =>
      cases hOk
      exact .inl ⟨hUpper, rfl⟩
  · next upper hUpper =>
      split at hOk
      · cases hOk
      · cases hOk
        exact .inr ⟨upper, hUpper, rfl⟩

/-- A reference that is handed on passes through the scope and waits in the one around. -/
theorem distributes_delegate (hOk : table.delegate scope id = .ok next) :
    Distributes scope closing [id] table next := by
  have hMarks := sameMarks_delegate hOk
  have hListed : GainsAt (fun var => table.ownerOf var = some scope) [id]
      (fun var => (table.marksOf var).references.toList)
      fun var => (next.marksOf var).references.toList := .of_eq fun var => by rw [hMarks]
  rcases delegate_eq_ok hOk with ⟨-, rfl⟩ | ⟨upper, hUpper, rfl⟩
  · exact ⟨fun position => (holding_pass table scope id position).1,
      fun position => (holding_pass table scope id position).2.2,
      .of_eq fun position => (holding_pass table scope id position).2.1, hListed,
      fun _ => through_pass table scope id⟩
  · have hPassed := holding_pass table scope id
    have hAwaited := holding_await (table.pass scope id) upper id
    refine ⟨fun position => (hAwaited position).1.trans (hPassed position).1,
      fun position => (hAwaited position).2.2.trans (hPassed position).2.2, ?_, hListed, fun _ => ?_⟩
    · have hWaits := (waiting_await (table.pass scope id) upper id).mono fun position hEq =>
        hEq ▸ hUpper
      simpa only [(hPassed _).2.1] using hWaits
    · simpa only [(hAwaited _).2.1] using through_pass table scope id

/-- A reference that passes through several scopes waits in none of them. -/
theorem holding_passes (scopes : List ScopeId) (table : SymbolTable) (id : ReferenceId)
    (position : ScopeId) :
    let next := scopes.foldl (fun table scope => table.pass scope id) table
    (next.holdingsOf position).recorded = (table.holdingsOf position).recorded ∧
      (next.holdingsOf position).waiting = (table.holdingsOf position).waiting ∧
      (next.holdingsOf position).left = (table.holdingsOf position).left := by
  induction scopes generalizing table with
  | nil => exact ⟨rfl, rfl, rfl⟩
  | cons first scopes ih =>
      obtain ⟨hRecorded, hWaiting, hLeft⟩ := ih (table.pass first id)
      obtain ⟨hRecorded', hWaiting', hLeft'⟩ := holding_pass table first id position
      exact ⟨hRecorded.trans hRecorded', hWaiting.trans hWaiting', hLeft.trans hLeft'⟩

/-- An abandoned reference passes by no scope around, if there is none. -/
theorem distributes_abandon (hClosing : closing = .abandoning ∨ closing = .byName) :
    Distributes scope closing [id] table (table.abandon scope id) := by
  have hPassed := holding_passes (table.enclosing scope) table id
  refine ⟨fun position => (hPassed position).1, fun position => (hPassed position).2.2,
    .of_eq fun position => (hPassed position).2.1,
    .of_eq fun var => by rw [sameMarks_abandon table scope id], fun hHands => ?_⟩
  have hOutermost : table.upper? scope = none := by
    rcases hHands with rfl | rfl | hNone
    · cases hClosing <;> contradiction
    · cases hClosing <;> contradiction
    · exact hNone
  rw [abandon, enclosing_of_outermost hOutermost]
  exact through_pass table scope id

/-- Each reference goes one way: to a variable of the scope, to the scope around, or through
all scopes around. -/
theorem distributes_closeReference (hNested : Nested table stack)
    (hOk : table.closeReference settings scope closing id = .ok next) :
    Distributes scope closing [id] table next := by
  rcases closeReference_cases hOk with ⟨var, hVar, rfl⟩ | hPassed | hPassed | ⟨hClosing, rfl⟩
  · exact distributes_resolve hNested hVar
  · exact distributes_delegate hPassed
  · have hTainted : Distributes scope closing [id] _ next := distributes_delegate hPassed
    exact ⟨hTainted.recorded, hTainted.left, hTainted.waiting, hTainted.listed, hTainted.through⟩
  · exact distributes_abandon hClosing

/-- What waits in a scope that closes is distributed in the order in which it waits. -/
theorem distributes_closeReferences (ids : List ReferenceId) (hNested : Nested table stack)
    (hUpper : ∀ upper ∈ table.upper? scope, upper ∈ stack)
    (hOk : ids.foldlM (closeReference settings scope closing) table = .ok next) :
    Distributes scope closing ids table next := by
  induction ids generalizing table with
  | nil =>
      cases hOk
      exact .refl _
  | cons first ids ih =>
      rw [List.foldlM_cons] at hOk
      obtain ⟨middle, hMiddle, hRest⟩ := exists_of_bind_ok hOk
      obtain ⟨found, hFound, hMoves⟩ := exists_closeReference settings closing hNested first hUpper
      cases hFound.symm.trans hMiddle
      exact (distributes_closeReference hNested hMiddle).append
        (ih hMoves.nested (by rw [hMoves.upper?]; exact hUpper) hRest) (hMoves.upper? scope)
        hMoves.same.ownerOf

end SymbolTable

end Scoping
