import Scoping.Proofs.Resolution.Finished
import Scoping.Proofs.Table.Marks

/-! What a variable notes of its references is so of those that resolve to it: it
is tainted if one of them is, and on the stack if all of them stand in its own
function. What has been resolved does not change any more. -/

namespace Scoping.SymbolTable

/-- A reference that resolves to a variable, with the scopes of both. -/
structure Means (table : SymbolTable) (id : ReferenceId) (var : VariableId) (reference : Reference)
    (declared : Variable) : Prop where
  found : table.references[id]? = some reference
  resolved : reference.resolved = some var
  known : table.variables[var]? = some declared
  home : ∃ scope, table.scopes[reference.scope]? = some scope
  owner : ∃ scope, table.scopes[declared.scope]? = some scope

def isTainted (table : SymbolTable) (id : ReferenceId) : Bool :=
  table.references[id]?.any Reference.tainted

/-- A reference that stands in the function of a variable. -/
def standsWith (table : SymbolTable) (var : VariableId) (id : ReferenceId) : Bool :=
  table.references[id]?.any fun reference => table.variables[var]?.any fun declared =>
    table.sameFunction reference.scope declared.scope

/-- What is noted of a variable is so of its references. -/
structure Tallied (table : SymbolTable) (var : VariableId) : Prop where
  means : ∀ id ∈ (table.marksOf var).references, ∃ reference declared,
    Means table id var reference declared
  tainted : (table.marksOf var).tainted = true ↔
    ∃ id ∈ (table.marksOf var).references, table.isTainted id = true
  stack : (table.marksOf var).stack = true ↔
    ∀ id ∈ (table.marksOf var).references, table.standsWith var id = true

def AllTallied (table : SymbolTable) : Prop :=
  ∀ var, Tallied table var

/-- A table before and after a change that leaves scopes, variables and what is
resolved where they are. -/
structure Upholds (table next : SymbolTable) : Prop where
  scope : ∀ (position : ScopeId) (before : Scope), table.scopes[position]? = some before →
    ∃ after, next.scopes[position]? = some after ∧ after.variableScope = before.variableScope
  variable_ : ∀ (var : VariableId) (before : Variable), table.variables[var]? = some before →
    ∃ after, next.variables[var]? = some after ∧ after.scope = before.scope
  reference : ∀ (id : ReferenceId) (before : Reference), table.references[id]? = some before →
    before.resolved ≠ none → next.references[id]? = some before

/-- A reference that is not resolved yet, or that is still to come. -/
def Awaits (table : SymbolTable) (id : ReferenceId) : Prop :=
  ∀ reference, table.references[id]? = some reference → reference.resolved = none ∧
    ∃ home, table.scopes[reference.scope]? = some home

variable {settings : Settings} {table next : SymbolTable} {stack : List ScopeId} {tree : Tree}
  {scope : ScopeId} {id moved : ReferenceId} {var : VariableId} {event : Event}
  {reference : Reference} {declared : Variable}

theorem allTallied_empty : AllTallied {} := fun var => by
  have hNone : ({} : SymbolTable).marksOf var = {} := rfl
  refine ⟨fun id hId => ?_, ?_, ?_⟩ <;> simp [hNone] at *

/-- Counts, marks and the open scopes have no part in what is upheld. -/
theorem Upholds.of_eq (hScopes : next.scopes = table.scopes)
    (hVariables : next.variables = table.variables)
    (hReferences : next.references = table.references) : Upholds table next :=
  ⟨fun _ before hBefore => ⟨before, hScopes ▸ hBefore, rfl⟩,
    fun _ before hBefore => ⟨before, hVariables ▸ hBefore, rfl⟩,
    fun _ _ hBefore _ => hReferences ▸ hBefore⟩

theorem Upholds.refl (table : SymbolTable) : Upholds table table :=
  .of_eq rfl rfl rfl

theorem Upholds.trans {third : SymbolTable} (hFirst : Upholds table next)
    (hSecond : Upholds next third) : Upholds table third where
  scope := fun position before hBefore => by
    obtain ⟨middle, hMiddle, hSame⟩ := hFirst.scope position before hBefore
    obtain ⟨after, hAfter, hStill⟩ := hSecond.scope position middle hMiddle
    exact ⟨after, hAfter, hStill.trans hSame⟩
  variable_ := fun var before hBefore => by
    obtain ⟨middle, hMiddle, hSame⟩ := hFirst.variable_ var before hBefore
    obtain ⟨after, hAfter, hStill⟩ := hSecond.variable_ var middle hMiddle
    exact ⟨after, hAfter, hStill.trans hSame⟩
  reference := fun id before hBefore hResolved =>
    hSecond.reference id before (hFirst.reference id before hBefore hResolved) hResolved

/-- What happens to a reference that is not resolved yet upholds the others. -/
theorem Upholds.of_spares (h : Spares moved table next) (hAwaits : Awaits table moved) :
    Upholds table next where
  scope := fun position before hBefore => by
    obtain ⟨after, hAfter, hSpares⟩ := h.scope position before hBefore
    exact ⟨after, hAfter, hSpares.variableScope⟩
  variable_ := fun var before hBefore => by
    obtain ⟨after, hAfter, -, hScope, -⟩ := h.variable_ var before hBefore
    exact ⟨after, hAfter, hScope⟩
  reference := fun id before hBefore hResolved => by
    have hNe : id ≠ moved := fun hEq => hResolved (hAwaits before (hEq ▸ hBefore)).1
    rw [h.reference id hNe, hBefore]

/-- A reference that is still to come waits for its meaning. -/
theorem awaits_of_none (h : table.references[id]? = none) : Awaits table id :=
  fun _ hReference => nomatch h.symm.trans hReference

theorem awaits_size (table : SymbolTable) : Awaits table table.references.size :=
  awaits_of_none (Array.getElem?_eq_none (Nat.le_refl _))

/-- What adds to a table leaves all that it finds there where it was. -/
theorem Upholds.of_advances (h : Advances stack table next) : Upholds table next :=
  .of_spares (h.spares table.references.size) (awaits_size table)

/-- A change of a scope that keeps where its variables go. -/
theorem Upholds.modifyScope {change : Scope → Scope}
    (hChange : ∀ entry, (change entry).variableScope = entry.variableScope) :
    Upholds table (table.modifyScope scope change) := by
  refine ⟨fun position before hBefore => ?_, fun _ before hBefore => ⟨before, hBefore, rfl⟩,
    fun _ _ hBefore _ => hBefore⟩
  rw [getElem?_modifyScope, hBefore]
  split
  · exact ⟨_, rfl, hChange before⟩
  · exact ⟨before, rfl, rfl⟩

/-- Whether two scopes are of one function is told by the scopes that are upheld. -/
theorem Upholds.sameFunction (h : Upholds table next) {first second : ScopeId}
    (hFirst : ∃ scope, table.scopes[first]? = some scope)
    (hSecond : ∃ scope, table.scopes[second]? = some scope) :
    next.sameFunction first second = table.sameFunction first second := by
  have hHolder : ∀ {position : ScopeId}, (∃ scope, table.scopes[position]? = some scope) →
      next.variableScope position = table.variableScope position := by
    rintro position ⟨before, hBefore⟩
    obtain ⟨after, hAfter, hSame⟩ := h.scope position before hBefore
    rw [variableScope_of_getElem? hAfter, variableScope_of_getElem? hBefore, hSame]
  rw [SymbolTable.sameFunction, hHolder hFirst, hHolder hSecond, SymbolTable.sameFunction]

/-- The reference that means a variable is there, so its taint is read off it. -/
theorem Means.isTainted (h : Means table id var reference declared) :
    table.isTainted id = reference.tainted := by
  rw [SymbolTable.isTainted, h.found, Option.any_some]

/-- Both scopes are there, so it can be told whether they are of one function. -/
theorem Means.standsWith (h : Means table id var reference declared) :
    table.standsWith var id = table.sameFunction reference.scope declared.scope := by
  rw [SymbolTable.standsWith, h.found, Option.any_some, h.known, Option.any_some]

/-- What a reference means stays, and so does all that is noted of it. -/
theorem Means.of_upholds (h : Means table id var reference declared) (hUpholds : Upholds table next) :
    (∃ after, Means next id var reference after) ∧ next.isTainted id = table.isTainted id ∧
      next.standsWith var id = table.standsWith var id := by
  obtain ⟨home, hHome⟩ := h.home
  obtain ⟨owner, hOwner⟩ := h.owner
  obtain ⟨homeAfter, hHomeAfter, -⟩ := hUpholds.scope _ home hHome
  obtain ⟨ownerAfter, hOwnerAfter, -⟩ := hUpholds.scope _ owner hOwner
  obtain ⟨after, hAfter, hScope⟩ := hUpholds.variable_ var declared h.known
  have hMeans : Means next id var reference after :=
    ⟨hUpholds.reference id reference h.found (by rw [h.resolved]; nofun), h.resolved, hAfter,
      ⟨homeAfter, hHomeAfter⟩, ownerAfter, hScope ▸ hOwnerAfter⟩
  refine ⟨⟨after, hMeans⟩, ?_, ?_⟩
  · rw [hMeans.isTainted, h.isTainted]
  · rw [hMeans.standsWith, h.standsWith, hScope, hUpholds.sameFunction h.home h.owner]

/-- Each reference that a variable has noted keeps its meaning, its taint and its place. -/
theorem Tallied.each (h : Tallied table var) (hUpholds : Upholds table next) :
    ∀ id ∈ (table.marksOf var).references,
      (∃ reference declared, Means next id var reference declared) ∧
        next.isTainted id = table.isTainted id ∧
          next.standsWith var id = table.standsWith var id := fun id hId => by
  obtain ⟨reference, declared, hMeans⟩ := h.means id hId
  exact ⟨⟨reference, (hMeans.of_upholds hUpholds).1⟩, (hMeans.of_upholds hUpholds).2⟩

/-- What is noted of a variable stays right under a change that upholds the references
noted. -/
theorem Tallied.of_upholds (h : Tallied table var) (hMarks : next.marksOf var = table.marksOf var)
    (hUpholds : Upholds table next) : Tallied next var := by
  have hEach := h.each hUpholds
  refine ⟨?_, ?_, ?_⟩
  · rw [hMarks]
    exact fun id hId => (hEach id hId).1
  · rw [hMarks, h.tainted]
    exact exists_congr fun id => and_congr_right fun hId => by rw [(hEach id hId).2.1]
  · rw [hMarks, h.stack]
    exact forall₂_congr fun id hId => by rw [(hEach id hId).2.2]

/-- One more reference that is noted. -/
theorem Tallied.push (h : Tallied table var) (hUpholds : Upholds table next)
    (hMarks : next.marksOf var =
      { references := (table.marksOf var).references.push id
        tainted := (table.marksOf var).tainted || next.isTainted id
        stack := (table.marksOf var).stack && next.standsWith var id })
    (hMeans : Means next id var reference declared) : Tallied next var := by
  have hEach := h.each hUpholds
  refine ⟨?_, ?_, ?_⟩
  · rw [hMarks]
    intro other hOther
    rcases Array.mem_push.1 hOther with hOld | rfl
    · exact (hEach other hOld).1
    · exact ⟨reference, declared, hMeans⟩
  · simp only [hMarks, Array.mem_push, or_and_right, exists_or, exists_eq_left, Bool.or_eq_true,
      h.tainted]
    exact or_congr_left (exists_congr fun id => and_congr_right fun hId => by rw [(hEach id hId).2.1])
  · simp only [hMarks, Array.mem_push, or_imp, forall_and, forall_eq, Bool.and_eq_true, h.stack]
    exact and_congr_left fun _ => forall₂_congr fun id hId => by rw [(hEach id hId).2.2]

theorem AllTallied.of_upholds (h : AllTallied table) (hMarks : SameMarks table next)
    (hUpholds : Upholds table next) : AllTallied next :=
  fun var => (h var).of_upholds (hMarks var) hUpholds

/-- A reference that resolves is noted at its variable with its taint and with where it
stands. -/
theorem allTallied_resolve (h : AllTallied table) (hNested : Nested table stack)
    (hOwner : ∃ owner, table.scopes[scope]? = some owner)
    (hDeclared : table.variables[var]? = some declared) (hScope : declared.scope = scope)
    (hReference : table.references[id]? = some reference) (hAwaits : Awaits table id) :
    AllTallied (table.resolve scope id var) := by
  have hHome := (hAwaits reference hReference).2
  have hUpholds : Upholds table (table.resolve scope id var) :=
    .of_spares (moves_resolve hNested scope id var).spares hAwaits
  have hScopes : (table.resolve scope id var).scopes = table.scopes := by
    simp [SymbolTable.resolve, hReference, hDeclared, modifyVariable, modifyReference]
  have hMarks := marksOf_resolve hReference hDeclared scope
  obtain ⟨after, hAfter, hHere⟩ := hUpholds.variable_ var declared hDeclared
  have hMeans : Means (table.resolve scope id var) id var
      { reference with
        resolved := some var
        inDeadZone := table.isInDeadZone scope id reference declared } after := by
    refine ⟨?_, rfl, hAfter, hScopes ▸ hHome, ?_⟩
    · simp [SymbolTable.resolve, hReference, hDeclared, modifyVariable]
    · rw [hHere, hScope, hScopes]
      exact hOwner
  intro other
  by_cases hEq : var = other
  · subst hEq
    refine (h var).push hUpholds ?_ hMeans
    rw [hMarks, if_pos rfl, hMeans.isTainted, hMeans.standsWith, hHere, hScope,
      hUpholds.sameFunction hHome hOwner]
  · exact (h other).of_upholds (by rw [hMarks, if_neg hEq]) hUpholds

/-- A reference that is handed on is noted at no variable yet, so no note has to follow it.
-/
theorem allTallied_delegate (h : AllTallied table) (hNested : Nested table stack)
    (hAwaits : Awaits table id) (hUpper : ∀ upper ∈ table.upper? scope, upper ∈ stack)
    (hOk : table.delegate scope id = .ok next) : AllTallied next := by
  obtain ⟨found, hFound, hMoves⟩ := exists_delegate hNested id hUpper
  cases hFound.symm.trans hOk
  exact h.of_upholds (sameMarks_delegate hOk) (.of_spares hMoves.spares hAwaits)

/-- A reference that is given up is noted nowhere. -/
theorem allTallied_abandon (h : AllTallied table) (hNested : Nested table stack)
    (hAwaits : Awaits table id) (scope : ScopeId) : AllTallied (table.abandon scope id) :=
  h.of_upholds (sameMarks_abandon table scope id)
    (.of_spares (moves_abandon hNested scope id).spares hAwaits)

/-- Whatever happens to a reference as a scope closes, the notes stay right. One that is
tainted is not noted yet. -/
theorem allTallied_closeReference (h : AllTallied table) (hNested : Nested table stack)
    (hOwner : ∃ owner, table.scopes[scope]? = some owner) (hAwaits : Awaits table id)
    (hUpper : ∀ upper ∈ table.upper? scope, upper ∈ stack) {closing : Closing}
    (hOk : table.closeReference settings scope closing id = .ok next) : AllTallied next := by
  rcases closeReference_cases hOk with ⟨var, hVar, rfl⟩ | hPassed | hPassed | ⟨-, rfl⟩
  · obtain ⟨reference, hReference, hLookup⟩ := exists_of_resolution? hVar
    obtain ⟨declared, hDeclared, hHome, -⟩ := hNested.exists_of_lookup? hLookup
    exact allTallied_resolve h hNested hOwner hDeclared hHome hReference hAwaits
  · exact allTallied_delegate h hNested hAwaits hUpper hPassed
  · have hTaint : Moves id stack table (table.modifyReference id fun reference =>
      { reference with tainted := true }) := moves_modifyReference hNested id fun _ => rfl
    have hTainted : AllTallied (table.modifyReference id fun reference =>
      { reference with tainted := true }) :=
        h.of_upholds (sameMarks_of_eq rfl) (.of_spares hTaint.spares hAwaits)
    refine allTallied_delegate hTainted hTaint.nested (fun later hLater => ?_)
      (fun upper hOut => hUpper upper (hTaint.upper? scope ▸ hOut)) hPassed
    rw [getElem?_modifyReference, if_pos rfl] at hLater
    obtain ⟨reference, hReference, rfl⟩ := Option.map_eq_some_iff.1 hLater
    exact hAwaits reference hReference
  · exact allTallied_abandon h hNested hAwaits scope

/-- What waits in a scope is dealt with once, so that the rest still waits. What is kept
with each reference that waits is kept with all of them. -/
theorem awaited_induction {closing : Closing} {P : SymbolTable → Prop}
    (hStep : ∀ (table next : SymbolTable) (id : ReferenceId), Nested table stack →
      (∃ owner, table.scopes[scope]? = some owner) → Awaits table id →
      (∀ upper ∈ table.upper? scope, upper ∈ stack) → P table → Moves id stack table next →
      table.closeReference settings scope closing id = .ok next → P next)
    (ids : List ReferenceId) (hNodup : ids.Nodup) (h : P table) (hNested : Nested table stack)
    (hOwner : ∃ owner, table.scopes[scope]? = some owner)
    (hAwaits : ∀ id ∈ ids, Awaits table id) (hUpper : ∀ upper ∈ table.upper? scope, upper ∈ stack)
    (hOk : ids.foldlM (closeReference settings scope closing) table = .ok next) : P next := by
  induction ids generalizing table with
  | nil =>
      cases hOk
      exact h
  | cons first ids ih =>
      obtain ⟨hFirst, hNodup⟩ := List.nodup_cons.1 hNodup
      rw [List.foldlM_cons] at hOk
      obtain ⟨middle, hMiddle, hRest⟩ := exists_of_bind_ok hOk
      obtain ⟨found, hFound, hMoves⟩ := exists_closeReference settings closing hNested first hUpper
      cases hFound.symm.trans hMiddle
      have hExists : ∀ {position : ScopeId}, (∃ entry, table.scopes[position]? = some entry) →
          ∃ entry, middle.scopes[position]? = some entry := by
        rintro position ⟨entry, hEntry⟩
        obtain ⟨after, hAfter, -⟩ := hMoves.spares.scope position entry hEntry
        exact ⟨after, hAfter⟩
      refine ih hNodup (hStep table middle first hNested hOwner (hAwaits first List.mem_cons_self)
        hUpper h hMoves hMiddle) hMoves.nested (hExists hOwner) (fun id hId reference hReference => ?_)
        (by rw [hMoves.upper?]; exact hUpper) hRest
      rw [hMoves.spares.reference id fun hEq => hFirst (hEq ▸ hId)] at hReference
      obtain ⟨hUnresolved, hHome⟩ := hAwaits id (List.mem_cons_of_mem _ hId) reference hReference
      exact ⟨hUnresolved, hExists hHome⟩

/-- What waits in a scope has not been resolved, by the account that is kept of references.
-/
theorem Accounted.awaits_of_mem (h : Accounted settings table) {entry : Scope}
    (hEntry : table.scopes[scope]? = some entry) (hWaits : id ∈ entry.waiting) :
    Awaits table id := by
  intro reference hReference
  obtain ⟨other, passed, rest, course, unresolved, -⟩ :=
    (h id).exists_of_waits hEntry (Array.mem_toList_iff.2 hWaits)
  cases hReference.symm.trans course.found
  exact ⟨unresolved, _, Array.getElem?_eq_getElem course.placed⟩

/-- What the start of closing a scope keeps, and the rest with each reference that waits. -/
theorem awaited_close {P : SymbolTable → Prop}
    (hStart : ∀ middle, SameMarks table middle → Upholds table middle → P middle)
    (hStep : ∀ (closing : Closing) (table next : SymbolTable) (id : ReferenceId),
      Nested table stack → (∃ owner, table.scopes[scope]? = some owner) → Awaits table id →
      (∀ upper ∈ table.upper? scope, upper ∈ stack) → P table → Moves id stack table next →
      table.closeReference settings scope closing id = .ok next → P next)
    (hAccounted : Accounted settings table) (hNested : Nested table (scope :: stack))
    (hOk : table.close settings scope = .ok next) : P next := by
  obtain ⟨entry, middle, hFrom⟩ := exists_closesFrom hNested
  have hAwaits : ∀ id ∈ entry.waiting.toList, Awaits table id := fun id hId =>
    hAccounted.awaits_of_mem hFrom.found (Array.mem_toList_iff.1 hId)
  have hNodup : entry.waiting.toList.Nodup := List.nodup_iff_count_le_one.2 fun id => by
    simpa using count_waiting_le_one hAccounted hFrom.found id
  rw [hFrom.close] at hOk
  have hMarks : SameMarks table middle :=
    hFrom.cases (fun _ => sameMarks_defineImplicit table scope) (.refl table)
  have hHead : Upholds middle (middle.closeHead scope) := .modifyScope fun _ => rfl
  have hHeld : ∀ position entry, table.scopes[position]? = some entry →
      ∃ after, (middle.closeHead scope).scopes[position]? = some after :=
    fun position entry hEntry => by
      obtain ⟨after, hAfter, -⟩ := hFrom.closesHead.scope position entry hEntry
      exact ⟨after, hAfter⟩
  have hLast : P (middle.closeHead scope) :=
    hStart _ (hMarks.trans (sameMarks_of_eq rfl)) ((Upholds.of_advances hFrom.advances).trans hHead)
  refine awaited_induction (hStep _) entry.waiting.toList hNodup hLast hFrom.closesHead.nested
    (hHeld scope entry hFrom.found) (fun id hId reference hReference => ?_) hFrom.upper hOk
  have hSame : middle.references[id]? = some reference := hReference
  rw [hFrom.advances.references] at hSame
  obtain ⟨hUnresolved, home, hHome⟩ := hAwaits id hId reference hSame
  exact ⟨hUnresolved, hHeld _ home hHome⟩

/-- A scope that closes leaves all notes right. -/
theorem allTallied_close (h : AllTallied table) (hAccounted : Accounted settings table)
    (hNested : Nested table (scope :: stack)) (hOk : table.close settings scope = .ok next) :
    AllTallied next :=
  awaited_close (fun _ => h.of_upholds)
    (fun _ _ _ _ hNested hOwner hAwaits hUpper h _ hOk =>
      allTallied_closeReference h hNested hOwner hAwaits hUpper hOk) hAccounted hNested hOk

/-- As a scope closes, what has been resolved before stays. -/
theorem upholds_close (hAccounted : Accounted settings table)
    (hNested : Nested table (scope :: stack)) (hOk : table.close settings scope = .ok next) :
    Upholds table next :=
  awaited_close (fun _ _ hUpholds => hUpholds)
    (fun _ _ _ _ _ _ hAwaits _ hUpholds hMoves _ =>
      hUpholds.trans (.of_spares hMoves.spares hAwaits)) hAccounted hNested hOk

/-- Every event of a walk upholds what the table says so far. -/
theorem upholds_apply (hNested : Nested table table.stack) (hAccounted : Accounted settings table)
    (hOk : table.apply settings event = .ok next) : Upholds table next := by
  by_cases hLeave : ∃ block, event = .leave block
  · obtain ⟨block, rfl⟩ := hLeave
    obtain ⟨found, hFound, -, -, -, hUpholds⟩ := exists_leaveAll settings
      (P := fun later => Accounted settings later ∧ Upholds table later)
      (fun _ _ hTable hPlaced => ⟨accounted_pop hTable.1 hPlaced,
        hTable.2.trans (.of_eq rfl rfl rfl)⟩)
      (fun _ _ _ _ hTable hNested hClose => ⟨accounted_close hTable.1 hNested hClose,
        hTable.2.trans (upholds_close hTable.1 hNested hClose)⟩)
      hNested ⟨hAccounted, .refl table⟩ block
    cases hFound.symm.trans hOk
    exact hUpholds
  · exact .of_spares (spares_apply hNested (fun block hEq => hLeave ⟨block, hEq⟩) hOk)
      (awaits_size table)

/-- What a walk resolves it does not touch again. -/
theorem upholds_run {events : List Event} (hNested : Nested table table.stack)
    (hAccounted : Accounted settings table) (hOk : table.run settings events = .ok next) :
    Upholds table next :=
  (run_induction (P := fun later => Accounted settings later ∧ Upholds table later)
    (fun _ _ _ hNested hTable hApply => ⟨accounted_apply hTable.1 hNested hApply,
      hTable.2.trans (upholds_apply hNested hTable.1 hApply)⟩)
    hNested ⟨hAccounted, .refl table⟩ hOk).2.2

/-- Every event of a walk leaves what is noted so. -/
theorem allTallied_apply (hNested : Nested table table.stack)
    (h : Accounted settings table ∧ AllTallied table)
    (hOk : table.apply settings event = .ok next) :
    Accounted settings next ∧ AllTallied next := by
  refine ⟨accounted_apply h.1 hNested hOk, ?_⟩
  by_cases hLeave : ∃ block, event = .leave block
  · obtain ⟨block, rfl⟩ := hLeave
    obtain ⟨found, hFound, -, -, hTallied⟩ := exists_leaveAll settings
      (P := fun table => Accounted settings table ∧ AllTallied table)
      (fun _ _ hTable hPlaced => ⟨accounted_pop hTable.1 hPlaced,
        hTable.2.of_upholds (sameMarks_of_eq rfl) (.of_eq rfl rfl rfl)⟩)
      (fun _ _ _ _ hTable hNested hClose => ⟨accounted_close hTable.1 hNested hClose,
        allTallied_close hTable.2 hTable.1 hNested hClose⟩) hNested h block
    cases hFound.symm.trans hOk
    exact hTallied.2
  · exact h.2.of_upholds (sameMarks_apply (fun block hEq => hLeave ⟨block, hEq⟩) hOk)
      (upholds_apply hNested h.1 hOk)

/-- At the end of an analysis all that is noted of variables is so of their references. -/
theorem allTallied_of_analyze_eq_ok (hOk : analyze settings tree = .ok table) :
    AllTallied table := by
  obtain ⟨-, -, -, hRun⟩ := spec_of_analyze_eq_ok hOk
  exact (run_induction (P := fun table => Accounted settings table ∧ AllTallied table)
    (fun _ _ _ hNested hTable hApply => allTallied_apply hNested hTable hApply)
    nested_empty ⟨accounted_empty, allTallied_empty⟩ hRun).2.2

end Scoping.SymbolTable
