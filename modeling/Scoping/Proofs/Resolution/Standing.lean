import Scoping.Proofs.Resolution.Course

namespace Scoping.SymbolTable

/-- What a table holds of a reference between two events of a walk. Nothing of
one that is still to be recorded. One that waits has passed through the scopes
below that in which it waits. Of one that is dealt with, the table shows the
variable that it has found, or that it was lost. -/
inductive Standing (settings : Settings) (table : SymbolTable) (id : ReferenceId) : Prop where
  | unknown (found : table.references[id]? = none) (foot : Footprint table id [] [] [] [])
  | waiting (reference : Reference) (passed : List ScopeId) (scope : ScopeId)
      (rest : List ScopeId) (course : Course settings table id reference passed (scope :: rest))
      (unresolved : reference.resolved = none)
      (foot : Footprint table id [reference.scope] [scope] passed [])
  | resolved (reference : Reference) (passed : List ScopeId) (scope : ScopeId)
      (rest : List ScopeId) (course : Course settings table id reference passed (scope :: rest))
      (owner : Scope) (at_owner : table.scopes[scope]? = some owner)
      (closed : owner.pending = none) (var : VariableId)
      (binds : table.verdict settings scope id = .binds var)
      (resolved : reference.resolved = some var)
      (foot : Footprint table id [reference.scope] [] passed [var])
  | lost (reference : Reference) (passed hidden : List ScopeId)
      (course : Course settings table id reference passed hidden)
      (stops : ∀ scope ∈ hidden.head?, table.verdict settings scope id = .stop ∧
        ∃ owner, table.scopes[scope]? = some owner ∧ owner.pending = none)
      (unresolved : reference.resolved = none)
      (foot : Footprint table id [reference.scope] [] (passed ++ hidden) [])

/-- A reference that a scope has let go of while it closes, and that is still
to be dealt with. -/
structure Released (settings : Settings) (table : SymbolTable) (scope : ScopeId)
    (id : ReferenceId) (reference : Reference) (passed rest : List ScopeId) : Prop where
  course : Course settings table id reference passed (scope :: rest)
  unresolved : reference.resolved = none
  foot : Footprint table id [reference.scope] [] passed []

variable {settings : Settings} {table next : SymbolTable} {stack : List ScopeId}
  {scope : ScopeId} {id moved : ReferenceId} {reference : Reference} {passed rest : List ScopeId}

theorem Footprint.congr {recorded waiting through through' : List ScopeId}
    {listed : List VariableId} (h : Footprint table id recorded waiting through listed)
    (hPerm : through.Perm through') : Footprint table id recorded waiting through' listed :=
  { h with through := fun scope => (h.through scope).trans (hPerm.count_eq scope) }

/-- What happens to another reference changes nothing for this one. -/
theorem Course.of_spares (h : Course settings table id reference passed rest)
    (hPlaced : Placed table) (hSpares : Spares moved table next) (hId : id ≠ moved) :
    Course settings next id reference passed rest :=
  h.of_keeps hPlaced hSpares.keeps ((hSpares.reference id hId).trans h.found) rfl rfl rfl

/-- A reference that stays where it is keeps its standing. -/
theorem Standing.of_keeps (h : Standing settings table id) (hPlaced : Placed table)
    (hKeeps : Keeps table next) (hReference : next.references[id]? = table.references[id]?)
    (hFoot : ∀ {recorded waiting through : List ScopeId} {listed : List VariableId},
      Footprint table id recorded waiting through listed →
        Footprint next id recorded waiting through listed) : Standing settings next id := by
  have hCourse : ∀ {reference passed rest}, Course settings table id reference passed rest →
      Course settings next id reference passed rest := fun course =>
    course.of_keeps hPlaced hKeeps (hReference.trans course.found) rfl rfl rfl
  have hVerdict : ∀ {reference passed rest scope owner},
      Course settings table id reference passed rest → table.scopes[scope]? = some owner →
        owner.pending = none →
          next.verdict settings scope id = table.verdict settings scope id :=
    fun course hOwner hClosed => verdict_of_keeps hPlaced hKeeps hOwner hClosed course.found
      (hCourse course).found rfl
  cases h with
  | unknown found foot => exact .unknown (hReference.trans found) (hFoot foot)
  | waiting reference passed scope rest course unresolved foot =>
      exact .waiting reference passed scope rest (hCourse course) unresolved (hFoot foot)
  | resolved reference passed scope rest course owner at_owner closed var binds resolved foot =>
      obtain ⟨later, hLater, hKept⟩ := hKeeps.scope scope owner at_owner
      exact .resolved reference passed scope rest (hCourse course) later hLater
        (hKept.closed closed).1 var ((hVerdict course at_owner closed).trans binds) resolved
        (hFoot foot)
  | lost reference passed hidden course stops unresolved foot =>
      refine .lost reference passed hidden (hCourse course) (fun scope hHead => ?_) unresolved
        (hFoot foot)
      obtain ⟨hStop, owner, hOwner, hClosed⟩ := stops scope hHead
      obtain ⟨later, hLater, hKept⟩ := hKeeps.scope scope owner hOwner
      exact ⟨(hVerdict course hOwner hClosed).trans hStop, later, hLater, (hKept.closed hClosed).1⟩

theorem Standing.of_spares (h : Standing settings table id) (hPlaced : Placed table)
    (hSpares : Spares moved table next) (hId : id ≠ moved) : Standing settings next id :=
  h.of_keeps hPlaced hSpares.keeps (hSpares.reference id hId) fun foot => foot.of_spares hSpares hId

theorem Standing.of_advances (h : Standing settings table id) (hPlaced : Placed table)
    (hAdvances : Advances stack table next) : Standing settings next id :=
  h.of_spares hPlaced (hAdvances.spares (id + 1)) (Nat.ne_of_lt (Nat.lt_succ_self id))

theorem Released.of_spares (h : Released settings table scope id reference passed rest)
    (hPlaced : Placed table) (hSpares : Spares moved table next) (hId : id ≠ moved) :
    Released settings next scope id reference passed rest :=
  ⟨h.course.of_spares hPlaced hSpares hId, h.unresolved, h.foot.of_spares hSpares hId⟩

theorem exists_of_verdict_binds {var : VariableId}
    (h : table.verdict settings scope id = .binds var) :
    ∃ reference entry, table.references[id]? = some reference ∧
      table.lookup? scope reference.identifier.name = some var ∧
      table.variables[var]? = some entry := by
  unfold verdict at h
  split at h
  · next owner reference hOwner hReference =>
      refine ⟨reference, ?_⟩
      cases hOwn : table.ownVariable? scope reference.identifier.name with
      | none =>
          simp only [hOwn] at h
          repeat (split at h; · cases h)
          cases h
      | some own =>
          obtain ⟨found, entry⟩ := own
          obtain ⟨hLookup, hEntry⟩ := ownVariable?_eq_some.1 hOwn
          refine ⟨entry, hReference, ?_⟩
          have hSame : found = var := by
            simp only [hOwn] at h
            split at h
            · cases h
            · split at h
              · cases h
              · split at h
                · split at h <;> cases h
                  rfl
                · split at h <;> cases h
                  rfl
          exact hSame ▸ ⟨hLookup, hEntry⟩
  · cases h

/-- A closed scope that binds a reference resolves it. -/
theorem Released.resolve (h : Released settings table scope id reference passed rest)
    (hNested : Nested table stack) {owner : Scope} (hOwner : table.scopes[scope]? = some owner)
    (hClosed : owner.pending = none) {var : VariableId}
    (hVerdict : table.verdict settings scope id = .binds var) :
    Standing settings (table.resolve scope id var) id := by
  obtain ⟨_, entry, hFound, -, hEntry⟩ := exists_of_verdict_binds hVerdict
  cases h.course.found.symm.trans hFound
  have hMoves := moves_resolve hNested scope id var
  have hKeeps := hMoves.spares.keeps
  have hAfter : (table.resolve scope id var).references[id]? = some
      { reference with
        resolved := some var
        inDeadZone := table.isInDeadZone scope id reference entry } := by
    simp [SymbolTable.resolve, h.course.found, hEntry, modifyVariable]
  obtain ⟨later, hLater, hKept⟩ := hKeeps.scope scope owner hOwner
  refine .resolved _ passed scope rest
    (h.course.of_keeps hNested.toPlaced hKeeps hAfter rfl rfl rfl) later hLater
    (hKept.closed hClosed).1 var ?_ rfl (h.foot.resolve h.course.found hEntry)
  rw [verdict_of_keeps hNested.toPlaced hKeeps hOwner hClosed h.course.found hAfter rfl]
  exact hVerdict

/-- A closed scope that stops a reference loses it in all the scopes around. -/
theorem Released.abandon (h : Released settings table scope id reference passed rest)
    (hNested : Nested table stack) {owner : Scope} (hOwner : table.scopes[scope]? = some owner)
    (hClosed : owner.pending = none) (hVerdict : table.verdict settings scope id = .stop) :
    Standing settings (table.abandon scope id) id := by
  have hMoves := moves_abandon hNested scope id
  have hKeeps := hMoves.spares.keeps
  have hSame : (table.abandon scope id).references[id]? = some reference := by
    rw [references_abandon, h.course.found]
  have hRest : table.enclosing scope = scope :: rest := enclosing_of_append h.course.enclosing
  obtain ⟨later, hLater, hKept⟩ := hKeeps.scope scope owner hOwner
  refine .lost reference passed (scope :: rest)
    (h.course.of_keeps hNested.toPlaced hKeeps hSame rfl rfl rfl) (fun head hHead => ?_)
    h.unresolved ((h.foot.abandon fun position hMem => ?_).congr ?_)
  · cases Option.mem_some_iff.1 hHead
    refine ⟨?_, later, hLater, (hKept.closed hClosed).1⟩
    rw [verdict_of_keeps hNested.toPlaced hKeeps hOwner hClosed h.course.found hSame rfl]
    exact hVerdict
  · exact Nat.lt_of_le_of_lt (le_of_mem_enclosing hMem) (lt_of_getElem?_scopes hOwner)
  · rw [hRest]
    exact ((List.reverse_perm _).append_right passed).trans List.perm_append_comm

theorem upper?_of_course (hPlaced : Placed table)
    (h : Course settings table id reference passed (scope :: rest)) :
    table.upper? scope = rest.head? :=
  upper?_of_enclosing hPlaced.upper_lt (enclosing_of_append h.enclosing)

/-- A closed scope that lets a reference out hands it to the scope around, where
it waits. Past the outermost scope it is lost. -/
theorem Released.delegate (h : Released settings table scope id reference passed rest)
    (hNested : Nested table stack) {owner : Scope} (hOwner : table.scopes[scope]? = some owner)
    (hClosed : owner.pending = none) (hVerdict : table.verdict settings scope id = .outward)
    (hUpper : ∀ upper ∈ table.upper? scope, upper ∈ stack)
    (hOk : (if table.taints settings scope then
        table.modifyReference id fun reference => { reference with tainted := true }
      else table).delegate scope id = .ok next) :
    Standing settings next id := by
  obtain ⟨marked, hMarked⟩ : ∃ marked, marked = if table.taints settings scope then
      table.modifyReference id fun reference => { reference with tainted := true }
    else table := ⟨_, rfl⟩
  rw [← hMarked] at hOk
  have hMark : Moves id stack table marked ∧ Footprint marked id [reference.scope] [] passed [] ∧
      marked.scopes = table.scopes ∧ marked.references[id]? = some
        { reference with tainted := reference.tainted || table.taints settings scope } := by
    rw [hMarked]
    split
    · next hTaints =>
        exact ⟨moves_modifyReference hNested id fun _ => rfl, h.foot.modifyReference _ _, rfl, by
          simp [h.course.found, hTaints]⟩
    · next hNone =>
        rw [Bool.not_eq_true] at hNone
        exact ⟨⟨.refl hNested, .refl _ _, .refl _⟩, h.foot, rfl, by simp [h.course.found, hNone]⟩
  obtain ⟨hMoves, hFoot, hScopes, hReference⟩ := hMark
  obtain ⟨found, hFound, hRest⟩ := exists_delegate hMoves.nested id
    fun upper hMem => hUpper upper (hMoves.upper? scope ▸ hMem)
  cases hFound.symm.trans hOk
  rw [← references_delegate hOk] at hReference
  have hCourse := h.course.advance hNested.toPlaced (hMoves.trans hRest).spares.keeps hReference
    rfl rfl hOwner hClosed hVerdict rfl
  have hNext := (hFoot.delegate (hScopes ▸ hOwner) hOk).congr
    (show ([scope] ++ passed).Perm (passed ++ [scope]) from List.perm_append_comm)
  rw [hMoves.upper?, upper?_of_course hNested.toPlaced h.course] at hNext
  cases rest with
  | nil =>
      refine .lost _ _ [] hCourse (fun _ hHead => nomatch hHead) h.unresolved ?_
      simpa using hNext
  | cons upper rest => exact .waiting _ _ upper rest hCourse h.unresolved (by simpa using hNext)

/-- Closing a scope deals with each reference that it has released. -/
theorem Released.closeReference (h : Released settings table scope id reference passed rest)
    (hNested : Nested table stack) {owner : Scope} (hOwner : table.scopes[scope]? = some owner)
    (hClosed : owner.pending = none) (hUpper : ∀ upper ∈ table.upper? scope, upper ∈ stack)
    (hOk : table.closeReference settings scope (owner.closing settings) id = .ok next) :
    Standing settings next id := by
  rw [closeReference_eq hNested.toPlaced hOwner h.course.found] at hOk
  cases hVerdict : table.verdict settings scope id with
  | binds var =>
      simp only [hVerdict, Except.ok.injEq] at hOk
      exact hOk ▸ h.resolve hNested hOwner hClosed hVerdict
  | outward =>
      simp only [hVerdict] at hOk
      exact h.delegate hNested hOwner hClosed hVerdict hUpper hOk
  | stop =>
      simp only [hVerdict, Except.ok.injEq] at hOk
      exact hOk ▸ h.abandon hNested hOwner hClosed hVerdict

end Scoping.SymbolTable
