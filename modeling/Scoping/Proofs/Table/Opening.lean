import Scoping.Proofs.Table.Declaring

namespace Scoping

theorem exists_of_bind_ok {ε α β : Type} {x : Except ε α} {f : α → Except ε β} {b : β}
    (h : x >>= f = .ok b) : ∃ a, x = .ok a ∧ f a = .ok b := by
  cases x with
  | error failure => cases h
  | ok a => exact ⟨a, rfl, h⟩

/-- Two steps fail in the first of them or, once that has succeeded, in the second. -/
theorem cases_of_bind_error {ε α β : Type} {x : Except ε α} {f : α → Except ε β} {failure : ε}
    (h : x >>= f = .error failure) :
    x = .error failure ∨ ∃ a, x = .ok a ∧ f a = .error failure := by
  cases x with
  | error found => exact .inl (congrArg Except.error (Except.error.inj h))
  | ok a => exact .inr ⟨a, rfl, h⟩

namespace SymbolTable

variable {table next : SymbolTable} {stack : List ScopeId} {scope : ScopeId}

theorem lt_of_getElem?_scopes {entry : Scope} (h : table.scopes[scope]? = some entry) :
    scope < table.scopes.size :=
  (Array.getElem?_eq_some_iff.1 h).1

theorem Nested.lt_of_mem (h : Nested table stack) (hScope : scope ∈ stack) :
    scope < table.scopes.size := by
  obtain ⟨entry, hEntry⟩ := h.exists_of_mem hScope
  exact lt_of_getElem?_scopes hEntry

theorem getElem?_pushScope_of_some {fresh entry : Scope}
    (h : table.scopes[scope]? = some entry) :
    (table.pushScope fresh).scopes[scope]? = some entry := by
  rw [getElem?_pushScope, if_neg (Nat.ne_of_lt (lt_of_getElem?_scopes h)), h]

theorem enclosing_pushScope {fresh : Scope} (hScope : scope < table.scopes.size) :
    (table.pushScope fresh).enclosing scope = table.enclosing scope := by
  refine enclosing_congr fun position hPosition => ?_
  have hNe : position ≠ table.scopes.size := Nat.ne_of_lt (Nat.lt_of_le_of_lt hPosition hScope)
  simp only [upper?, getElem?_pushScope, if_neg hNe]

/-- A scope that comes into a table has its place among the others: inside one that is
there, if any, and without names. -/
theorem Placed.pushScope (h : Placed table) {fresh : Scope}
    (hUpper : ∀ upper ∈ fresh.upper, ∃ owner, table.scopes[upper]? = some owner)
    (hWith : fresh.kind = .withBody → fresh.dynamic = true)
    (hCatalog : fresh.catalog = ((#[], []), (#[], [])))
    (hHolder : fresh.variableScope = table.scopes.size ∨
      ∃ upper ∈ fresh.upper, fresh.variableScope = table.variableScope upper) :
    Placed (table.pushScope fresh) where
  upper_lt := fun position upper hPosition => by
    obtain ⟨entry, hEntry, hEq⟩ := upper?_eq_some.1 hPosition
    rcases cases_of_pushScope hEntry with ⟨rfl, rfl⟩ | hEntry
    · obtain ⟨owner, hOwner⟩ := hUpper upper hEq
      exact lt_of_getElem?_scopes hOwner
    · exact h.upper_lt position upper (upper?_eq_some.2 ⟨entry, hEntry, hEq⟩)
  with_dynamic := fun position entry hEntry hKind => by
    rcases cases_of_pushScope hEntry with ⟨rfl, rfl⟩ | hEntry
    · exact hWith hKind
    · exact h.with_dynamic position entry hEntry hKind
  holder := fun position entry hEntry => by
    rcases cases_of_pushScope hEntry with ⟨rfl, rfl⟩ | hOld
    -- A `var` in the new scope stays in it, or goes where it would in the scope around.
    · rcases hHolder with hSelf | ⟨upper, hMem, hEq⟩
      · rw [hSelf]
        exact mem_enclosing_self
      · obtain ⟨owner, hOwner⟩ := hUpper upper hMem
        have hLt := lt_of_getElem?_scopes hOwner
        rw [enclosing_of_upper ((upper?_of_getElem? hEntry).trans hMem) hLt,
          enclosing_pushScope hLt, hEq, variableScope_of_getElem? hOwner]
        exact List.mem_cons_of_mem _ (h.holder upper owner hOwner)
    · rw [enclosing_pushScope (lt_of_getElem?_scopes hOld)]
      exact h.holder position entry hOld
  catalogs := fun position entry hEntry => by
    rcases cases_of_pushScope hEntry with ⟨rfl, rfl⟩ | hEntry
    · exact catalogs_of_empty hCatalog
    · exact (h.catalogs position entry hEntry).congr rfl

/-- A scope that opens inside the current one is the innermost open scope. -/
theorem Nested.pushScope (h : Nested table stack) {fresh : Scope}
    (hUpper : fresh.upper = stack.head?) (hPending : fresh.pending = some #[])
    (hWith : fresh.kind = .withBody → fresh.dynamic = true)
    (hCatalog : fresh.catalog = ((#[], []), (#[], [])))
    (hHolder : fresh.variableScope = table.scopes.size ∨
      ∃ upper ∈ stack.head?, fresh.variableScope = table.variableScope upper) :
    Nested (table.pushScope fresh) (table.scopes.size :: stack) where
  toPlaced := h.toPlaced.pushScope
    (fun _ hMem => h.exists_of_mem (List.mem_of_mem_head? (hUpper ▸ hMem))) hWith hCatalog
    (hUpper ▸ hHolder)
  chain := fun position rest hSuffix => by
    rcases List.suffix_cons_iff.1 hSuffix with hAll | hSuffix
    · obtain ⟨rfl, rfl⟩ := List.cons.inj hAll
      exact ⟨fresh, by rw [getElem?_pushScope, if_pos rfl], hUpper⟩
    · obtain ⟨entry, hEntry, hEq⟩ := h.chain position rest hSuffix
      exact ⟨entry, getElem?_pushScope_of_some hEntry, hEq⟩
  open_iff := fun position entry hEntry => by
    rcases cases_of_pushScope hEntry with ⟨rfl, rfl⟩ | hEntry
    · simp [hPending]
    · have hNe := Nat.ne_of_lt (lt_of_getElem?_scopes hEntry)
      simpa [hNe] using h.open_iff position entry hEntry

theorem addScope_fst (table : SymbolTable) (kind : ScopeKind) (block : Node) (strict : Bool) :
    (table.addScope kind block strict).1 = table.scopes.size := by
  cases hHead : table.stack.head? <;> simp only [addScope, hHead]

theorem addScope_snd (table : SymbolTable) (kind : ScopeKind) (block : Node) (strict : Bool) :
    (table.addScope kind block strict).2 =
      match table.stack.head? with
      | some upper =>
          (table.pushScope (table.freshScope kind block strict)).modifyScope upper fun entry =>
            { entry with children := entry.children.push table.scopes.size }
      | none => table.pushScope (table.freshScope kind block strict) := by
  cases hHead : table.stack.head? <;> simp only [addScope, hHead]

theorem Nested.pushFresh (h : Nested table table.stack) (kind : ScopeKind) (block : Node)
    (strict : Bool) :
    Nested (table.pushScope (table.freshScope kind block strict))
      (table.scopes.size :: table.stack) := by
  refine h.pushScope rfl rfl (fun hKind => decide_eq_true hKind) rfl ?_
  by_cases hHolds : kind.holdsVars = true
  · exact .inl (if_pos hHolds)
  · simp only [freshScope, hHolds, Bool.false_eq_true, ↓reduceIte]
    cases hHead : table.stack.head? with
    | none => exact .inl rfl
    | some upper => exact .inr ⟨upper, rfl, rfl⟩

/-- After the push, opening a scope only notes it as a child of the current one. -/
theorem advances_addScope (h : Nested table table.stack) (kind : ScopeKind) (block : Node)
    (strict : Bool) :
    Advances (table.scopes.size :: table.stack)
      (table.pushScope (table.freshScope kind block strict))
      (table.addScope kind block strict).2 := by
  rw [addScope_snd]
  have hPush := h.pushFresh kind block strict
  split
  · next upper hHead =>
      have hMem : upper ∈ table.scopes.size :: table.stack :=
        List.mem_cons_of_mem _ (List.mem_of_mem_head? hHead)
      exact advances_of_sameFrame hPush hMem
        (fun _ => ⟨rfl, rfl, rfl, rfl, rfl, rfl, rfl, id⟩) fun _ => rfl
  · exact .refl hPush

theorem advances_declareOwn (h : Nested table stack) (hScope : scope ∈ stack) {kind : ScopeKind}
    {block : Node} (hOk : table.declareOwn scope kind block = .ok next) :
    Advances stack table next := by
  unfold declareOwn at hOk
  split at hOk
  · split at hOk
    · cases hOk
      exact .refl h
    · cases hOk
      exact (advances_declare h hScope "arguments").1
  · obtain ⟨name, -, hNext⟩ := exists_of_bind_ok hOk
    cases hNext
    exact advances_define h hScope _ _
  · cases hOk
    exact .refl h

/-- Opening a scope is deciding whether it is strict, and declaring what it has
from the start. Only a global scope that is not the outermost one fails then. -/
theorem enter_eq (settings : Settings) (table : SymbolTable) (kind : ScopeKind) (block : Node)
    (inMethod : Bool) :
    table.enter settings kind block inMethod =
      table.opensStrict settings kind block inMethod >>= fun strict =>
        (table.addScope kind block strict).2.declareOwn table.scopes.size kind block >>= fun own =>
          if kind = .global ∧ table.stack ≠ [] then .error .nestedGlobal
          else .ok { own with
            globalScope := if kind = .global then some table.scopes.size else own.globalScope
            stack := table.scopes.size :: own.stack } := by
  simp only [enter, addScope_fst]
  refine bind_congr fun strict => bind_congr fun own => ?_
  by_cases hGlobal : kind = .global
  · cases table.stack <;> simp [hGlobal] <;> rfl
  · simp only [hGlobal, false_and, if_false]
    rfl

/-- What opening a scope does, once it succeeds. -/
theorem enter_eq_ok {settings : Settings} {kind : ScopeKind} {block : Node} {inMethod : Bool}
    (hOk : table.enter settings kind block inMethod = .ok next) :
    ∃ strict own, table.opensStrict settings kind block inMethod = .ok strict ∧
      (table.addScope kind block strict).2.declareOwn table.scopes.size kind block = .ok own ∧
      (kind = .global → table.stack = []) ∧
      next = { own with
        globalScope := if kind = .global then some table.scopes.size else own.globalScope
        stack := table.scopes.size :: own.stack } := by
  rw [enter_eq] at hOk
  obtain ⟨strict, hStrict, hOpened⟩ := exists_of_bind_ok hOk
  obtain ⟨own, hOwn, hPushed⟩ := exists_of_bind_ok hOpened
  split at hPushed
  · cases hPushed
  · next hOutermost =>
      cases hPushed
      exact ⟨strict, own, hStrict, hOwn,
        fun hGlobal => Decidable.not_not.1 fun hOpen => hOutermost ⟨hGlobal, hOpen⟩, rfl⟩

/-- A scope that opens is the next in number and lies inside the current one. -/
theorem nested_enter (h : Nested table table.stack) {settings : Settings} {kind : ScopeKind}
    {block : Node} {inMethod : Bool} (hOk : table.enter settings kind block inMethod = .ok next) :
    Nested next next.stack ∧ (∀ moved, Spares moved table next) ∧
      next.references = table.references ∧ next.stack = table.scopes.size :: table.stack := by
  obtain ⟨strict, own, -, hOwn, -, rfl⟩ := enter_eq_ok hOk
  have hAdd := advances_addScope h kind block strict
  have hDeclare := advances_declareOwn hAdd.nested List.mem_cons_self hOwn
  have hBoth := hAdd.trans hDeclare
  have hStack : own.stack = table.stack := hBoth.stack
  simp only [hStack]
  refine ⟨hBoth.nested.congr rfl fun _ before hBefore => ⟨before, hBefore, rfl⟩, fun moved => ?_,
    hBoth.references, trivial⟩
  exact ((spares_pushScope rfl rfl rfl).trans (hBoth.spares moved)).trans (spares_of_eq rfl rfl rfl)

/-- A use is recorded as the next reference, which waits in its own scope. -/
theorem record_eq_ok {use : Use} (hOk : table.record scope use = .ok next) :
    (use.identifier.isIdentifier = false ∧ next = table) ∨
      (use.identifier.isIdentifier = true ∧
        (∃ entry, table.scopes[scope]? = some entry ∧ entry.pending.isSome = true) ∧
        next = SymbolTable.modifyScope
          { table with references := table.references.push { use with scope } } scope
          fun entry => { entry with
            references := entry.references.push table.references.size
            pending := entry.pending.map fun pending => pending.push table.references.size }) := by
  unfold record at hOk
  split at hOk
  · next hIdentifier =>
      split at hOk
      · cases hOk
      · next pending hPending =>
          cases hOk
          obtain ⟨entry, hEntry, hSome⟩ := Option.bind_eq_some_iff.1 hPending
          exact .inr ⟨hIdentifier, ⟨entry, hEntry, by rw [hSome]; rfl⟩, rfl⟩
  · next hIdentifier =>
      cases hOk
      exact .inl ⟨by simpa using hIdentifier, rfl⟩

/-- Recording a use moves none of the references there are. -/
theorem spares_record (h : Nested table stack) {use : Use}
    (hOk : table.record scope use = .ok next) :
    Nested next stack ∧ Spares table.references.size table next ∧ next.stack = table.stack := by
  rcases record_eq_ok hOk with ⟨-, rfl⟩ | ⟨-, ⟨entry, hEntry, hOpen⟩, rfl⟩
  · exact ⟨h, .refl _ _, rfl⟩
  · have hPush : Nested { table with references := table.references.push { use with scope } }
        stack := h.congr rfl fun _ before hBefore => ⟨before, hBefore, rfl⟩
    refine ⟨hPush.modifyScope (fun _ => ⟨rfl, rfl, rfl, rfl, id⟩) (fun _ => by simp)
      fun _ hCatalogs => hCatalogs, spares_pushReference.trans (spares_modifyScope ?_), rfl⟩
    intro before hBefore
    cases hEntry.symm.trans hBefore
    obtain ⟨pending, hPending⟩ := Option.isSome_iff_exists.1 hOpen
    refine ⟨rfl, rfl, rfl, rfl, by simp, fun id hId => count_push_of_ne hId, fun id hId => ?_,
      fun _ _ => rfl, fun hNone => by simp [hPending] at hNone⟩
    simp only [Scope.waiting, hPending, Option.map_some, Option.getD_some, count_push_of_ne hId]

end SymbolTable

end Scoping
