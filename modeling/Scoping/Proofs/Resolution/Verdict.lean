import Scoping.Proofs.Table.Declaring
import Scoping.SymbolTable.Leave

/-! The meaning of a reference, read off a table by one walk outward. Nothing
here depends on the order in which scopes were opened and closed. -/

namespace Scoping

/-- A variable that the body of a function declares, for a reference that was
recorded before that body. The scope of a program is that of no function. -/
def Scope.HidesUntilBody (owner : Scope) (id : ReferenceId) (var : Variable) : Prop :=
  owner.kind = .function ∧ owner.block.kind ≠ "Program" ∧
    ∃ start, owner.bodyStart = some start ∧ id < start.references ∧ var.definitions ≠ #[] ∧
      ∀ definition ∈ var.definitions, start.definitions ≤ definition.serial

theorem Scope.declaresTooLate_iff {owner : Scope} {id : ReferenceId} {var : Variable} :
    owner.declaresTooLate id var = true ↔ owner.HidesUntilBody id var := by
  simp only [declaresTooLate, HidesUntilBody, Bool.and_eq_true, decide_eq_true_eq,
    Option.any_eq_true, Bool.not_eq_true', Array.all_eq_true_iff_forall_mem, and_assoc, ne_eq,
    ← Array.isEmpty_iff, Bool.not_eq_true]

instance (owner : Scope) (id : ReferenceId) (var : Variable) :
    Decidable (owner.HidesUntilBody id var) :=
  decidable_of_iff _ Scope.declaresTooLate_iff

/-- A variable that is defined, and by no `var`. -/
def Variable.IsFixed (var : Variable) : Prop :=
  var.definitions ≠ #[] ∧ ∀ definition ∈ var.definitions, definition.isVar = false

instance (var : Variable) : Decidable var.IsFixed :=
  inferInstanceAs (Decidable (_ ∧ _))

/-- What becomes of a reference in a scope that it comes to. -/
inductive Verdict where
  | binds (var : VariableId)
  | outward
  | stop
  deriving DecidableEq, Repr

namespace SymbolTable

/-- The variable of a name in a scope, with what the table holds about it. -/
def ownVariable? (table : SymbolTable) (scope : ScopeId) (name : String) :
    Option (VariableId × Variable) :=
  (table.lookup? scope name).bind fun var => table.variables[var]?.map fun entry => (var, entry)

/-- The rule of one scope, for analyses that are not optimistic. The body of a
`with` lets every name out. Another dynamic scope stops the search, but for the
global one, which stops it in a script unless the name is fixed there. Any other
scope binds the names that it declares, but for those that the body of a
function hides from its parameters. An optimistic analysis takes every scope for
a static one. -/
def verdict (settings : Settings) (table : SymbolTable) (scope : ScopeId) (id : ReferenceId) :
    Verdict :=
  match table.scopes[scope]?, table.references[id]? with
  | some owner, some reference =>
      let own := table.ownVariable? scope reference.identifier.name
      let pessimistic := settings.options.optimistic = false
      if owner.kind = .withBody ∧ pessimistic then .outward
      else if owner.dynamic = true ∧ owner.kind ≠ .global ∧ pessimistic then .stop
      else if owner.dynamic = true ∧ owner.kind = .global ∧ pessimistic ∧
          settings.isModule = false then
        match own with
        | some (var, entry) => if entry.IsFixed then .binds var else .stop
        | none => .stop
      else
        match own with
        | some (var, entry) => if owner.HidesUntilBody id entry then .outward else .binds var
        | none => .outward
  | _, _ => .stop

/-- The variable that a reference means, searched in one scope after another. -/
def meaning (settings : Settings) (table : SymbolTable) (id : ReferenceId) :
    List ScopeId → Option VariableId
  | [] => none
  | scope :: around =>
      match table.verdict settings scope id with
      | .binds var => some var
      | .outward => table.meaning settings id around
      | .stop => none

/-- A reference that leaves the body of a `with` is tainted, unless the analysis
is optimistic. -/
def taints (settings : Settings) (table : SymbolTable) (scope : ScopeId) : Bool :=
  table.scopes[scope]?.any fun entry => entry.kind = .withBody && !settings.options.optimistic

variable {settings : Settings} {table : SymbolTable} {id : ReferenceId}

theorem meaning_append_of_outward {passed rest : List ScopeId}
    (h : ∀ scope ∈ passed, table.verdict settings scope id = .outward) :
    table.meaning settings id (passed ++ rest) = table.meaning settings id rest := by
  induction passed with
  | nil => rfl
  | cons scope passed ih =>
      rw [List.cons_append, meaning, h scope List.mem_cons_self]
      exact ih fun inner hInner => h inner (List.mem_cons_of_mem _ hInner)

theorem ownVariable?_eq_some {scope : ScopeId} {name : String} {var : VariableId}
    {entry : Variable} :
    table.ownVariable? scope name = some (var, entry) ↔
      table.lookup? scope name = some var ∧ table.variables[var]? = some entry := by
  simp only [ownVariable?, Option.bind_eq_some_iff, Option.map_eq_some_iff, Prod.mk.injEq]
  constructor
  · rintro ⟨found, hFound, _, hEntry, rfl, rfl⟩
    exact ⟨hFound, hEntry⟩
  · rintro ⟨hFound, hEntry⟩
    exact ⟨var, hFound, entry, hEntry, rfl, rfl⟩

variable {scope : ScopeId} {owner : Scope} {reference : Reference}

/-- A scope that binds what it declares, as long as its body does not hide it. -/
theorem resolveOrDelegate_eq (hPlaced : Placed table) (hOwner : table.scopes[scope]? = some owner)
    (hReference : table.references[id]? = some reference) :
    table.resolveOrDelegate scope id =
      match table.ownVariable? scope reference.identifier.name with
      | some (var, entry) =>
          if owner.HidesUntilBody id entry then table.delegate scope id
          else .ok (table.resolve scope id var)
      | none => table.delegate scope id := by
  cases hLookup : table.lookup? scope reference.identifier.name with
  | none => simp [resolveOrDelegate, resolution?, ownVariable?, hReference, hLookup]
  | some var =>
      cases hVar : table.variables[var]? with
      | none => simp [resolveOrDelegate, resolution?, ownVariable?, hReference, hLookup, hVar]
      | some entry =>
          -- What a scope finds under a name is always its own.
          have hScope : entry.scope = scope := by
            obtain ⟨found, hFound, hOwn, -⟩ := hPlaced.exists_of_lookup? hLookup
            cases hFound.symm.trans hVar
            exact hOwn
          by_cases hHidden : owner.HidesUntilBody id entry
          · have hLate := Scope.declaresTooLate_iff.2 hHidden
            simp [resolveOrDelegate, resolution?, ownVariable?, hOwner, hReference, hLookup, hVar,
              hHidden, hLate, hScope]
          · have hLate : owner.declaresTooLate id entry = false :=
              Bool.eq_false_iff.2 fun h => hHidden (Scope.declaresTooLate_iff.1 h)
            simp [resolveOrDelegate, resolution?, ownVariable?, hOwner, hReference, hLookup, hVar,
              hHidden, hLate]

/-- The rule of a scope that is static, or taken for one. -/
theorem verdict_of_static (hOwner : table.scopes[scope]? = some owner)
    (hReference : table.references[id]? = some reference)
    (hWith : owner.kind = .withBody → owner.dynamic = true)
    (hStatic : owner.dynamic = false ∨ settings.options.optimistic = true) :
    table.verdict settings scope id =
      match table.ownVariable? scope reference.identifier.name with
      | some (var, entry) => if owner.HidesUntilBody id entry then .outward else .binds var
      | none => .outward := by
  have hNoWith : ¬ (owner.kind = .withBody ∧ settings.options.optimistic = false) := by
    rintro ⟨hKind, hPessimistic⟩
    rcases hStatic with h | h
    · simp [hWith hKind] at h
    · simp [hPessimistic] at h
  have hNoStop : ¬ (owner.dynamic = true ∧ owner.kind ≠ .global ∧
      settings.options.optimistic = false) := by
    rintro ⟨hDynamic, -, hPessimistic⟩
    rcases hStatic with h | h <;> simp_all
  have hNoGlobal : ¬ (owner.dynamic = true ∧ owner.kind = .global ∧
      settings.options.optimistic = false ∧ settings.isModule = false) := by
    rintro ⟨hDynamic, -, hPessimistic, -⟩
    rcases hStatic with h | h <;> simp_all
  simp only [verdict, hOwner, hReference, if_neg hNoWith, if_neg hNoStop, if_neg hNoGlobal]

theorem taints_of_getElem? (hOwner : table.scopes[scope]? = some owner) :
    table.taints settings scope = true ↔
      owner.kind = .withBody ∧ settings.options.optimistic = false := by
  simp [taints, hOwner]

theorem taints_of_static (hOwner : table.scopes[scope]? = some owner)
    (hWith : owner.kind = .withBody → owner.dynamic = true)
    (hStatic : owner.dynamic = false ∨ settings.options.optimistic = true) :
    table.taints settings scope = false := by
  rw [Bool.eq_false_iff, ne_eq, taints_of_getElem? hOwner]
  rintro ⟨hKind, hPessimistic⟩
  rcases hStatic with h | h
  · simp [hWith hKind] at h
  · simp [hPessimistic] at h

/-- The names that stay in a dynamic global scope are those that are fixed there. -/
theorem staysGlobal_eq {name : String} :
    table.staysGlobal settings scope name = true ↔ settings.isModule = true ∨
      ∃ var entry, table.ownVariable? scope name = some (var, entry) ∧ entry.IsFixed := by
  have hFixed : ∀ entry : Variable, (!entry.definitions.isEmpty &&
      !entry.definitions.any Definition.isVar) = true ↔ entry.IsFixed := fun entry => by
    simp only [Variable.IsFixed, Bool.and_eq_true, Bool.not_eq_true', ne_eq, ← Array.isEmpty_iff,
      Bool.not_eq_true, Array.any_eq_false']
  simp only [staysGlobal, Bool.or_eq_true, Option.any_eq_true, hFixed]
  refine or_congr Iff.rfl ?_
  constructor
  · rintro ⟨entry, hEntry, hIsFixed⟩
    obtain ⟨var, hLookup, hVar⟩ := Option.bind_eq_some_iff.1 hEntry
    exact ⟨var, entry, ownVariable?_eq_some.2 ⟨hLookup, hVar⟩, hIsFixed⟩
  · rintro ⟨var, entry, hOwn, hIsFixed⟩
    obtain ⟨hLookup, hVar⟩ := ownVariable?_eq_some.1 hOwn
    exact ⟨entry, Option.bind_eq_some_iff.2 ⟨var, hLookup, hVar⟩, hIsFixed⟩

theorem not_hidesUntilBody_of_global (hKind : owner.kind = .global) (entry : Variable) :
    ¬ owner.HidesUntilBody id entry := fun h => by
  have hFunction := h.1
  simp [hKind] at hFunction

/-- In a dynamic global scope of a script only fixed names are bound. -/
theorem verdict_of_dynamic_global (hOwner : table.scopes[scope]? = some owner)
    (hReference : table.references[id]? = some reference) (hKind : owner.kind = .global)
    (hDynamic : owner.dynamic = true) (hPessimistic : settings.options.optimistic = false) :
    table.verdict settings scope id =
      if settings.isModule = true then
        match table.ownVariable? scope reference.identifier.name with
        | some (var, _) => .binds var
        | none => .outward
      else
        match table.ownVariable? scope reference.identifier.name with
        | some (var, entry) => if entry.IsFixed then .binds var else .stop
        | none => .stop := by
  have hVisible := @not_hidesUntilBody_of_global id owner hKind
  by_cases hModule : settings.isModule = true
  · simp [verdict, hOwner, hReference, hKind, hPessimistic, hModule, hVisible]
  · simp [verdict, hOwner, hReference, hKind, hDynamic, hPessimistic, hModule]

theorem closeReference_byName (hReference : table.references[id]? = some reference) :
    table.closeReference settings scope .byName id =
      if table.staysGlobal settings scope reference.identifier.name then
        table.resolveOrDelegate scope id
      else .ok (table.abandon scope id) := by
  simp [closeReference, hReference]

/-- A global scope that is dynamic keeps what stays global, and lets go of the rest. -/
theorem closeReference_of_global (hPlaced : Placed table)
    (hOwner : table.scopes[scope]? = some owner)
    (hReference : table.references[id]? = some reference) (hGlobal : owner.kind = .global)
    (hDynamic : owner.dynamic = true) (hPessimistic : settings.options.optimistic = false) :
    table.closeReference settings scope .byName id =
      match table.verdict settings scope id with
      | .binds var => .ok (table.resolve scope id var)
      | .outward => table.delegate scope id
      | .stop => .ok (table.abandon scope id) := by
  have hVisible := @not_hidesUntilBody_of_global id owner hGlobal
  rw [verdict_of_dynamic_global hOwner hReference hGlobal hDynamic hPessimistic,
    closeReference_byName hReference, resolveOrDelegate_eq hPlaced hOwner hReference]
  by_cases hModule : settings.isModule = true
  · rw [if_pos (staysGlobal_eq.2 (.inl hModule)), if_pos hModule]
    cases table.ownVariable? scope reference.identifier.name <;> simp [hVisible]
  · rw [if_neg hModule]
    cases hOwn : table.ownVariable? scope reference.identifier.name with
    | none => rw [if_neg fun h => by simpa [hModule, hOwn] using staysGlobal_eq.1 h]
    | some own =>
        obtain ⟨var, entry⟩ := own
        by_cases hFixed : entry.IsFixed
        · rw [if_pos (staysGlobal_eq.2 (.inr ⟨var, entry, hOwn, hFixed⟩))]
          simp [hVisible, hFixed]
        · have hLeaves : ¬ table.staysGlobal settings scope reference.identifier.name = true :=
            fun h => hFixed (by simpa [hModule, hOwn] using staysGlobal_eq.1 h)
          rw [if_neg hLeaves]
          simp [hFixed]

/-- Closing a scope treats a waiting reference by the rule of the scope. -/
theorem closeReference_eq (hPlaced : Placed table) (hOwner : table.scopes[scope]? = some owner)
    (hReference : table.references[id]? = some reference) :
    table.closeReference settings scope (owner.closing settings) id =
      match table.verdict settings scope id with
      | .binds var => .ok (table.resolve scope id var)
      | .outward =>
          (if table.taints settings scope then
            table.modifyReference id fun reference => { reference with tainted := true }
          else table).delegate scope id
      | .stop => .ok (table.abandon scope id) := by
  have hWith := hPlaced.with_dynamic scope owner hOwner
  -- A scope is taken as static, or it is a body of a `with`, the global scope, or any other
  -- dynamic one.
  by_cases hStatic : owner.dynamic = false ∨ settings.options.optimistic = true
  · have hClosing : owner.closing settings = .resolving := by
      rw [Scope.closing, if_pos (by simpa using hStatic)]
    rw [hClosing, closeReference, resolveOrDelegate_eq hPlaced hOwner hReference,
      verdict_of_static hOwner hReference hWith hStatic, taints_of_static hOwner hWith hStatic]
    cases table.ownVariable? scope reference.identifier.name with
    | none => rfl
    | some own =>
        obtain ⟨var, entry⟩ := own
        by_cases hHidden : owner.HidesUntilBody id entry <;> simp [hHidden]
  · simp only [not_or, Bool.not_eq_false, Bool.not_eq_true] at hStatic
    obtain ⟨hDynamic, hPessimistic⟩ := hStatic
    have hClosing : owner.closing settings = _ := if_neg (by simp [hDynamic, hPessimistic])
    by_cases hBody : owner.kind = .withBody
    · have hTaints : table.taints settings scope = true :=
        (taints_of_getElem? hOwner).2 ⟨hBody, hPessimistic⟩
      have hVerdict : table.verdict settings scope id = .outward := by
        simp [verdict, hOwner, hReference, hBody, hPessimistic]
      rw [hClosing, hBody, hVerdict, hTaints]
      rfl
    · by_cases hGlobal : owner.kind = .global
      · have hTaints : table.taints settings scope = false := by
          rw [Bool.eq_false_iff, ne_eq, taints_of_getElem? hOwner]
          exact fun h => hBody h.1
        have hByName : owner.closing settings = .byName := by rw [hClosing, hGlobal]
        rw [hByName, closeReference_of_global hPlaced hOwner hReference hGlobal hDynamic hPessimistic, hTaints]
        rfl
      · have hVerdict : table.verdict settings scope id = .stop := by
          simp [verdict, hOwner, hReference, hBody, hGlobal, hDynamic, hPessimistic]
        rw [hVerdict]
        cases hKind : owner.kind <;> simp_all [closeReference]

end SymbolTable

end Scoping
