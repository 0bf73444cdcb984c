import Mathlib.Data.List.Find
import Scoping.Proofs.Resolution.Verdict
import Scoping.Proofs.Table.Footprint

namespace Scoping

theorem Scope.hidesUntilBody_congr {before after : Scope} {id : ReferenceId} {old new : Variable}
    (hKind : after.kind = before.kind) (hBlock : after.block = before.block)
    (hStart : after.bodyStart = before.bodyStart) (hDefinitions : new.definitions = old.definitions) :
    after.HidesUntilBody id new ↔ before.HidesUntilBody id old := by
  simp only [Scope.HidesUntilBody, hKind, hBlock, hStart, hDefinitions]

theorem Variable.isFixed_congr {old new : Variable} (h : new.definitions = old.definitions) :
    new.IsFixed ↔ old.IsFixed := by
  simp only [Variable.IsFixed, h]

namespace SymbolTable

variable {settings : Settings} {table next : SymbolTable} {scope : ScopeId} {id : ReferenceId}

/-- A closed scope keeps what it finds under a name. -/
theorem lookup?_of_keeps (hKeeps : Keeps table next) {owner : Scope}
    (hOwner : table.scopes[scope]? = some owner) (hClosed : owner.pending = none)
    (name : String) : next.lookup? scope name = table.lookup? scope name := by
  obtain ⟨after, hAfter, hScope⟩ := hKeeps.scope scope owner hOwner
  obtain ⟨-, -, -, hNames⟩ := hScope.closed hClosed
  simp only [lookup?, hOwner, hAfter, Option.bind_some, hNames]

/-- A closed scope keeps its own variables, with all their definitions. -/
theorem ownVariable?_of_keeps (hPlaced : Placed table) (hKeeps : Keeps table next) {owner : Scope}
    (hOwner : table.scopes[scope]? = some owner) (hClosed : owner.pending = none)
    (name : String) :
    (table.ownVariable? scope name = none ∧ next.ownVariable? scope name = none) ∨
      ∃ var before after, table.ownVariable? scope name = some (var, before) ∧
        next.ownVariable? scope name = some (var, after) ∧
        after.definitions = before.definitions := by
  have hLookup := lookup?_of_keeps hKeeps hOwner hClosed name
  cases hFound : table.lookup? scope name with
  | none => exact .inl ⟨by simp [ownVariable?, hFound], by simp [ownVariable?, hLookup, hFound]⟩
  | some var =>
      obtain ⟨before, hBefore, hHome, -⟩ := hPlaced.exists_of_lookup? hFound
      obtain ⟨after, hAfter, -, -, hDefinitions⟩ := hKeeps.variable_ var before hBefore
      refine .inr ⟨var, before, after, ownVariable?_eq_some.2 ⟨hFound, hBefore⟩,
        ownVariable?_eq_some.2 ⟨hLookup.trans hFound, hAfter⟩, hDefinitions ⟨owner, ?_, hClosed⟩⟩
      rw [hHome]
      exact hOwner

/-- The rule of a closed scope for a reference does not change any more. -/
theorem verdict_of_keeps (hPlaced : Placed table) (hKeeps : Keeps table next) {owner : Scope}
    (hOwner : table.scopes[scope]? = some owner) (hClosed : owner.pending = none)
    {before after : Reference} (hBefore : table.references[id]? = some before)
    (hAfter : next.references[id]? = some after) (hSame : after.identifier = before.identifier) :
    next.verdict settings scope id = table.verdict settings scope id := by
  obtain ⟨later, hLater, hScope⟩ := hKeeps.scope scope owner hOwner
  obtain ⟨-, hDynamic, hStart, -⟩ := hScope.closed hClosed
  simp only [verdict, hOwner, hLater, hBefore, hAfter, hScope.kind, hDynamic, hSame]
  rcases ownVariable?_of_keeps hPlaced hKeeps hOwner hClosed before.identifier.name with
    ⟨hOld, hNew⟩ | ⟨var, old, new, hOld, hNew, hDefinitions⟩
  · rw [hOld, hNew]
  · have hHides : later.HidesUntilBody id new ↔ owner.HidesUntilBody id old :=
      Scope.hidesUntilBody_congr hScope.kind hScope.block hStart hDefinitions
    have hFixed := Variable.isFixed_congr hDefinitions
    simp only [hOld, hNew, hHides, hFixed]

theorem taints_of_keeps (hKeeps : Keeps table next) {owner : Scope}
    (hOwner : table.scopes[scope]? = some owner) :
    next.taints settings scope = table.taints settings scope := by
  obtain ⟨later, hLater, hScope⟩ := hKeeps.scope scope owner hOwner
  simp [taints, hOwner, hLater, hScope.kind]

/-- The scopes around a scope that is there stay those they are. -/
theorem enclosing_of_keeps (hKeeps : Keeps table next) (hScope : scope < table.scopes.size) :
    next.enclosing scope = table.enclosing scope := by
  refine enclosing_congr fun position hPosition => ?_
  have hBefore := Array.getElem?_eq_getElem (Nat.lt_of_le_of_lt hPosition hScope)
  obtain ⟨after, hAfter, hKept⟩ := hKeeps.scope position _ hBefore
  rw [upper?_of_getElem? hBefore, upper?_of_getElem? hAfter, hKept.upper]

/-- Closed scopes that each let a reference out. -/
structure LetOut (settings : Settings) (table : SymbolTable) (id : ReferenceId)
    (passed : List ScopeId) : Prop where
  closed : ∀ scope ∈ passed, ∃ owner, table.scopes[scope]? = some owner ∧ owner.pending = none
  outward : ∀ scope ∈ passed, table.verdict settings scope id = .outward

variable {before after : Reference} {passed rest : List ScopeId}

theorem LetOut.of_keeps (h : LetOut settings table id passed) (hPlaced : Placed table)
    (hKeeps : Keeps table next) (hBefore : table.references[id]? = some before)
    (hAfter : next.references[id]? = some after) (hSame : after.identifier = before.identifier) :
    LetOut settings next id passed ∧
      passed.any (next.taints settings) = passed.any (table.taints settings) := by
  refine ⟨⟨fun scope hPassed => ?_, fun scope hPassed => ?_⟩, ?_⟩
  · obtain ⟨owner, hOwner, hClosed⟩ := h.closed scope hPassed
    obtain ⟨later, hLater, hKept⟩ := hKeeps.scope scope owner hOwner
    exact ⟨later, hLater, (hKept.closed hClosed).1⟩
  · obtain ⟨owner, hOwner, hClosed⟩ := h.closed scope hPassed
    rw [verdict_of_keeps hPlaced hKeeps hOwner hClosed hBefore hAfter hSame]
    exact h.outward scope hPassed
  · rw [Bool.eq_iff_iff, List.any_eq_true, List.any_eq_true]
    refine exists_congr fun scope => and_congr_right fun hPassed => ?_
    obtain ⟨owner, hOwner, -⟩ := h.closed scope hPassed
    rw [taints_of_keeps hKeeps hOwner]

theorem LetOut.concat (h : LetOut settings table id passed) {owner : Scope}
    (hOwner : table.scopes[scope]? = some owner) (hClosed : owner.pending = none)
    (hOutward : table.verdict settings scope id = .outward) :
    LetOut settings table id (passed ++ [scope]) := by
  refine ⟨fun position hMem => ?_, fun position hMem => ?_⟩
  · rcases List.mem_append.1 hMem with hPassed | hLast
    · exact h.closed position hPassed
    · cases List.mem_singleton.1 hLast
      exact ⟨owner, hOwner, hClosed⟩
  · rcases List.mem_append.1 hMem with hPassed | hLast
    · exact h.outward position hPassed
    · cases List.mem_singleton.1 hLast
      exact hOutward

/-- How far a reference has come: through the scopes it has passed, all closed,
and to the first of the rest of the way out. It is tainted as soon as it has
left a scope that taints. -/
structure Course (settings : Settings) (table : SymbolTable) (id : ReferenceId)
    (reference : Reference) (passed rest : List ScopeId) : Prop where
  found : table.references[id]? = some reference
  placed : reference.scope < table.scopes.size
  enclosing : table.enclosing reference.scope = passed ++ rest
  letOut : LetOut settings table id passed
  tainted : reference.tainted = passed.any (table.taints settings)

/-- A reference that is moved on to a next table with all that it has passed. -/
theorem Course.transfer (h : Course settings table id before passed rest) (hPlaced : Placed table)
    (hKeeps : Keeps table next) (hFound : next.references[id]? = some after)
    (hScope : after.scope = before.scope) (hIdentifier : after.identifier = before.identifier)
    {further left : List ScopeId} (hSplit : passed ++ rest = further ++ left)
    (hLetOut : LetOut settings table id further)
    (hTainted : after.tainted = further.any (table.taints settings)) :
    Course settings next id after further left := by
  obtain ⟨hOut, hTaints⟩ := hLetOut.of_keeps hPlaced hKeeps h.found hFound hIdentifier
  obtain ⟨later, hLater, -⟩ := hKeeps.scope _ _ (Array.getElem?_eq_getElem h.placed)
  refine ⟨hFound, ?_, ?_, hOut, hTainted.trans hTaints.symm⟩
  · rw [hScope]
    exact lt_of_getElem?_scopes hLater
  · rw [hScope, enclosing_of_keeps hKeeps h.placed, h.enclosing, hSplit]

/-- A reference that stays where it is. -/
theorem Course.of_keeps (h : Course settings table id before passed rest)
    (hPlaced : Placed table) (hKeeps : Keeps table next)
    (hFound : next.references[id]? = some after) (hScope : after.scope = before.scope)
    (hIdentifier : after.identifier = before.identifier)
    (hTainted : after.tainted = before.tainted) :
    Course settings next id after passed rest :=
  h.transfer hPlaced hKeeps hFound hScope hIdentifier rfl h.letOut (hTainted.trans h.tainted)

/-- A reference that is let out of the next scope. -/
theorem Course.advance (h : Course settings table id before passed (scope :: rest))
    (hPlaced : Placed table) (hKeeps : Keeps table next)
    (hFound : next.references[id]? = some after) (hScope : after.scope = before.scope)
    (hIdentifier : after.identifier = before.identifier) {owner : Scope}
    (hOwner : table.scopes[scope]? = some owner) (hClosed : owner.pending = none)
    (hOutward : table.verdict settings scope id = .outward)
    (hTainted : after.tainted = (before.tainted || table.taints settings scope)) :
    Course settings next id after (passed ++ [scope]) rest :=
  h.transfer hPlaced hKeeps hFound hScope hIdentifier (List.append_cons passed scope rest)
    (h.letOut.concat hOwner hClosed hOutward) (by simp [hTainted, h.tainted])

end SymbolTable

end Scoping
