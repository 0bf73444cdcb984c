import Scoping.Proofs.Chronicle.Program
import Scoping.Proofs.Resolution.Finished

/-! Which references mean the same variable in every run: those that come by no
scope whose names are known only when the program runs. -/

namespace Scoping.SymbolTable

variable {settings : Settings} {table : SymbolTable} {tree : Tree} {history : List Entry}
  {scope inner position : ScopeId} {id : ReferenceId} {reference : Reference}

/-- From a scope around another, the way out is the rest of the way. -/
theorem dropWhile_enclosing (h : inner ∈ table.enclosing scope) :
    (table.enclosing scope).dropWhile (fun position => position ≠ inner) = table.enclosing inner := by
  obtain ⟨passed, around, hSplit⟩ := List.append_of_mem h
  have hNodup : (passed ++ inner :: around).Nodup := hSplit ▸ enclosing_nodup
  have hPassed : ∀ other ∈ passed, other ≠ inner := fun other hOther =>
    (List.nodup_append.1 hNodup).2.2 other hOther inner List.mem_cons_self
  rw [enclosing_of_append hSplit, hSplit, List.dropWhile_append_of_pos (by simpa using hPassed),
    List.dropWhile_cons_of_neg (by simp)]

/-- A direct eval concerns the scope that a `var` there goes to, and all that is
around it. -/
theorem Chronicle.outward (h : Chronicle settings history table []) {entry : Entry}
    (hEntry : entry ∈ history) (hHolder : entry.1.holder? = some inner) :
    entry.1.outward = table.enclosing inner ∧ ∃ owner, table.scopes[inner]? = some owner := by
  obtain ⟨frame, hFrame, rfl⟩ := Option.map_eq_some_iff.1 hHolder
  have hAround := h.surrounded entry hEntry frame hFrame
  obtain ⟨rest, hTrail⟩ := List.head?_eq_some_iff.1 hFrame
  obtain ⟨current, hCurrent, hPlaces⟩ :=
    h.openings.frames entry hEntry frame (List.mem_of_mem_head? hFrame)
  have hMem := h.recounts.follows.nested.holder _ current hCurrent
  rw [hPlaces.variableScope] at hMem
  have hLt : frame.holder < table.scopes.size :=
    Nat.lt_of_le_of_lt (le_of_mem_enclosing hMem) (lt_of_getElem?_scopes hCurrent)
  refine ⟨?_, _, Array.getElem?_eq_getElem hLt⟩
  have hOutward : entry.1.outward =
      (entry.1.map Frame.scope).dropWhile fun position => position ≠ frame.holder := by
    rw [hTrail]
    rfl
  rw [hOutward, ← hAround]
  exact dropWhile_enclosing hMem

/-- A scope is dynamic if it is the body of a `with`, or if a direct eval can
declare variables in it or in a scope inside it. -/
theorem Chronicle.dynamic_iff (h : Chronicle settings history table []) {owner : Scope}
    (hOwner : table.scopes[position]? = some owner) :
    owner.dynamic = true ↔ owner.kind = .withBody ∨ ∃ inner evaluated,
      table.scopes[inner]? = some evaluated ∧ evaluated.directEval = true ∧
        position ∈ table.enclosing inner := by
  rw [h.flags.dynamic position owner hOwner]
  refine or_congr Iff.rfl ⟨?_, ?_⟩
  · rintro ⟨entry, hEntry, hEvent, hMem⟩
    cases hHolder : entry.1.holder? with
    | none =>
        have hNil : entry.1 = [] := List.head?_eq_none_iff.1 (Option.map_eq_none_iff.1 hHolder)
        rw [hNil] at hMem
        cases hMem
    | some inner =>
        obtain ⟨hOutward, evaluated, hEvaluated⟩ := h.outward hEntry hHolder
        exact ⟨inner, evaluated, hEvaluated,
          (h.flags.directEval inner evaluated hEvaluated).2 ⟨entry, hEntry, hEvent, hHolder⟩,
          hOutward ▸ hMem⟩
  · rintro ⟨inner, evaluated, hEvaluated, hEval, hMem⟩
    obtain ⟨entry, hEntry, hEvent, hHolder⟩ :=
      (h.flags.directEval inner evaluated hEvaluated).1 hEval
    exact ⟨entry, hEntry, hEvent, (h.outward hEntry hHolder).1 ▸ hMem⟩

/-- A scope that lets a reference out is the body of a `with`, the outermost
scope, or static. -/
theorem static_of_verdict_outward {owner : Scope} (hOwner : table.scopes[scope]? = some owner)
    (hPessimistic : settings.options.optimistic = false)
    (hOutward : table.verdict settings scope id = .outward) :
    owner.kind = .withBody ∨ owner.kind = .global ∨ owner.dynamic = false := by
  by_contra hNone
  obtain ⟨hWith, hGlobal, hDynamic⟩ : owner.kind ≠ .withBody ∧ owner.kind ≠ .global ∧
      owner.dynamic = true := by simpa using hNone
  unfold verdict at hOutward
  rw [hOwner] at hOutward
  cases hFound : table.references[id]? with
  | none => simp [hFound] at hOutward
  | some found => simp [hFound, hWith, hGlobal, hDynamic, hPessimistic] at hOutward

/-- The scopes from one up to another around it, both included. -/
def wayTo (table : SymbolTable) (start finish : ScopeId) : List ScopeId :=
  (table.enclosing start).takeWhile (fun position => position ≠ finish) ++ [finish]

theorem wayTo_eq {passed around : List ScopeId}
    (h : table.enclosing inner = passed ++ scope :: around) :
    table.wayTo inner scope = passed ++ [scope] := by
  have hNodup : (passed ++ scope :: around).Nodup := h ▸ enclosing_nodup
  have hPassed : ∀ other ∈ passed, other ≠ scope := fun other hOther =>
    (List.nodup_append.1 hNodup).2.2 other hOther scope List.mem_cons_self
  rw [wayTo, h, List.takeWhile_append_of_pos (by simpa using hPassed),
    List.takeWhile_cons_of_neg (by simp), List.append_nil]

/-- A scope in which every name means the same in every run. -/
def Steady (table : SymbolTable) (position : ScopeId) : Prop :=
  ∃ owner, table.scopes[position]? = some owner ∧ owner.dynamic = false

/-- Only the outermost scope is global, so that none on the way to another is. -/
theorem Outermost.kind_ne_global (h : Outermost table) {passed around : List ScopeId}
    (hWay : table.enclosing inner = passed ++ scope :: around) (hPassed : position ∈ passed)
    {owner : Scope} (hOwner : table.scopes[position]? = some owner) : owner.kind ≠ .global := by
  intro hGlobal
  obtain ⟨before, after, rfl⟩ := List.append_of_mem hPassed
  rw [List.append_assoc, List.cons_append] at hWay
  have hUpper : table.upper? position = none := by
    rw [upper?_of_getElem? hOwner, h position owner hOwner hGlobal]
  have hLast := (enclosing_of_append hWay).symm.trans (enclosing_of_outermost hUpper)
  simp at hLast

/-- A reference that has come by scopes is tainted unless all of them are
static: a dynamic one that lets it out is the body of a `with`. -/
theorem Course.tainted_eq_false_iff {passed around : List ScopeId}
    (h : Course settings table id reference passed (scope :: around)) (hPlaced : Placed table)
    (hOutermost : Outermost table) (hPessimistic : settings.options.optimistic = false) :
    reference.tainted = false ↔ ∀ position ∈ passed, table.Steady position := by
  rw [h.tainted, List.any_eq_false]
  refine forall₂_congr fun position hPassed => ?_
  obtain ⟨owner, hOwner, -⟩ := h.letOut.closed position hPassed
  rw [taints_of_getElem? hOwner]
  constructor
  · intro hNoWith
    rcases static_of_verdict_outward hOwner hPessimistic (h.letOut.outward position hPassed) with
      hWith | hGlobal | hStatic
    · exact absurd ⟨hWith, hPessimistic⟩ hNoWith
    · exact absurd hGlobal (hOutermost.kind_ne_global h.enclosing hPassed hOwner)
    · exact ⟨owner, hOwner, hStatic⟩
  · rintro ⟨same, hSame, hStatic⟩ ⟨hWith, -⟩
    cases hSame.symm.trans hOwner
    rw [hPlaced.with_dynamic position owner hOwner hWith] at hStatic
    cases hStatic

theorem isStatic_of_resolved {var : VariableId} {declared : Variable}
    (hResolved : reference.resolved = some var) (hDeclared : table.variables[var]? = some declared) :
    table.isStatic reference = true ↔
      reference.tainted = false ∧ table.Steady declared.scope := by
  cases hOwner : table.scopes[declared.scope]? with
  | none => simp [isStatic, hResolved, hDeclared, hOwner, Steady]
  | some owner => simp [isStatic, hResolved, hDeclared, hOwner, Steady]

/-- A reference means the same variable in every run just if it means one and
every scope from its own up to that of the variable is static. Those are the
scopes that are no body of a `with`, and in which no direct eval is, nor in any
scope inside. -/
theorem isStatic_iff (hPessimistic : settings.options.optimistic = false)
    (hOk : analyze settings tree = .ok table) :
    table.UppersFall ∧
    (∀ (id : ReferenceId) (reference : Reference), table.references[id]? = some reference →
      (table.isStatic reference = true ↔ ∃ var declared, reference.resolved = some var ∧
        table.variables[var]? = some declared ∧
        declared.scope ∈ table.enclosing reference.scope ∧
        ∀ position ∈ table.wayTo reference.scope declared.scope, table.Steady position)) ∧
    ∀ (position : ScopeId) (owner : Scope), table.scopes[position]? = some owner →
      (owner.dynamic = true ↔ owner.kind = .withBody ∨ ∃ inner evaluated,
        table.scopes[inner]? = some evaluated ∧ evaluated.directEval = true ∧
          position ∈ table.enclosing inner) := by
  have hPlaced := (spec_of_analyze_eq_ok hOk).2.1.toPlaced
  have hChronicle := chronicle_of_analyze_eq_ok hOk
  refine ⟨hPlaced.upper_lt, fun id reference hFound => ?_,
    fun position owner hOwner => hChronicle.dynamic_iff hOwner⟩
  have hSettled := settled_of_analyze_eq_ok hOk hFound
  have hHeld := hSettled.heldOnce hPlaced
  -- A reference without a variable is never static, and has no way to go.
  cases hSettled with
  | lost passed hidden course stops unresolved foot =>
      refine iff_of_false ?_ ?_
      · simp [isStatic, unresolved]
      · rintro ⟨var, declared, hResolved, -⟩
        cases hResolved.symm.trans unresolved
  | resolved passed around scope var course binds resolved foot =>
      obtain ⟨_, declared, -, hLookup, hDeclared⟩ := exists_of_verdict_binds binds
      obtain ⟨same, hSame, hHome, -⟩ := hPlaced.exists_of_lookup? hLookup
      cases hSame.symm.trans hDeclared
      have hWay : table.enclosing reference.scope = passed ++ declared.scope :: around := by
        rw [hHome, course.enclosing]
      have hSteady : table.isStatic reference = true ↔
          ∀ position ∈ table.wayTo reference.scope declared.scope, table.Steady position := by
        rw [isStatic_of_resolved resolved hDeclared, wayTo_eq hWay,
          course.tainted_eq_false_iff hPlaced hChronicle.outermost hPessimistic]
        simp only [List.forall_mem_append, List.forall_mem_singleton]
      rw [hSteady]
      constructor
      · intro hAll
        refine ⟨var, declared, resolved, hDeclared, ?_, hAll⟩
        rw [hWay]
        exact List.mem_append_right _ List.mem_cons_self
      · rintro ⟨other, found, hOther, hEntry, -, hAll⟩
        cases hOther.symm.trans resolved
        cases hEntry.symm.trans hDeclared
        exact hAll

/-- The program `let x; with (x) x`. -/
def nameInsideWith : Tree where
  root := {
    location := []
    kind := "Program"
    entries := [("type", .string "Program"), ("body", .array [
      .object [("type", .string "VariableDeclaration"), ("kind", .string "let"),
        ("declarations", .array [.object [("type", .string "VariableDeclarator"), ("id", x)]])],
      .object [("type", .string "WithStatement"), ("object", x),
        ("body", .object [("type", .string "ExpressionStatement"), ("expression", x)])]])] }
where
  x : Json := .object [("type", .string "Identifier"), ("name", .string "x")]

/-- Both uses mean the same variable, but only the one outside the `with` has to. -/
theorem isStatic_iff_nameInsideWith :
    ∃ table, analyze ⟨{}, 9⟩ nameInsideWith = .ok table ∧
      table.references.map (fun reference => (reference.resolved, table.isStatic reference)) =
        #[(some 0, true), (some 0, false)] ∧
      table.UppersFall ∧
      (∀ (id : ReferenceId) (reference : Reference), table.references[id]? = some reference →
        (table.isStatic reference = true ↔ ∃ var declared, reference.resolved = some var ∧
          table.variables[var]? = some declared ∧
          declared.scope ∈ table.enclosing reference.scope ∧
          ∀ position ∈ table.wayTo reference.scope declared.scope, table.Steady position)) ∧
      ∀ (position : ScopeId) (owner : Scope), table.scopes[position]? = some owner →
        (owner.dynamic = true ↔ owner.kind = .withBody ∨ ∃ inner evaluated,
          table.scopes[inner]? = some evaluated ∧ evaluated.directEval = true ∧
            position ∈ table.enclosing inner) := by
  have hAnalyze : (analyze ⟨{}, 9⟩ nameInsideWith).toOption.map (fun table =>
      table.references.map fun reference => (reference.resolved, table.isStatic reference)) =
        some #[(some 0, true), (some 0, false)] := by
    decide +kernel
  obtain ⟨table, hOk, hStatic⟩ := exists_of_map_toOption _ hAnalyze
  exact ⟨table, hOk, hStatic, isStatic_iff rfl hOk⟩

end Scoping.SymbolTable
