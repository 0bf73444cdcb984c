import Scoping.Proofs.Resolution.Tally
import Scoping.Proofs.Walk.Arriving

/-! What a variable has noted of its references one by one is so of all of them in
the end. A reference takes its taint from the scopes that it leaves before it
is resolved, and nothing that closes later touches it again. -/

namespace Scoping.SymbolTable

variable {settings : Settings} {table middle : SymbolTable} {tree : Tree} {id : ReferenceId}
  {reference : Reference} {var : VariableId} {declared : Variable} {past future : List Event}

/-- A variable is on the stack if its references all stand in its own function. -/
theorem Tallied.stack_iff (h : Tallied table var) (hDeclared : table.variables[var]? = some declared) :
    declared.stack = true ↔ ∀ id ∈ declared.references, ∃ reference,
      table.references[id]? = some reference ∧
        table.variableScope reference.scope = table.variableScope declared.scope := by
  have hStack := h.stack
  simp only [marksOf_of_getElem? hDeclared, Variable.marks] at hStack
  rw [hStack]
  refine forall₂_congr fun id hId => ?_
  simp [standsWith, hDeclared, sameFunction, Option.any_eq_true]

/-- A variable is tainted if one of its references is. -/
theorem Tallied.tainted_iff (h : Tallied table var)
    (hDeclared : table.variables[var]? = some declared) :
    declared.tainted = true ↔ ∃ id ∈ declared.references, ∃ reference,
      table.references[id]? = some reference ∧ reference.tainted = true := by
  have hTainted := h.tainted
  simp only [marksOf_of_getElem? hDeclared, Variable.marks] at hTainted
  rw [hTainted]
  simp only [isTainted, Option.any_eq_true]

/-- What has tainted a reference lies inside the scope of the variable that it means. -/
theorem Settled.tainted_eq_any (h : Settled settings table id reference) (hPlaced : Placed table)
    (hResolved : reference.resolved = some var)
    (hDeclared : table.variables[var]? = some declared) :
    ∃ passed around, table.enclosing reference.scope = passed ++ declared.scope :: around ∧
      reference.tainted = passed.any (table.taints settings) := by
  cases h with
  | resolved passed around scope other course binds resolved foot =>
      cases resolved.symm.trans hResolved
      obtain ⟨found, entry, -, hLookup, -⟩ := exists_of_verdict_binds binds
      obtain ⟨same, hSame, hHome, -⟩ := hPlaced.exists_of_lookup? hLookup
      cases hSame.symm.trans hDeclared
      exact ⟨passed, around, by rw [hHome, course.enclosing], course.tainted⟩
  | lost passed hidden course stops unresolved foot =>
      rw [unresolved] at hResolved
      cases hResolved

/-- What is resolved at some event of the walk of a program is so in the end. -/
theorem resolved_of_run (hRun : ({} : SymbolTable).run settings (past ++ future) = .ok table)
    (hPast : ({} : SymbolTable).run settings past = .ok middle) : Upholds middle table := by
  obtain ⟨found, hFound, hFuture⟩ := exists_run_of_append hRun
  cases hFound.symm.trans hPast
  obtain ⟨hNested, hAccounted⟩ := run_induction (P := Accounted settings)
    (fun _ _ _ hNested hTable hApply => accounted_apply hTable hNested hApply)
    (nested_empty : Nested {} (SymbolTable.stack {})) accounted_empty hPast
  exact upholds_run hNested hAccounted hFuture

/-- What the variables of a finished table have noted of their references one by one. -/
structure TotalsOf (settings : Settings) (root : Node) (table : SymbolTable) : Prop where
  stack : ∀ (var : VariableId) (declared : Variable), table.variables[var]? = some declared →
    (declared.stack = true ↔ ∀ id ∈ declared.references, ∃ reference,
      table.references[id]? = some reference ∧
        table.variableScope reference.scope = table.variableScope declared.scope)
  tainted : ∀ (var : VariableId) (declared : Variable), table.variables[var]? = some declared →
    (declared.tainted = true ↔ ∃ id ∈ declared.references, ∃ reference,
      table.references[id]? = some reference ∧ reference.tainted = true)
  /-- A reference is tainted by the scopes that it leaves on its way to its variable. -/
  left : ∀ (id : ReferenceId) (reference : Reference) (var : VariableId) (declared : Variable),
    table.references[id]? = some reference → reference.resolved = some var →
      table.variables[var]? = some declared →
        ∃ passed around, table.enclosing reference.scope = passed ++ declared.scope :: around ∧
          reference.tainted = passed.any (table.taints settings)
  /-- Once it is resolved, nothing of it changes. -/
  settled : ∀ (past future : List Event) (middle : SymbolTable),
    programEvents settings root = past ++ future →
      ({} : SymbolTable).run settings past = .ok middle →
        ∀ (id : ReferenceId) (before : Reference), middle.references[id]? = some before →
          before.resolved ≠ none → table.references[id]? = some before

/-- A variable is on the stack just if all its references stand in its own function,
and it is tainted just if one of them is, as they are in the end. -/
theorem stack_tainted_iff (hOk : analyze settings tree = .ok table) :
    TotalsOf settings tree.root table := by
  obtain ⟨-, hNested, -, hRun⟩ := spec_of_analyze_eq_ok hOk
  have hTallied := allTallied_of_analyze_eq_ok hOk
  exact {
    stack := fun var declared hDeclared => (hTallied var).stack_iff hDeclared
    tainted := fun var declared hDeclared => (hTallied var).tainted_iff hDeclared
    left := fun id reference var declared hFound =>
      (settled_of_analyze_eq_ok hOk hFound).tainted_eq_any hNested.toPlaced
    settled := fun past future middle hEvents hPast =>
      (resolved_of_run (hEvents ▸ hRun) hPast).reference }

/-- The program `let x; function f() { with (x) x }`. -/
def withInsideFunction : Tree where
  root := {
    location := []
    kind := "Program"
    entries := [("type", .string "Program"), ("body", .array [
      .object [("type", .string "VariableDeclaration"), ("kind", .string "let"),
        ("declarations", .array [.object [("type", .string "VariableDeclarator"),
          ("id", identifier "x")]])],
      .object [("type", .string "FunctionDeclaration"), ("id", identifier "f"),
        ("params", .array []), ("body", .object [("type", .string "BlockStatement"),
          ("body", .array [.object [("type", .string "WithStatement"),
            ("object", identifier "x"), ("body", .object [
              ("type", .string "ExpressionStatement"), ("expression", identifier "x")])]])])]])] }
where
  identifier (name : String) : Json :=
    .object [("type", .string "Identifier"), ("name", .string name)]

/-- Both uses of `x` stand in another function than `x` itself, and the last is tainted. -/
theorem stack_tainted_iff_withInsideFunction :
    ∃ table, analyze ⟨{}, 9⟩ withInsideFunction = .ok table ∧
      table.variables[0]?.map (fun declared =>
        (declared.references, declared.tainted, declared.stack)) = some (#[0, 1], true, false) ∧
      TotalsOf ⟨{}, 9⟩ withInsideFunction.root table := by
  have hAnalyze : (analyze ⟨{}, 9⟩ withInsideFunction).toOption.map
      (fun table => table.variables[0]?.map fun declared =>
        (declared.references, declared.tainted, declared.stack)) =
        some (some (#[0, 1], true, false)) := by
    decide +kernel
  obtain ⟨table, hOk, hMarks⟩ := exists_of_map_toOption _ hAnalyze
  exact ⟨table, hOk, hMarks, stack_tainted_iff hOk⟩

end Scoping.SymbolTable
