import Scoping.Proofs.Resolution.Bodies
import Scoping.Proofs.Resolution.Taints

/-! The `arguments` of a function. A function that is no arrow function has the
name from the start, without a definition, and every use that comes to it from
inside means its own: all but one that a parameter makes while the body declares
the name and no parameter does. -/

namespace Scoping.SymbolTable

variable {settings : Settings} {table : SymbolTable} {tree : Tree} {history : List Entry}
  {scope inner position : ScopeId} {id : ReferenceId} {reference : Reference}
  {owner : Scope} {var : VariableId} {own : Variable}

/-- A function that is no arrow function has a variable of its own for its
arguments. -/
theorem Chronicle.exists_arguments (h : Chronicle settings history table [])
    (hOwner : table.scopes[scope]? = some owner) (hKind : owner.kind = .function)
    (hOther : owner.block.kind ≠ "ArrowFunctionExpression") :
    ∃ var own, table.lookup? scope "arguments" = some var ∧ table.variables[var]? = some own := by
  obtain ⟨entry, hEntry, hNumber, inMethod, hEvent⟩ := h.openings.known scope owner hOwner
  rw [hKind] at hEvent
  have hSome := (h.noted.isSome scope "arguments").2
    (.inr ⟨rfl, entry, hEntry, hNumber, owner.block, inMethod, hEvent, hOther⟩)
  obtain ⟨naming, hNaming⟩ := Option.isSome_iff_exists.1 hSome
  obtain ⟨var, hLookup, hFound⟩ := Option.bind_eq_some_iff.1 hNaming
  obtain ⟨own, hOwn, -⟩ := Option.map_eq_some_iff.1 hFound
  exact ⟨var, own, (h.recounts.follows.nested.lookup?_eq scope _).trans hLookup, hOwn⟩

/-- A direct eval in a scope makes all that is around it dynamic too, so that
inside a static scope only the bodies of `with` statements are dynamic. -/
theorem Chronicle.handsOut_inside (h : Chronicle settings history table [])
    (hOwner : table.scopes[scope]? = some owner) (hStatic : owner.dynamic = false)
    {body : Scope} (hBody : table.scopes[inner]? = some body)
    (hInside : scope ∈ table.enclosing inner) : table.HandsOut inner := by
  refine ⟨body, hBody, or_iff_not_imp_right.2 fun hDynamic => ?_⟩
  rcases (h.dynamic_iff hBody).1 (by simpa using hDynamic) with hWith |
    ⟨position, evaluated, hEvaluated, hEval, hAround⟩
  · exact hWith
  · have hOuter := (h.dynamic_iff hOwner).2
      (.inr ⟨position, evaluated, hEvaluated, hEval, enclosing_subset_of_mem hAround hInside⟩)
    rw [hStatic] at hOuter
    cases hOuter

/-- No scope inside a static one stops a search. In an optimistic analysis none
does at all. -/
theorem Chronicle.verdict_ne_stop (h : Chronicle settings history table [])
    (hFound : table.references[id]? = some reference)
    (hOwner : table.scopes[scope]? = some owner)
    (hStatic : owner.dynamic = false ∨ settings.options.optimistic = true)
    {body : Scope} (hBody : table.scopes[inner]? = some body)
    (hInside : scope ∈ table.enclosing inner) : table.verdict settings inner id ≠ .stop := by
  have hPlaced := h.recounts.follows.nested.toPlaced
  by_cases hOptimistic : settings.options.optimistic = true
  · rw [verdict_of_static hBody hFound (hPlaced.with_dynamic inner body hBody) (.inr hOptimistic)]
    cases table.ownVariable? inner reference.identifier.name with
    | none => simp
    | some found => by_cases hHidden : body.HidesUntilBody id found.2 <;> simp [hHidden]
  · exact verdict_ne_stop_of_handsOut hPlaced hFound (by simpa using hOptimistic)
      (h.handsOut_inside hOwner (hStatic.resolve_right hOptimistic) hBody hInside)

/-- A reference is recorded in a scope or in one inside it, and means nothing
that a scope strictly inside declares. -/
def Reaches (table : SymbolTable) (reference : Reference) (scope : ScopeId) : Prop :=
  scope ∈ table.enclosing reference.scope ∧
    ∀ found declared, reference.resolved = some found → table.variables[found]? = some declared →
      scope ∈ table.enclosing declared.scope → declared.scope = scope

/-- What comes to a static scope from inside either ends there or is let out. No
scope inside stops it, since only bodies of `with` statements are dynamic there. -/
theorem Settled.comes_to (h : Settled settings table id reference)
    (hChronicle : Chronicle settings history table [])
    (hOwner : table.scopes[scope]? = some owner)
    (hStatic : owner.dynamic = false ∨ settings.options.optimistic = true)
    (hReaches : table.Reaches reference scope) :
    (∃ var, table.verdict settings scope id = .binds var ∧ reference.resolved = some var ∧
      id ∉ owner.through) ∨
    (table.verdict settings scope id = .outward ∧ id ∈ owner.through ∧
      ∀ var own, reference.resolved = some var → table.variables[var]? = some own →
        own.scope ≠ scope) := by
  have hPlaced := hChronicle.recounts.follows.nested.toPlaced
  obtain ⟨hInside, hNotBelow⟩ := hReaches
  have hNodup : (table.enclosing reference.scope).Nodup := enclosing_nodup
  cases h with
  | resolved passed around finish var course binds resolved foot =>
      obtain ⟨_, declared, -, hLookup, hDeclared⟩ := exists_of_verdict_binds binds
      obtain ⟨same, hSame, hFinish, -⟩ := hPlaced.exists_of_lookup? hLookup
      cases hSame.symm.trans hDeclared
      rw [course.enclosing] at hInside hNodup
      have hApart := (List.nodup_append.1 hNodup).2.2
      rw [foot.mem_through hOwner]
      rcases List.mem_append.1 hInside with hPassed | hLater
      -- It was sent on from this scope, and ended further out.
      · refine .inr ⟨course.letOut.outward scope hPassed, hPassed, fun other own hOther hOwn => ?_⟩
        cases hOther.symm.trans resolved
        cases hOwn.symm.trans hDeclared
        rw [hFinish]
        exact (hApart scope hPassed finish List.mem_cons_self).symm
      -- The scope is not inside the one where it ended, so it is that one.
      · have hEnds : finish = scope := by
          rw [← hFinish]
          refine hNotBelow var declared resolved hDeclared ?_
          rw [hFinish, enclosing_of_append course.enclosing]
          exact hLater
        subst hEnds
        exact .inl ⟨var, binds, resolved,
          fun hPassed => hApart finish hPassed finish List.mem_cons_self rfl⟩
  | lost passed hidden course stops unresolved foot =>
      rw [course.enclosing] at hInside
      -- Lost before it came here, it would have been stopped by a dynamic scope inside this
      -- static one.
      have hPassed : scope ∈ passed := by
        rcases List.mem_append.1 hInside with hPassed | hLater
        · exact hPassed
        · obtain ⟨head, rest, rfl⟩ := List.exists_cons_of_ne_nil (List.ne_nil_of_mem hLater)
          have hAround : head ∈ table.enclosing reference.scope := by
            rw [course.enclosing]
            exact List.mem_append_right _ List.mem_cons_self
          have hHead : head < table.scopes.size :=
            Nat.lt_of_le_of_lt (le_of_mem_enclosing hAround) course.placed
          refine absurd (stops head rfl) (hChronicle.verdict_ne_stop course.found hOwner hStatic
            (Array.getElem?_eq_getElem hHead) ?_)
          rw [enclosing_of_append course.enclosing]
          exact hLater
      refine .inr ⟨course.letOut.outward scope hPassed, ?_, fun var own hVar => ?_⟩
      · exact (foot.mem_through hOwner).2 (List.mem_append_left _ hPassed)
      · cases hVar.symm.trans unresolved

/-- A static scope resolves what comes to it for a name of its own, unless it
hides the name. -/
theorem Settled.resolved_iff (h : Settled settings table id reference)
    (hChronicle : Chronicle settings history table [])
    (hOwner : table.scopes[scope]? = some owner)
    (hStatic : owner.dynamic = false ∨ settings.options.optimistic = true)
    (hFound : table.references[id]? = some reference)
    (hLookup : table.lookup? scope reference.identifier.name = some var)
    (hOwn : table.variables[var]? = some own) (hReaches : table.Reaches reference scope) :
    (reference.resolved = some var ↔ ¬ owner.HidesUntilBody id own) ∧
      (id ∈ owner.through ↔ owner.HidesUntilBody id own) := by
  have hPlaced := hChronicle.recounts.follows.nested.toPlaced
  obtain ⟨same, hSame, hHome, -⟩ := hPlaced.exists_of_lookup? hLookup
  cases hSame.symm.trans hOwn
  have hVerdict : table.verdict settings scope id =
      if owner.HidesUntilBody id own then .outward else .binds var := by
    rw [verdict_of_static hOwner hFound (hPlaced.with_dynamic scope owner hOwner) hStatic,
      ownVariable?_eq_some.2 ⟨hLookup, hOwn⟩]
  by_cases hHidden : owner.HidesUntilBody id own
  · rw [if_pos hHidden] at hVerdict
    rcases h.comes_to hChronicle hOwner hStatic hReaches with
      ⟨found, hBinds, -⟩ | ⟨-, hThrough, hElsewhere⟩
    · cases hBinds.symm.trans hVerdict
    · exact ⟨iff_of_false (fun hVar => hElsewhere var own hVar hOwn hHome) (not_not_intro hHidden),
        iff_of_true hThrough hHidden⟩
  · rw [if_neg hHidden] at hVerdict
    rcases h.comes_to hChronicle hOwner hStatic hReaches with
      ⟨found, hBinds, hResolved, hThrough⟩ | ⟨hOutward, -⟩
    · cases hBinds.symm.trans hVerdict
      exact ⟨iff_of_true hResolved hHidden, iff_of_false hThrough hHidden⟩
    · cases hOutward.symm.trans hVerdict

/-- A function with a use of its arguments needs them. -/
theorem Settled.needsArguments (h : Settled settings table id reference) (hPlaced : Placed table)
    (hOwner : table.scopes[scope]? = some owner)
    (hOther : owner.block.kind ≠ "ArrowFunctionExpression")
    (hLookup : table.lookup? scope "arguments" = some var)
    (hOwn : table.variables[var]? = some own) (hResolved : reference.resolved = some var) :
    table.needsArguments scope = true := by
  obtain ⟨_, _, _, -, -, -, -, hCount⟩ := (h.heldOnce hPlaced).resolved var hResolved
  have hMem : id ∈ own.references := by
    rw [← Array.count_pos_iff, hCount var own hOwn, if_pos rfl]
    exact Nat.one_pos
  have hSome : own.references ≠ #[] := Array.ne_empty_of_mem hMem
  simp [SymbolTable.needsArguments, hOwner, hOther, hLookup, hOwn, hSome]

/-- Each use of `arguments` that comes to a static function, and is not resolved
inside it, means the arguments of that function, unless the walk comes to the body
after it and only the body defines the name. Then it passes through the function. -/
theorem arguments_resolved_iff (hOk : analyze settings tree = .ok table)
    (hOwner : table.scopes[scope]? = some owner) (hKind : owner.kind = .function)
    (hOther : owner.block.kind ≠ "ArrowFunctionExpression")
    (hStatic : owner.dynamic = false ∨ settings.options.optimistic = true) :
    ∃ var own, table.lookup? scope "arguments" = some var ∧ table.variables[var]? = some own ∧
      ∀ (id : ReferenceId) (reference : Reference), table.references[id]? = some reference →
        reference.identifier.name = "arguments" → table.Reaches reference scope →
          (reference.resolved = some var ↔
            ¬ table.HiddenByBody settings tree.root scope id var) ∧
          (id ∈ owner.through ↔ table.HiddenByBody settings tree.root scope id var) ∧
          (¬ table.HiddenByBody settings tree.root scope id var →
            table.needsArguments scope = true) := by
  have hChronicle := chronicle_of_analyze_eq_ok hOk
  obtain ⟨var, own, hLookup, hOwn⟩ := hChronicle.exists_arguments hOwner hKind hOther
  refine ⟨var, own, hLookup, hOwn, fun id reference hFound hName hReaches => ?_⟩
  have hSettled := settled_of_analyze_eq_ok hOk hFound
  rw [← hidesUntilBody_iff_hiddenByBody hOk hOwner hOwn]
  obtain ⟨hResolved, hThrough⟩ := hSettled.resolved_iff hChronicle hOwner hStatic hFound
    (hName ▸ hLookup) hOwn hReaches
  exact ⟨hResolved, hThrough, fun hShown => hSettled.needsArguments
    hChronicle.recounts.follows.nested.toPlaced hOwner hOther hLookup hOwn (hResolved.2 hShown)⟩

/-- A program with one function, `function f(a = arguments)`, and the statements
of its body. -/
def defaultedFunction (statements : List Json) : Tree where
  root := {
    location := []
    kind := "Program"
    entries := [("type", .string "Program"), ("body", .array [.object [
      ("type", .string "FunctionDeclaration"), ("id", identifier "f"),
      ("params", .array [.object [("type", .string "AssignmentPattern"),
        ("left", identifier "a"), ("right", identifier "arguments")]]),
      ("body", .object [("type", .string "BlockStatement"), ("body", .array statements)])]])] }
where
  identifier (text : String) : Json :=
    .object [("type", .string "Identifier"), ("name", .string text)]

/-- The program `function f(a = arguments) { arguments }`. -/
def argumentsInBoth : Tree :=
  defaultedFunction [.object [("type", .string "ExpressionStatement"),
    ("expression", defaultedFunction.identifier "arguments")]]

/-- The default and the body both use the arguments of the function. -/
theorem arguments_resolved_iff_argumentsInBoth :
    ∃ table owner, analyze ⟨{}, 9⟩ argumentsInBoth = .ok table ∧
      table.scopes[1]? = some owner ∧ owner.kind = .function ∧
      owner.block.kind ≠ "ArrowFunctionExpression" ∧ owner.dynamic = false ∧
      table.references.map (fun reference => (reference.identifier.name, reference.resolved)) =
        #[("a", some 2), ("arguments", some 1), ("arguments", some 1)] ∧
      ∃ var own, table.lookup? 1 "arguments" = some var ∧ table.variables[var]? = some own ∧
        ∀ (id : ReferenceId) (reference : Reference), table.references[id]? = some reference →
          reference.identifier.name = "arguments" → table.Reaches reference 1 →
            (reference.resolved = some var ↔
              ¬ table.HiddenByBody ⟨{}, 9⟩ argumentsInBoth.root 1 id var) ∧
            (id ∈ owner.through ↔ table.HiddenByBody ⟨{}, 9⟩ argumentsInBoth.root 1 id var) ∧
            (¬ table.HiddenByBody ⟨{}, 9⟩ argumentsInBoth.root 1 id var →
              table.needsArguments 1 = true) := by
  have hAnalyze : (analyze ⟨{}, 9⟩ argumentsInBoth).toOption.map (fun table =>
      (table.scopes[1]?.map fun owner => (owner.kind, owner.block.kind, owner.dynamic),
        table.references.map fun reference => (reference.identifier.name, reference.resolved))) =
        some (some (.function, "FunctionDeclaration", false),
          #[("a", some 2), ("arguments", some 1), ("arguments", some 1)]) := by
    decide +kernel
  obtain ⟨table, hOk, hObserved⟩ := exists_of_map_toOption _ hAnalyze
  obtain ⟨hOwner, hReferences⟩ := Prod.mk.inj hObserved
  obtain ⟨owner, hScope, hSeen⟩ := Option.map_eq_some_iff.1 hOwner
  obtain ⟨hKind, hRest⟩ := Prod.mk.inj hSeen
  obtain ⟨hBlock, hStatic⟩ := Prod.mk.inj hRest
  have hOther : owner.block.kind ≠ "ArrowFunctionExpression" := by
    rw [hBlock]
    decide
  exact ⟨table, owner, hOk, hScope, hKind, hOther, hStatic, hReferences,
    arguments_resolved_iff hOk hScope hKind hOther (.inl hStatic)⟩

/-- The program `function f(a = arguments) { var arguments }`. -/
def argumentsDeclaredInBody : Tree :=
  defaultedFunction [.object [("type", .string "VariableDeclaration"), ("kind", .string "var"),
    ("declarations", .array [.object [("type", .string "VariableDeclarator"),
      ("id", defaultedFunction.identifier "arguments")]])]]

/-- The name is there from the start, but the `var` of the body gives it its only
definition and so hides it from the default, which passes through the function. -/
theorem arguments_missed_declaredInBody :
    ∃ table owner var reference, analyze ⟨{}, 9⟩ argumentsDeclaredInBody = .ok table ∧
      table.scopes[1]? = some owner ∧ owner.kind = .function ∧
      owner.block.kind ≠ "ArrowFunctionExpression" ∧ owner.dynamic = false ∧
      table.lookup? 1 "arguments" = some var ∧ table.references[1]? = some reference ∧
      reference.identifier.name = "arguments" ∧ reference.scope = 1 ∧
      table.Reaches reference 1 ∧ reference.resolved = none ∧ 1 ∈ owner.through ∧
      table.needsArguments 1 = false := by
  have hAnalyze : (analyze ⟨{}, 9⟩ argumentsDeclaredInBody).toOption.map (fun table =>
      (table.scopes[1]?.map fun owner => (owner.kind, owner.block.kind, owner.dynamic),
        table.scopes[1]?.map Scope.through)) =
        some (some (.function, "FunctionDeclaration", false), some #[1]) := by
    decide +kernel
  have hUses : (analyze ⟨{}, 9⟩ argumentsDeclaredInBody).toOption.map (fun table =>
      (table.references[1]?.map fun reference =>
          (reference.identifier.name, reference.scope, reference.resolved),
        table.lookup? 1 "arguments", table.needsArguments 1)) =
        some (some ("arguments", 1, none), some 1, false) := by
    decide +kernel
  obtain ⟨table, hOk, hObserved⟩ := exists_of_map_toOption _ hAnalyze
  obtain ⟨same, hSame, hUsed⟩ := exists_of_map_toOption _ hUses
  cases hSame.symm.trans hOk
  simp only [Prod.mk.injEq] at hObserved hUsed
  obtain ⟨hOwner, hPassing⟩ := hObserved
  obtain ⟨hUse, hLookup, hNeeds⟩ := hUsed
  obtain ⟨owner, hScope, hSeen⟩ := Option.map_eq_some_iff.1 hOwner
  obtain ⟨reference, hFound, hSaid⟩ := Option.map_eq_some_iff.1 hUse
  rw [hScope, Option.map_some, Option.some.injEq] at hPassing
  simp only [Prod.mk.injEq] at hSeen hSaid
  obtain ⟨hKind, hBlock, hStatic⟩ := hSeen
  obtain ⟨hName, hHome, hResolved⟩ := hSaid
  refine ⟨table, owner, 1, reference, hOk, hScope, hKind, ?_, hStatic, hLookup, hFound, hName, hHome,
    ⟨?_, fun found declared hVar => ?_⟩, hResolved, ?_, hNeeds⟩
  · rw [hBlock]
    decide
  · rw [hHome]
    exact mem_enclosing_self
  · cases hVar.symm.trans hResolved
  · simp [hPassing]

end Scoping.SymbolTable
