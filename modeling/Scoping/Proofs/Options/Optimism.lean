import Scoping.Proofs.Chronicle.Changes
import Scoping.Proofs.Options.SameProgram
import Scoping.Proofs.Resolution.DeadZone
import Scoping.Proofs.Resolution.Finished

/-! An optimistic analysis takes every scope for a static one. It finds the scopes,
names and uses that the other finds, it resolves what the other resolves, as long as
no body of a `with` declares a name, and it is the same where all scopes are static. -/

namespace Scoping

/-- The same settings, but for an optimistic analysis. -/
def Settings.optimistically (settings : Settings) : Settings :=
  { settings with options := { settings.options with optimistic := true } }

/-- A walk does not ask whether the analysis is optimistic. -/
theorem Settings.readAlike_optimistically (settings : Settings) :
    settings.ReadAlike settings.optimistically :=
  ⟨rfl, rfl, rfl, rfl, rfl, rfl, rfl⟩

/-- Scopes do not ask either as they open. -/
theorem Settings.openAlike_optimistically (settings : Settings) :
    settings.OpenAlike settings.optimistically :=
  ⟨rfl, rfl⟩

namespace SymbolTable

variable {settings first second : Settings} {table next other : SymbolTable} {tree : Tree}
  {stack : List ScopeId} {scope position : ScopeId} {id : ReferenceId} {trail : Trail}
  {reference : Reference}

/-! Where no scope is dynamic, no closing asks whether the analysis is optimistic. -/

/-- Every scope of a table is static. -/
def AllStatic (table : SymbolTable) : Prop :=
  ∀ (position : ScopeId) (scope : Scope), table.scopes[position]? = some scope →
    scope.dynamic = false

/-- Only the closing of a dynamic scope depends on whether the analysis is optimistic. -/
theorem close_congr_of_allStatic (hModule : first.isModule = second.isModule)
    (h : table.AllStatic) (scope : ScopeId) :
    table.close first scope = table.close second scope := by
  cases hEntry : table.scopes[scope]? with
  | none => simp only [close, hEntry]
  | some entry =>
      have hClosing : ∀ settings, entry.closing settings = .resolving := fun settings => by
        rw [Scope.closing, h scope entry hEntry, Bool.not_false, Bool.true_or, if_pos rfl]
      simp only [close, hEntry, hClosing, closeReference_congr hModule]

/-- Only a direct eval makes a scope dynamic, and nothing makes it static again. -/
theorem AllStatic.of_apply {event : Event} (hFollows : Follows table trail)
    (hOk : table.apply settings event = .ok next) (h : next.AllStatic) : table.AllStatic := by
  intro position before hBefore
  obtain ⟨after, hAfter, hChanges⟩ := changes_apply hFollows hOk hBefore
  by_contra hDynamic
  have hLater := hChanges.dynamic.2 (.inl (by simpa using hDynamic))
  rw [h position after hAfter] at hLater
  cases hLater

/-- A scope that is dynamic stays so, so that in the end all are static only if they have
been all along. -/
theorem AllStatic.of_run {events : List Event} (hFollows : Follows table trail)
    (hOk : table.run settings events = .ok next) (h : next.AllStatic) : table.AllStatic := by
  induction events generalizing table trail with
  | nil =>
      cases hOk
      exact h
  | cons event events ih =>
      obtain ⟨middle, hMiddle, hRest⟩ := exists_of_bind_ok hOk
      exact (ih (follows_apply hFollows (fits_signalFor table event) hMiddle) hRest).of_apply
        hFollows hMiddle

theorem AllStatic.of_closes (h : table.AllStatic) (hCloses : Closes stack table next) :
    next.AllStatic := by
  intro position after hAfter
  have hLt := lt_of_getElem?_scopes hAfter
  rw [hCloses.scopesSize] at hLt
  have hBefore := Array.getElem?_eq_getElem hLt
  obtain ⟨found, hFound, hEq⟩ := hCloses.scope position _ hBefore
  cases hFound.symm.trans hAfter
  have hStatic := h position _ hBefore
  exact (congrArg Scope.dynamic hEq).trans hStatic

/-- Static scopes are left alike. -/
theorem leave_congr_of_allStatic (hModule : first.isModule = second.isModule)
    (h : table.AllStatic) : table.leave first = table.leave second := by
  unfold leave
  cases table.stack with
  | nil => rfl
  | cons scope stack =>
      have hStatic : AllStatic { table with stack } := h
      simp only [close_congr_of_allStatic hModule hStatic scope]

/-- So are several static scopes, one after another. -/
theorem leaves_congr_of_allStatic (hModule : first.isModule = second.isModule)
    (scopes : List ScopeId) (hNested : Nested table (scopes ++ stack))
    (hStack : table.stack = scopes ++ stack) (h : table.AllStatic) :
    scopes.foldlM (fun table _ => do return (← table.leave first).2) table =
      scopes.foldlM (fun table _ => do return (← table.leave second).2) table := by
  induction scopes generalizing table with
  | nil => rfl
  | cons scope scopes ih =>
      obtain ⟨middle, -, hLeave, hCloses⟩ := exists_leave first hNested hStack
      rw [List.foldlM_cons, List.foldlM_cons, ← leave_congr_of_allStatic hModule h, hLeave]
      have hStatic : AllStatic { table with stack := scopes ++ stack } := h
      exact ih hCloses.nested hCloses.stack (hStatic.of_closes hCloses)

/-- A walk that makes no scope dynamic is the same in an optimistic analysis. -/
theorem run_of_allStatic (hAlike : first.OpenAlike second)
    (hModule : first.isModule = second.isModule) {events : List Event}
    (hFollows : Follows table trail) (hOk : table.run first events = .ok next)
    (h : next.AllStatic) : table.run second events = .ok next := by
  induction events generalizing table trail with
  | nil => exact hOk
  | cons event events ih =>
      obtain ⟨middle, hMiddle, hRest⟩ := exists_of_bind_ok hOk
      have hMiddleFollows := follows_apply hFollows (fits_signalFor table event) hMiddle
      have hStatic := (h.of_run hMiddleFollows hRest).of_apply hFollows hMiddle
      have hApply : table.apply second event = .ok middle := by
        by_cases hLeave : ∃ block, event = .leave block
        · obtain ⟨block, rfl⟩ := hLeave
          obtain ⟨hSplit, -⟩ := closes_leaveAll hFollows.nested hMiddle
          exact (leaves_congr_of_allStatic hModule (table.leaving block)
            (hSplit ▸ hFollows.nested) hSplit hStatic).symm.trans hMiddle
        · rw [← apply_congr_of_ne_leave hAlike table fun block hEq => hLeave ⟨block, hEq⟩]
          exact hMiddle
      rw [run_cons, hApply]
      exact ih hMiddleFollows hRest

/-- An analysis that meets no dynamic scope is the same under settings that differ in
nothing else. -/
theorem analyze_of_allStatic (hRead : first.ReadAlike second) (hAlike : first.OpenAlike second)
    (hOk : analyze first tree = .ok table) (h : table.AllStatic) :
    analyze second tree = .ok table := by
  obtain ⟨hStack, -, -, hRun⟩ := spec_of_analyze_eq_ok hOk
  have hOther := run_of_allStatic hAlike hRead.isModule follows_empty hRun h
  rw [analyze, ← programEvents_congr hRead, hOther]
  change (if table.stack.isEmpty = true then _ else _) = _
  rw [hStack]
  rfl

/-! A scope that does not stop a reference treats it alike in both analyses. -/

namespace SameProgram

/-- Two tables of one program have the same scopes with the same names. -/
theorem scope_outline (h : SameProgram table other) (position : ScopeId) :
    other.scopes[position]?.map Scope.outline = table.scopes[position]?.map Scope.outline := by
  rw [← Array.getElem?_map, ← Array.getElem?_map, h.scopes]

theorem exists_scope (h : SameProgram table other) {owner : Scope}
    (hOwner : table.scopes[position]? = some owner) :
    ∃ later, other.scopes[position]? = some later ∧ later.outline = owner.outline := by
  have hSame := h.scope_outline position
  rw [hOwner, Option.map_some] at hSame
  exact Option.map_eq_some_iff.1 hSame

/-- They have the same references, though these may mean other variables. -/
theorem exists_reference (h : SameProgram table other)
    (hFound : table.references[id]? = some reference) :
    ∃ later, other.references[id]? = some later ∧ later.outline = reference.outline := by
  have hSame : (other.references.map Reference.outline)[id]? =
      (table.references.map Reference.outline)[id]? := by rw [h.references]
  rw [Array.getElem?_map, Array.getElem?_map, hFound, Option.map_some] at hSame
  exact Option.map_eq_some_iff.1 hSame

/-- A name that a scope declares is that of one variable in both. -/
theorem exists_variable (h : SameProgram table other) (hNamed : table.Named) {var : VariableId}
    {declared : Variable} (hDeclared : table.variables[var]? = some declared)
    (hListed : table.Listed Scope.variables var) :
    ∃ later, other.variables[var]? = some later ∧ later.outline = declared.outline := by
  obtain ⟨count, hSame, hImplicit, -⟩ := h.variables
  have hLt : var < count := by
    by_contra hNot
    exact hNamed.apart var hListed
      ((hImplicit var).2 ⟨Nat.not_lt.1 hNot, (Array.getElem?_eq_some_iff.1 hDeclared).1⟩)
  have hVar := hSame var hLt
  rw [hDeclared, Option.map_some] at hVar
  exact Option.map_eq_some_iff.1 hVar.symm

theorem upper?_eq (h : SameProgram table other) (position : ScopeId) :
    other.upper? position = table.upper? position := by
  have hScopes : other.outline.scopes = table.outline.scopes := h.scopes.symm
  rw [← upper?_outline, ← @upper?_outline table, upper?, upper?, hScopes]

theorem enclosing_eq (h : SameProgram table other) (position : ScopeId) :
    other.enclosing position = table.enclosing position :=
  enclosing_congr fun inner _ => h.upper?_eq inner

theorem variableScope_eq (h : SameProgram table other) (position : ScopeId) :
    other.variableScope position = table.variableScope position := by
  have hScopes : other.outline.scopes = table.outline.scopes := h.scopes.symm
  rw [← variableScope_outline, ← @variableScope_outline table, variableScope, variableScope,
    hScopes]

/-- A scope finds the same variable under a name in both. -/
theorem lookup?_eq (h : SameProgram table other) (scope : ScopeId) (name : String) :
    other.lookup? scope name = table.lookup? scope name := by
  cases hOwner : table.scopes[scope]? with
  | none =>
      have hNone := h.scope_outline scope
      rw [hOwner, Option.map_none, Option.map_eq_none_iff] at hNone
      simp only [lookup?, hOwner, hNone, Option.bind_none]
  | some owner =>
      obtain ⟨later, hLater, hOutline⟩ := h.exists_scope hOwner
      obtain ⟨-, -, -, -, hNames⟩ := Scope.eq_of_outline_eq hOutline
      simp only [lookup?, hOwner, hLater, Option.bind_some, hNames]

/-- What a scope has under a name is one variable in both. -/
theorem ownVariable?_cases (h : SameProgram table other) (hPlaced : Placed table)
    (hNamed : table.Named) (scope : ScopeId) (name : String) :
    (table.ownVariable? scope name = none ∧ other.ownVariable? scope name = none) ∨
      ∃ var declared later, table.ownVariable? scope name = some (var, declared) ∧
        other.ownVariable? scope name = some (var, later) ∧ later.outline = declared.outline := by
  have hLookup := h.lookup?_eq scope name
  cases hFound : table.lookup? scope name with
  | none => exact .inl ⟨by simp [ownVariable?, hFound], by simp [ownVariable?, hLookup, hFound]⟩
  | some var =>
      obtain ⟨owner, hOwner, hMem⟩ := hPlaced.exists_scope_of_lookup? hFound
      obtain ⟨declared, hDeclared, -⟩ := hPlaced.listed scope owner hOwner var (.inl hMem)
      obtain ⟨later, hLater, hSame⟩ := h.exists_variable hNamed hDeclared ⟨scope, owner, hOwner, hMem⟩
      exact .inr ⟨var, declared, later, ownVariable?_eq_some.2 ⟨hFound, hDeclared⟩,
        ownVariable?_eq_some.2 ⟨hLookup.trans hFound, hLater⟩, hSame⟩

end SameProgram

/-- A scope without names finds nothing under a name. -/
theorem ownVariable?_eq_none (hPlaced : Placed table) {owner : Scope}
    (hOwner : table.scopes[scope]? = some owner) (hNone : owner.variables = #[]) (name : String) :
    table.ownVariable? scope name = none := by
  simp [ownVariable?, hPlaced.lookup?_eq, lookupIn, hOwner, hNone]

/-- What the dynamic global scope does not stop it treats as a static one does. -/
theorem verdict_of_global_ne_stop {owner : Scope} (hOwner : table.scopes[scope]? = some owner)
    (hFound : table.references[id]? = some reference) (hKind : owner.kind = .global)
    (hDynamic : owner.dynamic = true) (hPessimistic : settings.options.optimistic = false)
    (hStop : table.verdict settings scope id ≠ .stop) :
    table.verdict settings scope id =
      match table.ownVariable? scope reference.identifier.name with
      | some (var, _) => .binds var
      | none => .outward := by
  rw [verdict_of_dynamic_global hOwner hFound hKind hDynamic hPessimistic] at hStop ⊢
  by_cases hModule : settings.isModule = true
  · refine (if_pos hModule).trans ?_
    cases table.ownVariable? scope reference.identifier.name <;> rfl
  · rw [if_neg hModule] at hStop ⊢
    cases hOwn : table.ownVariable? scope reference.identifier.name with
    | none => simp [hOwn] at hStop
    | some own =>
        have hFixed : own.2.IsFixed := by
          by_contra hFree
          simp [hOwn, hFree] at hStop
        exact if_pos hFixed

/-- No body of a `with` declares a name. -/
def NamelessWith (table : SymbolTable) : Prop :=
  ∀ (position : ScopeId) (body : Scope), table.scopes[position]? = some body →
    body.kind = .withBody → body.variables = #[]

/-- Unless it stops a reference, a scope does to it what it does in an optimistic
analysis. -/
theorem verdict_optimistically (h : SameProgram table other) (hPlaced : Placed table)
    (hOtherPlaced : Placed other) (hNamed : table.Named) (hNameless : table.NamelessWith)
    (hPessimistic : settings.options.optimistic = false)
    (hFound : table.references[id]? = some reference)
    (hStop : table.verdict settings scope id ≠ .stop) :
    other.verdict settings.optimistically scope id = table.verdict settings scope id := by
  cases hOwner : table.scopes[scope]? with
  | none => exact absurd (by simp [verdict, hOwner]) hStop
  | some owner =>
      obtain ⟨later, hLater, hOutline⟩ := h.exists_scope hOwner
      obtain ⟨after, hAfter, hUse⟩ := h.exists_reference hFound
      obtain ⟨hKind, hBlock, hStart, -⟩ := Scope.eq_of_outline_eq hOutline
      have hIdentifier : after.identifier = reference.identifier := by
        rw [(Reference.eq_of_outline_eq hUse).1]
      have hHides : ∀ {var declared : Variable}, var.outline = declared.outline →
          (later.HidesUntilBody id var ↔ owner.HidesUntilBody id declared) := fun hSame =>
        Scope.hidesUntilBody_congr hKind hBlock hStart (Variable.eq_of_outline_eq hSame).2.1
      rw [verdict_of_static hLater hAfter (hOtherPlaced.with_dynamic scope later hLater) (.inr rfl),
        hIdentifier]
      have hStaticRule := h.ownVariable?_cases hPlaced hNamed scope reference.identifier.name
      by_cases hBody : owner.kind = .withBody
      · -- The body of a `with` lets every name out, and declares none.
        have hOwn := ownVariable?_eq_none hPlaced hOwner (hNameless scope owner hOwner hBody)
          reference.identifier.name
        obtain ⟨-, hOther⟩ | ⟨_, _, _, hSome, -⟩ := hStaticRule
        · simp [verdict, hOwner, hFound, hBody, hPessimistic, hOther]
        · cases hOwn.symm.trans hSome
      · by_cases hDynamic : owner.dynamic = true
        · by_cases hGlobal : owner.kind = .global
          · have hVisible := @not_hidesUntilBody_of_global id later (hKind.trans hGlobal)
            rw [verdict_of_global_ne_stop hOwner hFound hGlobal hDynamic hPessimistic hStop]
            obtain ⟨hOwn, hOther⟩ | ⟨var, declared, found, hOwn, hOther, -⟩ := hStaticRule
            · rw [hOwn, hOther]
            · simp [hOwn, hOther, hVisible]
          · exact absurd (by simp [verdict, hOwner, hFound, hBody, hGlobal, hDynamic, hPessimistic])
              hStop
        · rw [verdict_of_static hOwner hFound (fun hKind => absurd hKind hBody)
            (.inl (by simpa using hDynamic))]
          obtain ⟨hOwn, hOther⟩ | ⟨var, declared, found, hOwn, hOther, hSame⟩ := hStaticRule
          · rw [hOwn, hOther]
          · simp only [hOwn, hOther, hHides hSame]

/-- What a search finds an optimistic search finds. -/
theorem meaning_optimistically (h : SameProgram table other) (hPlaced : Placed table)
    (hOtherPlaced : Placed other) (hNamed : table.Named) (hNameless : table.NamelessWith)
    (hPessimistic : settings.options.optimistic = false)
    (hFound : table.references[id]? = some reference) {scopes : List ScopeId} {var : VariableId}
    (hMeans : table.meaning settings id scopes = some var) :
    other.meaning settings.optimistically id scopes = some var := by
  induction scopes with
  | nil => cases hMeans
  | cons scope scopes ih =>
      rw [meaning] at hMeans
      have hSame : table.verdict settings scope id ≠ .stop →
          other.verdict settings.optimistically scope id = table.verdict settings scope id :=
        verdict_optimistically h hPlaced hOtherPlaced hNamed hNameless hPessimistic hFound
      cases hVerdict : table.verdict settings scope id with
      | stop => simp [hVerdict] at hMeans
      | binds bound =>
          rw [hVerdict] at hMeans hSame
          rw [meaning, hSame (by simp)]
          exact hMeans
      | outward =>
          rw [hVerdict] at hMeans hSame
          rw [meaning, hSame (by simp)]
          exact ih hMeans

/-- A reference that resolves does so to a variable that a scope declares. -/
theorem Settled.exists_declared (h : Settled settings table id reference)
    (hPlaced : Placed table) {var : VariableId}
    (hResolved : reference.resolved = some var) :
    ∃ declared, table.variables[var]? = some declared ∧ table.Listed Scope.variables var := by
  cases h with
  | lost passed hidden course stops unresolved foot => cases unresolved.symm.trans hResolved
  | resolved passed around scope found course binds resolved foot =>
      cases resolved.symm.trans hResolved
      obtain ⟨_, declared, -, hLookup, hDeclared⟩ := exists_of_verdict_binds binds
      obtain ⟨owner, hOwner, hMem⟩ := hPlaced.exists_scope_of_lookup? hLookup
      exact ⟨declared, hDeclared, scope, owner, hOwner, hMem⟩

/-- An optimistic analysis finds the same scopes, declared variables and uses. If no
body of a `with` declares a name, it resolves whatever the other resolves, to the
same variable and with the same dead zone. If every scope is static it is the same. -/
theorem optimistically_adds (hPessimistic : settings.options.optimistic = false)
    (hOk : analyze settings tree = .ok table)
    (hOther : analyze settings.optimistically tree = .ok other) :
    SameProgram table other ∧
    (table.NamelessWith → ∀ (id : ReferenceId) (reference : Reference),
      table.references[id]? = some reference → ∀ var, reference.resolved = some var →
        ∃ later, other.references[id]? = some later ∧ later.resolved = some var ∧
          later.inDeadZone = reference.inDeadZone ∧
          ∃ declared found, table.variables[var]? = some declared ∧
            other.variables[var]? = some found ∧ found.outline = declared.outline) ∧
    (table.AllStatic → other = table) := by
  have hSame := sameProgram_of_analyze settings.readAlike_optimistically
    settings.openAlike_optimistically hOk hOther
  have hPlaced := (spec_of_analyze_eq_ok hOk).2.1.toPlaced
  have hOtherPlaced := (spec_of_analyze_eq_ok hOther).2.1.toPlaced
  have hNamed := (chronicle_of_analyze_eq_ok hOk).named
  refine ⟨hSame, fun hNameless id reference hFound var hResolved => ?_, fun hStatic => ?_⟩
  · have hSettled := settled_of_analyze_eq_ok hOk hFound
    obtain ⟨later, hLater, hOutline⟩ := hSame.exists_reference hFound
    obtain ⟨hUse, hScope⟩ := Reference.eq_of_outline_eq hOutline
    -- The search outward comes by the same scopes, and ends at the same one.
    have hMeans : later.resolved = some var := by
      rw [(settled_of_analyze_eq_ok hOther hLater).resolved_eq, hScope, hSame.enclosing_eq]
      exact meaning_optimistically hSame hPlaced hOtherPlaced hNamed hNameless hPessimistic hFound
        (hSettled.resolved_eq.symm.trans hResolved)
    obtain ⟨declared, hDeclared, hListed⟩ := hSettled.exists_declared hPlaced hResolved
    obtain ⟨found, hVar, hVariable⟩ := hSame.exists_variable hNamed hDeclared hListed
    obtain ⟨hName, hDefinitions, hEnded⟩ := Variable.eq_of_outline_eq hVariable
    have hHome : found.scope = declared.scope :=
      show found.outline.scope = declared.outline.scope by rw [hVariable]
    obtain ⟨_, -, hKnown, -, -, hZone⟩ :=
      (allJudged_of_analyze_eq_ok hOk id reference hFound).resolved var hResolved
    obtain ⟨_, -, hOtherKnown, -, -, hOtherZone⟩ :=
      (allJudged_of_analyze_eq_ok hOther id later hLater).resolved var hMeans
    cases hKnown.symm.trans hDeclared
    cases hOtherKnown.symm.trans hVar
    refine ⟨later, hLater, hMeans, ?_, declared, found, hDeclared, hVar, hVariable⟩
    rw [hOtherZone, hZone, hHome]
    exact isInDeadZone_congr (by rw [hUse]) hScope (hSame.variableScope_eq _)
      (hSame.variableScope_eq _) hDefinitions (by rw [hEnded])
  · have hAgain := analyze_of_allStatic settings.readAlike_optimistically
      settings.openAlike_optimistically hOk hStatic
    exact Except.ok.inj (hOther.symm.trans hAgain)

/-- The program `let x; var y; x; y`, and what comes after that. -/
def namesUsed (more : List Json) : Tree where
  root := {
    location := []
    kind := "Program"
    entries := [("type", .string "Program"), ("body", .array ([
      declaration "let" "x", declaration "var" "y", statement (identifier "x"),
      statement (identifier "y")] ++ more))] }
where
  identifier (name : String) : Json :=
    .object [("type", .string "Identifier"), ("name", .string name)]
  statement (expression : Json) : Json :=
    .object [("type", .string "ExpressionStatement"), ("expression", expression)]
  declaration (keyword name : String) : Json :=
    .object [("type", .string "VariableDeclaration"), ("kind", .string keyword),
      ("declarations", .array [
        .object [("type", .string "VariableDeclarator"), ("id", identifier name)]])]

/-- The program `let x; var y; x; y; eval()`. -/
def namesBesideEval : Tree :=
  namesUsed [namesUsed.statement (.object [("type", .string "CallExpression"),
    ("callee", namesUsed.identifier "eval"), ("arguments", .array [])])]

/-- The `let` is resolved in both analyses, and the `var` in the optimistic one only,
since the eval can declare it once more. Without the eval both are the same. -/
theorem optimistically_adds_namesBesideEval :
    (∃ table other, analyze ⟨{}, 9⟩ namesBesideEval = .ok table ∧
      analyze (Settings.optimistically ⟨{}, 9⟩) namesBesideEval = .ok other ∧
      table.references.map Reference.resolved = #[some 0, none, none] ∧
      other.references.map Reference.resolved = #[some 0, some 1, none] ∧
      SameProgram table other ∧ table.NamelessWith ∧
      ∀ (id : ReferenceId) (reference : Reference), table.references[id]? = some reference →
        ∀ var, reference.resolved = some var →
          ∃ later, other.references[id]? = some later ∧ later.resolved = some var ∧
            later.inDeadZone = reference.inDeadZone ∧
            ∃ declared found, table.variables[var]? = some declared ∧
              other.variables[var]? = some found ∧ found.outline = declared.outline) ∧
    ∃ table other, analyze ⟨{}, 9⟩ (namesUsed []) = .ok table ∧
      analyze (Settings.optimistically ⟨{}, 9⟩) (namesUsed []) = .ok other ∧
      table.references.map Reference.resolved = #[some 0, some 1] ∧
      table.AllStatic ∧ other = table := by
  have hAnalyze : (analyze ⟨{}, 9⟩ namesBesideEval).toOption.map (fun table =>
      (table.references.map Reference.resolved, table.scopes.map Scope.kind)) =
        some (#[some 0, none, none], #[.global]) := by
    decide +kernel
  have hAgain : (analyze (Settings.optimistically ⟨{}, 9⟩) namesBesideEval).toOption.map
      (fun table => table.references.map Reference.resolved) =
        some #[some 0, some 1, none] := by
    decide +kernel
  have hPlain : (analyze ⟨{}, 9⟩ (namesUsed [])).toOption.map (fun table =>
      (table.references.map Reference.resolved, table.scopes.map Scope.dynamic)) =
        some (#[some 0, some 1], #[false]) := by
    decide +kernel
  have hPlainAgain : (analyze (Settings.optimistically ⟨{}, 9⟩) (namesUsed [])).toOption.map
      (fun table => table.references.map Reference.resolved) = some #[some 0, some 1] := by
    decide +kernel
  constructor
  · obtain ⟨table, hOk, hObserved⟩ := exists_of_map_toOption _ hAnalyze
    obtain ⟨other, hOther, hResolved⟩ := exists_of_map_toOption _ hAgain
    obtain ⟨hReferences, hKinds⟩ := Prod.mk.inj hObserved
    have hNameless : table.NamelessWith := fun position body hBody hKind => by
      have hMem : body.kind ∈ table.scopes.map Scope.kind :=
        Array.mem_map_of_mem (Array.mem_of_getElem? hBody)
      rw [hKinds, hKind] at hMem
      simp at hMem
    obtain ⟨hSame, hAdds, -⟩ := optimistically_adds rfl hOk hOther
    exact ⟨table, other, hOk, hOther, hReferences, hResolved, hSame, hNameless, hAdds hNameless⟩
  · obtain ⟨table, hOk, hObserved⟩ := exists_of_map_toOption _ hPlain
    obtain ⟨other, hOther, -⟩ := exists_of_map_toOption _ hPlainAgain
    obtain ⟨hReferences, hDynamic⟩ := Prod.mk.inj hObserved
    have hStatic : table.AllStatic := fun position scope hScope => by
      have hMem : scope.dynamic ∈ table.scopes.map Scope.dynamic :=
        Array.mem_map_of_mem (Array.mem_of_getElem? hScope)
      rw [hDynamic] at hMem
      simpa using hMem
    exact ⟨table, other, hOk, hOther, hReferences, hStatic,
      (optimistically_adds rfl hOk hOther).2.2 hStatic⟩

end SymbolTable

end Scoping
