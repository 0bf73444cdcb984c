import Scoping.Proofs.Placement.Definitions
import Scoping.Proofs.Placement.Remarks
import Scoping.Proofs.Resolution.Static

/-! The scopes that a call of eval makes dynamic. The walk marks them as it meets the call,
while some scopes are closed and others are still to be opened. In the end the marks are those
that the calls and the nesting of the scopes tell. -/

namespace Scoping.SymbolTable

variable {settings : Settings} {table next : SymbolTable} {tree : Tree} {trail : Trail}
  {event : Event} {events past future : List Event} {position : ScopeId} {before owner : Scope}

/-- An event leaves a closed scope closed, and dynamic or not as it was. -/
theorem dynamic_of_closed_apply (h : Follows table trail)
    (hOk : table.apply settings event = .ok next)
    (hBefore : table.scopes[position]? = some before) (hClosed : before.isClosed = true) :
    ∃ after, next.scopes[position]? = some after ∧ after.isClosed = true ∧
      after.dynamic = before.dynamic := by
  obtain ⟨after, hAfter, hChanges⟩ := changes_apply h hOk hBefore
  have hNone : before.pending = none := Option.isNone_iff_eq_none.1 hClosed
  have hApart : position ∉ trail.outward := fun hMem => by
    have hOpen := Trail.mem_of_mem_outward hMem
    rw [← h.stack, ← h.nested.open_iff position before hBefore, hNone] at hOpen
    cases hOpen
  refine ⟨after, hAfter, Option.isNone_iff_eq_none.2 (hChanges.closed hNone), ?_⟩
  rw [Bool.eq_iff_iff, hChanges.dynamic]
  exact or_iff_left fun hEval => hApart hEval.2

theorem dynamic_of_closed_run (h : Follows table trail) (hOk : table.run settings events = .ok next)
    (hBefore : table.scopes[position]? = some before) (hClosed : before.isClosed = true) :
    ∃ after, next.scopes[position]? = some after ∧ after.isClosed = true ∧
      after.dynamic = before.dynamic := by
  induction events generalizing table trail before with
  | nil =>
      cases hOk
      exact ⟨before, hBefore, hClosed, rfl⟩
  | cons event events ih =>
      obtain ⟨middle, hMiddle, hRest⟩ := exists_of_bind_ok hOk
      obtain ⟨between, hBetween, hStill, hSame⟩ := dynamic_of_closed_apply h hMiddle hBefore hClosed
      obtain ⟨after, hAfter, hEnd, hEq⟩ :=
        ih (follows_apply h (fits_signalFor table event) hMiddle) hRest hBetween hStill
      exact ⟨after, hAfter, hEnd, hEq.trans hSame⟩

/-- Where a `var` goes, as the walk comes to an event, is where it goes from the current scope
in the finished table. -/
theorem holder?_eq_some_iff (hOk : analyze settings tree = .ok table)
    (hArrives : Arrives settings tree.root past (.emit event) future) :
    (Trail.after settings past).holder? = some position ↔
      ∃ current, CurrentAfter settings past current ∧ table.variableScope current = position := by
  obtain ⟨middle, hMiddle, -⟩ :=
    exists_run_of_append (hArrives.events_eq ▸ (spec_of_analyze_eq_ok hOk).2.2.2)
  have hHolder : ∀ {head : Frame} {rest : Trail}, Trail.after settings past = head :: rest →
      table.variableScope head.scope = head.holder := fun hTrail =>
    (chronicle_of_analyze_eq_ok hOk).openings.variableScope_eq (entry_mem_programLog hArrives)
      (hTrail ▸ List.mem_cons_self)
  constructor
  · intro hHead
    obtain ⟨head, hFrame, rfl⟩ := Option.map_eq_some_iff.1 hHead
    obtain ⟨rest, hTrail⟩ := List.head?_eq_some_iff.1 hFrame
    exact ⟨head.scope, currentAfter_of_cons hMiddle hTrail, hHolder hTrail⟩
  · rintro ⟨current, ⟨same, hSame, hCurrent⟩, rfl⟩
    obtain ⟨head, rest, hTrail, rfl⟩ := (follows_after hSame).head hCurrent
    rw [hHolder hTrail, hTrail]
    rfl

/-- A call of eval is noted for the scope that a `var` in its place would go to, and nothing
else is. -/
theorem directEval_iff (hOk : analyze settings tree = .ok table)
    (hOwner : table.scopes[position]? = some owner) :
    owner.directEval = true ↔ ∃ past inMethod node future,
      Arrives settings tree.root past (.visit inMethod node) future ∧ node.CallsEval settings ∧
        ∃ current, CurrentAfter settings past current ∧ table.variableScope current = position := by
  rw [(chronicle_of_analyze_eq_ok hOk).flags.directEval position owner hOwner,
    exists_holdsAt_iff (show Event.IsRemark .directEval from trivial)]
  simp only [Walker.mem_directEval_iff]
  refine exists_congr fun past => exists_congr fun inMethod => exists_congr fun node =>
    exists_congr fun future => and_congr_right fun hVisit => and_congr_right fun hCalls => ?_
  obtain ⟨later, hArrives⟩ := hVisit.remark (show Event.IsRemark .directEval from trivial)
    (Walker.mem_directEval_iff.2 hCalls)
  exact holder?_eq_some_iff hOk hArrives

/-- Which scopes of a table are dynamic. -/
structure DynamicByEval (settings : Settings) (root : Node) (table : SymbolTable) : Prop where
  upper_lt : table.UppersFall
  /-- A scope has a direct eval if the walk visits a call of eval, and a `var` there goes to the
  scope. -/
  directEval : ∀ (position : ScopeId) (owner : Scope), table.scopes[position]? = some owner →
    (owner.directEval = true ↔ ∃ past inMethod node future,
      Arrives settings root past (.visit inMethod node) future ∧ node.CallsEval settings ∧
        ∃ current, CurrentAfter settings past current ∧ table.variableScope current = position)
  dynamic : ∀ (position : ScopeId) (owner : Scope), table.scopes[position]? = some owner →
    (owner.dynamic = true ↔ owner.kind = .withBody ∨ ∃ inner evaluated,
      table.scopes[inner]? = some evaluated ∧ evaluated.directEval = true ∧
        position ∈ table.enclosing inner)
  /-- All that is around a dynamic scope is dynamic, unless that is the body of a `with`. -/
  around : ∀ (position : ScopeId) (owner : Scope), table.scopes[position]? = some owner →
    owner.dynamic = true → owner.kind ≠ .withBody → ∀ outer ∈ table.enclosing position,
      ∃ surrounding, table.scopes[outer]? = some surrounding ∧ surrounding.dynamic = true
  /-- From the time at which a scope is closed its mark stays. -/
  closed : ∀ (past between future : List Event) (middle later : SymbolTable),
    programEvents settings root = past ++ (between ++ future) →
      ({} : SymbolTable).run settings past = .ok middle → middle.run settings between = .ok later →
        ∀ (position : ScopeId) (before : Scope), middle.scopes[position]? = some before →
          before.isClosed = true → ∃ after, later.scopes[position]? = some after ∧
            after.isClosed = true ∧ after.dynamic = before.dynamic

/-- The dynamic scopes of every program are determined by its calls of eval and by how its
scopes are nested, whatever the order in which the walk has come to them. -/
theorem dynamic_determined (hOk : analyze settings tree = .ok table) :
    DynamicByEval settings tree.root table where
  upper_lt := (spec_of_analyze_eq_ok hOk).2.1.upper_lt
  directEval := fun _ _ hOwner => directEval_iff hOk hOwner
  dynamic := fun _ _ hOwner => (chronicle_of_analyze_eq_ok hOk).dynamic_iff hOwner
  around := fun position owner hOwner hDynamic hKind outer hOuter => by
    have hChronicle := chronicle_of_analyze_eq_ok hOk
    obtain ⟨inner, evaluated, hInner, hEval, hMem⟩ :=
      ((hChronicle.dynamic_iff hOwner).1 hDynamic).resolve_left hKind
    have hLt := Nat.lt_of_le_of_lt (le_of_mem_enclosing hOuter) (lt_of_getElem?_scopes hOwner)
    have hSurrounding := Array.getElem?_eq_getElem hLt
    exact ⟨_, hSurrounding, (hChronicle.dynamic_iff hSurrounding).2
      (.inr ⟨inner, evaluated, hInner, hEval, enclosing_subset_of_mem hMem hOuter⟩)⟩
  closed := fun _ _ _ _ _ _ hMiddle hLater _ _ hBefore hClosed =>
    dynamic_of_closed_run (follows_after hMiddle) hLater hBefore hClosed

/-- The program `function f() { with (x) eval() } function g() {}`. -/
def evalThroughWith : Tree where
  root := {
    location := []
    kind := "Program"
    entries := [("type", .string "Program"), ("body", .array [
      function "f" [.object [("type", .string "WithStatement"), ("object", identifier "x"),
        ("body", .object [("type", .string "ExpressionStatement"), ("expression", .object [
          ("type", .string "CallExpression"), ("callee", identifier "eval"),
          ("arguments", .array [])])])]],
      function "g" []])] }
where
  identifier (text : String) : Json := .object [("type", .string "Identifier"), ("name", .string text)]
  function (name : String) (body : List Json) : Json :=
    .object [("type", .string "FunctionDeclaration"), ("id", identifier name), ("params", .array []),
      ("body", .object [("type", .string "BlockStatement"), ("body", .array body)])]

/-- The call concerns the function around the `with`, but not the block between them. -/
theorem dynamic_determined_evalThroughWith :
    ∃ table, analyze ⟨{}, 9⟩ evalThroughWith = .ok table ∧
      table.scopes.map (fun scope => (scope.kind, scope.directEval, scope.dynamic)) =
        #[(.global, false, true), (.function, true, true), (.block, false, false),
          (.withBody, false, true), (.function, false, false), (.block, false, false)] ∧
      DynamicByEval ⟨{}, 9⟩ evalThroughWith.root table := by
  have hAnalyze : (analyze ⟨{}, 9⟩ evalThroughWith).toOption.map (fun table =>
      table.scopes.map fun scope => (scope.kind, scope.directEval, scope.dynamic)) =
        some #[(.global, false, true), (.function, true, true), (.block, false, false),
          (.withBody, false, true), (.function, false, false), (.block, false, false)] := by
    decide +kernel
  obtain ⟨table, hOk, hScopes⟩ := exists_of_map_toOption _ hAnalyze
  exact ⟨table, hOk, hScopes, dynamic_determined hOk⟩

end Scoping.SymbolTable
