import Scoping.Proofs.Placement.Definitions
import Scoping.Proofs.Walk.Openings
import Scoping.Proofs.Walk.Uses

/-! Where the name of a function declaration goes. The documented policy is
stated here by itself. From edition 6 on it is met; before, it is missed in every
scope that is no block and that a `var` does not stay in. -/

namespace Scoping

variable {settings : Settings} {root node name : Node} {past future : List Event}
  {inMethod : Bool} {task : Task}

namespace SymbolTable

variable {table next : SymbolTable} {tree : Tree} {trail : Trail} {position current : ScopeId}
  {scope : Scope}

/-- No visit opens a global scope. -/
theorem enterGlobal_not_mem_visit (hOk : analyze settings tree = .ok table)
    (h : Arrives settings tree.root past (.visit inMethod node) future) (block : Node) (flag : Bool) :
    .enter .global block flag ∉ Task.events settings (.visit inMethod node) := by
  intro hMem
  obtain ⟨before, after, hSplit⟩ := List.append_of_mem hMem
  have hEvents := h.events
  rw [hSplit, List.append_assoc, List.cons_append, ← List.append_assoc] at hEvents
  have hRun := (spec_of_analyze_eq_ok hOk).2.2.2
  rw [hEvents] at hRun
  have hNil := eq_nil_of_enter_global (arrives_of_events hEvents) hRun
  exact h.ne_nil_of_visit (List.append_eq_nil_iff.1 hNil).1

/-- Once the visits have begun, nothing says any more whether a scope is strict. -/
theorem setStrict_not_mem (hOk : analyze settings tree = .ok table)
    (h : Arrives settings tree.root past (.visit inMethod node) future) (strict : Bool) :
    .setStrict strict ∉ Task.events settings (.visit inMethod node) ++ future := by
  have hRun := (spec_of_analyze_eq_ok hOk).2.2.2
  rw [h.events] at hRun
  exact setStrict_not_mem_of_run strict (h.events.trans (List.append_nil _).symm) h.openings_prefix
    hRun

/-- As long as nothing says otherwise, a scope is as strict as it was. -/
theorem strict_run {events : List Event} (hFollows : Follows table trail)
    (hNone : ∀ strict, .setStrict strict ∉ events) (hOk : table.run settings events = .ok next)
    {before : Scope} (hBefore : table.scopes[position]? = some before) :
    ∃ after, next.scopes[position]? = some after ∧ after.strict = before.strict := by
  induction events generalizing table trail before with
  | nil =>
      cases hOk
      exact ⟨before, hBefore, rfl⟩
  | cons event events ih =>
      obtain ⟨middle, hMiddle, hRest⟩ := exists_of_bind_ok hOk
      obtain ⟨between, hBetween, hChanges⟩ := changes_apply hFollows hMiddle hBefore
      obtain ⟨after, hAfter, hSame⟩ := ih
        (follows_apply hFollows (fits_signalFor table event) hMiddle)
        (fun strict hMem => hNone strict (List.mem_cons_of_mem _ hMem)) hRest hBetween
      refine ⟨after, hAfter, hSame.trans ?_⟩
      rcases hChanges.strict with hKept | ⟨-, hEvent⟩
      · exact hKept
      · subst hEvent
        exact absurd List.mem_cons_self (hNone _)

/-- Nor does what is left of a visit, from one of its events on. -/
theorem setStrict_not_mem_inside (hOk : analyze settings tree = .ok table)
    (hVisit : Arrives settings tree.root past (.visit inMethod node) future)
    {before after : List Task} {event : Event}
    (hTasks : Walker.tasks { settings, inMethod } node = before ++ .emit event :: after)
    (strict : Bool) :
    .setStrict strict ∉ event :: (after.flatMap (Task.events settings) ++ future) := by
  intro hMem
  refine setStrict_not_mem hOk hVisit strict ?_
  rw [Task.events_visit, hTasks, List.flatMap_append, List.flatMap_cons, Task.events_emit]
  simp only [List.append_assoc, List.singleton_append]
  exact List.mem_append_right _ hMem

/-- The finished table tells of a scope what the walk finds there when it comes to
an event, if nothing says any more whether a scope is strict. -/
theorem describes_of_emit (hOk : analyze settings tree = .ok table) {event : Event}
    (h : Arrives settings tree.root past (.emit event) future)
    (hNone : ∀ strict, .setStrict strict ∉ event :: future) {frame : Frame}
    (hFrame : frame ∈ Trail.after settings past) :
    ∃ scope, table.scopes[frame.scope]? = some scope ∧ frame.Describes scope := by
  have hRun := (spec_of_analyze_eq_ok hOk).2.2.2
  rw [h.events_eq] at hRun
  obtain ⟨middle, hMiddle, hRest⟩ := exists_run_of_append hRun
  obtain ⟨scope, hScope, hPlaces⟩ := (chronicle_of_analyze_eq_ok hOk).openings.frames _
    (entry_mem_programLog h) frame hFrame
  obtain ⟨before, hBefore, hDescribes⟩ := (follows_after hMiddle).frame frame hFrame
  obtain ⟨after, hAfter, hStrict⟩ := strict_run (follows_after hMiddle) hNone hRest hBefore
  cases hAfter.symm.trans hScope
  exact ⟨scope, hScope, hPlaces.kind, hPlaces.block, hPlaces.upper, hPlaces.variableScope,
    hStrict.trans hDescribes.strict⟩

/-- The finished table tells of a scope what the walk finds there when it comes to
a visit. -/
theorem describes_of_visit (hOk : analyze settings tree = .ok table)
    (h : Arrives settings tree.root past (.visit inMethod node) future)
    (hEvents : Task.events settings (.visit inMethod node) ≠ []) {frame : Frame}
    (hFrame : frame ∈ Trail.after settings past) :
    ∃ scope, table.scopes[frame.scope]? = some scope ∧ frame.Describes scope := by
  obtain ⟨event, rest, hCons⟩ := List.exists_cons_of_ne_nil hEvents
  have hNone := setStrict_not_mem hOk h
  have hSplit := h.events
  rw [hCons, List.cons_append] at hSplit hNone
  exact describes_of_emit hOk (arrives_of_events hSplit) hNone hFrame

/-- The function whose body a block is. -/
def bodyOf? (table : SymbolTable) (scope : Scope) : Option ScopeId :=
  scope.upper.filter fun upper => table.scopes[upper]?.any fun function =>
    function.kind = .function && function.block.child? "body" == some scope.block

/-- Where a function declaration in a scope is documented to have its name:
before edition 6 always where a `var` goes, and from then on in the function for
one in the body of a function, by the policy for one in any other block or in a
switch, and in the scope itself elsewhere. -/
def documentedScope (settings : Settings) (table : SymbolTable) (current : ScopeId)
    (scope : Scope) : ScopeId :=
  if settings.edition < 6 then table.variableScope current
  else
    let byPolicy :=
      if settings.options.blockFunctions = .lexical ∨ scope.strict = true then current
      else table.variableScope current
    match scope.kind with
    | .block => (table.bodyOf? scope).getD byPolicy
    | .switchBody => byPolicy
    | _ => current

/-- A scope has the name of a function, as its declaration defines it. -/
def BindsFunction (table : SymbolTable) (position : ScopeId) (node name : Node) : Prop :=
  ∃ (var : VariableId) (declared : Variable), table.lookup? position name.name = some var ∧
    table.variables[var]? = some declared ∧ declared.scope = position ∧
    declared.name = name.name ∧ ∃ definition ∈ declared.definitions,
      definition.kind = .functionName ∧ definition.name = name ∧ definition.node = node

theorem isFunctionBody_eq (table : SymbolTable) (scope : Scope) :
    table.isFunctionBody scope = (table.bodyOf? scope).isSome := by
  unfold isFunctionBody bodyOf?
  cases scope.upper with
  | none => rfl
  | some upper =>
      rw [Option.bind_some, Option.isSome_filter]
      rfl

/-- In the body of a function a `var` goes to the function. -/
theorem variableScope_eq_of_bodyOf? (hHolding : Holding table)
    (hScope : table.scopes[current]? = some scope) (hKind : scope.kind = .block) {function : ScopeId}
    (hBody : table.bodyOf? scope = some function) : table.variableScope current = function := by
  obtain ⟨hUpper, hFunction⟩ := Option.filter_eq_some_iff.1 hBody
  rw [variableScope_of_getElem? hScope, (hHolding current scope hScope).2 (by rw [hKind]; rfl) _ hUpper]
  obtain ⟨owner, hOwner, hOwns⟩ := (Option.any_eq_true _ _).1 hFunction
  rw [Bool.and_eq_true, decide_eq_true_eq] at hOwns
  rw [variableScope_of_getElem? hOwner]
  exact (hHolding function owner hOwner).1 (by rw [hOwns.1]; rfl)

/-- From edition 6 on the policy is met in every scope. -/
theorem destination_eq_documentedScope (hHolding : Holding table)
    (hScope : table.scopes[current]? = some scope) (hEdition : 6 ≤ settings.edition) :
    table.destination settings current .functionDeclaration =
      table.documentedScope settings current scope := by
  have hByPolicy : (if settings.options.blockFunctions.bindsInBlock settings.edition scope.strict
        then current else table.variableScope current) =
      if settings.options.blockFunctions = .lexical ∨ scope.strict = true then current
      else table.variableScope current := by
    unfold BlockFunctions.bindsInBlock
    rw [if_neg (Nat.not_lt.2 hEdition)]
    cases settings.options.blockFunctions <;> simp
  unfold destination documentedScope
  rw [if_neg (Nat.not_lt.2 hEdition), hScope, Option.all_some]
  unfold bindsFunctions
  cases hKind : scope.kind with
  | switchBody => exact hByPolicy
  | block =>
      simp only [isFunctionBody_eq]
      cases hBody : table.bodyOf? scope with
      | some function => exact variableScope_eq_of_bodyOf? hHolding hScope hKind hBody
      | none => simpa using hByPolicy
  | _ => rfl

/-- Before edition 6 the policy is met in a block or switch, and missed in every
other scope that a `var` does not stay in. -/
theorem destination_of_edition_lt (hScope : table.scopes[current]? = some scope)
    (hEdition : settings.edition < 6) :
    table.destination settings current .functionDeclaration =
      if scope.kind ∈ [.block, .switchBody] then table.variableScope current else current := by
  unfold destination
  rw [hScope, Option.all_some]
  unfold bindsFunctions BlockFunctions.bindsInBlock
  rw [if_pos hEdition]
  cases hKind : scope.kind <;> simp

/-- What the walk says of the scopes around tells where a function has its name, in the
finished table too. -/
theorem destination_eq_of_describes {head frame : Frame} {around : Trail}
    (hScope : table.scopes[head.scope]? = some scope) (hHead : head.Describes scope)
    (hBinds : table.bindsFunctions settings scope = head.bindsFunctions settings around.head?)
    (hFrame : Trail.destination? settings (head :: around) .functionDeclaration = some frame) :
    table.destination settings head.scope .functionDeclaration = frame.scope := by
  unfold destination
  rw [hScope, Option.all_some, hBinds, variableScope_of_getElem? hScope, hHead.variableScope]
  have hSends : (if head.bindsFunctions settings around.head? then some head
      else Trail.holding? (head :: around)) = some frame := hFrame
  split at hSends
  · next hHere =>
      cases hSends
      rw [if_pos hHere]
  · next hAway =>
      have hFind : (head :: around).find? (fun other => decide (other.scope = head.holder)) =
        some frame := hSends
      rw [if_neg hAway]
      have hHolder := List.find?_some hFind
      exact (of_decide_eq_true hHolder).symm

/-- The definition of its name is the first thing that a function declaration brings. -/
theorem exists_define_of_functionDeclaration (walker : Walker)
    (hKind : node.kind = "FunctionDeclaration") (hName : node.child? "id" = some name) :
    ∃ after, walker.tasks node =
      [] ++ .emit (.define .functionDeclaration name { kind := .functionName, name, node }) ::
        after := by
  have hRole : Role.ofKind node.kind = .function := by rw [hKind]; rfl
  unfold Walker.tasks
  rw [hRole]
  simp [Walker.defineFunction, hKind, Walker.optional, hName]

/-- The name goes where the finished table says, from the scope that is the
current one at the declaration. -/
theorem exists_bindsFunction (hOk : analyze settings tree = .ok table)
    (hVisit : Arrives settings tree.root past (.visit inMethod node) future)
    (hKind : node.kind = "FunctionDeclaration") (hName : node.child? "id" = some name)
    (hIdentifier : name.isIdentifier = true) :
    ∃ current scope, CurrentAfter settings past current ∧
      table.scopes[current]? = some scope ∧
      table.BindsFunction (table.destination settings current .functionDeclaration) node name := by
  have hRun := (spec_of_analyze_eq_ok hOk).2.2.2
  obtain ⟨after, hTasks⟩ :=
    exists_define_of_functionDeclaration { settings, inMethod } hKind hName
  have hDefine := hVisit.inside hTasks
  rw [List.flatMap_nil, List.append_nil] at hDefine
  have hEvents : Task.events settings (.visit inMethod node) ≠ [] := by
    rw [Task.events_visit, hTasks]
    simp [Task.events_emit]
  obtain ⟨head, around, hTrail⟩ := exists_head_of_define (hDefine.events_eq ▸ hRun)
  have hDescribes : ∀ frame ∈ Trail.after settings past, ∃ scope,
      table.scopes[frame.scope]? = some scope ∧ frame.Describes scope := fun _ hFrame =>
    describes_of_visit hOk hVisit hEvents hFrame
  obtain ⟨scope, hScope, hHead⟩ := hDescribes head (hTrail ▸ List.mem_cons_self)
  obtain ⟨middle, hMiddle, -⟩ := exists_run_of_append (hVisit.events ▸ hRun)
  have hUpper : scope.upper = around.head?.map Frame.scope := by
    have hFollows := follows_after hMiddle
    rw [hTrail] at hFollows
    obtain ⟨found, hFound, hSame⟩ := hFollows.frame head List.mem_cons_self
    rw [hHead.upper, ← hSame.upper, hFollows.upper_eq hFound]
  have hBinds : table.bindsFunctions settings scope = head.bindsFunctions settings around.head? :=
    bindsFunctions_eq_of_describes hHead hUpper fun upper hMem =>
      hDescribes upper (hTrail ▸ List.mem_cons_of_mem _ (List.mem_of_mem_head? hMem))
  -- Where the events send it is where the finished table does.
  obtain ⟨frame, hFrame, hNote⟩ := exists_note_of_define hOk hDefine hIdentifier
  have hGoes := destination_eq_of_describes hScope hHead hBinds (hTrail ▸ hFrame)
  obtain ⟨var, declared, definition, hLookup, hDeclared, hPlace, hCalled, hMem, hEq⟩ :=
    (chronicle_of_analyze_eq_ok hOk).exists_definition (entry_mem_programLog hDefine) hNote
  exact ⟨head.scope, scope, currentAfter_of_cons hMiddle hTrail, hScope, var, declared,
    hGoes ▸ hLookup, hDeclared, hGoes ▸ hPlace, hCalled, definition, hMem, by rw [hEq], by rw [hEq],
    by rw [hEq]⟩

/-- Every function declaration has its name in some scope, and this is the one
where the policy says just if the edition is 6 or later, or the declaration stands
in a block or switch, or in a scope that a `var` stays in. Elsewhere it is the
scope that the declaration stands in, such as that of a `catch` or a `with`. -/
theorem functionName_documented_iff (hOk : analyze settings tree = .ok table)
    (hVisit : Arrives settings tree.root past (.visit inMethod node) future)
    (hKind : node.kind = "FunctionDeclaration") (hName : node.child? "id" = some name)
    (hIdentifier : name.isIdentifier = true) :
    ∃ current scope bound, CurrentAfter settings past current ∧
      table.scopes[current]? = some scope ∧ table.BindsFunction bound node name ∧
      (bound = table.documentedScope settings current scope ↔
        6 ≤ settings.edition ∨ scope.kind ∈ [.block, .switchBody] ∨
          table.variableScope current = current) ∧
      (bound ≠ table.documentedScope settings current scope → bound = current) := by
  obtain ⟨current, scope, hCurrent, hScope, hBinds⟩ :=
    exists_bindsFunction hOk hVisit hKind hName hIdentifier
  refine ⟨current, scope, _, hCurrent, hScope, hBinds, ?_⟩
  by_cases hEdition : 6 ≤ settings.edition
  · have hMet := destination_eq_documentedScope (chronicle_of_analyze_eq_ok hOk).holding hScope hEdition
    exact ⟨iff_of_true hMet (.inl hEdition), fun hMissed => absurd hMet hMissed⟩
  · have hDocumented : table.documentedScope settings current scope = table.variableScope current :=
      if_pos (Nat.not_le.1 hEdition)
    rw [hDocumented, destination_of_edition_lt hScope (Nat.not_le.1 hEdition)]
    by_cases hSort : scope.kind ∈ [.block, .switchBody]
    · rw [if_pos hSort]
      exact ⟨iff_of_true rfl (.inr (.inl hSort)), fun hMissed => absurd rfl hMissed⟩
    · rw [if_neg hSort]
      refine ⟨?_, fun _ => rfl⟩
      simp only [hEdition, hSort, false_or]
      exact eq_comm

/-- The program `try {} catch (e) { function f() {} }`. -/
def functionInCatch : Tree where
  root := {
    location := []
    kind := "Program"
    entries := [("type", .string "Program"), ("body", .array [
      .object [("type", .string "TryStatement"), ("block", block []),
        ("handler", .object [("type", .string "CatchClause"), ("param", name "e"),
          ("body", block [.object [("type", .string "FunctionDeclaration"), ("id", name "f"),
            ("params", .array []), ("body", block [])]])])]])] }
where
  name (text : String) : Json := .object [("type", .string "Identifier"), ("name", .string text)]
  block (body : List Json) : Json :=
    .object [("type", .string "BlockStatement"), ("body", .array body)]

/-- The walk comes to every function declaration that defines a name. -/
theorem exists_visit_of_functionName (hOk : analyze settings tree = .ok table) {var : VariableId}
    {declared : Variable} (hDeclared : table.variables[var]? = some declared)
    {definition : Definition} (hDefinition : definition ∈ declared.definitions)
    (hKind : definition.kind = .functionName)
    (hNode : definition.node.kind = "FunctionDeclaration") :
    ∃ past future inMethod current,
      Arrives settings tree.root past (.visit inMethod definition.node) future ∧
      CurrentAfter settings past current ∧
      (declared.scope = current ∨ declared.scope = table.variableScope current) := by
  cases sits_of_analyze hOk hDeclared hDefinition with
  | functionDeclaration _ _ past future inMethod visit current here scope =>
      exact ⟨past, future, inMethod, current, visit, here, scope⟩
  | functionExpression _ node => exact absurd (hNode.symm.trans node) (by decide)
  | «variable» kind => rw [hKind] at kind; cases kind
  | importBinding kind => rw [hKind] at kind; cases kind
  | parameter kind => rw [hKind] at kind; cases kind
  | catchClause kind => rw [hKind] at kind; cases kind
  | className kind => rw [hKind] at kind; cases kind
  | implicitGlobal kind => rw [hKind] at kind; cases kind

/-- What the table of `functionInCatch` says of the function. -/
theorem exists_function_of_observed {table : SymbolTable} {owner : ScopeId}
    (h : (table.variables[1]?.map fun declared => (declared.scope,
      declared.definitions.map fun definition =>
        (definition.kind, definition.node.kind, (definition.node.child? "id").any Node.isIdentifier))) =
          some (owner, #[(.functionName, "FunctionDeclaration", true)])) :
    ∃ declared, table.variables[1]? = some declared ∧ declared.scope = owner ∧
      ∃ definition ∈ declared.definitions, definition.kind = .functionName ∧
        definition.node.kind = "FunctionDeclaration" ∧
        ∃ name, definition.node.child? "id" = some name ∧ name.isIdentifier = true := by
  obtain ⟨declared, hDeclared, hEq⟩ := Option.map_eq_some_iff.1 h
  obtain ⟨hScope, hDefinitions⟩ := Prod.mk.inj hEq
  refine ⟨declared, hDeclared, hScope, ?_⟩
  have hSize : declared.definitions.size = 1 := by
    simpa using congrArg Array.size hDefinitions
  have hFirst := congrArg (·[0]?) hDefinitions
  simp only [Array.getElem?_map, Array.getElem?_eq_getElem (hSize ▸ Nat.zero_lt_one), Option.map_some] at hFirst
  obtain ⟨hKind, hRest⟩ := Prod.mk.inj (Option.some.inj hFirst)
  obtain ⟨hNode, hName⟩ := Prod.mk.inj hRest
  exact ⟨_, Array.getElem_mem _, hKind, hNode, (Option.any_eq_true _ _).1 hName⟩

/-- In edition 9 the function is in a block, and by the policy for sloppy code
its name goes to the global scope. -/
theorem functionName_documented_iff_functionInCatch :
    ∃ table past future inMethod node name,
      analyze ⟨{ blockFunctions := .sloppyHoisted }, 9⟩ functionInCatch = .ok table ∧
      Arrives ⟨{ blockFunctions := .sloppyHoisted }, 9⟩ functionInCatch.root past
        (.visit inMethod node) future ∧
      node.kind = "FunctionDeclaration" ∧ node.child? "id" = some name ∧
      name.isIdentifier = true ∧
      ∃ current scope bound,
        CurrentAfter ⟨{ blockFunctions := .sloppyHoisted }, 9⟩ past current ∧
        table.scopes[current]? = some scope ∧ table.BindsFunction bound node name ∧
        (bound = table.documentedScope ⟨{ blockFunctions := .sloppyHoisted }, 9⟩ current scope ↔
          6 ≤ 9 ∨ scope.kind ∈ [.block, .switchBody] ∨ table.variableScope current = current) ∧
        (bound ≠ table.documentedScope ⟨{ blockFunctions := .sloppyHoisted }, 9⟩ current scope →
          bound = current) := by
  have hAnalyze : (analyze ⟨{ blockFunctions := .sloppyHoisted }, 9⟩ functionInCatch).toOption.map
      (fun table => table.variables[1]?.map fun declared => (declared.scope,
        declared.definitions.map fun definition =>
          (definition.kind, definition.node.kind,
            (definition.node.child? "id").any Node.isIdentifier))) =
        some (some (0, #[(.functionName, "FunctionDeclaration", true)])) := by
    decide +kernel
  obtain ⟨table, hOk, hObserved⟩ := exists_of_map_toOption _ hAnalyze
  obtain ⟨declared, hDeclared, -, definition, hMem, hKind, hNode, name, hName, hIdentifier⟩ :=
    exists_function_of_observed hObserved
  obtain ⟨past, future, inMethod, -, hVisit, -⟩ :=
    exists_visit_of_functionName hOk hDeclared hMem hKind hNode
  exact ⟨table, past, future, inMethod, definition.node, name, hOk, hVisit, hNode, hName, hIdentifier,
    functionName_documented_iff hOk hVisit hNode hName hIdentifier⟩

/-- In edition 5 the clause has its scope right around the function, and the name
stays there, where it should go to the global scope. -/
theorem functionName_staysInCatch :
    ∃ table past future inMethod node name current scope,
      analyze ⟨{ ecmaVersion := 5 }, 5⟩ functionInCatch = .ok table ∧
      Arrives ⟨{ ecmaVersion := 5 }, 5⟩ functionInCatch.root past (.visit inMethod node) future ∧
      node.kind = "FunctionDeclaration" ∧ node.child? "id" = some name ∧
      name.isIdentifier = true ∧ CurrentAfter ⟨{ ecmaVersion := 5 }, 5⟩ past current ∧
      table.scopes[current]? = some scope ∧ scope.kind = .catchClause ∧
      table.documentedScope ⟨{ ecmaVersion := 5 }, 5⟩ current scope = 0 ∧
      ¬ table.BindsFunction (table.documentedScope ⟨{ ecmaVersion := 5 }, 5⟩ current scope)
        node name := by
  have hAnalyze : (analyze ⟨{ ecmaVersion := 5 }, 5⟩ functionInCatch).toOption.map (fun table =>
      table.variables[1]?.map fun declared => (declared.scope,
        declared.definitions.map fun definition =>
          (definition.kind, definition.node.kind,
            (definition.node.child? "id").any Node.isIdentifier))) =
        some (some (1, #[(.functionName, "FunctionDeclaration", true)])) := by
    decide +kernel
  have hAgain : (analyze ⟨{ ecmaVersion := 5 }, 5⟩ functionInCatch).toOption.map (fun table =>
      table.scopes.map fun scope => (scope.kind, scope.variableScope, scope.variables)) =
        some #[(.global, 0, #[]), (.catchClause, 0, #[0, 1]), (.function, 2, #[2])] := by
    decide +kernel
  obtain ⟨table, hOk, hFunction⟩ := exists_of_map_toOption _ hAnalyze
  obtain ⟨_, hSame, hScopes⟩ := exists_of_map_toOption _ hAgain
  cases hOk.symm.trans hSame
  obtain ⟨declared, hDeclared, hOwner, definition, hMem, hKind, hNode, name, hName, hIdentifier⟩ :=
    exists_function_of_observed hFunction
  obtain ⟨past, future, inMethod, current, hVisit, hCurrent, hGoes⟩ :=
    exists_visit_of_functionName hOk hDeclared hMem hKind hNode
  have hEach : ∀ position : Nat, table.scopes[position]?.map
      (fun scope => (scope.kind, scope.variableScope, scope.variables)) =
        #[(ScopeKind.global, 0, #[]), (.catchClause, 0, #[0, 1]), (.function, 2, #[2])][position]? :=
    fun position => by rw [← Array.getElem?_map, hScopes]
  have hHolder : ∀ position : Nat, table.variableScope position =
      (#[0, 0, 2][position]?).getD position := by
    intro position
    have hFound := congrArg (Option.map fun found => found.2.1) (hEach position)
    rw [Option.map_map] at hFound
    refine (congrArg (fun found : Option Nat => found.getD position) hFound).trans ?_
    match position with
    | 0 | 1 | 2 => rfl
    | _ + 3 => rfl
  have hCatch : current = 1 := by
    rcases hGoes with hHere | hAway
    · exact hHere.symm.trans hOwner
    · have hNever : ∀ position : Nat, (#[0, 0, 2][position]?).getD position ≠ 1 := by
        intro position
        match position with
        | 0 | 1 | 2 => decide
        | _ + 3 => exact nofun
      exact absurd ((hHolder current).symm.trans (hAway.symm.trans hOwner)) (hNever current)
  subst hCatch
  obtain ⟨scope, hScope, hEq⟩ := Option.map_eq_some_iff.1 (hEach 1)
  have hDocumented : table.documentedScope ⟨{ ecmaVersion := 5 }, 5⟩ 1 scope = 0 :=
    (if_pos (by decide)).trans (hHolder 1)
  refine ⟨table, past, future, inMethod, definition.node, name, 1, scope, hOk, hVisit, hNode, hName,
    hIdentifier, hCurrent, hScope, congrArg Prod.fst hEq, hDocumented, ?_⟩
  rw [hDocumented]
  rintro ⟨var, found, hLookup, -⟩
  obtain ⟨global, hGlobal, hNames⟩ := Option.map_eq_some_iff.1 (hEach 0)
  have hNone : global.variables = #[] := congrArg (fun found => found.2.2) hNames
  obtain ⟨_, hFound, hListed⟩ :=
    (spec_of_analyze_eq_ok hOk).2.1.exists_scope_of_lookup? hLookup
  cases hGlobal.symm.trans hFound
  simp [hNone] at hListed

end SymbolTable

end Scoping
