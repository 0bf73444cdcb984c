import Scoping.Proofs.Chronicle.Changes
import Scoping.Proofs.Walk.Ways

/-! Which scope a `var` goes to as the walk comes to a node. The work at a node leaves that as
it is, but for a function, a static block, and the value of a field. -/

namespace Scoping

/-- What is at a place finds a scope of this node, or of the value of this field, to hold its
variables and its `this`. An arrow function counts as any other. -/
def Node.Rebinds (node : Node) (place : Location) : Prop :=
  (node.kind ∈ ["FunctionDeclaration", "FunctionExpression", "ArrowFunctionExpression", "StaticBlock"] ∧
    node.location <:+ place ∧ node.location ≠ place) ∨
  (node.kind = "PropertyDefinition" ∧ .field "value" :: node.location <:+ place)

/-- A task that opens at most a scope of the node, and one that holds no variables. It closes
none. -/
def Task.IsQuiet (node : Node) : Task → Prop
  | .emit (.enter kind block _) => kind.holdsVars = false ∧ block = node
  | .emit .bodyStart => True
  | .emit event => event.IsPlain
  | .visit _ inner => node.Contains inner

/-- A task that neither visits a node nor opens a scope. -/
def Task.IsLast : Task → Prop
  | .visit _ _ | .emit (.enter _ _ _) => False
  | .emit _ => True

/-- Quiet work, and after it what may come last. -/
def Walker.Quiet (node : Node) (tasks : List Task) : Prop :=
  ∃ first ending, tasks = first ++ ending ∧ (∀ task ∈ first, task.IsQuiet node) ∧
    ∀ task ∈ ending, task.IsLast

/-- The work at a node before it visits another: a `var` goes to where it went, or to a scope
that the node has opened for what it visits. -/
inductive Walker.Ahead (node inner : Node) (before : List Task) : Prop where
  | quiet (keeps : ¬ node.Rebinds inner.location) (quiet : ∀ task ∈ before, task.IsQuiet node)
  | opened (head middle : List Task) (kind : ScopeKind) (block : Node) (told : Bool)
      (rebinds : node.Rebinds inner.location)
      (eq : before = head ++ .emit (.enter kind block told) :: middle)
      (holds : kind.holdsVars = true) (block_holds : node.Holds block)
      (block_eq : kind = .function → block = node)
      (head_quiet : ∀ task ∈ head, task.IsQuiet node) (middle_quiet : ∀ task ∈ middle, task.IsQuiet block)

variable {settings : Settings} {root node inner : Node} {task : Task} {tasks first rest : List Task}
  {trail : Trail} {signals : List Numbered} {holder : ScopeId} {past future : List Event}
  {inMethod : Bool} {walker : Walker} {kind : ScopeKind} {block : Node}

/-- Neutral work opens no scope, so it is quiet. -/
theorem Task.IsNeutral.isQuiet (h : task.IsNeutral node) : task.IsQuiet node := by
  cases task with
  | visit flag inner => exact h
  | emit event =>
      cases event with
      | enter => exact h.elim
      | bodyStart => trivial
      | _ => exact h

namespace Trail

/-- Quiet work leaves it as it is where a `var` goes. The scopes that it leaves open are of the
node. -/
theorem steps_of_quiet (hTasks : ∀ task ∈ tasks, task.IsQuiet node) (hClear : trail.Clear node)
    (hHolder : trail.holder? = some holder)
    (hSignals : signals.map Numbered.event = tasks.flatMap (Task.events settings)) :
    (trail.steps settings signals).holder? = some holder ∧ (trail.steps settings signals).Clear node := by
  -- By induction on the work. What is handed on is that no scope of a node further inside
  -- is open.
  induction tasks generalizing trail signals with
  | nil =>
      rw [List.flatMap_nil, List.map_eq_nil_iff] at hSignals
      exact hSignals ▸ ⟨hHolder, hClear⟩
  | cons task tasks ih =>
      have hRest := fun other hOther => hTasks other (List.mem_cons_of_mem _ hOther)
      have hTask := hTasks task List.mem_cons_self
      cases task with
      | visit flag inner =>
          obtain ⟨visit, later, rfl, hVisit, hLater⟩ := exists_of_map_visit hSignals
          obtain ⟨hInner, hWithout⟩ := hClear.of_contains hTask
          have hSteps := ((returns_of_visit settings flag inner hInner hVisit).of_contains hWithout).1
          rw [steps_append, hSteps]
          exact ih hRest hClear hHolder hLater
      | emit event =>
          obtain ⟨number, later, rfl, hLater⟩ := exists_of_map_emit hSignals
          rw [steps, List.foldl_cons]
          cases event with
          | enter kind block flag =>
              obtain ⟨hKind, rfl⟩ := hTask
              refine ih hRest (hClear.cons rfl) ?_ hLater
              obtain ⟨frame, hFrame, hScope⟩ := Option.map_eq_some_iff.1 hHolder
              simp [step, holder?, opening, hKind, hFrame, hScope]
          | bodyStart =>
              cases trail with
              | nil => cases hHolder
              | cons frame around =>
                  refine ih hRest (fun other hOther => ?_) hHolder hLater
                  rcases List.mem_cons.1 hOther with rfl | hAround
                  · exact hClear frame List.mem_cons_self
                  · exact hClear other (List.mem_cons_of_mem _ hAround)
          | leave | setStrict => exact hTask.elim
          | _ => exact ih hRest hClear hHolder hLater

/-- Where a `var` goes is seen from the trail, and quiet work does not change it there. -/
theorem after_of_quiet (hTasks : ∀ task ∈ tasks, task.IsQuiet node)
    (hClear : (Trail.after settings past).Clear node)
    (hHolder : (Trail.after settings past).holder? = some holder) :
    (Trail.after settings (past ++ tasks.flatMap (Task.events settings))).holder? = some holder ∧
      (Trail.after settings (past ++ tasks.flatMap (Task.events settings))).Clear node := by
  rw [Trail.after_append]
  exact steps_of_quiet hTasks hClear hHolder (map_event_numbered _ _ _)

/-- A scope for variables that opens is where a `var` goes in all that quiet work visits after. -/
theorem after_enter_of_quiet (hHolds : kind.holdsVars = true)
    (hClear : (Trail.after settings past).Clear block) (hTasks : ∀ task ∈ tasks, task.IsQuiet block) :
    (Trail.after settings
      (past ++ .enter kind block inMethod :: tasks.flatMap (Task.events settings))).holder? =
        some (past.countP Event.opens) := by
  have hOpened : Trail.after settings (past ++ [.enter kind block inMethod]) =
      (Trail.after settings past).opening settings (past.countP Event.opens) kind block inMethod ::
        Trail.after settings past := by
    rw [Trail.after_append, numbered, numbered, Nat.zero_add]
    rfl
  rw [List.append_cons]
  refine (after_of_quiet hTasks ?_ ?_).1 <;> rw [hOpened]
  · exact hClear.cons rfl
  · simp [holder?, opening, hHolds]

end Trail

namespace Walker

variable {before after : List Task}

theorem Neutral.quiet (h : Neutral node tasks) : Quiet node tasks :=
  ⟨tasks, [], (List.append_nil _).symm, fun task hTask => (h task hTask).isQuiet,
    fun _ hTask => nomatch hTask⟩

/-- Neutral work first does not matter to whether what follows is quiet. -/
theorem Neutral.quiet_append (h : Neutral node first) (hRest : Quiet node rest) :
    Quiet node (first ++ rest) := by
  obtain ⟨more, ending, rfl, hMore, hEnding⟩ := hRest
  refine ⟨first ++ more, ending, (List.append_assoc _ _ _).symm, fun task hTask => ?_, hEnding⟩
  exact (List.mem_append.1 hTask).elim (fun hFirst => (h task hFirst).isQuiet) (hMore task)

/-- A scope that holds no variables may be opened on the way. -/
theorem quiet_enter (hKind : kind.holdsVars = false) (h : Quiet node tasks) :
    Quiet node (.emit (.enter kind node inMethod) :: tasks) := by
  obtain ⟨first, ending, rfl, hFirst, hEnding⟩ := h
  exact ⟨_ :: first, ending, rfl, List.forall_mem_cons.2 ⟨⟨hKind, rfl⟩, hFirst⟩, hEnding⟩

/-- What comes last needs not be quiet, as nothing is visited after it. -/
theorem quiet_of_isLast (h : ∀ task ∈ tasks, task.IsLast) : Quiet node tasks :=
  ⟨[], tasks, rfl, fun _ hTask => (nomatch hTask), h⟩

theorem quiet_leave (block : Node) : Quiet node [.emit (.leave block)] :=
  quiet_of_isLast (List.forall_mem_singleton.2 trivial)

/-- The end of a scope is the last thing that is done at its node. -/
theorem Neutral.quiet_end (h : Neutral node tasks) : Quiet node (tasks ++ [.emit (.leave node)]) :=
  h.quiet_append (quiet_leave node)

/-- Neutral work in a scope that holds no variables, such as a block. -/
theorem quiet_within (hKind : kind.holdsVars = false) (h : Neutral node tasks) :
    Quiet node (within kind inMethod node tasks) :=
  quiet_enter hKind h.quiet_end

theorem quiet_required {name : String} {next : Node → List Task}
    (h : ∀ child, node.child? name = some child → Quiet node (next child)) :
    Quiet node (required node name next) := by
  unfold required
  split
  · next child hChild => exact h child hChild
  · exact quiet_of_isLast (List.forall_mem_singleton.2 trivial)

/-- All that comes before a visit is quiet, since what may come last does not visit. -/
theorem Quiet.isQuiet (h : Quiet node tasks) {flag : Bool} (hSplit : tasks = before ++ .visit flag inner :: after) :
    ∀ task ∈ before, task.IsQuiet node := by
  obtain ⟨first, ending, rfl, hFirst, hEnding⟩ := h
  obtain ⟨ahead, behind, rfl, rfl⟩ :=
    exists_of_append_eq ((List.nil_append _).trans hSplit) List.not_mem_nil (hEnding _)
  exact fun task hTask => hFirst task (List.mem_append_left _ hTask)

/-- Quiet work opens no scope that holds variables. -/
theorem Quiet.holdsVars_eq (h : Quiet node tasks) (hEnter : .emit (.enter kind block inMethod) ∈ tasks) :
    kind.holdsVars = false := by
  obtain ⟨first, ending, rfl, hFirst, hEnding⟩ := h
  rcases List.mem_append.1 hEnter with hHere | hLast
  · exact (hFirst _ hHere).1
  · exact (hEnding _ hLast).elim

/-- The scope that the head of a loop may open holds no variables. -/
theorem quiet_loopOver {left right : Node} (hLeft : node.Contains left) (hRight : node.Contains right) :
    Quiet node (walker.loopOver node left right ++ walker.visitRequired node "body" ++
      [.emit (.leave node)]) := by
  have hEnd : Quiet node (walker.visitRequired node "body" ++ [.emit (.leave node)]) :=
    neutral_visitRequired.quiet_end
  obtain ⟨tasks, hTasks, hEq⟩ := exists_loopOver_eq walker hLeft hRight
  rw [hEq, List.append_assoc, List.append_assoc]
  split
  · exact quiet_enter rfl (hTasks.quiet_append hEnd)
  · exact hTasks.quiet_append hEnd

/-- The scope of a class, and the name of the class in it. -/
theorem quiet_defineClass : Quiet node (walker.defineClass node) := by
  have hEnd : Quiet node [.emit (.leave node), .emit (.endDeclaration node)] :=
    quiet_of_isLast (by simp [Task.IsLast])
  have hBody : Quiet node (defineClassName node ++ (walker.visitRequired node "body" ++
      [.emit (.leave node), .emit (.endDeclaration node)])) :=
    neutral_defineClassName.quiet_append (neutral_visitRequired.quiet_append hEnd)
  unfold defineClass
  simp only [List.append_assoc, List.cons_append]
  refine Neutral.quiet_append ?_ (neutral_visitOptional.quiet_append (quiet_enter rfl hBody))
  split <;> simp

/-- The scope of a clause that catches holds no variables: a `var` in it goes further out.
-/
theorem quiet_catchError : Quiet node (walker.catchError node) := by
  unfold catchError
  simp only [List.append_assoc, List.cons_append]
  exact quiet_enter rfl (neutral_catchParameter.quiet_append neutral_visitRequired.quiet_end)

/-- Only for functions, static blocks and fields a node opens a scope for variables. -/
theorem quiet_tasks (hProgram : Role.ofKind node.kind ≠ .program)
    (hFunction : Role.ofKind node.kind ≠ .function) (hStatic : Role.ofKind node.kind ≠ .staticBlock)
    (hField : Role.ofKind node.kind ≠ .field) : Quiet node (walker.tasks node) := by
  by_cases hNeutral : (Role.ofKind node.kind).isNeutral
  · exact (neutral_tasks hNeutral).quiet
  unfold tasks
  cases hRole : Role.ofKind node.kind <;> dsimp only
  case program | field | staticBlock | function => contradiction
  case forLoop =>
    rw [List.append_assoc]
    split
    · exact quiet_enter rfl neutral_descend.quiet_end
    · exact neutral_descend.quiet_end
  case forEach =>
    exact quiet_required fun _ hLeft => quiet_required fun _ hRight =>
      quiet_loopOver (Node.contains_of_child? hLeft) (Node.contains_of_child? hRight)
  case classDefinition => exact quiet_defineClass
  case block =>
    split
    · exact quiet_within rfl neutral_descend
    · exact neutral_descend.quiet_end
  case withStatement =>
    exact neutral_visitRequired.quiet_append (quiet_within rfl neutral_visitRequired)
  case switchStatement =>
    refine neutral_visitRequired.quiet_append ?_
    split
    · exact quiet_within rfl neutral_cases
    · exact neutral_cases.quiet_end
  case catchClause => exact quiet_catchError
  all_goals exact absurd (hRole ▸ rfl) hNeutral

/-- A kind of node whose role is this. -/
theorem rebinds_role {place : Location} (h : node.Rebinds place) :
    Role.ofKind node.kind ∈ [.function, .staticBlock, .field] := by
  rcases h with ⟨hKind, -⟩ | ⟨hKind, -⟩
  · rcases List.mem_append.1 (show node.kind ∈ Role.kinds .function ++ Role.kinds .staticBlock from hKind)
      with hFunction | hStatic
    · simp [Role.ofKind_of_mem hFunction]
    · simp [Role.ofKind_of_mem hStatic]
  · rw [hKind]
    decide

/-- A function opens a scope for all that it visits. -/
theorem rebinds_of_function (hRole : Role.ofKind node.kind = .function) (h : node.Contains inner) :
    node.Rebinds inner.location :=
  .inl ⟨List.mem_append_left ["StaticBlock"] (Role.mem_kinds hRole nofun), h.below,
    fun hEq => h.not_below (hEq ▸ List.suffix_refl _)⟩

/-- So does a static block. -/
theorem rebinds_of_staticBlock (hRole : Role.ofKind node.kind = .staticBlock) (h : node.Contains inner) :
    node.Rebinds inner.location :=
  .inl ⟨List.mem_append_right (Role.kinds .function) (Role.mem_kinds hRole nofun), h.below,
    fun hEq => h.not_below (hEq ▸ List.suffix_refl _)⟩

/-- What a function does before its own scope opens. A declaration gives the function its
name, and an expression with a name has a scope for that. -/
def functionHead (node : Node) : List Task :=
  (if node.kind = "FunctionDeclaration" then
    optional node "id" fun name =>
      [.emit (.define .functionDeclaration name { kind := .functionName, name, node })]
  else []) ++
    if node.kind = "FunctionExpression" && (node.child? "id").isSome then
      [.emit (.enter .functionName node false)]
    else []

/-- The work at a function: its head, its scope with the parameters, the mark of its body,
and the body. -/
theorem defineFunction_eq (walker : Walker) (node : Node) :
    walker.defineFunction node = functionHead node ++ .emit (.enter .function node walker.inMethod) ::
      (walker.defineParameters node ++
        .emit .bodyStart :: (walker.visitRequired node "body" ++ [.emit (.leave node)])) := by
  simp only [defineFunction, functionHead, List.append_assoc, List.cons_append]

/-- Nothing is visited before the scope of a function opens. -/
theorem visits_functionHead (node : Node) : Task.visits (functionHead node) = [] := by
  simp [functionHead, apply_ite Task.visits, visits_optional]

/-- The scope for the name of a function expression does not hold variables. -/
theorem isQuiet_of_mem_functionHead (h : task ∈ functionHead node) : task.IsQuiet node := by
  rcases List.mem_append.1 h with hName | hScope
  · exact (neutral_functionName task hName).isQuiet
  · split at hScope
    · rw [List.mem_singleton.1 hScope]
      exact ⟨rfl, rfl⟩
    · cases hScope

/-- The work at a function: before its scope opens it visits nothing, and its end comes
last. -/
theorem exists_function_tasks (walker : Walker) (node : Node) :
    ∃ head inner, walker.defineFunction node =
        head ++ .emit (.enter .function node walker.inMethod) :: (inner ++ [.emit (.leave node)]) ∧
      Task.visits head = [] ∧ (∀ task ∈ head, task.IsQuiet node) ∧ ∀ task ∈ inner, task.IsQuiet node := by
  refine ⟨functionHead node,
    walker.defineParameters node ++ .emit .bodyStart :: walker.visitRequired node "body",
    by simp only [defineFunction_eq, List.append_assoc, List.cons_append], visits_functionHead node,
    fun task => isQuiet_of_mem_functionHead, fun task hTask => ?_⟩
  rcases List.mem_append.1 hTask with hTask | hTask
  · exact (neutral_defineParameters task hTask).isQuiet
  · rcases List.mem_cons.1 hTask with rfl | hTask
    · trivial
    · exact (neutral_visitRequired task hTask).isQuiet

/-- A function opens one scope for variables, its own. -/
theorem exists_function_head (hRole : Role.ofKind node.kind = .function) :
    ∃ head, ∀ {before after : List Task} {kind : ScopeKind} {block : Node} {told : Bool},
      walker.tasks node = before ++ .emit (.enter kind block told) :: after → kind.holdsVars = true →
        before = head ∧ block = node := by
  obtain ⟨head, inside, hEq, -, hHead, hInside⟩ := exists_function_tasks walker node
  have hNot : ∀ {kind : ScopeKind} {block : Node} {told : Bool}, kind.holdsVars = true →
      ¬ (Task.emit (.enter kind block told)).IsQuiet node := fun hHolds hQuiet => by
    rw [hQuiet.1] at hHolds
    cases hHolds
  refine ⟨head, fun {before after kind block told} hSplit hHolds => ?_⟩
  rw [tasks, hRole] at hSplit
  have hTasks := hEq.symm.trans hSplit
  have hAhead : .emit (.enter kind block told) ∉ head := fun hMem => hNot hHolds (hHead _ hMem)
  have hBehind : .emit (.enter kind block told) ∉ inside ++ [.emit (.leave node)] := fun hMem => by
    rcases List.mem_append.1 hMem with hMem | hMem
    · exact hNot hHolds (hInside _ hMem)
    · simp at hMem
  have hMem : .emit (.enter kind block told) ∈
      head ++ .emit (.enter .function node walker.inMethod) :: (inside ++ [.emit (.leave node)]) :=
    hTasks ▸ List.mem_append_right _ List.mem_cons_self
  rcases List.mem_append.1 hMem with hMem | hMem
  · exact absurd hMem hAhead
  · obtain hSame := (List.mem_cons.1 hMem).resolve_right hBehind
    rw [← hSame] at hTasks
    exact ⟨(eq_of_append_cons_eq hTasks hAhead hBehind).1, (Event.enter.inj (Task.emit.inj hSame)).2.1⟩

/-- What the walk goes to from a function is in its parameters or its body. -/
theorem inFields_of_mem_function (hRole : Role.ofKind node.kind = .function)
    (h : inner ∈ visited settings node) : node.location.InFields ["params", "body"] inner.location := by
  unfold visited at h
  rw [hRole] at h
  exact ((Node.branches_flatMap_children fun parameter _ =>
    Pattern.branches_evaluatedIn settings.keys parameter).fields (Node.branches_child? node "body")
      (by decide)).here inner h

/-- A visit comes before a scope opens, or after. -/
theorem split_cases {head inside ending : List Task} {opening : Event} {flag : Bool}
    (h : head ++ .emit opening :: (inside ++ ending) = before ++ .visit flag inner :: after)
    (hEnding : Task.visits ending = []) :
    (∃ behind, head = before ++ .visit flag inner :: behind) ∨
      ∃ middle behind, before = head ++ .emit opening :: middle ∧
        inside = middle ++ .visit flag inner :: behind := by
  have hLast : .visit flag inner ∉ ending := fun hMem =>
    List.ne_nil_of_mem (Task.mem_visits.2 ⟨flag, hMem⟩) hEnding
  rcases List.append_eq_append_iff.1 h with ⟨more, rfl, hRest⟩ | ⟨more, rfl, hRest⟩
  · cases more with
    | nil => cases hRest
    | cons first middle =>
        obtain ⟨rfl, hInside⟩ := List.cons.inj hRest
        obtain ⟨ahead, behind, rfl, rfl⟩ :=
          exists_of_append_eq ((List.nil_append _).trans hInside) List.not_mem_nil hLast
        exact .inr ⟨_, behind, rfl, rfl⟩
  · cases more with
    | nil => cases hRest
    | cons first behind =>
        obtain ⟨rfl, -⟩ := List.cons.inj hRest
        exact .inl ⟨behind, rfl⟩

/-- Only a function opens the scope of one. -/
theorem role_of_mem_enter_function (hProgram : Role.ofKind node.kind ≠ .program) {told : Bool}
    (h : .emit (.enter .function block told) ∈ walker.tasks node) :
    Role.ofKind node.kind = .function := by
  by_contra hFunction
  by_cases hStatic : Role.ofKind node.kind = .staticBlock
  · rw [tasks, hStatic] at h
    simp [within, descend, visit] at h
  by_cases hField : Role.ofKind node.kind = .field
  · rw [tasks, hField] at h
    rcases List.mem_append.1 h with hKey | hValue
    · exact (neutral_visitComputed _ hKey).elim
    · unfold optional at hValue
      split at hValue <;> simp [within, visit] at hValue
  · cases (quiet_tasks hProgram hFunction hStatic hField).holdsVars_eq h

/-- Whatever a function visits is visited after its scope has opened, default values of
parameters included. -/
theorem ahead_of_function (hRole : Role.ofKind node.kind = .function) {flag : Bool}
    (hSplit : walker.tasks node = before ++ .visit flag inner :: after) (hInside : node.Contains inner) :
    Ahead node inner before := by
  obtain ⟨head, inside, hEq, hHead, hQuiet, hMiddle⟩ := exists_function_tasks walker node
  rw [tasks, hRole] at hSplit
  rcases split_cases (hEq.symm.trans hSplit) rfl with ⟨behind, rfl⟩ | ⟨middle, behind, rfl, rfl⟩
  · simp [Task.visits, Task.visits?] at hHead
  · exact .opened head middle .function node _ (rebinds_of_function hRole hInside) rfl rfl
      node.holds_self (fun _ => rfl) hQuiet fun task hTask => hMiddle task (List.mem_append_left _ hTask)

/-- A static block opens its scope before it visits anything. -/
theorem ahead_of_staticBlock (hRole : Role.ofKind node.kind = .staticBlock) {flag : Bool}
    (hSplit : walker.tasks node = before ++ .visit flag inner :: after) (hInside : node.Contains inner) :
    Ahead node inner before := by
  rw [tasks, hRole] at hSplit
  rcases split_cases ((List.nil_append _).trans hSplit) rfl with ⟨behind, hNil⟩ | ⟨middle, behind, rfl, hEq⟩
  · simp at hNil
  · refine .opened [] middle .staticBlock node _ (rebinds_of_staticBlock hRole hInside) rfl rfl
      node.holds_self (fun _ => rfl) (List.forall_mem_nil _) fun task hTask => ?_
    have hMem : task ∈ walker.descend node := hEq ▸ List.mem_append_left _ hTask
    exact (neutral_descend task hMem).isQuiet

/-- The name of a field is no part of its value. -/
theorem ahead_of_key (hRole : Role.ofKind node.kind = .field) {flag : Bool}
    (hSplit : walker.visitComputed node "key" = before ++ .visit flag inner :: after) :
    Ahead node inner before := by
  have hPlace : node.location.InFields ["key"] inner.location := by
    refine (Node.branches_computed node "key").here inner ?_
    rw [← visits_visitComputed walker, hSplit]
    exact Task.mem_visits.2 ⟨flag, List.mem_append_right _ List.mem_cons_self⟩
  refine .quiet (fun hRebinds => ?_) (neutral_visitComputed.quiet.isQuiet hSplit)
  rcases hRebinds with ⟨hKind, -⟩ | ⟨-, hBelow⟩
  · simp [Role.kind_eq hRole rfl] at hKind
  · exact (hPlace.apart (Location.inFields_singleton.2 hBelow) (by decide)).1 (List.suffix_refl _)

/-- Of a field only the value is visited in a scope that holds variables, not a computed
name. -/
theorem ahead_of_field (hRole : Role.ofKind node.kind = .field) {flag : Bool}
    (hSplit : walker.tasks node = before ++ .visit flag inner :: after) (hInside : node.Contains inner) :
    Ahead node inner before := by
  rw [tasks, hRole] at hSplit
  dsimp only at hSplit
  unfold optional at hSplit
  split at hSplit
  · next value hValue =>
      rcases split_cases (show _ ++ .emit _ :: ([walker.visit value] ++ [.emit (.leave value)]) = _
        from hSplit) rfl with ⟨behind, hEq⟩ | ⟨middle, behind, rfl, hEq⟩
      · exact ahead_of_key hRole hEq
      · obtain ⟨rfl, rfl⟩ : middle = [] ∧ value = inner := by
          cases middle with
          | nil => exact ⟨rfl, (Task.visit.inj (List.cons.inj hEq).1).2⟩
          | cons first middle => simp at hEq
        refine .opened _ [] .fieldInitializer value _ (.inr ⟨Role.kind_eq hRole rfl,
          Node.below_field_of_child? hValue⟩) rfl rfl (.inr hInside)
          (fun hKind => absurd hKind (by decide))
          (fun task hTask => (neutral_visitComputed task hTask).isQuiet) (List.forall_mem_nil _)
  · rw [List.append_nil] at hSplit
    exact ahead_of_key hRole hSplit

/-- Where a `var` goes at each node that the work at a node visits. -/
theorem ahead_of_split (hProgram : Role.ofKind node.kind ≠ .program) {flag : Bool}
    (hSplit : walker.tasks node = before ++ .visit flag inner :: after) : Ahead node inner before := by
  have hInside := contained_tasks.contains (hSplit ▸ List.mem_append_right before List.mem_cons_self)
  by_cases hFunction : Role.ofKind node.kind = .function
  · exact ahead_of_function hFunction hSplit hInside
  by_cases hStatic : Role.ofKind node.kind = .staticBlock
  · exact ahead_of_staticBlock hStatic hSplit hInside
  by_cases hField : Role.ofKind node.kind = .field
  · exact ahead_of_field hField hSplit hInside
  · refine .quiet (fun hRebinds => ?_) ((quiet_tasks hProgram hFunction hStatic hField).isQuiet hSplit)
    have hRole := rebinds_role hRebinds
    simp_all

end Walker

/-- What is true of every task, whatever scopes are open, is so all along. -/
theorem along_of_forall {P : Trail → Task → Prop} (h : ∀ trail task, P trail task) (trail : Trail)
    (tasks : List Task) : Along settings P trail tasks := by
  induction tasks generalizing trail with
  | nil => trivial
  | cons task tasks ih =>
      cases task with
      | visit flag inner => exact ⟨h _ _, ih _⟩
      | emit event => exact ⟨h _ _, fun _ => ih _⟩

/-- As the walk comes to a node, no scope of a node inside it is open. -/
theorem Arrives.clear (h : Arrives settings root past (.visit inMethod node) future) :
    (Trail.after settings past).Clear node := by
  have hTracks : Tracks settings root (fun _ _ _ => True) (fun _ _ _ _ _ => True) :=
    ⟨along_of_forall (fun _ _ _ _ _ => trivial) _ _, fun _ _ _ _ _ =>
      along_of_forall (fun _ task => by cases task <;> trivial) _ _⟩
  exact (hTracks.visit h).1

/-- Where a `var` goes as the walk comes to a node, by where it goes at the node that it has
come from. -/
theorem Arrives.holder_cases (h : Arrives settings root past (.visit inMethod node) future)
    (hProgram : Role.ofKind node.kind ≠ .program)
    (hHolder : (Trail.after settings past).holder? = some holder) {before after : List Task} {flag : Bool}
    (hSplit : Walker.tasks { settings, inMethod } node = before ++ .visit flag inner :: after) :
    (¬ node.Rebinds inner.location ∧
      (Trail.after settings (past ++ before.flatMap (Task.events settings))).holder? = some holder) ∨
    (node.Rebinds inner.location ∧ ∃ head kind block told behind,
      Walker.tasks { settings, inMethod } node = head ++ .emit (.enter kind block told) :: behind ∧
      kind.holdsVars = true ∧ (kind = .function → block = node) ∧
      (Trail.after settings (past ++ before.flatMap (Task.events settings))).holder? =
        some ((past ++ head.flatMap (Task.events settings)).countP Event.opens)) := by
  have hClear := h.clear
  cases Walker.ahead_of_split hProgram hSplit with
  | quiet hKeeps hQuiet => exact .inl ⟨hKeeps, (Trail.after_of_quiet hQuiet hClear hHolder).1⟩
  | opened head middle kind block told hRebinds hEq hHolds hBlock hFunction hHead hMiddle =>
      refine .inr ⟨hRebinds, head, kind, block, told, middle ++ .visit flag inner :: after,
        by rw [hSplit, hEq, List.append_assoc, List.cons_append], hHolds, hFunction, ?_⟩
      have hHead := (Trail.after_of_quiet hHead hClear hHolder).2
      have hBlockClear : (Trail.after settings (past ++ head.flatMap (Task.events settings))).Clear block := by
        rcases hBlock with rfl | hInside
        · exact hHead
        · exact (hHead.of_contains hInside).1
      rw [hEq, List.flatMap_append, List.flatMap_cons, Task.events_emit, List.singleton_append,
        ← List.append_assoc]
      exact Trail.after_enter_of_quiet hHolds hBlockClear hMiddle

end Scoping
