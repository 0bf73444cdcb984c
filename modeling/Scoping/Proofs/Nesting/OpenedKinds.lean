import Scoping.Proofs.Nesting.Work
import Scoping.Proofs.Walk.Belonging
import Scoping.Proofs.Walk.Openings

/-! Which kinds of scope a walk opens for one node. No node is visited twice, so that these
are the scopes of one visit, and before them the scope of a field whose value the node is. -/

namespace Scoping

/-- The kind of scope that an event opens for the node at a place. -/
@[simp] def Event.opensAt? (place : Location) : Event → Option ScopeKind
  | .enter kind block _ => if block.location = place then some kind else none
  | _ => none

def Task.opensAt? (place : Location) : Task → Option ScopeKind
  | .emit event => event.opensAt? place
  | .visit _ _ => none

/-- The kinds of scope that open for the node at a place, in order. -/
def openedAt (place : Location) (events : List Event) : List ScopeKind :=
  events.filterMap (Event.opensAt? place)

/-- The kinds of scope that the visit of a node can open for the node itself. -/
inductive OwnKinds : List ScopeKind → Prop where
  | nothing : OwnKinds []
  | one {kind : ScopeKind} (own : kind ∉ [.global, .esModule, .functionName, .fieldInitializer]) :
      OwnKinds [kind]
  | namedFunction : OwnKinds [.functionName, .function]

/-- The kinds of scope that a node inside a program can have. A field opens a scope for its
value, ahead of those that the value opens. -/
inductive NodeKinds : List ScopeKind → Prop where
  | own {kinds : List ScopeKind} (own : OwnKinds kinds) : NodeKinds kinds
  | ofField {kinds : List ScopeKind} (own : OwnKinds kinds) : NodeKinds (.fieldInitializer :: kinds)

variable {settings : Settings} {root node inner : Node} {place : Location} {tasks first rest : List Task}
  {inMethod : Bool} {kind : ScopeKind} {block : Node} {event : Event} {walker : Walker}

@[simp] theorem openedAt_append (place : Location) (first rest : List Event) :
    openedAt place (first ++ rest) = openedAt place first ++ openedAt place rest :=
  List.filterMap_append

@[simp] theorem openedAt_cons (place : Location) (event : Event) (rest : List Event) :
    openedAt place (event :: rest) = (event.opensAt? place).toList ++ openedAt place rest := by
  rw [openedAt, List.filterMap_cons]
  cases event.opensAt? place <;> rfl

@[simp] theorem openedAt_nil (place : Location) : openedAt place [] = [] :=
  rfl

/-- A neutral task opens no scope by itself. -/
theorem Task.IsNeutral.opensAt?_eq {task : Task} (h : task.IsNeutral node) :
    task.opensAt? place = none := by
  cases task with
  | visit => rfl
  | emit event =>
      cases event with
      | enter => exact h.elim
      | _ => rfl

/-- All scopes that a visit opens are of its node or inside it. -/
theorem openedAt_visit (h : ¬ node.location <:+ place) :
    openedAt place (Task.events settings (.visit inMethod node)) = [] := by
  refine List.filterMap_eq_nil_iff.2 fun event hEvent => ?_
  cases event with
  | enter kind block told =>
      refine if_neg ?_
      rintro rfl
      rcases (belongs_of_mem_events hEvent).1 with rfl | hInside
      · exact h (List.suffix_refl _)
      · exact h hInside.below
  | _ => rfl

namespace Walker

/-- The kinds of scope that tasks open for the node at a place, without those that their
visits open. -/
def kindsAt (place : Location) (tasks : List Task) : List ScopeKind :=
  tasks.filterMap (Task.opensAt? place)

@[simp] theorem kindsAt_nil (place : Location) : kindsAt place [] = [] :=
  rfl

@[simp] theorem kindsAt_append (place : Location) (first rest : List Task) :
    kindsAt place (first ++ rest) = kindsAt place first ++ kindsAt place rest :=
  List.filterMap_append

@[simp] theorem kindsAt_emit (place : Location) (event : Event) (rest : List Task) :
    kindsAt place (.emit event :: rest) = (event.opensAt? place).toList ++ kindsAt place rest := by
  rw [kindsAt, List.filterMap_cons, Task.opensAt?]
  cases event.opensAt? place <;> rfl

@[simp] theorem kindsAt_visit (place : Location) (inner : Node) (rest : List Task) :
    kindsAt place (walker.visit inner :: rest) = kindsAt place rest :=
  rfl

theorem Neutral.kindsAt_eq (h : Neutral node tasks) : kindsAt place tasks = [] :=
  List.filterMap_eq_nil_iff.2 fun task hTask => (h task hTask).opensAt?_eq

/-- What a visit opens for a node comes before what is opened after it. -/
theorem openedAt_visit_cons (inner : Node) (rest : List Task) :
    openedAt place ((.visit inMethod inner :: rest).flatMap (Task.events settings)) =
      openedAt place (Task.events settings (.visit inMethod inner)) ++
        openedAt place (rest.flatMap (Task.events settings)) := by
  rw [List.flatMap_cons, openedAt_append]

theorem openedAt_emit_cons (event : Event) (rest : List Task) :
    openedAt place ((.emit event :: rest).flatMap (Task.events settings)) =
      (event.opensAt? place).toList ++ openedAt place (rest.flatMap (Task.events settings)) := by
  rw [List.flatMap_cons, Task.events_emit, List.singleton_append, openedAt_cons]

/-- Tasks whose visits are elsewhere open for a place only what they open by themselves. -/
theorem openedAt_flatMap (h : ∀ flag inner, .visit flag inner ∈ tasks → ¬ inner.location <:+ place) :
    openedAt place (tasks.flatMap (Task.events settings)) = kindsAt place tasks := by
  induction tasks with
  | nil => rfl
  | cons task tasks ih =>
      have hRest := ih fun flag inner hInner => h flag inner (List.mem_cons_of_mem _ hInner)
      cases task with
      | visit flag inner =>
          rw [openedAt_visit_cons, openedAt_visit (h flag inner List.mem_cons_self), hRest]
          rfl
      | emit event => rw [openedAt_emit_cons, kindsAt_emit, hRest]

/-- Work in a scope of the node opens that one. -/
theorem kindsAt_within (h : Neutral node tasks) :
    kindsAt node.location (within kind inMethod node tasks) = [kind] := by
  simp [within, h.kindsAt_eq]

/-- A loop over values opens a scope for a lexical declaration in its head, and for no
other. -/
theorem kindsAt_loopOver {left right : Node} (hLeft : node.Contains left) (hRight : node.Contains right) :
    kindsAt node.location (walker.loopOver node left right) =
      if isLexicalDeclaration left then [.forHead] else [] := by
  obtain ⟨tasks, hTasks, hEq⟩ := exists_loopOver_eq walker hLeft hRight
  rw [hEq, kindsAt_append, hTasks.kindsAt_eq]
  split <;> simp

/-- A function opens its scope, and before that one for its name if it is an expression with
a name. -/
theorem ownKinds_defineFunction : OwnKinds (kindsAt node.location (walker.defineFunction node)) := by
  have hInside : ∀ own, kindsAt node.location (.emit (.enter .function node own) ::
      walker.defineParameters node ++ .emit .bodyStart :: walker.visitRequired node "body" ++
      [.emit (.leave node)]) = [.function] := by
    simp [neutral_defineParameters.kindsAt_eq, neutral_visitRequired.kindsAt_eq]
  unfold defineFunction
  simp only [List.append_assoc] at hInside ⊢
  rw [kindsAt_append, neutral_functionName.kindsAt_eq, List.nil_append, kindsAt_append, hInside]
  split
  · simpa using .namedFunction
  · exact .one (by decide)

/-- A class opens one scope for the node itself. Its members open their own. -/
theorem kindsAt_defineClass : kindsAt node.location (walker.defineClass node) = [.classBody] := by
  have hName : kindsAt node.location (defineClassName node) = [] := neutral_defineClassName.kindsAt_eq
  have hAround : kindsAt node.location
      (if node.kind = "ClassDeclaration" then defineClassName node else []) = [] := by
    split
    · exact hName
    · rfl
  simp [defineClass, hAround, hName, neutral_visitOptional.kindsAt_eq, neutral_visitRequired.kindsAt_eq]

theorem kindsAt_catchError : kindsAt node.location (walker.catchError node) = [.catchClause] := by
  simp [catchError, neutral_catchParameter.kindsAt_eq, neutral_visitRequired.kindsAt_eq]

/-- A visited node opens at most one scope of its own, but for a function expression with a
name. -/
theorem ownKinds_tasks (hProgram : Role.ofKind node.kind ≠ .program) :
    OwnKinds (kindsAt node.location (walker.tasks node)) := by
  have hBody : Neutral node (walker.visitRequired node "body") := neutral_visitRequired
  -- Most roles open nothing, so that only the others are gone through.
  by_cases hNeutral : (Role.ofKind node.kind).isNeutral
  · exact (neutral_tasks hNeutral).kindsAt_eq ▸ .nothing
  unfold tasks
  cases hRole : Role.ofKind node.kind <;> dsimp only
  case program => contradiction
  case field =>
    rw [kindsAt_append, neutral_visitComputed.kindsAt_eq, List.nil_append]
    unfold optional
    split
    · next value hValue =>
        -- The scope of the value is one of another node.
        have hPlace : value.location ≠ node.location := fun hSame =>
          (Node.contains_of_child? hValue).not_below (hSame ▸ List.suffix_refl _)
        simp [within, hPlace, OwnKinds.nothing]
    · exact .nothing
  case staticBlock =>
    rw [kindsAt_within neutral_descend]
    exact .one (by decide)
  case forLoop =>
    rw [kindsAt_append, kindsAt_append, neutral_descend.kindsAt_eq]
    split
    · simpa using .one (by decide)
    · exact .nothing
  case forEach =>
    unfold required
    split
    · next left hLeft =>
        split
        · next right hRight =>
            rw [kindsAt_append, kindsAt_append, hBody.kindsAt_eq, kindsAt_loopOver
              (Node.contains_of_child? hLeft) (Node.contains_of_child? hRight)]
            split
            · exact .one (by decide)
            · exact .nothing
        · exact .nothing
    · exact .nothing
  case classDefinition => exact kindsAt_defineClass ▸ .one (by decide)
  case block =>
    split
    · rw [kindsAt_within neutral_descend]
      exact .one (by decide)
    · rw [kindsAt_append, neutral_descend.kindsAt_eq]
      exact .nothing
  case withStatement =>
    rw [kindsAt_append, neutral_visitRequired.kindsAt_eq, kindsAt_within hBody]
    exact .one (by decide)
  case switchStatement =>
    rw [kindsAt_append, neutral_visitRequired.kindsAt_eq]
    split
    · rw [kindsAt_within neutral_cases]
      exact .one (by decide)
    · rw [kindsAt_append, neutral_cases.kindsAt_eq]
      exact .nothing
  case function => exact ownKinds_defineFunction
  case catchClause => exact kindsAt_catchError ▸ .one (by decide)
  all_goals exact absurd (hRole ▸ rfl) hNeutral

end Walker

open Walker

/-- The work at a node opens scopes for the node itself and for what it visits. -/
theorem Contained.holds_or_visits {own told : Bool} (h : Contained node own tasks)
    (hEnter : .emit (.enter kind block told) ∈ tasks) :
    block = node ∨ ∃ flag, .visit flag block ∈ tasks := by
  induction h with
  | nil => cases hEnter
  | neutral hTask _ ih =>
      rcases List.mem_cons.1 hEnter with rfl | hRest
      · exact hTask.elim
      · exact (ih hRest).imp_right (Exists.imp fun _ => List.mem_cons_of_mem _)
  | mark hMarks _ ih =>
      rcases List.mem_cons.1 hEnter with hSame | hRest
      · cases hSame
        exact hMarks.elim
      · exact (ih hRest).imp_right (Exists.imp fun _ => List.mem_cons_of_mem _)
  | enter _ _ ih =>
      rcases List.mem_cons.1 hEnter with hSame | hRest
      · cases hSame
        exact .inl rfl
      · exact (ih hRest).imp_right (Exists.imp fun _ => List.mem_cons_of_mem _)
  | leave _ ih =>
      rcases List.mem_cons.1 hEnter with hSame | hRest
      · cases hSame
      · exact (ih hRest).imp_right (Exists.imp fun _ => List.mem_cons_of_mem _)
  | @field own flag value tasks _ _ ih =>
      rcases List.mem_cons.1 hEnter with hSame | hRest
      · cases hSame
        exact .inr ⟨flag, List.mem_cons_of_mem _ List.mem_cons_self⟩
      · exact (ih (by simpa using hRest)).imp_right fun ⟨flag, hVisit⟩ => ⟨flag, by simp [hVisit]⟩

/-- Work that visits nothing at a place, and is at a node elsewhere, opens nothing for it. -/
theorem Contained.openedAt_eq_nil {own : Bool} (h : Contained node own tasks)
    (hPlace : node.location ≠ place)
    (hVisits : ∀ flag inner, .visit flag inner ∈ tasks → ¬ inner.location <:+ place) :
    openedAt place (tasks.flatMap (Task.events settings)) = [] := by
  rw [openedAt_flatMap hVisits]
  refine List.filterMap_eq_nil_iff.2 fun task hTask => ?_
  cases task with
  | visit => rfl
  | emit event =>
      cases event with
      | enter kind block told =>
          refine if_neg fun hSame => ?_
          rcases h.holds_or_visits hTask with rfl | ⟨flag, hVisit⟩
          · exact hPlace hSame
          · exact hVisits flag block hVisit (hSame ▸ List.suffix_refl _)
      | _ => rfl

/-- All that visits open for a place that is not their node's. Of the visits in the work at
a node only one can be around the place, since they stand apart. -/
theorem Contained.nodeKinds {own : Bool} (h : Contained node own tasks)
    (hOrder : tasks.Pairwise Task.Before) (hPlace : node.location ≠ place)
    (hVisits : ∀ flag inner, .visit flag inner ∈ tasks →
      (inner.location = place → OwnKinds (openedAt place (Task.events settings (.visit flag inner)))) ∧
        NodeKinds (openedAt place (Task.events settings (.visit flag inner)))) :
    NodeKinds (openedAt place (tasks.flatMap (Task.events settings))) := by
  induction h with
  | nil => exact .own .nothing
  | @neutral own task tasks hTask hTasks ih =>
      obtain ⟨hFirst, hRest⟩ := List.pairwise_cons.1 hOrder
      have hKinds := ih hRest fun flag inner hInner => hVisits flag inner (List.mem_cons_of_mem _ hInner)
      cases task with
      | emit event =>
          rw [openedAt_emit_cons, show event.opensAt? place = none from hTask.opensAt?_eq]
          exact hKinds
      | visit flag inner =>
          rw [openedAt_visit_cons]
          -- If the place is inside what is visited now, no later visit comes to it.
          by_cases hBelow : inner.location <:+ place
          · rw [hTasks.openedAt_eq_nil hPlace fun _ _ hOther => (hFirst _ hOther).not_below hBelow,
              List.append_nil]
            exact (hVisits flag inner List.mem_cons_self).2
          · rw [openedAt_visit hBelow]
            exact hKinds
  | @mark event tasks hMarks _ ih =>
      have hKinds := ih hOrder.of_cons fun flag inner hInner =>
        hVisits flag inner (List.mem_cons_of_mem _ hInner)
      rw [openedAt_emit_cons]
      cases event with
      | enter => exact hMarks.elim
      | _ => exact hKinds
  | enter _ _ ih =>
      rw [openedAt_emit_cons, Event.opensAt?, if_neg hPlace]
      exact ih hOrder.of_cons fun flag inner hInner => hVisits flag inner (List.mem_cons_of_mem _ hInner)
  | leave _ ih =>
      rw [openedAt_emit_cons]
      exact ih hOrder.of_cons fun flag inner hInner => hVisits flag inner (List.mem_cons_of_mem _ hInner)
  | @field own flag value tasks _ hTasks ih =>
      obtain ⟨hFirst, hRest⟩ := List.pairwise_cons.1 hOrder.of_cons
      have hValue := hVisits flag value (List.mem_cons_of_mem _ List.mem_cons_self)
      have hKinds := ih hRest.of_cons fun flag inner hInner => hVisits flag inner (by simp [hInner])
      rw [openedAt_emit_cons, openedAt_visit_cons, openedAt_emit_cons]
      by_cases hBelow : value.location <:+ place
      · rw [hTasks.openedAt_eq_nil hPlace fun _ _ hOther =>
          (hFirst _ (List.mem_cons_of_mem _ hOther)).not_below hBelow]
        by_cases hHere : value.location = place
        · simpa [hHere] using .ofField (hValue.1 hHere)
        · simpa [hHere] using hValue.2
      · have hElse : value.location ≠ place := fun hSame => hBelow (hSame ▸ List.suffix_refl _)
        simpa [hElse, openedAt_visit hBelow] using hKinds

/-- What a visit opens for its own node, and for any other. -/
theorem nodeKinds_visit (hCustom : settings.keys.custom = []) (hNames : node.NamesOnce)
    (hGlobal : ∀ block told, .enter .global block told ∉ Task.events settings (.visit inMethod node)) :
    (node.location = place → OwnKinds (openedAt place (Task.events settings (.visit inMethod node)))) ∧
      NodeKinds (openedAt place (Task.events settings (.visit inMethod node))) := by
  induction hSize : sizeOf node.entries using Nat.strongRecOn generalizing inMethod node with
  | ind size ih =>
      have hProgram : Role.ofKind node.kind ≠ .program := fun hRole =>
        hGlobal node false (enterGlobal_mem_events hRole)
      rw [Task.events_visit] at hGlobal ⊢
      have hInside : ∀ flag inner, .visit flag inner ∈ Walker.tasks { settings, inMethod } node →
          (inner.location = place → OwnKinds (openedAt place (Task.events settings (.visit flag inner)))) ∧
            NodeKinds (openedAt place (Task.events settings (.visit flag inner))) := by
        intro flag inner hInner
        have hContains := contained_tasks.contains hInner
        refine ih _ (hSize ▸ hContains.sizeOf_lt) (hNames.of_holds (.inr hContains)) ?_ rfl
        exact fun block told hMem => hGlobal block told (List.mem_flatMap.2 ⟨_, hInner, hMem⟩)
      by_cases hPlace : node.location = place
      · have hOwn : OwnKinds (openedAt place
            ((Walker.tasks { settings, inMethod } node).flatMap (Task.events settings))) := by
          subst hPlace
          rw [openedAt_flatMap fun flag inner hInner => (contained_tasks.contains hInner).not_below]
          exact ownKinds_tasks hProgram
        exact ⟨fun _ => hOwn, .own hOwn⟩
      · exact ⟨fun hSame => absurd hSame hPlace,
          contained_tasks.nodeKinds (orderly_tasks hCustom hNames).order hPlace hInside⟩

end Scoping
