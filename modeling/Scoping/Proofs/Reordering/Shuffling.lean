import Scoping.Proofs.Reordering.Tasks

namespace Scoping

/-- The work at a node, and that at what the node has become. Each change of
scope is where it was, as the flag of `Contained` has it, and what goes on
between two changes may come in another order. -/
inductive Shuffled (r : Rearrangement) (node : Node) : Bool → List Task → List Task → Prop where
  | nil : Shuffled r node false [] []
  | neutral {own : Bool} {a a' before after : List Task} (h : Walker.Neutral node a)
      (perm : (a.map r.task).Perm a') (rest : Shuffled r node own before after) :
      Shuffled r node own (a ++ before) (a' ++ after)
  | mark {event : Event} {before after : List Task} (h : event.Marks)
      (rest : Shuffled r node true before after) :
      Shuffled r node true (.emit event :: before) (.emit event :: after)
  | enter {own : Bool} {kind : ScopeKind} {inMethod : Bool} {before after : List Task}
      (rest : Shuffled r node true before after) :
      Shuffled r node own (.emit (.enter kind node inMethod) :: before)
        (.emit (.enter kind (r.node node) inMethod) :: after)
  | leave {own : Bool} {before after : List Task} (rest : Shuffled r node false before after) :
      Shuffled r node own (.emit (.leave node) :: before) (.emit (.leave (r.node node)) :: after)
  | field {own inMethod : Bool} {value : Node} {before after : List Task} (h : node.Contains value)
      (rest : Shuffled r node own before after) :
      Shuffled r node own
        (.emit (.enter .fieldInitializer value true) :: .visit inMethod value ::
          .emit (.leave value) :: before)
        (.emit (.enter .fieldInitializer (r.node value) true) :: .visit inMethod (r.node value) ::
          .emit (.leave (r.node value)) :: after)

namespace Rearrangement

/-- Work that is shuffled, unless it fails. -/
def Shuffles (r : Rearrangement) (node : Node) (own : Bool) (before after : List Task) : Prop :=
  Sound before → Shuffled r node own before after

variable {r : Rearrangement} {walker : Walker} {node : Node} {own : Bool}
  {a a' before after : List Task}

theorem shuffles_nil : r.Shuffles node false [] [] :=
  fun _ => .nil

/-- Neutral work before others may come in another order, among itself. -/
theorem Shuffles.preceded (h : r.Shuffles node own before after) (hNeutral : Walker.Neutral node a)
    (hYields : r.Yields a a') : r.Shuffles node own (a ++ before) (a' ++ after) :=
  fun hSound => .neutral hNeutral (hYields (sound_append.1 hSound).1) (h (sound_append.1 hSound).2)

/-- A mark stays where it is, after all that came before it. -/
theorem Shuffles.mark (h : r.Shuffles node true before after) (event : Event)
    (hMarks : event.Marks) :
    r.Shuffles node true (.emit event :: before) (.emit event :: after) :=
  fun hSound => .mark hMarks (h (sound_cons hSound))

/-- So does the opening of a scope. -/
theorem Shuffles.enter (h : r.Shuffles node true before after) (kind : ScopeKind)
    (inMethod : Bool) :
    r.Shuffles node own (.emit (.enter kind node inMethod) :: before)
      (.emit (.enter kind (r.node node) inMethod) :: after) :=
  fun hSound => .enter (h (sound_cons hSound))

theorem Shuffles.enter_if {condition : Prop} [Decidable condition]
    (hEntered : r.Shuffles node true before after) (hElse : r.Shuffles node own before after)
    (kind : ScopeKind) (inMethod : Bool) :
    r.Shuffles node own
      ((if condition then [.emit (.enter kind node inMethod)] else []) ++ before)
      ((if condition then [.emit (.enter kind (r.node node) inMethod)] else []) ++ after) := by
  split
  · exact hEntered.enter kind inMethod
  · exact hElse

/-- The end of a scope stays too. After it no scope of the node is needed. -/
theorem Shuffles.leave (h : r.Shuffles node false before after) :
    r.Shuffles node own (.emit (.leave node) :: before)
      (.emit (.leave (r.node node)) :: after) :=
  fun hSound => .leave (h (sound_cons hSound))

/-- Work without any change of scope may come in another order as a whole. -/
theorem shuffles_of_neutral (hNeutral : Walker.Neutral node a) (hYields : r.Yields a a') :
    r.Shuffles node false a a' := by
  have h := shuffles_nil.preceded hNeutral hYields
  rwa [List.append_nil, List.append_nil] at h

theorem shuffles_end : r.Shuffles node own [.emit (.leave node)] [.emit (.leave (r.node node))] :=
  shuffles_nil.leave

/-- What goes on in a scope of the node may come in another order, but stays in the scope.
-/
theorem shuffles_within (kind : ScopeKind) (inMethod : Bool) (hNeutral : Walker.Neutral node a)
    (hYields : r.Yields a a') :
    r.Shuffles node false (Walker.within kind inMethod node a)
      (Walker.within kind inMethod (r.node node) a') :=
  (shuffles_end.preceded hNeutral hYields).enter kind inMethod

/-- Statements of a program may change places. The scopes of the program are opened as
before. -/
theorem shuffles_program (hSuits : r.SuitsAll node) :
    r.Shuffles node false (walker.program node) (walker.program (r.node node)) := by
  unfold Walker.program
  simp only [List.append_assoc, List.cons_append]
  have hEnd : r.Shuffles node true (walker.descend node ++ [.emit (.leave node)])
      (walker.descend (r.node node) ++ [.emit (.leave (r.node node))]) :=
    shuffles_end.preceded Walker.neutral_descend (yields_descend hSuits)
  refine Shuffles.enter ?_ _ _
  have hStrict : ∀ {before after : List Task}, r.Shuffles node true before after →
      r.Shuffles node true
        ((if walker.settings.knowsStrict && walker.settings.options.impliedStrict then
          [.emit (.setStrict true)] else []) ++ before)
        ((if walker.settings.knowsStrict && walker.settings.options.impliedStrict then
          [.emit (.setStrict true)] else []) ++ after) := by
    intro before after h
    split
    · exact h.mark _ trivial
    · exact h
  split
  · exact (((hStrict hEnd).enter_if (hStrict hEnd) .esModule false).enter _ _).mark _ trivial
  · exact (hStrict hEnd).enter_if (hStrict hEnd) .esModule false

/-- A function keeps its name, its parameters and the mark of its body in this order,
whatever is put in another order inside. -/
theorem shuffles_defineFunction (hSuits : r.SuitsAll node) :
    r.Shuffles node false (walker.defineFunction node) (walker.defineFunction (r.node node)) := by
  unfold Walker.defineFunction
  simp only [List.append_assoc, List.cons_append, kind_node, child?_node, Option.isSome_map]
  have hBody : ∀ own, r.Shuffles node own
      (.emit (.enter .function node walker.inMethod) :: (walker.defineParameters node ++
        .emit .bodyStart :: (walker.visitRequired node "body" ++ [.emit (.leave node)])))
      (.emit (.enter .function (r.node node) walker.inMethod) ::
        (walker.defineParameters (r.node node) ++ .emit .bodyStart ::
          (walker.visitRequired (r.node node) "body" ++ [.emit (.leave (r.node node))]))) :=
    fun own => ((((shuffles_end.preceded Walker.neutral_visitRequired yields_visitRequired).mark
      .bodyStart trivial).preceded Walker.neutral_defineParameters (yields_defineParameters hSuits)).enter _ _)
  refine ((hBody true).enter_if (hBody false) .functionName false).preceded ?_ ?_
  · split
    · exact Walker.neutral_optional fun _ _ => by simp [Event.IsPlain]
    · simp
  · exact yields_ite (yields_optional fun _ _ => yields_of_eq rfl) (yields_of_eq rfl)

theorem shuffles_defineClass :
    r.Shuffles node false (walker.defineClass node) (walker.defineClass (r.node node)) := by
  unfold Walker.defineClass
  simp only [List.append_assoc, List.cons_append, kind_node]
  have hEnd : r.Shuffles node false [.emit (.endDeclaration node)]
      [.emit (.endDeclaration (r.node node))] :=
    shuffles_of_neutral (by simp [Event.IsPlain]) (yields_of_eq rfl)
  refine Shuffles.preceded (((((hEnd.leave.preceded Walker.neutral_visitRequired yields_visitRequired).preceded
    Walker.neutral_defineClassName yields_defineClassName).enter _ _).preceded
      Walker.neutral_visitOptional yields_visitOptional)) ?_ ?_
  · split <;> simp
  · exact yields_ite yields_defineClassName (yields_of_eq rfl)

theorem shuffles_catchError (hSuits : r.SuitsAll node) :
    r.Shuffles node false (walker.catchError node) (walker.catchError (r.node node)) := by
  unfold Walker.catchError
  simp only [List.append_assoc, List.cons_append]
  refine (Shuffles.preceded (shuffles_end.preceded Walker.neutral_visitRequired yields_visitRequired)
    (Walker.neutral_optional fun parameter hParameter =>
      Walker.neutral_bindAndVisit (fun target event hEvent => ?_)
        (Node.contains_of_child? hParameter))
    (yields_optional fun parameter hParameter => ?_)).enter _ _
  · rcases List.mem_cons.1 hEvent with rfl | hDefault
    · trivial
    · exact Walker.plain_writeDefaults _ _ _ event hDefault
  · refine yields_bindAndVisit (hSuits.of_contains (Node.contains_of_child? hParameter))
      fun target => ?_
    rw [List.map_cons, writeDefaults_target]
    rfl

/-- The first declarator of a loop takes the values that the loop is over. -/
theorem yields_firstTargets (walker : Walker) {left : Node} (right : Node) (hSuits : r.SuitsAll left) :
    r.Yields
      (match (left.children "declarations").head? with
        | none => []
        | some declarator =>
            Walker.required declarator "id" fun id => walker.bind id fun target =>
              [.use {
                identifier := target.identifier
                access := .write
                writeExpr := right
                isPartial := true
                init := true }])
      (match ((left.children "declarations").map r.node).head? with
        | none => []
        | some declarator =>
            Walker.required declarator "id" fun id => walker.bind id fun target =>
              [.use {
                identifier := target.identifier
                access := .write
                writeExpr := r.node right
                isPartial := true
                init := true }]) := by
  rw [List.head?_map]
  cases hHead : (left.children "declarations").head? with
  | none => exact yields_of_eq rfl
  | some declarator =>
      have hDeclarator := hSuits.of_contains
        (Node.contains_of_mem_children (List.mem_of_mem_head? (Option.mem_def.2 hHead)))
      exact yields_required fun id hId => yields_bind
        (hDeclarator.of_contains (Node.contains_of_child? hId)) fun target => rfl

theorem isLexicalDeclaration_node :
    Walker.isLexicalDeclaration (r.node node) = Walker.isLexicalDeclaration node := by
  rw [Walker.isLexicalDeclaration, Walker.isLexicalDeclaration, kind_node, text?_node]

/-- The head of a loop opens a scope or not, whatever is put in another order inside. -/
theorem shuffles_loopOver {left right : Node} (hLeft : node.Contains left)
    (hRight : node.Contains right) (hSuits : r.SuitsAll left)
    (h : ∀ own, r.Shuffles node own before after) :
    r.Shuffles node false (walker.loopOver node left right ++ before)
      (walker.loopOver (r.node node) (r.node left) (r.node right) ++ after) := by
  have hDeclarators : ∀ declarator ∈ left.children "declarations", node.Contains declarator :=
    fun _ hMem => hLeft.trans (Node.contains_of_mem_children hMem)
  unfold Walker.loopOver
  dsimp only
  rw [kind_node, isLexicalDeclaration_node, children_node_of_ne hSuits.self (by decide)]
  split
  · have hEnds : r.Yields
        (walker.visit right :: (left.children "declarations").map fun declarator =>
          .emit (.endDeclaration declarator))
        (walker.visit (r.node right) :: ((left.children "declarations").map r.node).map
          fun declarator => .emit (.endDeclaration declarator)) := by
      refine (yields_of_eq ?_ : r.Yields _ _).cons _
      rw [List.map_map, List.map_map]
      rfl
    have hBody := fun own => (((h own).preceded
      (Walker.neutral_visit.2 ⟨hRight, Walker.neutral_ends⟩) hEnds).preceded
        (Walker.neutral_firstTargets hDeclarators) (yields_firstTargets walker right hSuits)).preceded
          (Walker.neutral_declareVariables hDeclarators)
          (yields_declareVariables hSuits :
            r.Yields (walker.declareVariables left true) (walker.declareVariables (r.node left) true))
    simp only [List.append_assoc]
    exact (hBody true).enter_if (hBody false) .forHead false
  · rw [List.append_assoc, List.append_assoc]
    refine ((h false).preceded (Walker.neutral_visit.2 ⟨hRight, Walker.neutral_nil⟩)
      (yields_of_eq rfl)).preceded (Walker.neutral_bindAndVisit (fun target event hEvent => ?_) hLeft)
        (yields_bindAndVisit hSuits fun target => ?_)
    · rcases List.mem_append.1 hEvent with hDefault | hWrite
      · exact Walker.plain_writeDefaults _ _ _ event hDefault
      · rw [List.mem_singleton.1 hWrite]
        trivial
    · rw [List.map_append, writeDefaults_target]
      rfl

/-- What there is to do at a node that leaves the open scopes as they are. -/
theorem yields_tasks (hNeutral : (Role.ofKind node.kind).isNeutral) (hSuits : r.SuitsAll node) :
    r.Yields (walker.tasks node) (walker.tasks (r.node node)) := by
  unfold Walker.tasks
  dsimp only
  rw [kind_node]
  cases hRole : Role.ofKind node.kind <;> dsimp only
  case identifier | silent | thisExpression => exact yields_of_eq rfl
  case assignment =>
    exact (yields_required fun _ h => yields_assign
      (hSuits.of_contains (Node.contains_of_child? h))).append yields_visitRequired
  case update =>
    exact yields_required fun _ _ => yields_ite (yields_of_eq rfl) (yields_descend hSuits)
  case member => exact yields_visitRequired.append yields_visitComputed
  case property => exact yields_visitComputed.append yields_visitOptional
  case method => exact yields_visitComputed.append yields_visitRequired
  case labelled => exact yields_visitRequired
  case call =>
    refine (yields_required fun callee _ => ?_).append (yields_descend hSuits)
    rw [isIdentifier_node, name_node]
    exact yields_ite (yields_of_eq rfl) (yields_of_eq rfl)
  case variableDeclaration => exact yields_declareVariables hSuits
  case importDeclaration => exact yields_ite (yields_importNames hSuits) (yields_of_eq rfl)
  case exportDeclaration =>
    rw [child?_node, child?_node, Option.isSome_map]
    refine yields_ite (yields_of_eq rfl) ?_
    cases node.child? "declaration" with
    | none => exact yields_descend hSuits
    | some declaration => exact yields_of_eq rfl
  case exportSpecifier => exact yields_visitOptional
  case plain => exact yields_descend hSuits
  all_goals exact absurd (hRole ▸ hNeutral) nofun

/-- A loop closes at its end the scope that its head has opened, if it has. -/
theorem shuffles_forLoop (hSuits : r.SuitsAll node) :
    r.Shuffles node false
      ((if (node.child? "init").any Walker.isLexicalDeclaration then
        [.emit (.enter .forHead node false)]
      else []) ++ walker.descend node ++ [.emit (.leave node)])
      ((if ((r.node node).child? "init").any Walker.isLexicalDeclaration then
        [.emit (.enter .forHead (r.node node) false)]
      else []) ++ walker.descend (r.node node) ++ [.emit (.leave (r.node node))]) := by
  have hEnd : ∀ own, r.Shuffles node own (walker.descend node ++ [.emit (.leave node)])
      (walker.descend (r.node node) ++ [.emit (.leave (r.node node))]) :=
    fun own => shuffles_end.preceded Walker.neutral_descend (yields_descend hSuits)
  have hLexical : ((r.node node).child? "init").any Walker.isLexicalDeclaration =
      (node.child? "init").any Walker.isLexicalDeclaration := by
    rw [child?_node]
    cases node.child? "init" with
    | none => rfl
    | some init => exact isLexicalDeclaration_node
  rw [hLexical, List.append_assoc, List.append_assoc]
  exact (hEnd true).enter_if (hEnd false) _ _

/-- A loop over values. One that does not say over which, or what for, fails. -/
theorem shuffles_forEach (hSuits : r.SuitsAll node) :
    r.Shuffles node false
      (Walker.required node "left" fun left => Walker.required node "right" fun right =>
        walker.loopOver node left right ++ walker.visitRequired node "body" ++ [.emit (.leave node)])
      (Walker.required (r.node node) "left" fun left =>
        Walker.required (r.node node) "right" fun right =>
          walker.loopOver (r.node node) left right ++ walker.visitRequired (r.node node) "body" ++
            [.emit (.leave (r.node node))]) := by
  have hEnd : ∀ own, r.Shuffles node own
      (walker.visitRequired node "body" ++ [.emit (.leave node)])
      (walker.visitRequired (r.node node) "body" ++ [.emit (.leave (r.node node))]) :=
    fun own => shuffles_end.preceded Walker.neutral_visitRequired yields_visitRequired
  unfold Walker.required
  rw [child?_node, child?_node]
  cases hLeft : node.child? "left" with
  | none => exact fun hSound => absurd List.mem_cons_self (hSound _)
  | some left =>
      cases hRight : node.child? "right" with
      | none => exact fun hSound => absurd List.mem_cons_self (hSound _)
      | some right =>
          have hContains := Node.contains_of_child? hLeft
          simp only [Option.map_some, List.append_assoc]
          exact shuffles_loopOver hContains (Node.contains_of_child? hRight)
            (hSuits.of_contains hContains) hEnd

/-- What there is to do at a node is still there to do. -/
theorem shuffles_tasks (hSuits : r.SuitsAll node) :
    r.Shuffles node false (walker.tasks node) (walker.tasks (r.node node)) := by
  by_cases hNeutral : (Role.ofKind node.kind).isNeutral
  · exact shuffles_of_neutral (Walker.neutral_tasks hNeutral) (yields_tasks hNeutral hSuits)
  unfold Walker.tasks
  dsimp only
  rw [kind_node]
  cases hRole : Role.ofKind node.kind <;> dsimp only
  case program => exact shuffles_program hSuits
  case field =>
    refine Shuffles.preceded ?_ Walker.neutral_visitComputed yields_visitComputed
    unfold Walker.optional
    rw [child?_node]
    cases hValue : node.child? "value" with
    | none => exact shuffles_nil
    | some value => exact fun _ => .field (Node.contains_of_child? hValue) .nil
  case staticBlock =>
    exact shuffles_within _ _ Walker.neutral_descend (yields_descend hSuits)
  case forLoop => exact shuffles_forLoop hSuits
  case forEach => exact shuffles_forEach hSuits
  case classDefinition => exact shuffles_defineClass
  case block =>
    split
    · exact shuffles_within _ _ Walker.neutral_descend (yields_descend hSuits)
    · exact shuffles_end.preceded Walker.neutral_descend (yields_descend hSuits)
  case withStatement =>
    exact (shuffles_within _ _ Walker.neutral_visitRequired yields_visitRequired).preceded
      Walker.neutral_visitRequired yields_visitRequired
  case switchStatement =>
    have hCases : r.Yields ((node.children "cases").map walker.visit)
        (((r.node node).children "cases").map walker.visit) :=
      yields_map_visit (children_node hSuits.self)
    refine Shuffles.preceded ?_ Walker.neutral_visitRequired yields_visitRequired
    split
    · exact shuffles_within _ _ Walker.neutral_cases hCases
    · exact shuffles_end.preceded Walker.neutral_cases hCases
  case function => exact shuffles_defineFunction hSuits
  case catchClause => exact shuffles_catchError hSuits
  all_goals exact absurd (hRole ▸ rfl) hNeutral

end Rearrangement

end Scoping
