import Scoping.Proofs.Nesting.Order
import Scoping.Proofs.Nesting.Patterns
import Scoping.Proofs.Walk.Work

/-! The work at each node goes on in an order that the scopes of the node follow. It
looks into each field once, so what it does in turn stands apart. -/

namespace Scoping.Walker

variable {walker : Walker} {node child pattern : Node} {name : String} {Here : Location → Prop}
  {each again : Target → List Event}

/-- One visit is done at one place, so nothing in it can come apart. -/
theorem calm_visit (h : Here child.location) : Calm Here [walker.visit child] where
  stays := fun task hTask => by
    rw [List.mem_singleton.1 hTask]
    exact h
  order := List.pairwise_singleton _ _

theorem calm_use {usage : Use} (h : Here usage.identifier.location) :
    Calm Here [.emit (.use usage)] where
  stays := fun task hTask => by
    rw [List.mem_singleton.1 hTask]
    exact h
  order := List.pairwise_singleton _ _

/-- Visits of nodes that stand apart, none of which is inside another. -/
theorem calm_map_visit {nodes : List Node} (hNodes : ∀ inner ∈ nodes, Here inner.location)
    (hScattered : Node.Scattered nodes) : Calm Here (nodes.map walker.visit) where
  stays := fun task hTask => by
    obtain ⟨inner, hInner, rfl⟩ := List.mem_map.1 hTask
    exact hNodes inner hInner
  order := List.pairwise_map.2 hScattered

/-- The children in one field stand apart, as each has a position of its own. -/
theorem calm_children : Calm (node.location.InFields [name]) ((node.children name).map walker.visit) :=
  calm_map_visit (fun _ hChild => Location.inFields_singleton.2 (Node.below_field hChild))
    (Node.scattered_children node name)

/-- A node looks into each of its fields once when it is visited without a rule of its own.
-/
theorem calm_descend (hCustom : walker.settings.keys.custom = []) (hNames : node.NamesOnce) :
    Calm (node.location <:+ ·) (walker.descend node) :=
  calm_map_visit (fun _ hChild => (ChildKeys.contains_of_mem_children hChild).below)
    (ChildKeys.scattered_children (ChildKeys.listsOnce_of_nil hCustom) (hNames node node.holds_self))

/-- If the child is missing, the work fails without having been anywhere. -/
theorem calm_required {next : Node → List Task}
    (h : ∀ child, node.child? name = some child → Calm Here (next child)) :
    Calm Here (required node name next) := by
  unfold required
  split
  · next child hChild => exact h child hChild
  · exact calm_of_mute (List.forall_mem_singleton.2 trivial)

theorem calm_optional {next : Node → List Task}
    (h : ∀ child, node.child? name = some child → Calm Here (next child)) :
    Calm Here (optional node name next) := by
  unfold optional
  split
  · next child hChild => exact h child hChild
  · exact calm_nil

/-- Work at the node of a field is done in the field. -/
theorem Calm.of_child? {tasks : List Task} (h : Calm (child.location <:+ ·) tasks)
    (hChild : node.child? name = some child) : Calm (node.location.InFields [name]) tasks :=
  h.mono fun _ hPlace =>
    Location.inFields_singleton.2 ((Node.below_field_of_child? hChild).trans hPlace)

theorem calm_visitRequired : Calm (node.location.InFields [name]) (walker.visitRequired node name) :=
  calm_required fun _ hChild => (calm_visit (List.suffix_refl _)).of_child? hChild

theorem calm_visitOptional : Calm (node.location.InFields [name]) (walker.visitOptional node name) :=
  calm_optional fun _ hChild => (calm_visit (List.suffix_refl _)).of_child? hChild

theorem calm_visitComputed : Calm (node.location.InFields [name]) (walker.visitComputed node name) := by
  unfold visitComputed
  split
  · exact calm_visitRequired
  · exact calm_nil

/-- Events for each target of a pattern. The place of an event, if it has one, is
that of the target. -/
def StaysAt (each : Target → List Event) : Prop :=
  ∀ target, ∀ event ∈ each target, Task.Stays (· = target.identifier.location) (.emit event)

/-- The writes of default values name the target that they write to. -/
theorem stays_writeDefaults (target : Target) (implicitGlobal : Option Node) (init : Bool) :
    ∀ event ∈ writeDefaults target implicitGlobal init,
      Task.Stays (· = target.identifier.location) (.emit event) := by
  intro event hEvent
  obtain ⟨assignment, -, rfl⟩ := List.mem_map.1 hEvent
  rfl

/-- Two rounds of events for the targets of a pattern. Each names its own target only. -/
theorem calm_targets (hEach : StaysAt each) (hAgain : StaysAt again) (targets : List Target) :
    Calm (fun place => ∃ target ∈ targets, target.identifier.location = place)
      ((targets.flatMap each).map .emit ++ (targets.flatMap again).map .emit) := by
  have hEvents : ∀ {each : Target → List Event}, StaysAt each →
      ∀ task ∈ (targets.flatMap each).map Task.emit, ∃ event, task = .emit event ∧
        Task.Stays (fun place => ∃ target ∈ targets, target.identifier.location = place)
          (.emit event) := by
    intro each hStays task hTask
    obtain ⟨event, hEvent, rfl⟩ := List.mem_map.1 hTask
    obtain ⟨target, hTarget, hMem⟩ := List.mem_flatMap.1 hEvent
    exact ⟨event, rfl, (hStays target event hMem).mono fun _ hPlace =>
      ⟨target, hTarget, hPlace.symm⟩⟩
  exact calm_emits fun task hTask => (List.mem_append.1 hTask).elim (hEvents hEach task)
    (hEvents hAgain task)

/-- A pattern may be gone through twice, its ordinary code is visited once. -/
theorem calm_found {found : Pattern} (h : found.Lies Here) (hEach : StaysAt each)
    (hAgain : StaysAt again) :
    Calm Here ((found.targets.flatMap each).map .emit ++ found.evaluated.map walker.visit ++
      (found.targets.flatMap again).map .emit) := by
  have hVisits : Calm (fun place => ∃ inner ∈ found.evaluated, inner.location = place)
      (found.evaluated.map walker.visit) :=
    calm_map_visit (fun inner hInner => ⟨inner, hInner, rfl⟩) h.scattered
  refine ((calm_targets hEach hAgain found.targets).insert hVisits ?_).mono ?_
  · rintro place other ⟨target, hTarget, rfl⟩ ⟨inner, hInner, rfl⟩
    exact h.apart inner hInner target hTarget
  · rintro place (⟨target, hTarget, rfl⟩ | ⟨inner, hInner, rfl⟩)
    · exact h.targets target hTarget
    · exact h.evaluated inner hInner

/-- A pattern that is bound twice, as the parameter of a loop is, with its code visited in
between. -/
theorem calm_bindAndVisit_bind (hCustom : walker.settings.keys.custom = []) (hNames : pattern.NamesOnce)
    (hEach : StaysAt each) (hAgain : StaysAt again) :
    Calm (pattern.location <:+ ·) (walker.bindAndVisit pattern each ++ walker.bind pattern again) := by
  unfold bindAndVisit bind
  cases hFound : Pattern.ofNode walker.settings.keys pattern with
  | error failure =>
      refine (calm_of_mute ?_).append_mute ?_ <;> exact List.forall_mem_singleton.2 trivial
  | ok found => exact calm_found (Pattern.lies_collect hCustom hNames hFound) hEach hAgain

theorem staysAt_none : StaysAt fun _ => [] :=
  fun _ _ hEvent => nomatch hEvent

/-- A pattern is bound and its code is visited, each part where it stands. -/
theorem calm_bindAndVisit (hCustom : walker.settings.keys.custom = []) (hNames : pattern.NamesOnce)
    (hEach : StaysAt each) : Calm (pattern.location <:+ ·) (walker.bindAndVisit pattern each) :=
  (calm_bindAndVisit_bind hCustom hNames hEach staysAt_none).of_append

/-- The left side of an assignment is gone through once, be it a pattern or not. -/
theorem calm_assign {left : Node} (hCustom : walker.settings.keys.custom = []) (hNames : left.NamesOnce) :
    Calm (left.location <:+ ·) (walker.assign node left) := by
  unfold assign
  split
  · exact calm_visit (List.suffix_refl _)
  · split
    · refine calm_bindAndVisit hCustom hNames fun target event hEvent => ?_
      rcases List.mem_append.1 hEvent with hDefault | hWrite
      · exact stays_writeDefaults _ _ _ event hDefault
      · rw [List.mem_singleton.1 hWrite]
        rfl
    · exact calm_use (List.suffix_refl _)

variable {declaration declarator left right : Node}

/-- What a declarator does for its targets, and what a loop may do for them after. -/
theorem calm_declareTargets_bind (hCustom : walker.settings.keys.custom = [])
    (hNames : declarator.NamesOnce) (position : Nat) (hAgain : StaysAt again) :
    Calm (declarator.location.InFields ["id"])
      (walker.declareTargets declaration declarator position ++
        required declarator "id" fun id => walker.bind id again) := by
  unfold declareTargets required
  dsimp only
  split
  · next id hId =>
      refine (calm_bindAndVisit_bind hCustom
        (hNames.of_holds (.inr (Node.contains_of_child? hId))) ?_ hAgain).of_child? hId
      intro target event hEvent
      rcases List.mem_cons.1 hEvent with rfl | hEvent
      · trivial
      rcases List.mem_append.1 hEvent with hDefault | hWrite
      · exact stays_writeDefaults _ _ _ event hDefault
      · split at hWrite
        · cases hWrite
        · rw [List.mem_singleton.1 hWrite]
          rfl
  · refine (calm_of_mute ?_).append_mute ?_ <;> exact List.forall_mem_singleton.2 trivial

theorem calm_declareTargets (hCustom : walker.settings.keys.custom = []) (hNames : declarator.NamesOnce)
    (position : Nat) :
    Calm (declarator.location.InFields ["id"])
      (walker.declareTargets declaration declarator position) :=
  (calm_declareTargets_bind hCustom hNames position staysAt_none).of_append

/-- The end of a declarator happens nowhere in particular. -/
theorem mute_ends (declarators : List Node) :
    ∀ task ∈ declarators.map fun declarator => Task.emit (.endDeclaration declarator),
      task.Stays fun _ => False := by
  intro task hTask
  obtain ⟨declarator, -, rfl⟩ := List.mem_map.1 hTask
  trivial

/-- The target of a declarator and its initial value are in different fields. -/
theorem calm_declarator (hCustom : walker.settings.keys.custom = []) (hNames : declarator.NamesOnce)
    (position : Nat) (inLoopHead : Bool) :
    Calm (declarator.location <:+ ·)
      (walker.declareTargets declaration declarator position ++ walker.visitOptional declarator "init" ++
        if inLoopHead then [] else [.emit (.endDeclaration declarator)]) := by
  refine (((calm_declareTargets hCustom hNames position).fields calm_visitOptional
    (by decide)).append_mute ?_).below
  split
  · exact fun _ hTask => nomatch hTask
  · exact List.forall_mem_singleton.2 trivial

/-- Declarators stand apart from one another, so their work does as well. -/
theorem calm_declarators (walker : Walker) (declaration : Node)
    (hCustom : walker.settings.keys.custom = []) {declarators : List Node}
    (hNames : ∀ declarator ∈ declarators, declarator.NamesOnce) (hScattered : Node.Scattered declarators)
    (start : Nat) (inLoopHead : Bool) :
    Calm (fun place => ∃ declarator ∈ declarators, declarator.location <:+ place)
      ((declarators.zipIdx start).flatMap fun (declarator, position) =>
        walker.declareTargets declaration declarator position ++
          walker.visitOptional declarator "init" ++
          if inLoopHead then [] else [.emit (.endDeclaration declarator)]) := by
  refine (calm_flatMap (fun (declarator, position) hItem => calm_declarator hCustom
    (hNames declarator (List.fst_mem_of_mem_zipIdx hItem)) position inLoopHead)
    ((hScattered.zipIdx start).imp fun hApart _ _ => hApart.mono)).mono ?_
  rintro place ⟨⟨declarator, position⟩, hItem, hPlace⟩
  exact ⟨declarator, List.fst_mem_of_mem_zipIdx hItem, hPlace⟩

theorem calm_declareVariables (hCustom : walker.settings.keys.custom = [])
    (hNames : declaration.NamesOnce) (inLoopHead : Bool) :
    Calm (declaration.location.InFields ["declarations"])
      (walker.declareVariables declaration inLoopHead) := by
  refine (calm_declarators walker declaration hCustom (fun declarator hDeclarator =>
    hNames.of_holds (.inr (Node.contains_of_mem_children hDeclarator)))
    (Node.scattered_children declaration "declarations") 0 inLoopHead).mono ?_
  rintro place ⟨declarator, hDeclarator, hPlace⟩
  exact Location.inFields_singleton.2 ((Node.below_field hDeclarator).trans hPlace)

/-- The declarators in the head of a loop, of which the first comes up again after
the last. -/
theorem calm_loopDeclaration (hCustom : walker.settings.keys.custom = []) (hNames : left.NamesOnce)
    (hAgain : StaysAt again) :
    Calm (left.location <:+ ·) (walker.declareVariables left true ++
      match (left.children "declarations").head? with
      | none => []
      | some declarator => required declarator "id" fun id => walker.bind id again) := by
  have hInside : ∀ declarator ∈ left.children "declarations", left.location <:+ declarator.location :=
    fun declarator hDeclarator => (Node.contains_of_mem_children hDeclarator).below
  have hEach : ∀ declarator ∈ left.children "declarations", declarator.NamesOnce :=
    fun declarator hDeclarator => hNames.of_holds (.inr (Node.contains_of_mem_children hDeclarator))
  have hScattered := Node.scattered_children left "declarations"
  unfold declareVariables
  cases hDeclarators : left.children "declarations" with
  | nil => exact calm_nil
  | cons declarator others =>
      rw [hDeclarators] at hInside hEach hScattered
      obtain ⟨hApart, hOthers⟩ := List.pairwise_cons.1 hScattered
      have hFirst : Calm (declarator.location <:+ ·) (walker.declareTargets left declarator 0 ++
          walker.visitOptional declarator "init" ++
          required declarator "id" fun id => walker.bind id again) :=
        ((calm_declareTargets_bind hCustom (hEach declarator List.mem_cons_self) 0
          hAgain).insert_fields calm_visitOptional (by decide)).below
      have hRest := calm_declarators walker left hCustom
        (fun other hOther => hEach other (List.mem_cons_of_mem _ hOther)) hOthers 1 true
      rw [← List.append_nil (walker.declareTargets left declarator 0 ++ _)] at hFirst
      refine (hFirst.insert hRest ?_).mono ?_
      · rintro place inner hPlace ⟨other, hOther, hInner⟩
        exact (hApart other hOther).mono hPlace hInner
      · rintro place (hPlace | ⟨other, hOther, hPlace⟩)
        · exact (hInside declarator List.mem_cons_self).trans hPlace
        · exact (hInside other (List.mem_cons_of_mem _ hOther)).trans hPlace

/-- The head of a loop, besides the scope that it may open. -/
theorem exists_calm_loopOver (hCustom : walker.settings.keys.custom = []) (hNames : node.NamesOnce)
    (hLeft : node.child? "left" = some left) (hRight : node.child? "right" = some right) :
    ∃ tasks, Calm (node.location.InFields ["left", "right"]) tasks ∧ walker.loopOver node left right =
      (if isLexicalDeclaration left then [.emit (.enter .forHead node false)] else []) ++ tasks := by
  have hLeftNames : left.NamesOnce := hNames.of_holds (.inr (Node.contains_of_child? hLeft))
  have hVisit : Calm (node.location.InFields ["right"]) [walker.visit right] :=
    (calm_visit (List.suffix_refl _)).of_child? hRight
  unfold loopOver
  split
  · simp only [List.append_assoc]
    refine ⟨_, ?_, rfl⟩
    rw [← List.append_assoc]
    refine ((calm_loopDeclaration hCustom hLeftNames ?_).of_child? hLeft).fields
      (hVisit.append_mute (mute_ends _)) (by decide)
    intro target event hEvent
    rw [List.mem_singleton.1 hEvent]
    rfl
  · next hKind =>
      have hPlain : isLexicalDeclaration left = false := by simp [isLexicalDeclaration, hKind]
      rw [hPlain]
      refine ⟨_, ((calm_bindAndVisit hCustom hLeftNames ?_).of_child? hLeft).fields hVisit (by decide),
        rfl⟩
      intro target event hEvent
      rcases List.mem_append.1 hEvent with hDefault | hWrite
      · exact stays_writeDefaults _ _ _ event hDefault
      · rw [List.mem_singleton.1 hWrite]
        rfl

/-- Parameters stand apart from one another. -/
theorem calm_defineParameters (hCustom : walker.settings.keys.custom = []) (hNames : node.NamesOnce) :
    Calm (node.location.InFields ["params"]) (walker.defineParameters node) := by
  have hScattered := Node.scattered_children node "params"
  have hEach : ∀ item ∈ (node.children "params").zipIdx, item.1.NamesOnce := fun item hItem =>
    hNames.of_holds (.inr (Node.contains_of_mem_children (List.fst_mem_of_mem_zipIdx hItem)))
  refine (calm_flatMap (fun item hItem => calm_bindAndVisit hCustom (hEach item hItem) ?_)
    ((hScattered.zipIdx 0).imp fun hApart _ _ => hApart.mono)).mono fun place hPlace => ?_
  · intro target event hEvent
    rcases List.mem_cons.1 hEvent with rfl | hDefault
    · trivial
    · exact stays_writeDefaults _ _ _ event hDefault
  · obtain ⟨item, hItem, hPlace⟩ := hPlace
    exact Location.inFields_singleton.2
      ((Node.below_field (List.fst_mem_of_mem_zipIdx hItem)).trans hPlace)

/-- What belongs to the scope of a function is done while that is open, and its name around
it. -/
theorem orderly_defineFunction (hCustom : walker.settings.keys.custom = []) (hNames : node.NamesOnce) :
    Orderly node.location (walker.defineFunction node) := by
  have hInside : Calm (node.location <:+ ·) (walker.defineParameters node ++
      .emit .bodyStart :: walker.visitRequired node "body") := by
    have hBody : Calm (node.location.InFields ["body"])
        (.emit .bodyStart :: walker.visitRequired node "body") := Calm.mute_cons trivial calm_visitRequired
    exact ((calm_defineParameters hCustom hNames).fields hBody (by decide)).below
  have hFunction : Orderly node.location (.emit (.enter .function node walker.inMethod) ::
      ((walker.defineParameters node ++ .emit .bodyStart :: walker.visitRequired node "body") ++
        [.emit (.leave node)])) :=
    hInside.orderly_leave.enter rfl
  unfold defineFunction
  simp only [List.append_assoc, List.cons_append] at hFunction ⊢
  refine Orderly.mute_append (fun task hTask => ?_) ?_
  · split at hTask
    · obtain ⟨name, -, hMem⟩ := mem_optional hTask
      rw [List.mem_singleton.1 hMem]
      trivial
    · cases hTask
  · split
    · exact hFunction.enter rfl
    · exact hFunction

theorem mute_defineClassName : ∀ task ∈ defineClassName node, task.Stays fun _ => False := by
  intro task hTask
  obtain ⟨identifier, definition, rfl, -⟩ := (mem_defineClassName hTask).define
  trivial

/-- The heritage of a class is visited before the scope of the class opens, its body inside
of that. -/
theorem orderly_defineClass : Orderly node.location (walker.defineClass node) := by
  have hNames : ∀ task ∈ (if node.kind = "ClassDeclaration" then defineClassName node else []),
      task.Stays fun _ => False := by
    intro task hTask
    split at hTask
    · exact mute_defineClassName task hTask
    · cases hTask
  have hBefore : Calm (node.location.InFields ["superClass"])
      ((if node.kind = "ClassDeclaration" then defineClassName node else []) ++
        walker.visitOptional node "superClass") := calm_visitOptional.mute_append hNames
  have hInside : Calm (node.location.InFields ["body"])
      (defineClassName node ++ walker.visitRequired node "body") :=
    calm_visitRequired.mute_append mute_defineClassName
  have hScope : Orderly node.location (_ ++ .emit (.enter .classBody node false) ::
      (_ ++ .emit (.leave node) :: [.emit (.endDeclaration node)])) :=
    orderly_scope_of_fields hBefore hInside (List.forall_mem_singleton.2 trivial) (by decide) (by decide)
      (by decide)
  unfold defineClass
  simpa only [List.append_assoc, List.cons_append] using hScope

/-- The parameter and the body of a clause that catches are done in its scope. -/
theorem orderly_catchError (hCustom : walker.settings.keys.custom = []) (hNames : node.NamesOnce) :
    Orderly node.location (walker.catchError node) := by
  have hInside : Calm (node.location <:+ ·) ((optional node "param" fun parameter =>
      walker.bindAndVisit parameter fun target =>
        .define .current target.identifier { kind := .catchClause, name := parameter, node } ::
          writeDefaults target none true) ++ walker.visitRequired node "body") := by
    refine Calm.below ((calm_optional fun parameter hParameter => ?_).fields calm_visitRequired
      (show ∀ name ∈ ["param"], name ∉ ["body"] by decide))
    refine (calm_bindAndVisit hCustom
      (hNames.of_holds (.inr (Node.contains_of_child? hParameter))) ?_).of_child? hParameter
    intro target event hEvent
    rcases List.mem_cons.1 hEvent with rfl | hDefault
    · trivial
    · exact stays_writeDefaults _ _ _ event hDefault
  exact hInside.orderly_leave.enter rfl

/-- Imported names are defined without a visit, so their places are not compared. -/
theorem mute_importNames : ∀ task ∈ walker.importNames node, task.Stays fun _ => False := by
  intro task hTask
  obtain ⟨specifier, -, hTask⟩ := List.mem_flatMap.1 hTask
  split at hTask
  · cases hTask
  · unfold bind at hTask
    split at hTask
    · rw [List.mem_singleton.1 hTask]
      trivial
    · obtain ⟨event, hEvent, rfl⟩ := List.mem_map.1 hTask
      obtain ⟨target, -, hMem⟩ := List.mem_flatMap.1 hEvent
      rw [List.mem_singleton.1 hMem]
      trivial

/-- A program goes on in the order of its scopes, as all that it opens is around
all of it. -/
theorem orderly_program (hCustom : walker.settings.keys.custom = []) (hNames : node.NamesOnce) :
    Orderly node.location (walker.program node) := by
  have hEnd : Orderly node.location (walker.descend node ++ [.emit (.leave node)]) :=
    (calm_descend hCustom hNames).orderly_leave
  have hStrict : Orderly node.location
      ((if walker.settings.knowsStrict && walker.settings.options.impliedStrict then
        [.emit (.setStrict true)]
      else []) ++ (walker.descend node ++ [.emit (.leave node)])) := by
    refine Orderly.mute_append (fun task hTask => ?_) hEnd
    split at hTask
    · rw [List.mem_singleton.1 hTask]
      trivial
    · cases hTask
  have hModule : Orderly node.location
      ((if walker.settings.hasBlockScopes && walker.settings.isModule then
        [.emit (.enter .esModule node false)]
      else []) ++ ((if walker.settings.knowsStrict && walker.settings.options.impliedStrict then
        [.emit (.setStrict true)]
      else []) ++ (walker.descend node ++ [.emit (.leave node)]))) := by
    split
    · exact hStrict.enter rfl
    · exact hStrict
  unfold program
  simp only [List.append_assoc, List.cons_append]
  refine Orderly.enter ?_ rfl
  split
  · exact (hModule.enter rfl).mute_cons trivial
  · exact hModule

/-- The value of a field has a scope to itself, and the name of the field is outside of it. -/
theorem orderly_field : Orderly node.location (walker.visitComputed node "key" ++
    optional node "value" fun value => within .fieldInitializer true value [walker.visit value]) := by
  have hKey : Calm (node.location.InFields ["key"]) (walker.visitComputed node "key") :=
    calm_visitComputed
  unfold optional
  split
  · next value hValue =>
      have hField := Node.below_field_of_child? hValue
      have hVisit : Calm (value.location <:+ ·) [walker.visit value] := calm_visit (List.suffix_refl _)
      have hApart : ∀ place other, node.location.InFields ["key"] place → value.location <:+ other →
          Location.Apart place other := fun place other hPlace hOther =>
        hPlace.apart (Location.inFields_singleton.2 (hField.trans hOther)) (by decide)
      refine orderly_scope hKey hVisit (List.forall_mem_nil _) hApart ?_
        (fun _ hPlace => encloses_of_outside rfl hPlace) (fun _ => Location.InFields.below)
        (Node.contains_of_child? hValue).below
      intro place inner hPlace hInner hSurrounds
      exact (hApart place value.location hPlace (List.suffix_refl _)).not_below hInner hSurrounds.below
  · rw [List.append_nil]
    exact hKey.below.orderly

/-- A loop closes last of all the scope that its head may have opened. -/
theorem orderly_forEach (hCustom : walker.settings.keys.custom = []) (hNames : node.NamesOnce) :
    Orderly node.location (required node "left" fun left => required node "right" fun right =>
      walker.loopOver node left right ++ walker.visitRequired node "body" ++
        [.emit (.leave node)]) := by
  have hFails : ∀ name, Orderly node.location [.emit (.fail (.missingField node.kind name))] :=
    fun _ => Calm.orderly (calm_of_mute (List.forall_mem_singleton.2 trivial))
  unfold required
  split
  · next left hLeft =>
      split
      · next right hRight =>
          obtain ⟨tasks, hTasks, hEq⟩ := exists_calm_loopOver hCustom hNames hLeft hRight
          have hEnd : Orderly node.location
              ((tasks ++ walker.visitRequired node "body") ++ [.emit (.leave node)]) :=
            (hTasks.fields calm_visitRequired (by decide)).below.orderly_leave
          dsimp only
          rw [hEq, List.append_assoc, List.append_assoc, ← List.append_assoc tasks]
          split
          · exact hEnd.enter rfl
          · exact hEnd
      · exact hFails "right"
  · exact hFails "left"

/-- Work that leaves the open scopes as they are looks into each field of the node once. -/
theorem calm_tasks (hNeutral : (Role.ofKind node.kind).isNeutral)
    (hCustom : walker.settings.keys.custom = []) (hNames : node.NamesOnce) :
    Calm (node.location <:+ ·) (walker.tasks node) := by
  have hDescend := calm_descend hCustom hNames
  unfold tasks
  cases hRole : Role.ofKind node.kind <;> dsimp only
  case identifier => exact calm_use (List.suffix_refl _)
  case silent => exact calm_nil
  case assignment =>
    refine Calm.below (Calm.fields (calm_required fun left hLeft => ?_)
      calm_visitRequired (show ∀ name ∈ ["left"], name ∉ ["right"] by decide))
    exact (calm_assign hCustom (hNames.of_holds (.inr (Node.contains_of_child? hLeft)))).of_child? hLeft
  case update =>
    refine calm_required fun argument hArgument => ?_
    split
    · exact calm_use (Node.contains_of_child? hArgument).below
    · exact hDescend
  case member => exact (calm_visitRequired.fields calm_visitComputed (by decide)).below
  case property => exact (calm_visitComputed.fields calm_visitOptional (by decide)).below
  case method => exact (calm_visitComputed.fields calm_visitRequired (by decide)).below
  case labelled => exact calm_visitRequired.below
  case call =>
    refine hDescend.mute_append fun task hTask => ?_
    unfold required at hTask
    split at hTask
    · dsimp only at hTask
      split at hTask
      · rw [List.mem_singleton.1 hTask]
        trivial
      · cases hTask
    · rw [List.mem_singleton.1 hTask]
      trivial
  case thisExpression => exact calm_of_mute (List.forall_mem_singleton.2 trivial)
  case variableDeclaration => exact (calm_declareVariables hCustom hNames false).below
  case importDeclaration =>
    split
    · exact calm_of_mute mute_importNames
    · exact calm_nil
  case exportDeclaration =>
    split
    · exact calm_nil
    · split
      · next declaration hDeclaration =>
          exact calm_visit (Node.contains_of_child? hDeclaration).below
      · exact hDescend
  case exportSpecifier => exact calm_visitOptional.below
  case plain => exact hDescend
  all_goals exact absurd (hRole ▸ hNeutral) nofun

/-- The work at a node goes on in the order of its scopes. -/
theorem orderly_tasks (hCustom : walker.settings.keys.custom = []) (hNames : node.NamesOnce) :
    Orderly node.location (walker.tasks node) := by
  by_cases hNeutral : (Role.ofKind node.kind).isNeutral
  · exact (calm_tasks hNeutral hCustom hNames).orderly
  have hDescend := calm_descend hCustom hNames
  unfold tasks
  cases hRole : Role.ofKind node.kind <;> dsimp only
  case program => exact orderly_program hCustom hNames
  case field => exact orderly_field
  case staticBlock => exact hDescend.orderly_leave.enter rfl
  case forLoop =>
    rw [List.append_assoc]
    split
    · exact hDescend.orderly_leave.enter rfl
    · exact hDescend.orderly_leave
  case forEach => exact orderly_forEach hCustom hNames
  case classDefinition => exact orderly_defineClass
  case block =>
    split
    · exact hDescend.orderly_leave.enter rfl
    · exact hDescend.orderly_leave
  case withStatement =>
    have hObject : Calm (node.location.InFields ["object"]) (walker.visitRequired node "object") :=
      calm_visitRequired
    have hBody : Calm (node.location.InFields ["body"]) (walker.visitRequired node "body") :=
      calm_visitRequired
    exact orderly_scope_of_fields hObject hBody (List.forall_mem_nil _) (by decide) (by decide)
      (by decide)
  case switchStatement =>
    have hDiscriminant : Calm (node.location.InFields ["discriminant"])
        (walker.visitRequired node "discriminant") := calm_visitRequired
    have hCases : Calm (node.location.InFields ["cases"]) ((node.children "cases").map walker.visit) :=
      calm_children
    split
    · exact orderly_scope_of_fields hDiscriminant hCases (List.forall_mem_nil _) (by decide)
        (by decide) (by decide)
    · rw [← List.append_assoc]
      exact (hDiscriminant.fields hCases (by decide)).below.orderly_leave
  case function => exact orderly_defineFunction hCustom hNames
  case catchClause => exact orderly_catchError hCustom hNames
  all_goals exact absurd (hRole ▸ rfl) hNeutral

end Scoping.Walker
