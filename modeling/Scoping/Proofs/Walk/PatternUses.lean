import Scoping.Proofs.Descent.Targets
import Scoping.Proofs.Nesting.Patterns
import Scoping.Proofs.Walk.UsesAt

/-! What the work at a pattern uses at the place of one of its targets: a write for each value
by default, and then those of the values that the pattern takes. -/

namespace Scoping

/-- Of joined lists only one has anything, where those of all items that are related to it
have nothing. -/
theorem flatMap_eq_of_pairwise {α β : Type} {R : α → α → Prop} {items : List α} {item : α}
    {f : α → List β} (hItems : items.Pairwise R) (hMem : item ∈ items)
    (hNone : ∀ other, R item other ∨ R other item → f other = []) : items.flatMap f = f item := by
  obtain ⟨before, after, rfl⟩ := List.append_of_mem hMem
  obtain ⟨-, hAfter, hBefore⟩ := List.pairwise_append.1 hItems
  have hFirst : before.flatMap f = [] := List.flatMap_eq_nil_iff.2 fun other hOther =>
    hNone other (.inr (hBefore other hOther item List.mem_cons_self))
  have hLast : after.flatMap f = [] := List.flatMap_eq_nil_iff.2 fun other hOther =>
    hNone other (.inl ((List.pairwise_cons.1 hAfter).1 other hOther))
  rw [List.flatMap_append, List.flatMap_cons, hFirst, hLast, List.nil_append, List.append_nil]

/-- A value that an identifier takes, and whether it takes only a part of it. -/
structure Taken where
  value : Option Node
  isPartial : Bool
  deriving Inhabited

/-- What an identifier takes of an assignment: all of the value if it is what stands left. -/
def Taken.ofAssignment (identifier assignment : Node) : Taken :=
  ⟨assignment.child? "right", assignment.child? "left" != some identifier⟩

/-- What an identifier takes of a declarator, if that gives a value. -/
def Taken.ofDeclarator (identifier declarator : Node) : List Taken :=
  (declarator.child? "init").toList.map fun value =>
    ⟨some value, declarator.child? "id" != some identifier⟩

namespace Target

/-- The values that a target may take by default. -/
def byDefault (target : Target) : List Taken :=
  target.defaults.map (.ofAssignment target.identifier)

/-- Writes of some values to a target. -/
def uses (target : Target) (source : Option Node) (init : Bool) (values : List Taken) : List Use :=
  values.map fun taken => {
    identifier := target.identifier
    access := .write
    writeExpr := taken.value
    isPartial := taken.isPartial
    init
    implicitGlobal := source }

variable {target : Target} {source : Option Node} {init : Bool} {values others : List Taken}

theorem uses_append : target.uses source init (values ++ others) =
    target.uses source init values ++ target.uses source init others :=
  List.map_append

/-- A write of a value to a target uses the identifier of the target. -/
theorem mem_uses {usage : Use} (h : usage ∈ target.uses source init values) :
    usage.identifier = target.identifier := by
  obtain ⟨taken, -, rfl⟩ := List.mem_map.1 h
  rfl

/-- All writes to a target stand at its place. -/
theorem usesAt_uses :
    usesAt target.identifier.location ((target.uses source init values).map .use) =
      target.uses source init values := by
  rw [usesAt, List.filterMap_map]
  refine (List.filterMap_congr fun usage hUse => ?_).trans List.filterMap_some
  exact Event.useAt?_eq_some_iff.2 ⟨rfl, congrArg Node.location (mem_uses hUse)⟩

end Target

/-- A node that has targets is a pattern that can be read. -/
theorem Pattern.exists_of_mem_targetsIn {keys : ChildKeys} {pattern : Node} {target : Target}
    (h : target ∈ targetsIn keys pattern) :
    ∃ found, ofNode keys pattern = .ok found ∧ target ∈ found.targets := by
  unfold targetsIn at h
  split at h
  · cases h
  · next found hFound => exact ⟨found, hFound, h⟩

namespace Walker

variable {walker : Walker} {node pattern id : Node} {target : Target} {source : Option Node} {init : Bool}
  {place : Location} {each : Target → List Event}

/-- The writes of default values are those of the values that the target may take by
default. -/
theorem writeDefaults_eq :
    writeDefaults target source init = (target.uses source init target.byDefault).map .use := by
  rw [Target.uses, Target.byDefault, List.map_map, List.map_map]
  rfl

/-- The targets of a pattern stand apart. -/
theorem pairwise_targetsIn {keys : ChildKeys} (hCustom : keys.custom = []) (hNames : pattern.NamesOnce) :
    (Pattern.targetsIn keys pattern).Pairwise fun first second =>
      Location.Apart first.identifier.location second.identifier.location := by
  unfold Pattern.targetsIn
  split
  · exact .nil
  · next found hFound =>
      have hScattered : Node.Scattered (found.targets.map Target.identifier) :=
        Pattern.scattered_collect hCustom hNames hFound
      rwa [Node.Scattered, List.pairwise_map] at hScattered

/-- What a pattern uses at a place is what the events for its targets use there. -/
theorem usesAt_bind : Task.usesAt place (walker.bind pattern each) =
    usesAt place ((Pattern.targetsIn walker.settings.keys pattern).flatMap each) := by
  unfold bind Pattern.targetsIn
  cases Pattern.ofNode walker.settings.keys pattern with
  | error failure => rfl
  | ok found => exact Task.usesAt_map_emit

theorem usesAt_bindAndVisit : Task.usesAt place (walker.bindAndVisit pattern each) =
    usesAt place ((Pattern.targetsIn walker.settings.keys pattern).flatMap each) := by
  unfold bindAndVisit Pattern.targetsIn
  cases Pattern.ofNode walker.settings.keys pattern with
  | error failure => rfl
  | ok found =>
      have hVisits : Task.usesAt place (found.evaluated.map walker.visit) = [] :=
        Task.usesAt_of_isSimple fun task hTask => by
          obtain ⟨inner, -, rfl⟩ := List.mem_map.1 hTask
          trivial
      dsimp only
      rw [Task.usesAt_append, Task.usesAt_map_emit, hVisits, List.append_nil]

/-- The events for each target of a pattern are writes of values to it, after some that use
nothing. -/
structure Assigns (each : Target → List Event) (source : Option Node) (init : Bool)
    (values : Target → List Taken) : Prop where
  split : ∀ target, ∃ first, (∀ usage, .use usage ∉ first) ∧
    each target = first ++ (target.uses source init (values target)).map .use

/-- What is used at a target is what the target takes. -/
theorem Assigns.usesAt_eq {keys : ChildKeys} (values : Target → List Taken)
    (h : Assigns each source init values) (hCustom : keys.custom = []) (hNames : pattern.NamesOnce)
    (hTarget : target ∈ Pattern.targetsIn keys pattern) :
    usesAt target.identifier.location ((Pattern.targetsIn keys pattern).flatMap each) =
      target.uses source init (values target) := by
  have hEach : ∀ other : Target, usesAt target.identifier.location (each other) =
      usesAt target.identifier.location ((other.uses source init (values other)).map .use) := by
    intro other
    obtain ⟨first, hFirst, hSplit⟩ := h.split other
    rw [hSplit, usesAt_append, usesAt_eq_nil fun usage hUse => absurd hUse (hFirst usage),
      List.nil_append]
  rw [usesAt, List.filterMap_flatMap, ← target.usesAt_uses, ← hEach]
  refine flatMap_eq_of_pairwise (pairwise_targetsIn hCustom hNames) hTarget fun other hOther => ?_
  refine (hEach other).trans (usesAt_eq_nil fun usage hUse hPlace => ?_)
  obtain ⟨same, hSame, hEq⟩ := List.mem_map.1 hUse
  cases hEq
  rw [Target.mem_uses hSame] at hPlace
  rcases hOther with hApart | hApart <;> exact hApart.1 (hPlace ▸ List.suffix_refl _)

section

variable {destination : Destination} {definition : Target → Definition} {last : Target → List Event}
  {values : Target → List Taken}

theorem assigns_of_eq (h : ∀ target, each target = (target.uses source init (values target)).map .use) :
    Assigns each source init values where
  split target := ⟨[], fun _ => List.not_mem_nil, h target⟩

/-- A definition of a target before its writes uses nothing. -/
theorem Assigns.define (h : Assigns each source init values) :
    Assigns (fun target => .define destination target.identifier (definition target) :: each target)
      source init values where
  split target := by
    obtain ⟨first, hFirst, hSplit⟩ := h.split target
    exact ⟨_ :: first, by simpa using hFirst, congrArg (_ :: ·) hSplit⟩

theorem assigns_byDefault : Assigns (writeDefaults · source init) source init Target.byDefault :=
  assigns_of_eq fun _ => writeDefaults_eq

/-- A target takes its values by default before others. -/
theorem assigns_append
    (hLast : ∀ target, last target = (target.uses source init (values target)).map .use) :
    Assigns (fun target => writeDefaults target source init ++ last target) source init
      fun target => target.byDefault ++ values target :=
  assigns_of_eq fun target => by
    rw [writeDefaults_eq, hLast, Target.uses_append, List.map_append]

end

/-- A target is only a part of its pattern, unless it is the pattern itself. -/
theorem not_whole_eq {keys : ChildKeys} (h : target ∈ Pattern.targetsIn keys pattern) :
    (!target.whole) = (some pattern != some target.identifier) := by
  obtain ⟨found, hFound, hTarget⟩ := Pattern.exists_of_mem_targetsIn h
  rw [(Pattern.noted_ofNode hFound hTarget).whole]
  exact congrArg not (Bool.eq_iff_iff.2 (Node.beq_iff.trans (eq_comm.trans Node.beq_iff.symm)))

/-- The identifier of a target is in the pattern. -/
theorem holds_of_mem_targetsIn {keys : ChildKeys} (h : target ∈ Pattern.targetsIn keys pattern) :
    pattern.Holds target.identifier := by
  obtain ⟨found, hFound, hTarget⟩ := Pattern.exists_of_mem_targetsIn h
  exact Pattern.targetsIn_collect hFound target hTarget

section

variable (hCustom : walker.settings.keys.custom = [])
include hCustom

variable {declaration declarator : Node} {position : Nat} {inLoopHead : Bool}

theorem usesAt_declareTargets (hNames : declarator.NamesOnce) (hId : declarator.child? "id" = some id)
    (hTarget : target ∈ Pattern.targetsIn walker.settings.keys id) :
    Task.usesAt target.identifier.location (walker.declareTargets declaration declarator position) =
      target.uses none true (target.byDefault ++ Taken.ofDeclarator target.identifier declarator) := by
  have hIdNames := hNames.of_holds (.inr (Node.contains_of_child? hId))
  rw [Taken.ofDeclarator, hId, ← not_whole_eq hTarget, declareTargets, required, hId]
  dsimp only
  rw [usesAt_bindAndVisit]
  refine Assigns.usesAt_eq (fun other => other.byDefault ++
    (declarator.child? "init").toList.map fun value => ⟨some value, !other.whole⟩)
    (assigns_append fun other => ?_).define hCustom hIdNames hTarget
  cases declarator.child? "init" <;> rfl

/-- A declaration writes to the names of one of its declarators what that takes. -/
theorem usesAt_declareVariables (hNames : declaration.NamesOnce)
    (hMem : (declarator, position) ∈ (declaration.children "declarations").zipIdx)
    (hId : declarator.child? "id" = some id)
    (hTarget : target ∈ Pattern.targetsIn walker.settings.keys id) :
    Task.usesAt target.identifier.location (walker.declareVariables declaration inLoopHead) =
      target.uses none true (target.byDefault ++ Taken.ofDeclarator target.identifier declarator) := by
  have hHeld := (Node.contains_of_child? hId).trans_holds (holds_of_mem_targetsIn hTarget)
  have hApart := (Node.scattered_children declaration "declarations").zipIdx 0
  have hDeclarator := hNames.of_holds
    (.inr (Node.contains_of_mem_children (List.fst_mem_of_mem_zipIdx hMem)))
  rw [declareVariables, Task.usesAt_flatMap, flatMap_eq_of_pairwise hApart hMem]
  · have hVisit : Task.usesAt target.identifier.location (walker.visitOptional declarator "init") = [] :=
      Task.usesAt_of_isSimple fun _ => isSimple_of_mem_visitOptional
    have hEnd : Task.usesAt target.identifier.location
        (if inLoopHead then [] else [.emit (.endDeclaration declarator)]) = [] := by
      split <;> rfl
    dsimp only
    rw [Task.usesAt_append, Task.usesAt_append, hVisit, hEnd, List.append_nil, List.append_nil]
    exact usesAt_declareTargets hCustom hDeclarator hId hTarget
  · rintro ⟨other, place⟩ hOther
    refine Task.usesAt_of_usesIn (usesIn_declarator (by split <;> simp)) ?_
    exact (hOther.elim (fun h => h) Location.Apart.symm).not_below hHeld.below

/-- A loop gives its values to the names of the first declarator in its head. -/
theorem usesAt_loopHead {left right : Node} (hNames : left.NamesOnce)
    (hMem : (declarator, position) ∈ (left.children "declarations").zipIdx)
    (hId : declarator.child? "id" = some id)
    (hTarget : target ∈ Pattern.targetsIn walker.settings.keys id) :
    Task.usesAt target.identifier.location
      (match (left.children "declarations").head? with
        | none => []
        | some declarator =>
            required declarator "id" fun id => walker.bind id fun target =>
              [.use {
                identifier := target.identifier
                access := .write
                writeExpr := right
                isPartial := true
                init := true }]) =
      target.uses none true (if position = 0 then [⟨some right, true⟩] else []) := by
  have hPosition := List.mk_mem_zipIdx_iff_getElem?.1 hMem
  have hScattered := Node.scattered_children left "declarations"
  cases hDeclarators : left.children "declarations" with
  | nil => simp [hDeclarators] at hPosition
  | cons first rest =>
      rw [hDeclarators] at hPosition hScattered
      dsimp only [List.head?_cons]
      cases position with
      | zero =>
          obtain rfl := Option.some.inj hPosition
          have hIdNames := hNames.of_holds (.inr ((Node.contains_of_mem_children
            (List.fst_mem_of_mem_zipIdx hMem)).trans (Node.contains_of_child? hId)))
          rw [required, hId, if_pos rfl]
          dsimp only
          rw [usesAt_bind]
          exact Assigns.usesAt_eq (fun _ => [⟨some right, true⟩]) (assigns_of_eq fun _ => rfl) hCustom
            hIdNames hTarget
      | succ position =>
          have hHeld := (Node.contains_of_child? hId).trans_holds (holds_of_mem_targetsIn hTarget)
          have hRest : declarator ∈ rest := List.mem_of_getElem? hPosition
          have hApart := (List.pairwise_cons.1 hScattered).1 declarator hRest
          rw [if_neg (Nat.succ_ne_zero position)]
          refine Task.usesAt_of_usesIn (usesIn_required fun other hOther => ?_)
            (hApart.symm.not_below hHeld.below)
          refine (usesIn_bind fun target usage hUse => ?_).of_contains (Node.contains_of_child? hOther)
          cases List.mem_singleton.1 hUse
          rfl

/-- A loop over values, some of which the names of a declarator in its head take. -/
theorem usesAt_loopOver {left right : Node} (hNames : left.NamesOnce)
    (hKind : left.kind = "VariableDeclaration")
    (hMem : (declarator, position) ∈ (left.children "declarations").zipIdx)
    (hId : declarator.child? "id" = some id)
    (hTarget : target ∈ Pattern.targetsIn walker.settings.keys id) :
    Task.usesAt target.identifier.location (walker.loopOver node left right) =
      target.uses none true (target.byDefault ++ Taken.ofDeclarator target.identifier declarator ++
        if position = 0 then [⟨some right, true⟩] else []) := by
  have hEnds : Task.usesAt target.identifier.location ((left.children "declarations").map fun declarator =>
      .emit (.endDeclaration declarator)) = [] :=
    List.filterMap_eq_nil_iff.2 fun task hTask => by
      obtain ⟨other, -, rfl⟩ := List.mem_map.1 hTask
      rfl
  have hEnter : Task.usesAt target.identifier.location
      (if isLexicalDeclaration left then [.emit (.enter .forHead node false)] else []) = [] := by
    split <;> rfl
  rw [loopOver, if_pos hKind, Target.uses_append]
  simp only [Task.usesAt_append, visit, Task.usesAt_visit, hEnds, hEnter, List.nil_append, List.append_nil]
  rw [usesAt_declareVariables hCustom hNames hMem hId hTarget]
  congr 1
  exact usesAt_loopHead hCustom hNames hMem hId hTarget

/-- A loop that declares nothing gives its values to a pattern. -/
theorem usesAt_loopOver_of_ne {left right : Node} (hNames : left.NamesOnce)
    (hKind : left.kind ≠ "VariableDeclaration")
    (hTarget : target ∈ Pattern.targetsIn walker.settings.keys left) :
    Task.usesAt target.identifier.location (walker.loopOver node left right) =
      target.uses node false (target.byDefault ++ [⟨some right, true⟩]) := by
  rw [loopOver, if_neg hKind, Task.usesAt_append, visit, Task.usesAt_visit, Task.usesAt_nil,
    List.append_nil, usesAt_bindAndVisit]
  exact Assigns.usesAt_eq (fun other => other.byDefault ++ [⟨some right, true⟩])
    (assigns_append fun _ => rfl) hCustom hNames hTarget

/-- An assignment gives its value to a pattern. -/
theorem usesAt_assign {left : Node} (hNames : left.NamesOnce) (hLeft : node.child? "left" = some left)
    (hPattern : Pattern.isPattern left = true) (hPlain : node.text? "operator" = some "=")
    (hTarget : target ∈ Pattern.targetsIn walker.settings.keys left) :
    Task.usesAt target.identifier.location (walker.assign node left) =
      target.uses node false (target.byDefault ++ [.ofAssignment target.identifier node]) := by
  rw [Taken.ofAssignment, hLeft, ← not_whole_eq hTarget, assign, if_neg (by simp [hPattern]),
    if_pos hPlain, usesAt_bindAndVisit]
  exact Assigns.usesAt_eq (fun other => other.byDefault ++ [⟨node.child? "right", !other.whole⟩])
    (assigns_append fun _ => rfl) hCustom hNames hTarget

/-- A parameter of a function takes its values by default only. -/
theorem usesAt_defineParameters {parameter : Node} (hNames : node.NamesOnce)
    (hMem : (parameter, position) ∈ (node.children "params").zipIdx)
    (hTarget : target ∈ Pattern.targetsIn walker.settings.keys parameter) :
    Task.usesAt target.identifier.location (walker.defineParameters node) =
      target.uses none true target.byDefault := by
  have hHeld := holds_of_mem_targetsIn hTarget
  have hApart := (Node.scattered_children node "params").zipIdx 0
  have hParameter := hNames.of_holds
    (.inr (Node.contains_of_mem_children (List.fst_mem_of_mem_zipIdx hMem)))
  rw [defineParameters, Task.usesAt_flatMap, flatMap_eq_of_pairwise hApart hMem]
  · dsimp only
    rw [usesAt_bindAndVisit]
    exact Assigns.usesAt_eq Target.byDefault assigns_byDefault.define hCustom hParameter hTarget
  · rintro ⟨other, place⟩ hOther
    refine Task.usesAt_of_usesIn (usesIn_bindAndVisit fun target usage hUse => ?_)
      ((hOther.elim (fun h => h) Location.Apart.symm).not_below hHeld.below)
    exact identifier_of_mem_define (by simp) hUse

/-- What a clause catches takes its values by default only. -/
theorem usesAt_catchError {parameter : Node} (hNames : node.NamesOnce)
    (hParameter : node.child? "param" = some parameter)
    (hTarget : target ∈ Pattern.targetsIn walker.settings.keys parameter) :
    Task.usesAt target.identifier.location (walker.catchError node) =
      target.uses none true target.byDefault := by
  have hBody : Task.usesAt target.identifier.location (walker.visitRequired node "body") = [] :=
    Task.usesAt_of_isSimple fun _ => isSimple_of_mem_visitRequired
  have hNode := hNames.of_holds (.inr (Node.contains_of_child? hParameter))
  rw [catchError, optional, hParameter, List.cons_append, List.cons_append, Task.usesAt_emit rfl,
    Task.usesAt_append, Task.usesAt_append, hBody, Task.usesAt_emit rfl, Task.usesAt_nil,
    List.append_nil, List.append_nil]
  dsimp only
  rw [usesAt_bindAndVisit]
  exact Assigns.usesAt_eq Target.byDefault assigns_byDefault.define hCustom hNode hTarget

end

end Walker

end Scoping
