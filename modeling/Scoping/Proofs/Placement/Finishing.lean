import Scoping.Proofs.Chronicle.Endings
import Scoping.Proofs.Placement.Definitions
import Scoping.Proofs.Placement.Visited

/-! Where declarations finish. A declarator does once all that is inside it has
been visited, and in the head of a loop once the values that the loop is over have
been; a class does once its body has been. -/

namespace Scoping

/-- What a walk does at a declarator: its targets, what is to be evaluated in them,
and its first value. -/
def Walker.declareVariable (walker : Walker) (declaration declarator : Node) (position : Nat) :
    List Task :=
  walker.declareTargets declaration declarator position ++ walker.visitOptional declarator "init"

/-- What a walk does at the declarators of a statement, each of which finishes before
the next. -/
def Walker.declareInTurn (walker : Walker) (declaration : Node) (declarators : List Node) :
    List Task :=
  declarators.zipIdx.flatMap fun (declarator, position) =>
    walker.declareVariable declaration declarator position ++ [.emit (.endDeclaration declarator)]

/-- A declaration finishes after these events of the walk of a program. -/
inductive Finishes (settings : Settings) (root : Node) : List Event → Node → Prop where
  | declarator {begun rest : List Event} {inMethod : Bool} {declaration declarator : Node}
      {earlier later : List Node}
      (visit : Arrives settings root begun (.visit inMethod declaration) rest)
      (role : Role.ofKind declaration.kind = .variableDeclaration)
      (split : declaration.children "declarations" = earlier ++ declarator :: later) :
      Finishes settings root
        (begun ++ (Walker.declareInTurn { settings, inMethod } declaration earlier ++
          Walker.declareVariable { settings, inMethod } declaration declarator
            earlier.length).flatMap (Task.events settings))
        declarator
  | head {begun rest : List Event} {inMethod : Bool} {loop left right declarator : Node}
      {before after : List Task}
      (visit : Arrives settings root begun (.visit inMethod loop) rest)
      (role : Role.ofKind loop.kind = .forEach) (child : loop.child? "left" = some left)
      (left_kind : left.kind = "VariableDeclaration")
      (mem : declarator ∈ left.children "declarations")
      (values : loop.child? "right" = some right)
      (split : Walker.tasks { settings, inMethod } loop = before ++ .visit inMethod right :: after) :
      Finishes settings root
        (begun ++ (before ++ [Task.visit inMethod right]).flatMap (Task.events settings)) declarator
  | definition {begun rest : List Event} {inMethod : Bool} {node body : Node}
      {before after : List Task}
      (visit : Arrives settings root begun (.visit inMethod node) rest)
      (role : Role.ofKind node.kind = .classDefinition) (child : node.child? "body" = some body)
      (split : Walker.tasks { settings, inMethod } node = before ++ .visit inMethod body :: after) :
      Finishes settings root
        (begun ++ (before ++ [Task.visit inMethod body, .emit (.leave node)]).flatMap
          (Task.events settings)) node

variable {settings : Settings} {root node ended : Node} {past future : List Event}
  {inMethod : Bool} {walker : Walker}

theorem Task.ne_end_of_isUse {task : Task} (h : task.IsUse) : task ≠ .emit (.endDeclaration ended) := by
  rintro rfl
  rcases h with hSimple | ⟨use, hUse⟩
  · exact hSimple
  · cases hUse

namespace Walker

/-- A definition does not finish a declaration by itself. -/
theorem ne_end_of_declares {declaration declarator : Node} {task : Task}
    (h : Declares declaration declarator task) : task ≠ .emit (.endDeclaration ended) := by
  obtain ⟨target, position, rfl⟩ := h.define
  nofun

/-- Between the targets of a declarator and its value nothing ends. -/
theorem end_not_mem_declareVariable {declaration declarator : Node} {position : Nat} :
    .emit (.endDeclaration ended) ∉ walker.declareVariable declaration declarator position := by
  intro hMem
  rcases List.mem_append.1 hMem with hTargets | hInit
  · rcases mem_declareTargets hTargets with hUse | hDeclares
    · exact Task.ne_end_of_isUse hUse rfl
    · exact ne_end_of_declares hDeclares rfl
  · exact Task.ne_end_of_isUse (.inl (isSimple_of_mem_visitOptional hInit)) rfl

/-- A declaration deals with its declarators in turn. -/
theorem tasks_declaration (hRole : Role.ofKind node.kind = .variableDeclaration) :
    walker.tasks node = walker.declareInTurn node (node.children "declarations") := by
  unfold tasks
  rw [hRole]
  rfl

/-- What is done at one declarator of several comes after the earlier ones, and before its
own end. -/
theorem exists_declareInTurn_append (walker : Walker) (declaration declarator : Node)
    (earlier later : List Node) :
    ∃ after, walker.declareInTurn declaration (earlier ++ declarator :: later) =
      (walker.declareInTurn declaration earlier ++
        walker.declareVariable declaration declarator earlier.length) ++
        .emit (.endDeclaration declarator) :: after := by
  unfold declareInTurn
  rw [List.zipIdx_append, List.flatMap_append, List.zipIdx_cons, List.flatMap_cons, Nat.zero_add]
  simp only [List.append_assoc, List.cons_append, List.nil_append]
  exact ⟨_, rfl⟩

/-- Where a declarator of a statement ends, the ones before it have been dealt
with, and all that is inside it. -/
theorem exists_of_declareInTurn_eq {declaration : Node} {declarators : List Node}
    {before after : List Task}
    (h : walker.declareInTurn declaration declarators =
      before ++ .emit (.endDeclaration ended) :: after) :
    ∃ earlier later, declarators = earlier ++ ended :: later ∧
      before = walker.declareInTurn declaration earlier ++
        walker.declareVariable declaration ended earlier.length := by
  obtain ⟨first, ⟨declarator, position⟩, rest, inside, beyond, hItems, hHere, rfl, -⟩ :=
    exists_of_flatMap_eq h
  obtain ⟨earlier, others, rfl, rfl, hOthers⟩ := List.zipIdx_eq_append_iff.1 hItems
  obtain ⟨found, later, rfl, hFound, -⟩ := List.zipIdx_eq_cons_iff.1 hOthers.symm
  rw [Nat.zero_add] at hFound
  cases hFound
  dsimp only at hHere
  rw [← List.append_nil [Task.emit _]] at hHere
  obtain ⟨ahead, behind, rfl, hEnd⟩ := exists_of_append_eq hHere end_not_mem_declareVariable List.not_mem_nil
  cases ahead with
  | nil =>
      cases hEnd
      exact ⟨earlier, later, rfl, by rw [List.append_nil]; rfl⟩
  | cons task ahead => simp at hEnd

theorem end_not_mem_visitRequired {name : String} :
    .emit (.endDeclaration ended) ∉ walker.visitRequired node name :=
  fun hMem => Task.ne_end_of_isUse (.inl (isSimple_of_mem_visitRequired hMem)) rfl

theorem child?_of_mem_visitRequired {name : String} {inMethod : Bool} {inner : Node}
    (h : .visit inMethod inner ∈ walker.visitRequired node name) : node.child? name = some inner := by
  unfold visitRequired required at h
  split at h
  · next child hChild =>
      cases List.mem_singleton.1 h
      exact hChild
  · cases List.mem_singleton.1 h

/-- The work of ending some declarations. -/
def ends (declarators : List Node) : List Task :=
  declarators.map fun declarator => .emit (.endDeclaration declarator)

/-- What a walk does in the head of a loop before the values that the loop is over. -/
def Heads (node left : Node) (task : Task) : Prop :=
  task.IsUse ∨ task = .emit (.enter .forHead node false) ∨
    ∃ declarator ∈ left.children "declarations", Declares left declarator task

theorem Heads.ne_end {left : Node} {task : Task} (h : Heads node left task) :
    task ≠ .emit (.endDeclaration ended) := by
  rcases h with hUse | rfl | ⟨_, -, hDeclares⟩
  · exact Task.ne_end_of_isUse hUse
  · nofun
  · exact ne_end_of_declares hDeclares

/-- The work at a loop whose head declares variables. Its declarators end right
after the values that it is over. -/
theorem exists_tasks_loop (walker : Walker) {left right : Node} (hRole : Role.ofKind node.kind = .forEach)
    (hLeft : node.child? "left" = some left) (hKind : left.kind = "VariableDeclaration")
    (hRight : node.child? "right" = some right) :
    ∃ head, (∀ task ∈ head, Heads node left task) ∧
      (∀ inMethod inner, .visit inMethod inner ∈ head → left.Contains inner) ∧
      walker.tasks node = head ++ (walker.visit right :: ends (left.children "declarations")) ++
        (walker.visitRequired node "body" ++ [.emit (.leave node)]) := by
  have hInside : ∀ declarator ∈ left.children "declarations", left.Contains declarator :=
    fun _ hMem => Node.contains_of_mem_children hMem
  rw [tasks_forEach hRole hLeft hRight, loopOver, if_pos hKind]
  refine ⟨_, fun task hMem => ?_, fun inMethod inner hMem => ?_, rfl⟩
  · rcases List.mem_append.1 hMem with hDeclare | hFirst
    · rcases List.mem_append.1 hDeclare with hEnter | hDeclare
      · split at hEnter
        · exact .inr (.inl (List.mem_singleton.1 hEnter))
        · cases hEnter
      · rcases mem_declareVariables hDeclare with hUse | ⟨declarator, hDeclarator, hDeclares | ⟨hHead, -⟩⟩
        · exact .inl hUse
        · exact .inr (.inr ⟨declarator, hDeclarator, hDeclares⟩)
        · cases hHead
    · exact .inl (isUse_of_mem_firstTargets hFirst)
  · rcases List.mem_append.1 hMem with hDeclare | hFirst
    · rcases List.mem_append.1 hDeclare with hEnter | hDeclare
      · split at hEnter <;> simp at hEnter
      · exact neutral_declareVariables hInside _ hDeclare
    · exact neutral_firstTargets hInside _ hFirst

/-- The work at a class ends with that of its body, and with the end of its declaration. -/
theorem exists_tasks_class (walker : Walker) (hRole : Role.ofKind node.kind = .classDefinition) :
    ∃ head, (∀ ended, .emit (.endDeclaration ended) ∉ head) ∧
      (∀ inMethod inner, .visit inMethod inner ∈ head → node.child? "superClass" = some inner) ∧
      walker.tasks node = head ++ (walker.visitRequired node "body" ++
        [.emit (.leave node), .emit (.endDeclaration node)]) := by
  have hName : ∀ {task}, task ∈ defineClassName node →
      (∀ ended, task ≠ .emit (.endDeclaration ended)) ∧ ∀ inMethod inner, task ≠ .visit inMethod inner := by
    intro task hMem
    obtain ⟨identifier, definition, rfl, -⟩ := (mem_defineClassName hMem).define
    exact ⟨nofun, nofun⟩
  unfold tasks
  rw [hRole]
  dsimp only
  unfold defineClass
  simp only [List.append_assoc, List.cons_append]
  refine ⟨(if node.kind = "ClassDeclaration" then defineClassName node else []) ++
    (walker.visitOptional node "superClass" ++
      .emit (.enter .classBody node false) :: defineClassName node),
    fun ended hMem => ?_, fun inMethod inner hMem => ?_, by simp⟩
  · rcases List.mem_append.1 hMem with hOuter | hMem
    · split at hOuter
      · exact (hName hOuter).1 ended rfl
      · cases hOuter
    rcases List.mem_append.1 hMem with hSuper | hMem
    · exact Task.ne_end_of_isUse (.inl (isSimple_of_mem_visitOptional hSuper)) rfl
    · exact (hName ((List.mem_cons.1 hMem).resolve_left nofun)).1 ended rfl
  · rcases List.mem_append.1 hMem with hOuter | hMem
    · split at hOuter
      · exact absurd rfl ((hName hOuter).2 inMethod inner)
      · cases hOuter
    rcases List.mem_append.1 hMem with hSuper | hMem
    · obtain ⟨child, hChild, hVisit⟩ := mem_optional hSuper
      cases List.mem_singleton.1 hVisit
      exact hChild
    · exact absurd rfl ((hName ((List.mem_cons.1 hMem).resolve_left nofun)).2 inMethod inner)

/-- Once a loop has its values, its declarators end in order. -/
theorem exists_end_of_loop {left right : Node} {before after : List Task}
    (hRole : Role.ofKind node.kind = .forEach) (hLeft : node.child? "left" = some left)
    (hKind : left.kind = "VariableDeclaration") (hRight : node.child? "right" = some right)
    (hMem : ended ∈ left.children "declarations")
    (hSplit : walker.tasks node = before ++ walker.visit right :: after) :
    ∃ earlier rest, walker.tasks node =
      (before ++ [walker.visit right] ++ ends earlier) ++ .emit (.endDeclaration ended) :: rest := by
  obtain ⟨head, -, hInside, hTasks⟩ :=
    exists_tasks_loop walker hRole hLeft hKind hRight
  rw [List.append_assoc, List.cons_append] at hTasks
  have hLast : walker.visit right ∉ ends (left.children "declarations") ++
      (walker.visitRequired node "body" ++ [.emit (.leave node)]) := by
    intro hMem
    rcases List.mem_append.1 hMem with hEnd | hBody
    · obtain ⟨_, -, hEq⟩ := List.mem_map.1 hEnd
      cases hEq
    · have hBody := (List.mem_append.1 hBody).resolve_right (by simp [visit])
      exact Node.ne_of_child? (child?_of_mem_visitRequired hBody) hRight (by decide) rfl
  obtain ⟨rfl, rfl⟩ := eq_of_append_cons_eq (hTasks.symm.trans hSplit)
    (fun hMem => Node.not_contains_of_child? hLeft hRight (hInside _ _ hMem)) hLast
  obtain ⟨earlier, later, hDeclarators⟩ := List.append_of_mem hMem
  refine ⟨earlier, ends later ++ (walker.visitRequired node "body" ++ [.emit (.leave node)]), ?_⟩
  rw [hTasks, hDeclarators]
  simp [ends]

/-- Where a declarator ends in a loop, the values that the loop is over have been visited.
-/
theorem exists_of_end_of_loop {left : Node} {before after : List Task}
    (hRole : Role.ofKind node.kind = .forEach) (hLeft : node.child? "left" = some left)
    (hKind : left.kind = "VariableDeclaration")
    (hSplit : walker.tasks node = before ++ .emit (.endDeclaration ended) :: after) :
    ∃ right head earlier rest, node.child? "right" = some right ∧
      before = head ++ [walker.visit right] ++ ends earlier ∧
      walker.tasks node = head ++ walker.visit right :: rest := by
  obtain ⟨right, hRight⟩ := exists_right_of_mem hRole hLeft
    (hSplit ▸ List.mem_append_right _ List.mem_cons_self) (by exact id)
  obtain ⟨head, hHead, -, hTasks⟩ :=
    exists_tasks_loop walker hRole hLeft hKind hRight
  have hFirst : .emit (.endDeclaration ended) ∉ head ++ [walker.visit right] := by
    intro hMem
    rcases List.mem_append.1 hMem with hMem | hVisit
    · exact (hHead _ hMem).ne_end rfl
    · simp [visit] at hVisit
  have hLast : .emit (.endDeclaration ended) ∉
      walker.visitRequired node "body" ++ [.emit (.leave node)] := by
    simp [end_not_mem_visitRequired]
  have hEnds : (head ++ [walker.visit right]) ++ (ends (left.children "declarations") ++
      (walker.visitRequired node "body" ++ [.emit (.leave node)])) =
        before ++ .emit (.endDeclaration ended) :: after := by
    rw [← hSplit, hTasks]
    simp [ends]
  obtain ⟨ahead, behind, rfl, hSame⟩ := exists_of_append_eq hEnds hFirst hLast
  obtain ⟨earlier, later, -, rfl, -⟩ := List.map_eq_append_iff.1 hSame
  exact ⟨right, head, earlier, _, hRight, rfl, by rw [hTasks, List.append_assoc, List.cons_append]⟩

/-- Once the body of a class is done, its scope closes and the class ends. -/
theorem end_of_class {body : Node} {before after : List Task}
    (hRole : Role.ofKind node.kind = .classDefinition) (hBody : node.child? "body" = some body)
    (hSplit : walker.tasks node = before ++ walker.visit body :: after) :
    walker.tasks node =
      (before ++ [walker.visit body, .emit (.leave node)]) ++ [.emit (.endDeclaration node)] := by
  obtain ⟨head, -, hInside, hTasks⟩ := exists_tasks_class walker hRole
  rw [visitRequired, required, hBody] at hTasks
  obtain ⟨rfl, rfl⟩ := eq_of_append_cons_eq (hTasks.symm.trans hSplit)
    (fun hMem => Node.ne_of_child? (hInside _ _ hMem) hBody (by decide) rfl) (by simp [visit])
  rw [hTasks]
  simp

/-- Where a class ends, its body has been visited and its scope has closed. -/
theorem exists_of_end_of_class {before after : List Task}
    (hRole : Role.ofKind node.kind = .classDefinition)
    (hSplit : walker.tasks node = before ++ .emit (.endDeclaration node) :: after) :
    ∃ head, before = head ++ (walker.visitRequired node "body" ++ [.emit (.leave node)]) ∧
      walker.tasks node = head ++ (walker.visitRequired node "body" ++
        [.emit (.leave node), .emit (.endDeclaration node)]) := by
  obtain ⟨head, hHead, -, hTasks⟩ := exists_tasks_class walker hRole
  have hEnd : (head ++ (walker.visitRequired node "body" ++ [.emit (.leave node)])) ++
      .emit (.endDeclaration node) :: [] = before ++ .emit (.endDeclaration node) :: after := by
    rw [← hSplit, hTasks]
    simp
  obtain ⟨rfl, -⟩ := eq_of_append_cons_eq hEnd (by simp [hHead, end_not_mem_visitRequired])
    List.not_mem_nil
  exact ⟨head, rfl, hTasks⟩

variable {destination : Destination} {identifier : Node} {made : Definition}
  {before after : List Task}

/-- A definition by a declarator has the declarator as its node. -/
theorem Declares.node_eq {declaration declarator : Node}
    (h : Declares declaration declarator (.emit (.define destination identifier made))) :
    made.node = declarator := by
  obtain ⟨target, position, hEq⟩ := h.define
  cases hEq
  rfl

theorem define_not_isUse : ¬ Task.IsUse (.emit (.define destination identifier made)) := by
  rintro (hSimple | ⟨use, hUse⟩)
  · exact hSimple
  · cases hUse

/-- In a statement, whatever a declarator defines ends after that. -/
theorem end_mem_of_declared (hRole : Role.ofKind node.kind = .variableDeclaration)
    (hSplit : walker.tasks node = before ++ .emit (.define destination identifier made) :: after) :
    .emit (.endDeclaration made.node) ∈ after := by
  rw [tasks_declaration hRole] at hSplit
  obtain ⟨first, ⟨declarator, position⟩, rest, inside, beyond, -, hHere, -, rfl⟩ :=
    exists_of_flatMap_eq hSplit
  dsimp only at hHere
  have hMem : .emit (.define destination identifier made) ∈
      walker.declareVariable node declarator position := by
    have hMem := hHere ▸ List.mem_append_right inside List.mem_cons_self
    exact (List.mem_append.1 hMem).resolve_right (by simp)
  have hNode : made.node = declarator := by
    rcases List.mem_append.1 hMem with hTargets | hInit
    · exact ((mem_declareTargets hTargets).resolve_left define_not_isUse).node_eq
    · exact absurd (.inl (isSimple_of_mem_visitOptional hInit)) define_not_isUse
  rw [hNode]
  exact List.mem_append_left _ (mem_after_of_mem hHere (by simp) List.mem_cons_self)

/-- In the head of a loop it does as well, if later. -/
theorem end_mem_of_looped {left : Node} (hRole : Role.ofKind node.kind = .forEach)
    (hLeft : node.child? "left" = some left) (hKind : left.kind = "VariableDeclaration")
    (hSplit : walker.tasks node = before ++ .emit (.define destination identifier made) :: after) :
    .emit (.endDeclaration made.node) ∈ after := by
  have hMem : .emit (.define destination identifier made) ∈ walker.tasks node :=
    hSplit ▸ List.mem_append_right _ List.mem_cons_self
  obtain ⟨right, hRight⟩ := exists_right_of_mem hRole hLeft hMem (by exact id)
  obtain ⟨head, hHead, -, hTasks⟩ :=
    exists_tasks_loop walker hRole hLeft hKind hRight
  have hNot : .emit (.define destination identifier made) ∉
      (walker.visit right :: ends (left.children "declarations")) ++
        (walker.visitRequired node "body" ++ [.emit (.leave node)]) := by
    intro hMem
    rcases List.mem_append.1 hMem with hEnds | hBody
    · simp [visit, ends] at hEnds
    · rcases List.mem_append.1 hBody with hBody | hLeave
      · exact define_not_isUse (.inl (isSimple_of_mem_visitRequired hBody))
      · simp at hLeave
  rw [hTasks, List.append_assoc] at hMem hSplit
  obtain ⟨declarator, hDeclarator, hDeclares⟩ : ∃ declarator ∈ left.children "declarations",
      Declares left declarator (.emit (.define destination identifier made)) := by
    rcases hHead _ ((List.mem_append.1 hMem).resolve_right hNot) with hUse | hEnter | hDeclares
    · exact absurd hUse define_not_isUse
    · cases hEnter
    · exact hDeclares
  refine mem_after_of_mem hSplit hNot (List.mem_append_left _ (List.mem_cons_of_mem _ ?_))
  rw [hDeclares.node_eq]
  exact List.mem_map_of_mem hDeclarator

/-- The names of a class are defined before it ends, the one around it and the one in it. -/
theorem end_mem_of_class (hRole : Role.ofKind node.kind = .classDefinition)
    (hSplit : walker.tasks node = before ++ .emit (.define destination identifier made) :: after) :
    .emit (.endDeclaration node) ∈ after := by
  obtain ⟨head, -, -, hTasks⟩ := exists_tasks_class walker hRole
  have hEnd : (head ++ (walker.visitRequired node "body" ++ [.emit (.leave node)])) ++
      [.emit (.endDeclaration node)] =
        before ++ .emit (.define destination identifier made) :: after := by
    rw [← hSplit, hTasks]
    simp
  exact mem_after_of_mem hEnd (by simp) List.mem_cons_self

end Walker

/-- A class or a lexical declaration ends at the node that brings it. -/
theorem Stands.end_mem {trail later : Trail} {destination : Destination} {identifier : Node}
    {made : Definition} {before after : List Task} (h : Stands node trail later destination made)
    (hLexical : made.isLexical = true)
    (hSplit : walker.tasks node = before ++ .emit (.define destination identifier made) :: after) :
    .emit (.endDeclaration made.node) ∈ after := by
  cases h with
  | declared role => exact Walker.end_mem_of_declared role hSplit
  | looped left role child left_kind => exact Walker.end_mem_of_looped role child left_kind hSplit
  | imported role kind => simp [Definition.isLexical, kind] at hLexical
  | owned scope owner role parent node_eq =>
      have hClass : scope = .classBody := by
        cases hKind : made.kind with
        | className =>
            rw [hKind] at owner
            exact (Option.some.inj owner).symm
        | parameter | catchClause | functionName | «variable» | importBinding | implicitGlobal =>
            simp_all [Definition.isLexical, DefinitionKind.owner?]
      rw [node_eq]
      exact Walker.end_mem_of_class (role hClass) hSplit
  | outside role kind parent node_eq =>
      rw [node_eq]
      exact Walker.end_mem_of_class role hSplit
  | function kind => simp [Definition.isLexical, kind] at hLexical

/-- These events do nothing but end declarations. -/
def OnlyEnds (events : List Event) : Prop :=
  ∀ event ∈ events, ∃ node, event = .endDeclaration node

theorem onlyEnds_nil : OnlyEnds [] :=
  fun _ hEvent => nomatch hEvent

/-- The declarators of a loop end one after another, with nothing in between. -/
theorem onlyEnds_ends (declarators : List Node) :
    OnlyEnds ((Walker.ends declarators).flatMap (Task.events settings)) := by
  intro event hEvent
  obtain ⟨task, hTask, hMem⟩ := List.mem_flatMap.1 hEvent
  obtain ⟨declarator, -, rfl⟩ := List.mem_map.1 hTask
  rw [Task.events_emit, List.mem_singleton] at hMem
  exact ⟨declarator, hMem⟩

/-- What finishes ends, if only after others that finish at the same point. -/
theorem Finishes.exists_end (h : Finishes settings root past ended) :
    ∃ more rest, OnlyEnds more ∧
      Arrives settings root (past ++ more) (.emit (.endDeclaration ended)) rest := by
  cases h with
  | @declarator begun rest inMethod declaration _ earlier later visit role split =>
      obtain ⟨after, hTasks⟩ := Walker.exists_declareInTurn_append { settings, inMethod } declaration
        ended earlier later
      rw [← split, ← Walker.tasks_declaration role] at hTasks
      have hEnd := visit.inside hTasks
      rw [← List.append_nil (begun ++ _)] at hEnd
      exact ⟨[], _, onlyEnds_nil, hEnd⟩
  | head visit role child left_kind mem values split =>
      obtain ⟨earlier, after, hTasks⟩ :=
        Walker.exists_end_of_loop role child left_kind values mem split
      have hEnd := visit.inside hTasks
      rw [List.flatMap_append, ← List.append_assoc] at hEnd
      exact ⟨_, _, onlyEnds_ends earlier, hEnd⟩
  | definition visit role child split =>
      have hEnd := visit.inside (Walker.end_of_class role child split)
      rw [← List.append_nil (_ ++ _)] at hEnd
      exact ⟨[], _, onlyEnds_nil, hEnd⟩

/-- Where something ends, it has finished. -/
theorem Arrives.exists_finishes {table : SymbolTable}
    (h : Arrives settings root past (.emit (.endDeclaration ended)) future)
    (hRun : ({} : SymbolTable).run settings past = .ok table) :
    ∃ earlier more, past = earlier ++ more ∧ OnlyEnds more ∧ Finishes settings root earlier ended := by
  rcases (tracks_stands settings root).emit h nofun with hProgram |
    ⟨begun, inMethod, node, rest, before, after, hVisit, hSplit, rfl, -, hEnds⟩
  · rcases Walker.mem_program hProgram with hSimple | ⟨_, hTask⟩ | hTask | ⟨_, _, hTask⟩
    · exact hSimple.elim
    all_goals cases hTask
  · cases hEnds with
    | declarator role mem =>
        rw [Walker.tasks_declaration role] at hSplit
        obtain ⟨earlier, later, hDeclarators, rfl⟩ := Walker.exists_of_declareInTurn_eq hSplit
        exact ⟨_, [], (List.append_nil _).symm, onlyEnds_nil,
          Finishes.declarator hVisit role hDeclarators⟩
    | head left role child left_kind mem =>
        obtain ⟨right, head, earlier, rest, hRight, rfl, hTasks⟩ :=
          Walker.exists_of_end_of_loop role child left_kind hSplit
        rw [List.flatMap_append, ← List.append_assoc]
        exact ⟨_, _, rfl, onlyEnds_ends earlier,
          Finishes.head hVisit role child left_kind mem hRight hTasks⟩
    | definition role eq =>
        subst eq
        obtain ⟨head, rfl, hTasks⟩ := Walker.exists_of_end_of_class role hSplit
        cases hBody : ended.child? "body" with
        | none =>
            rw [Walker.visitRequired, Walker.required, hBody] at hRun
            have hFails : Event.fail (.missingField ended.kind "body") ∉ _ :=
              SymbolTable.fail_not_mem_of_run hRun
            simp [Task.events_emit] at hFails
        | some body =>
            rw [Walker.visitRequired, Walker.required, hBody] at hTasks ⊢
            exact ⟨_, [], (List.append_nil _).symm, onlyEnds_nil,
              Finishes.definition hVisit role hBody hTasks⟩

end Scoping
