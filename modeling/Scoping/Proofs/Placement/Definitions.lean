import Scoping.Proofs.Chronicle.Program
import Scoping.Proofs.Placement.Standing

/-! Where the definitions of the finished table sit: each in the scope that the
kind of its declaration demands. -/

namespace Scoping

/-- The walk of a program comes to a declaration of variables or of imports,
after these events. In the head of a loop a lexical declaration has a scope to
itself. -/
inductive ComesTo (settings : Settings) (root : Node) : List Event → Node → Prop where
  | statement {past future : List Event} {inMethod : Bool} {declaration : Node}
      (visit : Arrives settings root past (.visit inMethod declaration) future)
      (role : Role.ofKind declaration.kind = .variableDeclaration ∨
        Role.ofKind declaration.kind = .importDeclaration) :
      ComesTo settings root past declaration
  | head {past future : List Event} {inMethod : Bool} {loop declaration : Node}
      (visit : Arrives settings root past (.visit inMethod loop) future)
      (role : Role.ofKind loop.kind = .forEach) (left : loop.child? "left" = some declaration)
      (kind : declaration.kind = "VariableDeclaration") :
      ComesTo settings root
        (past ++ if Walker.isLexicalDeclaration declaration then [.enter .forHead loop false] else [])
        declaration

variable {settings : Settings} {root node : Node} {past future : List Event} {inMethod : Bool}

/-- A definition finds the open scopes as it should, whatever node brings it. -/
theorem tracks_stands (settings : Settings) (root : Node) :
    Tracks settings root (fun trail _ _ => trail.InBody)
      fun _ node trail later event => Task.Stands node trail later (.emit event) where
  root := (show Along settings (Task.Stands root []) [] _ from Trail.along_program { settings }).mono
    fun trail task h inMethod inner hTask => by
      subst hTask
      exact h
  node := fun inMethod node trail _ hBody =>
    (Trail.along_tasks hBody { settings, inMethod }).mono fun later task h => by
      cases task <;> exact h

/-- Where the walk comes to a definition, and which node brings it. -/
theorem exists_stands {destination : Destination} {identifier : Node} {definition : Definition}
    (h : Arrives settings root past (.emit (.define destination identifier definition)) future) :
    (Trail.after settings past).InBody ∧
      ∃ begun inMethod node rest before after,
        Arrives settings root begun (.visit inMethod node) rest ∧
        (Trail.after settings begun).Clear node ∧
        Walker.tasks { settings, inMethod } node =
          before ++ .emit (.define destination identifier definition) :: after ∧
        past = begun ++ before.flatMap (Task.events settings) ∧
        Stands node (Trail.after settings begun) (Trail.after settings past) destination definition := by
  rcases (tracks_stands settings root).emit h nofun with hProgram |
    ⟨begun, inMethod, node, rest, before, after, hVisit, hSplit, hPast, -, hBody, hStands⟩
  · rcases Walker.mem_program hProgram with hSimple | ⟨_, hTask⟩ | hTask | ⟨_, _, hTask⟩
    · exact hSimple.elim
    all_goals cases hTask
  · exact ⟨hBody, begun, inMethod, node, rest, before, after, hVisit,
      ((tracks_stands settings root).visit hVisit).1, hSplit, hPast, hStands⟩

/-- The work at a loop over the values of something: it may open a scope for the
head, and closes it last. -/
theorem exists_tasks_forEach {walker : Walker} {left : Node} {task : Task}
    (hRole : Role.ofKind node.kind = .forEach) (hLeft : node.child? "left" = some left)
    (hMem : task ∈ walker.tasks node) (hTask : ¬ task.IsSimple) :
    ∃ inside, Walker.Neutral node inside ∧ walker.tasks node =
      (if Walker.isLexicalDeclaration left then [.emit (.enter .forHead node false)] else []) ++
        (inside ++ [.emit (.leave node)]) := by
  obtain ⟨right, hRight⟩ := Walker.exists_right_of_mem hRole hLeft hMem hTask
  obtain ⟨inside, hInside, hEq⟩ := Walker.exists_loopOver_eq walker
    (Node.contains_of_child? hLeft) (Node.contains_of_child? hRight)
  refine ⟨inside ++ walker.visitRequired node "body",
    Walker.neutral_append.2 ⟨hInside, Walker.neutral_visitRequired⟩, ?_⟩
  simp only [Walker.tasks_forEach hRole hLeft hRight, hEq, List.append_assoc]

/-- A declaration in the head of a loop finds the scopes as they are once the
head has opened its own. -/
theorem exists_comesTo_of_looped {before after : List Task} {left identifier : Node}
    {destination : Destination} {definition : Definition}
    (hVisit : Arrives settings root past (.visit inMethod node) future)
    (hClear : (Trail.after settings past).Clear node)
    (hRole : Role.ofKind node.kind = .forEach) (hLeft : node.child? "left" = some left)
    (hKind : left.kind = "VariableDeclaration")
    (hSplit : Walker.tasks { settings, inMethod } node =
      before ++ .emit (.define destination identifier definition) :: after) :
    ∃ begun rest, ComesTo settings root begun left ∧
      past ++ before.flatMap (Task.events settings) = begun ++ rest ∧
      Trail.after settings (past ++ before.flatMap (Task.events settings)) =
        Trail.after settings begun := by
  obtain ⟨inside, hInside, hEq⟩ := exists_tasks_forEach hRole hLeft
    (hSplit ▸ List.mem_append_right _ List.mem_cons_self) (by exact id)
  have hComes := ComesTo.head hVisit hRole hLeft hKind
  obtain ⟨ahead, behind, rfl, rfl⟩ := exists_of_append_eq (hEq.symm.trans hSplit)
    (by split <;> simp) (by simp)
  have hAhead : Walker.Neutral node ahead := fun task hTask =>
    hInside task (List.mem_append_left _ hTask)
  have hOpening : (if Walker.isLexicalDeclaration left then
        [.emit (.enter .forHead node false)] else []).flatMap (Task.events settings) =
      if Walker.isLexicalDeclaration left then [.enter .forHead node false] else [] := by
    split
    · simp [Task.events_emit]
    · rfl
  refine ⟨_, ahead.flatMap (Task.events settings), hComes, ?_, ?_⟩
  · rw [List.flatMap_append, hOpening, List.append_assoc]
  · rw [List.flatMap_append, hOpening, ← List.append_assoc]
    refine Trail.after_append_of_neutral hAhead ?_
    split
    · rw [Trail.after_append]
      exact hClear.cons rfl
    · rw [List.append_nil]
      exact hClear

namespace SymbolTable

variable {table : SymbolTable} {tree : Tree}

/-- A scope to which a `var` goes that stands in it. -/
def HoldsVars (table : SymbolTable) (position : ScopeId) : Prop :=
  ∃ scope, table.scopes[position]? = some scope ∧ scope.variableScope = position ∧
    scope.kind ∈ [.global, .esModule, .function, .fieldInitializer, .staticBlock]

/-- A scope of a node. -/
def BelongsTo (table : SymbolTable) (position : ScopeId) (kind : ScopeKind) (node : Node) : Prop :=
  ∃ scope, table.scopes[position]? = some scope ∧ scope.kind = kind ∧ scope.block = node

/-- A scope has the name of a class, as the class defines it. -/
def NamesClass (table : SymbolTable) (position : ScopeId) (node : Node) : Prop :=
  ∃ (var : VariableId) (declared : Variable), table.variables[var]? = some declared ∧
    declared.scope = position ∧ ∃ definition ∈ declared.definitions,
      definition.kind = .className ∧ definition.node = node

/-- A definition sits where its kind demands. -/
inductive Sits (settings : Settings) (root : Node) (table : SymbolTable) (var : VariableId)
    (declared : Variable) (definition : Definition) : Prop where
  | variable (kind : definition.kind = .variable) (declaration : Node)
      (parent : definition.parent = some declaration) (past : List Event)
      (comes : ComesTo settings root past declaration) (current : ScopeId)
      (here : CurrentAfter settings past current)
      (scope : declared.scope =
        if definition.keyword = some "var" then table.variableScope current else current)
      (holds : definition.keyword = some "var" → table.HoldsVars declared.scope)
  | importBinding (kind : definition.kind = .importBinding) (declaration : Node)
      (parent : definition.parent = some declaration) (past : List Event)
      (comes : ComesTo settings root past declaration)
      (here : CurrentAfter settings past declared.scope)
  | parameter (kind : definition.kind = .parameter)
      (scope : table.BelongsTo declared.scope .function definition.node)
  | catchClause (kind : definition.kind = .catchClause)
      (scope : table.BelongsTo declared.scope .catchClause definition.node)
  | className (kind : definition.kind = .className) (inner : ScopeId)
      (scope : table.BelongsTo inner .classBody definition.node)
      (around : declared.scope = inner ∨ table.upper? inner = some declared.scope)
  | functionDeclaration (kind : definition.kind = .functionName)
      (node : definition.node.kind = "FunctionDeclaration") (past future : List Event)
      (inMethod : Bool) (visit : Arrives settings root past (.visit inMethod definition.node) future)
      (current : ScopeId) (here : CurrentAfter settings past current)
      (scope : declared.scope = current ∨ declared.scope = table.variableScope current)
  | functionExpression (kind : definition.kind = .functionName)
      (node : definition.node.kind = "FunctionExpression")
      (scope : table.BelongsTo declared.scope .functionName definition.node)
      (only : ∃ owner, table.scopes[declared.scope]? = some owner ∧ owner.variables = #[var])
  | implicitGlobal (kind : definition.kind = .implicitGlobal)
      (scope : ∃ owner, table.scopes[declared.scope]? = some owner ∧ owner.kind = .global ∧
        var ∈ owner.implicitVariables)

/-- A definition goes to the current scope, or to the one that a `var` goes to. -/
theorem destination?_cases {trail rest : Trail} {head frame : Frame} {destination : Destination}
    (hTrail : trail = head :: rest)
    (h : trail.destination? settings destination = some frame) :
    (frame = head ∧ destination ≠ .variableScope) ∨
      (frame.scope = head.holder ∧ destination ≠ .current) := by
  subst hTrail
  have hHolding : ∀ found, Trail.holding? (head :: rest) = some found →
      found.scope = head.holder := fun found hFound => by
    have hFind : (head :: rest).find? (fun other => decide (other.scope = head.holder)) =
      some found := hFound
    simpa using List.find?_some hFind
  cases destination with
  | current =>
      cases h
      exact .inl ⟨rfl, nofun⟩
  | variableScope => exact .inr ⟨hHolding frame h, nofun⟩
  | functionDeclaration =>
      have hBinds : (if head.bindsFunctions settings rest.head? then some head
          else Trail.holding? (head :: rest)) = some frame := h
      split at hBinds
      · cases hBinds
        exact .inl ⟨rfl, nofun⟩
      · exact .inr ⟨hHolding frame hBinds, nofun⟩

/-- A `var` in an open scope goes to the scope that its frame names. -/
theorem Openings.variableScope_eq {history : List Entry} (h : Openings history table) {entry : Entry}
    (hEntry : entry ∈ history) {frame : Frame} (hFrame : frame ∈ entry.1) :
    table.variableScope frame.scope = frame.holder := by
  obtain ⟨scope, hScope, hPlaces⟩ := h.frames entry hEntry frame hFrame
  rw [variableScope_of_getElem? hScope, hPlaces.variableScope]

theorem holdsVars_variableScope (hOk : analyze settings tree = .ok table) {position : ScopeId}
    {scope : Scope} (hScope : table.scopes[position]? = some scope) :
    table.HoldsVars (table.variableScope position) := by
  obtain ⟨holder, hHolder, hKind, hSelf⟩ :=
    (chronicle_of_analyze_eq_ok hOk).exists_holder hOk hScope
  rw [variableScope_of_getElem? hScope]
  refine ⟨holder, hHolder, hSelf, ?_⟩
  cases hEq : holder.kind with
  | global | esModule | function | fieldInitializer | staticBlock => simp
  | _ =>
      rw [hEq] at hKind
      cases hKind

/-- The scope of a class opens right in the one that the visit of the class has
begun in. -/
theorem exists_class_scope (hVisit : Arrives settings root past (.visit inMethod node) future)
    (hRole : Role.ofKind node.kind = .classDefinition) :
    ∃ ahead, Arrives settings root (past ++ ahead) (.emit (.enter .classBody node false))
        ((Walker.defineClassName node ++ (Walker.visitRequired { settings, inMethod } node "body" ++
          [Task.emit (.leave node), .emit (.endDeclaration node)])).flatMap (Task.events settings) ++
            future) ∧
      Trail.after settings (past ++ ahead) = Trail.after settings past := by
  have hClear := ((tracks_stands settings root).visit hVisit).1
  have hAhead : Walker.Neutral node
      ((if node.kind = "ClassDeclaration" then Walker.defineClassName node else []) ++
        Walker.visitOptional { settings, inMethod } node "superClass") := by
    refine Walker.neutral_append.2 ⟨?_, Walker.neutral_visitOptional⟩
    split <;> simp
  refine ⟨_, hVisit.inside ?_, Trail.after_append_of_neutral hAhead hClear⟩
  unfold Walker.tasks
  rw [hRole]
  simp only [Walker.defineClass, List.append_assoc, List.cons_append]

theorem entry_mem_programLog {event : Event} (h : Arrives settings root past (.emit event) future) :
    (Trail.after settings past, Numbered.after past event) ∈ programLog settings root :=
  mem_programLog.2 ⟨past, future, event, h, rfl⟩

/-- A definition of an identifier goes to one of the open scopes. -/
theorem exists_note_of_define (hOk : analyze settings tree = .ok table) {destination : Destination}
    {identifier : Node} {made : Definition}
    (hArrives : Arrives settings tree.root past (.emit (.define destination identifier made)) future)
    (hIdentifier : identifier.isIdentifier = true) :
    ∃ frame, (Trail.after settings past).destination? settings destination = some frame ∧
      Entry.note? settings (Trail.after settings past,
        .after past (.define destination identifier made)) =
          some ⟨frame.scope, frame.bodies, identifier, made⟩ := by
  have hRun := hArrives.events_eq ▸ (spec_of_analyze_eq_ok hOk).2.2.2
  obtain ⟨head, around, hTrail⟩ := exists_head_of_define hRun
  obtain ⟨middle, hMiddle, -⟩ := exists_run_of_append hRun
  obtain ⟨_, hSame, hCurrent⟩ := currentAfter_of_cons hMiddle hTrail
  cases hMiddle.symm.trans hSame
  obtain ⟨frame, -, hFrame, -⟩ := (follows_after hMiddle).destination_eq settings hCurrent destination
  refine ⟨frame, hFrame, ?_⟩
  simp [Entry.note?, Numbered.after, hIdentifier, hFrame]

/-- Where a definition comes, and where it goes from there. -/
structure Goes (settings : Settings) (table : SymbolTable) (past : List Event) (destination : Destination)
    (head frame : Frame) : Prop where
  trail : ∃ rest, Trail.after settings past = head :: rest
  scope : ∃ scope, table.scopes[head.scope]? = some scope ∧ head.Places scope
  cases : (frame = head ∧ destination ≠ .variableScope) ∨
    (frame.scope = table.variableScope head.scope ∧ destination ≠ .current)

theorem Goes.eq_of_current {head frame : Frame} (h : Goes settings table past .current head frame) :
    frame = head :=
  h.cases.elim And.left fun hOther => absurd rfl hOther.2

theorem Goes.scope_of_var {head frame : Frame} (h : Goes settings table past .variableScope head frame) :
    frame.scope = table.variableScope head.scope :=
  h.cases.elim (fun hOther => absurd rfl hOther.2) And.left

theorem exists_goes (hOk : analyze settings tree = .ok table) {destination : Destination}
    {identifier : Node} {made : Definition} {frame : Frame}
    (hArrives : Arrives settings tree.root past (.emit (.define destination identifier made)) future)
    (hFrame : (Trail.after settings past).destination? settings destination = some frame) :
    ∃ head, Goes settings table past destination head frame := by
  have hOpenings := (chronicle_of_analyze_eq_ok hOk).openings
  have hEntry := entry_mem_programLog hArrives
  obtain ⟨head, rest, hTrail⟩ :=
    exists_head_of_define (hArrives.events_eq ▸ (spec_of_analyze_eq_ok hOk).2.2.2)
  have hHead : head ∈ Trail.after settings past := hTrail ▸ List.mem_cons_self
  refine ⟨head, ⟨rest, hTrail⟩, hOpenings.frames _ hEntry head hHead, ?_⟩
  rw [hOpenings.variableScope_eq hEntry hHead]
  exact destination?_cases hTrail hFrame

/-- A scope is the current one wherever the same scopes are open. -/
theorem Goes.currentAfter {head frame : Frame} {destination : Destination} {begun later : List Event}
    (h : Goes settings table past destination head frame) (hOk : analyze settings tree = .ok table)
    (hBegun : programEvents settings tree.root = begun ++ later)
    (hSame : Trail.after settings begun = Trail.after settings past) :
    CurrentAfter settings begun head.scope := by
  obtain ⟨rest, hTrail⟩ := h.trail
  obtain ⟨-, -, -, hRun⟩ := spec_of_analyze_eq_ok hOk
  obtain ⟨middle, hMiddle, -⟩ := exists_run_of_append (hBegun ▸ hRun)
  exact currentAfter_of_cons hMiddle (hSame.trans hTrail)

/-- Where a declaration is visited decides where its variables go. -/
theorem Goes.sits_variable {head frame : Frame} {destination : Destination} {begun later : List Event}
    {declaration : Node} {made : Definition} {var : VariableId} {declared : Variable}
    (h : Goes settings table past destination head frame) (hOk : analyze settings tree = .ok table)
    (hScope : frame.scope = declared.scope) (hComes : ComesTo settings tree.root begun declaration)
    (hBegun : programEvents settings tree.root = begun ++ later)
    (hSame : Trail.after settings begun = Trail.after settings past) (hKind : made.kind = .variable)
    (hParent : made.parent = some declaration)
    (hGoes : destination = if made.keyword = some "var" then .variableScope else .current) :
    Sits settings tree.root table var declared made := by
  refine .variable hKind declaration hParent begun hComes head.scope
    (h.currentAfter hOk hBegun hSame) ?_ fun hVar => ?_
  · rw [← hScope]
    split at hGoes
    · next hVar =>
        subst hGoes
        rw [if_pos hVar, h.scope_of_var]
    · next hVar =>
        subst hGoes
        rw [if_neg hVar, h.eq_of_current]
  · rw [if_pos hVar] at hGoes
    subst hGoes
    obtain ⟨scope, hHead, -⟩ := h.scope
    rw [← hScope, h.scope_of_var]
    exact holdsVars_variableScope hOk hHead

/-- A definition that a node makes in its own scope sits there. -/
theorem Goes.sits_owned {head frame : Frame} {scope : ScopeKind} {made : Definition} {var : VariableId}
    {declared : Variable} (h : Goes settings table past .current head frame)
    (hScope : frame.scope = declared.scope) (hOwner : made.kind.owner? = some scope)
    (hInside : ∃ found ∈ (Trail.after settings past).head?, found.kind = scope ∧
      found.block = made.node) :
    Sits settings root table var declared made := by
  obtain ⟨rest, hTrail⟩ := h.trail
  obtain ⟨found, hFound, hPlaces⟩ := h.scope
  obtain ⟨same, hSame, hKind, hBlock⟩ := hInside
  rw [hTrail, List.head?_cons, Option.mem_some_iff] at hSame
  subst hSame
  obtain rfl := h.eq_of_current
  have hBelongs : table.BelongsTo declared.scope scope made.node :=
    ⟨found, hScope ▸ hFound, hPlaces.kind.trans hKind, hPlaces.block.trans hBlock⟩
  cases hMade : made.kind with
  | parameter =>
      rw [hMade] at hOwner
      cases hOwner
      exact .parameter hMade hBelongs
  | catchClause =>
      rw [hMade] at hOwner
      cases hOwner
      exact .catchClause hMade hBelongs
  | className =>
      rw [hMade] at hOwner
      cases hOwner
      exact .className hMade declared.scope hBelongs (.inl rfl)
  | _ =>
      rw [hMade] at hOwner
      cases hOwner

/-- A definition sits right if its entry makes it where its event goes. -/
theorem sits_of_define (hOk : analyze settings tree = .ok table) {destination : Destination}
    {identifier : Node} {made definition : Definition} {frame : Frame} {var : VariableId}
    {declared : Variable}
    (hArrives : Arrives settings tree.root past (.emit (.define destination identifier made)) future)
    (hFrame : (Trail.after settings past).destination? settings destination = some frame)
    (hScope : frame.scope = declared.scope)
    (hEq : definition = { made with serial := definition.serial }) :
    Sits settings tree.root table var declared definition := by
  obtain ⟨head, hGoes⟩ := exists_goes hOk hArrives hFrame
  have hEvents := hArrives.events_eq
  obtain ⟨-, begun, inMethod, node, later, before, after, hVisit, hClear, hSplit, rfl, hStands⟩ :=
    exists_stands hArrives
  rw [hEq]
  -- One case for each way in which a definition stands, which its kind decides.
  cases hStands with
  | declared role kind parent goes here =>
      exact hGoes.sits_variable hOk hScope (.statement hVisit (.inl role)) hVisit.events here.symm
        kind parent goes
  | looped left role child left_kind kind parent goes =>
      obtain ⟨first, more, hComes, hMore, hSame⟩ :=
        exists_comesTo_of_looped hVisit hClear role child left_kind hSplit
      rw [hMore, List.append_assoc] at hEvents
      exact hGoes.sits_variable hOk hScope hComes hEvents hSame.symm kind parent goes
  | imported role kind parent goes here =>
      subst goes
      refine .importBinding kind node parent begun (.statement hVisit (.inr role)) ?_
      rw [← hScope, hGoes.eq_of_current]
      exact hGoes.currentAfter hOk hVisit.events here.symm
  | owned scope owner _ _ node_eq goes inside =>
      subst goes
      exact hGoes.sits_owned hScope owner (node_eq ▸ inside)
  | outside role kind _ node_eq goes here =>
      subst goes
      obtain ⟨ahead, hEnter, hSame⟩ := exists_class_scope hVisit role
      obtain ⟨inner, hInner, hKind, hBlock, hUpper⟩ := (chronicle_of_analyze_eq_ok hOk).openings.opened _
        (entry_mem_programLog hEnter) _ .classBody node ⟨rfl, false, rfl⟩
      obtain ⟨rest, hTrail⟩ := hGoes.trail
      refine .className kind _ ⟨inner, hInner, hKind, hBlock.trans node_eq.symm⟩ (.inr ?_)
      rw [upper?_of_getElem? hInner, hUpper, hSame, ← here, hTrail, ← hScope, hGoes.eq_of_current]
      rfl
  | function kind _ node_kind node_eq goes here =>
      subst node_eq
      refine .functionDeclaration kind node_kind begun _ inMethod hVisit head.scope
        (hGoes.currentAfter hOk hVisit.events here.symm) ?_
      rw [← hScope]
      exact hGoes.cases.imp (fun hHead => congrArg Frame.scope hHead.1) And.left

/-- All that stands in the scope of the name of a function is that name. -/
theorem child?_id_of_note (hOk : analyze settings tree = .ok table) {entry : Entry}
    (hEntry : entry ∈ programLog settings tree.root) {note : Note}
    (hNote : entry.note? settings = some note) {owner : Scope}
    (hOwner : table.scopes[note.scope]? = some owner) (hKind : owner.kind = .functionName) :
    owner.block.child? "id" = some note.identifier := by
  have hOpenings := (chronicle_of_analyze_eq_ok hOk).openings
  rcases Entry.note_cases hNote with ⟨destination, frame, hEvent, hFrame, hScope⟩ |
    ⟨block, inMethod, hEvent, hNumber, hChild, -⟩
  · exfalso
    obtain ⟨past, future, event, hArrives, rfl⟩ := mem_programLog.1 hEntry
    obtain rfl : event = _ := hEvent
    obtain ⟨head, hGoes⟩ := exists_goes hOk hArrives hFrame
    obtain ⟨rest, hTrail⟩ := hGoes.trail
    obtain ⟨current, hCurrent, hPlaces⟩ := hGoes.scope
    rcases hGoes.cases with ⟨rfl, -⟩ | ⟨hHolder, -⟩
    · rw [← hScope] at hCurrent
      cases hCurrent.symm.trans hOwner
      exact (exists_stands hArrives).1 frame (by rw [hTrail]; rfl) (hPlaces.kind.symm.trans hKind)
    · obtain ⟨found, hFound, -, hHolds⟩ := holdsVars_variableScope hOk hCurrent
      rw [← hHolder, ← hScope] at hFound
      cases hFound.symm.trans hOwner
      rw [hKind] at hHolds
      simp at hHolds
  · obtain ⟨found, hFound, -, hBlock, -⟩ :=
      hOpenings.opened entry hEntry _ .functionName block ⟨rfl, inMethod, hEvent⟩
    rw [← hNumber] at hFound
    cases hFound.symm.trans hOwner
    rw [hBlock]
    exact hChild

/-- The scope of the name of a function has no other variable. -/
theorem variables_of_functionName (hOk : analyze settings tree = .ok table) {position : ScopeId}
    {owner : Scope} (hOwner : table.scopes[position]? = some owner)
    (hKind : owner.kind = .functionName) {var : VariableId} (hVar : var ∈ owner.variables) :
    owner.variables = #[var] := by
  have hChronicle := chronicle_of_analyze_eq_ok hOk
  have hHomes := (spec_of_analyze_eq_ok hOk).2.1.toPlaced.homes_variables
  have hFound : ∀ other ∈ owner.variables, ∃ name, owner.block.child? "id" = some name ∧
      table.lookupIn Scope.variables position name.name = some other := by
    intro other hOther
    obtain ⟨declared, hDeclared, rfl⟩ := hHomes position owner hOwner other hOther
    have hLookup := hChronicle.named.indexed.found _ owner hOwner other hOther declared hDeclared
    have hSome : (table.namingIn Scope.variables declared.scope declared.name).isSome = true := by
      rw [namingIn, hLookup, Option.bind_some, hDeclared]
      rfl
    rcases (hChronicle.noted.isSome _ _).1 hSome with hNotes | ⟨-, entry, hEntry, hNumber, block,
      inMethod, hEvent, -⟩
    · obtain ⟨note, hMem⟩ := List.exists_mem_of_ne_nil _ hNotes
      obtain ⟨hListed, hSame⟩ := List.mem_filter.1 hMem
      obtain ⟨entry, hEntry, hNote⟩ := List.mem_filterMap.1 hListed
      rw [decide_eq_true_eq] at hSame
      refine ⟨note.identifier, ?_, by rw [hSame.2]; exact hLookup⟩
      exact child?_id_of_note hOk hEntry hNote (by rw [hSame.1]; exact hOwner) hKind
    · obtain ⟨found, hFound, hFunction, -⟩ :=
        hChronicle.openings.opened entry hEntry _ .function block ⟨rfl, inMethod, hEvent⟩
      rw [hNumber] at hFound
      cases hFound.symm.trans hOwner
      rw [hKind] at hFunction
      cases hFunction
  have hAll : ∀ other ∈ owner.variables.toList, other = var := by
    intro other hOther
    obtain ⟨name, hName, hLookup⟩ := hFound var hVar
    obtain ⟨same, hSame, hOtherLookup⟩ := hFound other (Array.mem_toList_iff.1 hOther)
    cases hName.symm.trans hSame
    exact Option.some.inj (hOtherLookup.symm.trans hLookup)
  have hNodup := hChronicle.named.indexed.nodup position owner hOwner
  rw [List.eq_replicate_of_mem hAll, List.nodup_replicate] at hNodup
  have hLength : owner.variables.toList.length = 1 :=
    Nat.le_antisymm hNodup (List.length_pos_of_mem (Array.mem_toList_iff.2 hVar))
  rw [← Array.toList_inj, List.eq_replicate_of_mem hAll, hLength]
  rfl

/-- Just a named function expression opens a scope for its name. -/
theorem kind_of_enter_functionName {block : Node}
    (h : Arrives settings root past (.emit (.enter .functionName block inMethod)) future) :
    block.kind = "FunctionExpression" := by
  rcases (tracks_stands settings root).emit h nofun with hProgram |
    ⟨_, _, node, _, _, _, _, _, _, _, hKind, rfl⟩
  · rcases Walker.mem_program hProgram with hSimple | ⟨_, hTask⟩ | hTask | ⟨kind, hKind, hTask⟩
    · exact hSimple.elim
    · cases hTask
    · cases hTask
    · cases hTask
      simp at hKind
  · exact hKind

theorem sits_of_analyze (hOk : analyze settings tree = .ok table) {var : VariableId}
    {declared : Variable} (hDeclared : table.variables[var]? = some declared)
    {definition : Definition} (hDefinition : definition ∈ declared.definitions) :
    Sits settings tree.root table var declared definition := by
  have hChronicle := chronicle_of_analyze_eq_ok hOk
  obtain ⟨owner, hOwner, hVar | hImplicit⟩ := hChronicle.named.owned var declared hDeclared
  · obtain ⟨entry, hEntry, note, hNote, hScope, -, hEq⟩ :=
      hChronicle.exists_note hDeclared hOwner hVar hDefinition
    rcases Entry.note_cases hNote with ⟨destination, frame, hEvent, hFrame, hGoes⟩ |
      ⟨block, inMethod, hEvent, hNumber, -, hMade⟩
    · obtain ⟨past, future, event, hArrives, rfl⟩ := mem_programLog.1 hEntry
      obtain rfl : event = _ := hEvent
      exact sits_of_define hOk hArrives hFrame (hGoes.symm.trans hScope) hEq
    · obtain ⟨found, hFound, hKind, hBlock, -⟩ :=
        hChronicle.openings.opened entry hEntry _ .functionName block ⟨rfl, inMethod, hEvent⟩
      rw [← hNumber, hScope] at hFound
      cases hFound.symm.trans hOwner
      obtain ⟨past, future, event, hArrives, rfl⟩ := mem_programLog.1 hEntry
      obtain rfl : event = _ := hEvent
      rw [hEq, hMade]
      exact .functionExpression rfl (kind_of_enter_functionName hArrives)
        ⟨owner, hOwner, hKind, hBlock⟩
        ⟨owner, hOwner, variables_of_functionName hOk hOwner hKind hVar⟩
  · have hAssigned := hChronicle.assigned var ⟨_, owner, hOwner, hImplicit⟩
    exact .implicitGlobal (hAssigned.kind declared hDeclared definition hDefinition)
      ⟨owner, hOwner, hAssigned.global _ owner hOwner hImplicit, hImplicit⟩

/-- A definition that goes to the current scope is made there. -/
theorem exists_definition_of_current (hOk : analyze settings tree = .ok table) {identifier : Node}
    {made : Definition}
    (hArrives : Arrives settings tree.root past (.emit (.define .current identifier made)) future)
    (hIdentifier : identifier.isIdentifier = true) {head : Frame} {rest : Trail}
    (hTrail : Trail.after settings past = head :: rest) :
    ∃ (var : VariableId) (declared : Variable), table.variables[var]? = some declared ∧
      declared.scope = head.scope ∧ ∃ definition ∈ declared.definitions,
        definition.kind = made.kind ∧ definition.node = made.node := by
  obtain ⟨frame, hFrame, hNote⟩ := exists_note_of_define hOk hArrives hIdentifier
  rw [hTrail] at hFrame
  obtain rfl : head = frame := Option.some.inj hFrame
  obtain ⟨var, declared, definition, -, hDeclared, hScope, -, hMem, hEq⟩ :=
    (chronicle_of_analyze_eq_ok hOk).exists_definition (entry_mem_programLog hArrives) hNote
  exact ⟨var, declared, hDeclared, hScope, definition, hMem, by rw [hEq], by rw [hEq]⟩

/-- A named class declaration has its name both in the scope of the class and in
the one around. -/
theorem namesClass_of_visit (hOk : analyze settings tree = .ok table) {node name : Node}
    (hVisit : Arrives settings tree.root past (.visit inMethod node) future)
    (hKind : node.kind = "ClassDeclaration") (hName : node.child? "id" = some name)
    (hIdentifier : name.isIdentifier = true) :
    ∃ inner outer, table.BelongsTo inner .classBody node ∧ table.upper? inner = some outer ∧
      table.NamesClass inner node ∧ table.NamesClass outer node := by
  have hRole : Role.ofKind node.kind = .classDefinition := by rw [hKind]; rfl
  have hNames : Walker.defineClassName node =
      [.emit (.define .current name { kind := .className, name, node })] := by
    simp [Walker.defineClassName, Walker.optional, hName]
  -- The definition around the class is the first thing that the visit brings.
  obtain ⟨after, hTasks⟩ : ∃ after, Walker.tasks { settings, inMethod } node =
      [] ++ .emit (.define .current name { kind := .className, name, node }) :: after := by
    unfold Walker.tasks
    rw [hRole]
    simp [Walker.defineClass, hKind, hNames]
  have hAround := hVisit.inside hTasks
  rw [List.flatMap_nil, List.append_nil] at hAround
  obtain ⟨head, rest, hTrail⟩ :=
    exists_head_of_define (hAround.events_eq ▸ (spec_of_analyze_eq_ok hOk).2.2.2)
  -- The other one comes right after the scope of the class has opened.
  obtain ⟨ahead, hEnter, hSame⟩ := exists_class_scope hVisit hRole
  have hInside := hEnter.events
  rw [Task.events_emit, hNames, List.singleton_append, List.flatMap_append, List.flatMap_singleton,
    Task.events_emit, List.singleton_append, List.cons_append, List.append_cons] at hInside
  have hOpened : Trail.after settings (past ++ ahead ++ [.enter .classBody node false]) =
      Trail.opening settings (Trail.after settings (past ++ ahead))
        (Numbered.after (past ++ ahead) (.enter .classBody node false)).number .classBody node false ::
          Trail.after settings (past ++ ahead) := by
    rw [Trail.after_append, Nat.zero_add]
    rfl
  obtain ⟨inner, hInner, hInnerKind, hBlock, hUpper⟩ :=
    (chronicle_of_analyze_eq_ok hOk).openings.opened _ (entry_mem_programLog hEnter) _ .classBody node
      ⟨rfl, false, rfl⟩
  refine ⟨_, head.scope, ⟨inner, hInner, hInnerKind, hBlock⟩, ?_,
    exists_definition_of_current hOk (arrives_of_events hInside) hIdentifier hOpened,
    exists_definition_of_current hOk hAround hIdentifier hTrail⟩
  rw [upper?_of_getElem? hInner, hUpper, hSame, hTrail]
  rfl

/-- Every definition sits in the scope that the kind of its declaration demands.
Names that are made global by assignment are apart from all that is declared, and
a named class declaration has its name in two scopes. -/
theorem definition_sits (hOk : analyze settings tree = .ok table) :
    (∀ (var : VariableId) (declared : Variable), table.variables[var]? = some declared →
      ∀ definition ∈ declared.definitions,
        Sits settings tree.root table var declared definition) ∧
    (∀ (position : ScopeId) (owner : Scope), table.scopes[position]? = some owner →
      ∀ var ∈ owner.implicitVariables, owner.kind = .global ∧
        ∀ declared, table.variables[var]? = some declared →
          ∀ definition ∈ declared.definitions, definition.kind = .implicitGlobal) ∧
    ∀ past future inMethod node name,
      Arrives settings tree.root past (.visit inMethod node) future →
        node.kind = "ClassDeclaration" → node.child? "id" = some name → name.isIdentifier = true →
          ∃ inner outer, table.BelongsTo inner .classBody node ∧ table.upper? inner = some outer ∧
            table.NamesClass inner node ∧ table.NamesClass outer node := by
  refine ⟨fun var declared hDeclared definition hDefinition =>
    sits_of_analyze hOk hDeclared hDefinition, fun position owner hOwner var hVar => ?_,
    fun past future inMethod node name hVisit hKind hName hIdentifier =>
      namesClass_of_visit hOk hVisit hKind hName hIdentifier⟩
  have hAssigned := (chronicle_of_analyze_eq_ok hOk).assigned var ⟨position, owner, hOwner, hVar⟩
  exact ⟨hAssigned.global position owner hOwner hVar, fun declared hDeclared =>
    hAssigned.kind declared hDeclared⟩

/-- The program `class C {} for (const x of C) var y;`. -/
def varInsideLoop : Tree where
  root := {
    location := []
    kind := "Program"
    entries := [("type", .string "Program"), ("body", .array [
      .object [("type", .string "ClassDeclaration"), ("id", name "C"),
        ("body", .object [("type", .string "ClassBody"), ("body", .array [])])],
      .object [("type", .string "ForOfStatement"), ("left", declaration "const" "x"),
        ("right", name "C"), ("body", declaration "var" "y")]])] }
where
  name (text : String) : Json := .object [("type", .string "Identifier"), ("name", .string text)]
  declaration (keyword text : String) : Json :=
    .object [("type", .string "VariableDeclaration"), ("kind", .string keyword),
      ("declarations", .array [.object [("type", .string "VariableDeclarator"), ("id", name text)]])]

/-- The class has its name in the global scope and in its own, the constant of
the loop is in the scope of the head, and the variable goes up to the global
scope. -/
theorem definition_sits_varInsideLoop :
    ∃ table, analyze ⟨{}, 9⟩ varInsideLoop = .ok table ∧
      table.variables.map (fun declared => (declared.name, declared.scope)) =
        #[("C", 0), ("C", 1), ("x", 2), ("y", 0)] ∧
      (∀ (var : VariableId) (declared : Variable), table.variables[var]? = some declared →
        ∀ definition ∈ declared.definitions,
          Sits ⟨{}, 9⟩ varInsideLoop.root table var declared definition) ∧
      (∀ (position : ScopeId) (owner : Scope), table.scopes[position]? = some owner →
        ∀ var ∈ owner.implicitVariables, owner.kind = .global ∧
          ∀ declared, table.variables[var]? = some declared →
            ∀ definition ∈ declared.definitions, definition.kind = .implicitGlobal) ∧
      ∀ past future inMethod node name,
        Arrives ⟨{}, 9⟩ varInsideLoop.root past (.visit inMethod node) future →
          node.kind = "ClassDeclaration" → node.child? "id" = some name →
            name.isIdentifier = true →
              ∃ inner outer, table.BelongsTo inner .classBody node ∧
                table.upper? inner = some outer ∧ table.NamesClass inner node ∧
                table.NamesClass outer node := by
  have hAnalyze : (analyze ⟨{}, 9⟩ varInsideLoop).toOption.map (fun table =>
      table.variables.map fun declared => (declared.name, declared.scope)) =
        some #[("C", 0), ("C", 1), ("x", 2), ("y", 0)] := by
    decide +kernel
  obtain ⟨table, hOk, hVariables⟩ := exists_of_map_toOption _ hAnalyze
  exact ⟨table, hOk, hVariables, definition_sits hOk⟩

end SymbolTable

end Scoping
