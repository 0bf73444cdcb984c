import Scoping.Tree.Pattern
import Scoping.Walk.Event
import Scoping.Walk.Role

namespace Scoping

/-- A piece of the work at a node: an event, or a node inside it to visit. The
flag of a visit says that a method is around, whose functions are strict. -/
inductive Task where
  | emit (event : Event)
  | visit (inMethod : Bool) (node : Node)
  deriving Inhabited

/-- What a walk has to know at a node. -/
structure Walker where
  settings : Settings
  inMethod : Bool := false
  deriving Inhabited

namespace Walker

variable (walker : Walker)

def visit (node : Node) : Task :=
  .visit walker.inMethod node

def descend (node : Node) : List Task :=
  (walker.settings.keys.children node).map walker.visit

/-- Go on with the node of a field, which must be there. -/
def required (node : Node) (name : String) (next : Node → List Task) : List Task :=
  match node.child? name with
  | some child => next child
  | none => [.emit (.fail (.missingField node.kind name))]

/-- Go on with the node of a field, if it is there. -/
def optional (node : Node) (name : String) (next : Node → List Task) : List Task :=
  match node.child? name with
  | some child => next child
  | none => []

def visitRequired (node : Node) (name : String) : List Task :=
  required node name fun child => [walker.visit child]

def visitOptional (node : Node) (name : String) : List Task :=
  optional node name fun child => [walker.visit child]

/-- The name of a member is part of the program only if it is computed. -/
def visitComputed (node : Node) (name : String) : List Task :=
  if node.flag "computed" then walker.visitRequired node name else []

/-- Events for each target of a pattern, of which all are found before. -/
def bind (pattern : Node) (each : Target → List Event) : List Task :=
  match Pattern.ofNode walker.settings.keys pattern with
  | .error failure => [.emit (.fail failure)]
  | .ok found => (found.targets.flatMap each).map .emit

/-- As `bind`, with visits of the ordinary code inside the pattern after it. -/
def bindAndVisit (pattern : Node) (each : Target → List Event) : List Task :=
  match Pattern.ofNode walker.settings.keys pattern with
  | .error failure => [.emit (.fail failure)]
  | .ok found => (found.targets.flatMap each).map .emit ++ found.evaluated.map walker.visit

/-- The writes of the values that a target may take by default. A default
further out gives the target only a part of its value. -/
def writeDefaults (target : Target) (implicitGlobal : Option Node) (init : Bool) : List Event :=
  target.defaults.map fun assignment =>
    .use {
      identifier := target.identifier
      access := .write
      writeExpr := assignment.child? "right"
      isPartial := assignment.child? "left" != some target.identifier
      init
      implicitGlobal }

/-- An assignment of a value to what stands left of it. -/
def assign (node left : Node) : List Task :=
  if !Pattern.isPattern left then [walker.visit left]
  else if node.text? "operator" = some "=" then
    walker.bindAndVisit left fun target =>
      writeDefaults target node false ++
        [.use {
          identifier := target.identifier
          access := .write
          writeExpr := node.child? "right"
          isPartial := !target.whole
          implicitGlobal := node }]
  else
    [.emit (.use { identifier := left, access := .readWrite, writeExpr := node.child? "right" })]

def isLexicalDeclaration (node : Node) : Bool :=
  node.kind = "VariableDeclaration" && node.text? "kind" ≠ some "var"

/-- The targets of a declarator: each is defined, and takes its first value if
one is given. -/
def declareTargets (declaration : Node) (declarator : Node) (position : Nat) : List Task :=
  let keyword := declaration.text? "kind"
  required declarator "id" fun id => walker.bindAndVisit id fun target =>
    .define (if keyword = some "var" then .variableScope else .current) target.identifier {
        kind := .variable
        name := target.identifier
        node := declarator
        parent := declaration
        index := position
        keyword } ::
      writeDefaults target none true ++
        match declarator.child? "init" with
        | none => []
        | some init =>
            [.use {
              identifier := target.identifier
              access := .write
              writeExpr := init
              isPartial := !target.whole
              init := true }]

/-- A declaration of variables. In the head of a loop the declarations end
later. -/
def declareVariables (declaration : Node) (inLoopHead : Bool) : List Task :=
  (declaration.children "declarations").zipIdx.flatMap fun (declarator, position) =>
    walker.declareTargets declaration declarator position ++
      walker.visitOptional declarator "init" ++
      if inLoopHead then [] else [.emit (.endDeclaration declarator)]

/-- A loop over the values of `right`. They go to the first declarator only,
even where more are written. -/
def loopOver (node left right : Node) : List Task :=
  let declarators := left.children "declarations"
  if left.kind = "VariableDeclaration" then
    (if isLexicalDeclaration left then [.emit (.enter .forHead node false)] else []) ++
      walker.declareVariables left true ++
      (match declarators.head? with
        | none => []
        | some declarator =>
            required declarator "id" fun id => walker.bind id fun target =>
              [.use {
                identifier := target.identifier
                access := .write
                writeExpr := right
                isPartial := true
                init := true }]) ++
      walker.visit right :: declarators.map fun declarator => .emit (.endDeclaration declarator)
  else
    walker.bindAndVisit left (fun target =>
      writeDefaults target node false ++
        [.use {
          identifier := target.identifier
          access := .write
          writeExpr := right
          isPartial := true
          implicitGlobal := node }]) ++
      [walker.visit right]

def defineParameters (node : Node) : List Task :=
  (node.children "params").zipIdx.flatMap fun (parameter, position) =>
    walker.bindAndVisit parameter fun target =>
      .define .current target.identifier {
          kind := .parameter
          name := target.identifier
          node
          index := position
          rest := target.rest } ::
        writeDefaults target none true

def defineFunction (node : Node) : List Task :=
  (if node.kind = "FunctionDeclaration" then
    optional node "id" fun name =>
      [.emit (.define .functionDeclaration name { kind := .functionName, name, node })]
  else []) ++
    (if node.kind = "FunctionExpression" && (node.child? "id").isSome then
      [.emit (.enter .functionName node false)]
    else []) ++
    .emit (.enter .function node walker.inMethod) :: walker.defineParameters node ++
    .emit .bodyStart :: walker.visitRequired node "body" ++
    [.emit (.leave node)]

def defineClassName (node : Node) : List Task :=
  optional node "id" fun name =>
    [.emit (.define .current name { kind := .className, name, node })]

/-- A class. A declaration binds its name twice, around the class and in it. -/
def defineClass (node : Node) : List Task :=
  (if node.kind = "ClassDeclaration" then defineClassName node else []) ++
    walker.visitOptional node "superClass" ++
    .emit (.enter .classBody node false) :: defineClassName node ++
    walker.visitRequired node "body" ++
    [.emit (.leave node), .emit (.endDeclaration node)]

/-- A clause that catches an error. The definitions of its names give all of
the parameter as their name. -/
def catchError (node : Node) : List Task :=
  .emit (.enter .catchClause node false) ::
    (optional node "param" fun parameter => walker.bindAndVisit parameter fun target =>
      .define .current target.identifier { kind := .catchClause, name := parameter, node } ::
        writeDefaults target none true) ++
    walker.visitRequired node "body" ++
    [.emit (.leave node)]

/-- The name under which a specifier imports. -/
def importedName? (node : Node) : Option Node :=
  match node.kind with
  | "ImportDefaultSpecifier" | "ImportNamespaceSpecifier" => node.child? "local"
  | "ImportSpecifier" => (node.child? "local").or (node.child? "imported")
  | _ => none

def isImportSpecifier (node : Node) : Bool :=
  ["ImportDefaultSpecifier", "ImportNamespaceSpecifier", "ImportSpecifier"].contains node.kind

/-- The specifiers in and under a node. Nothing else in an import is code. -/
def importSpecifiers (keys : ChildKeys) (node : Node) : List Node :=
  if isImportSpecifier node then [node]
  else (keys.children node).attach.flatMap fun ⟨child, _⟩ => importSpecifiers keys child
termination_by sizeOf node.entries
decreasing_by exact ChildKeys.sizeOf_mem_children ‹_›

def importNames (node : Node) : List Task :=
  (importSpecifiers walker.settings.keys node).flatMap fun specifier =>
    match importedName? specifier with
    | none => []
    | some name => walker.bind name fun target =>
        [.define .current target.identifier {
          kind := .importBinding
          name := target.identifier
          node := specifier
          parent := node }]

/-- The scopes that a program opens: the global one, in it that of a function
if the program can return, and in it that of a module. -/
def program (node : Node) : List Task :=
  let settings := walker.settings
  .emit (.enter .global node false) ::
    (if settings.globalReturn then
      [.emit (.setStrict false), .emit (.enter .function node false)]
    else []) ++
    (if settings.hasBlockScopes && settings.isModule then
      [.emit (.enter .esModule node false)]
    else []) ++
    (if settings.knowsStrict && settings.options.impliedStrict then
      [.emit (.setStrict true)]
    else []) ++
    walker.descend node ++
    [.emit (.leave node)]

/-- A node whose scope is around all that is inside it. -/
def within (kind : ScopeKind) (inMethod : Bool) (node : Node) (inside : List Task) : List Task :=
  .emit (.enter kind node inMethod) :: inside ++ [.emit (.leave node)]

/-- All there is to do at a node, in order. -/
def tasks (node : Node) : List Task :=
  let settings := walker.settings
  match Role.ofKind node.kind with
  | .program => walker.program node
  | .identifier => [.emit (.use { identifier := node, access := .read })]
  | .silent => []
  | .assignment =>
      required node "left" (walker.assign node) ++ walker.visitRequired node "right"
  | .update =>
      required node "argument" fun argument =>
        if Pattern.isPattern argument then
          [.emit (.use { identifier := argument, access := .readWrite })]
        else walker.descend node
  | .member => walker.visitRequired node "object" ++ walker.visitComputed node "property"
  | .property => walker.visitComputed node "key" ++ walker.visitOptional node "value"
  | .field =>
      walker.visitComputed node "key" ++ optional node "value" fun value =>
        within .fieldInitializer true value [walker.visit value]
  | .staticBlock => within .staticBlock true node (walker.descend node)
  | .method =>
      walker.visitComputed node "key" ++
        ({ walker with inMethod := true } : Walker).visitRequired node "value"
  | .labelled => walker.visitRequired node "body"
  | .forLoop =>
      (if (node.child? "init").any isLexicalDeclaration then
        [.emit (.enter .forHead node false)]
      else []) ++
        walker.descend node ++ [.emit (.leave node)]
  | .forEach =>
      required node "left" fun left => required node "right" fun right =>
        walker.loopOver node left right ++ walker.visitRequired node "body" ++
          [.emit (.leave node)]
  | .classDefinition => walker.defineClass node
  | .call =>
      (required node "callee" fun callee =>
        if !settings.options.ignoreEval && callee.isIdentifier && callee.name = "eval" then
          [.emit .directEval]
        else []) ++
        walker.descend node
  | .block =>
      if settings.hasBlockScopes then within .block false node (walker.descend node)
      else walker.descend node ++ [.emit (.leave node)]
  | .thisExpression => [.emit .thisExpression]
  | .withStatement =>
      walker.visitRequired node "object" ++
        within .withBody false node (walker.visitRequired node "body")
  | .variableDeclaration => walker.declareVariables node false
  | .switchStatement =>
      let cases := (node.children "cases").map walker.visit
      walker.visitRequired node "discriminant" ++
        if settings.hasBlockScopes then within .switchBody false node cases
        else cases ++ [.emit (.leave node)]
  | .function => walker.defineFunction node
  | .catchClause => walker.catchError node
  | .importDeclaration =>
      if settings.hasBlockScopes && settings.isModule then walker.importNames node else []
  | .exportDeclaration =>
      if (node.child? "source").isSome then []
      else
        match node.child? "declaration" with
        | some declaration => [walker.visit declaration]
        | none => walker.descend node
  | .exportSpecifier => walker.visitOptional node "local"
  | .plain => walker.descend node

variable {walker} {node left right : Node}

theorem tasks_assignment (hRole : Role.ofKind node.kind = .assignment)
    (hLeft : node.child? "left" = some left) :
    walker.tasks node = walker.assign node left ++ walker.visitRequired node "right" := by
  simp [tasks, hRole, required, hLeft]

theorem tasks_forEach (hRole : Role.ofKind node.kind = .forEach)
    (hLeft : node.child? "left" = some left) (hRight : node.child? "right" = some right) :
    walker.tasks node = walker.loopOver node left right ++
      (walker.visitRequired node "body" ++ [.emit (.leave node)]) := by
  simp [tasks, hRole, required, hLeft, hRight]

/-- A loop over values that does not say which they are fails. -/
theorem tasks_forEach_of_none (hRole : Role.ofKind node.kind = .forEach)
    (hLeft : node.child? "left" = some left) (hRight : node.child? "right" = none) :
    walker.tasks node = [.emit (.fail (.missingField node.kind "right"))] := by
  simp [tasks, hRole, required, hLeft, hRight]

end Walker

end Scoping
