import Scoping.Tree.Node

namespace Scoping

/-- What a literal has between its quotes. A text of fewer than two bytes has
no quotes to take off, and a quote of more than one byte cannot be taken off. -/
def unquoted (text : String) : Except Failure (Option String) :=
  match text.toList with
  | [] => .ok none
  | opening :: rest =>
      match rest.getLast? with
      | none => if opening.utf8Size = 1 then .ok none else .error .splitDirective
      | some closing =>
          if opening.utf8Size = 1 && closing.utf8Size = 1 then
            .ok (some (String.ofList rest.dropLast))
          else .error .splitDirective

namespace Node

/-- The text of a directive: a statement that says it is one, or that holds
nothing but a string. -/
def directive? (node : Node) : Except Failure (Option String) :=
  if node.kind ≠ "ExpressionStatement" then .ok none
  else
    match node.text? "directive", node.child? "expression" with
    | some text, _ => .ok (some text)
    | none, none => .ok none
    | none, some expression =>
        if expression.kind ≠ "Literal" then .ok none
        else
          match expression.text? "value" with
          | none => .ok none
          | some value => do
              let raw ← unquoted ((expression.text? "raw").getD "")
              return some (raw.getD value)

/-- Whether the leading directives hold the one for strict code. No statement
after it is looked at. -/
def prologueIsStrict : List Node → Except Failure Bool
  | [] => .ok false
  | node :: rest => do
      match ← node.directive? with
      | none => return false
      | some text => if text = "use strict" then return true else prologueIsStrict rest

/-- Strict code by the directives at the head of its body. -/
def saysStrict (body : Node) : Except Failure Bool :=
  prologueIsStrict (body.children "body")

end Node

end Scoping
