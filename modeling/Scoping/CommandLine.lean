import Scoping.Analyze
import Scoping.Report

namespace Scoping

/-- A request to report the scopes of a program. -/
structure Request where
  path : String
  options : Options := {}
  deriving Inhabited

namespace Request

/-- The options of a request that are given so far. None may be given twice. -/
structure Given where
  path : Option String := none
  sourceType : Option SourceType := none
  ecmaVersion : Option Nat := none
  globalReturn : Bool := false
  impliedStrict : Bool := false
  optimistic : Bool := false
  hoisted : Bool := false

def natOfDigits? (digits : List Char) : Option Nat :=
  if digits.isEmpty || !digits.all Char.isDigit then none
  else some (digits.foldl (fun value digit => value * 10 + (digit.toNat - '0'.toNat)) 0)

/-- A version in decimal, with a sign or without. It is in range if it fits 32
bits, which of the negative ones only zero does. -/
def versionOfText? (text : String) : Option Nat :=
  match text.toList with
  | '-' :: digits => (natOfDigits? digits).filter (· = 0)
  | '+' :: digits => (natOfDigits? digits).filter (· < UInt32.size)
  | digits => (natOfDigits? digits).filter (· < UInt32.size)

def once {α : Type} (old : Option α) (new : Option α) : Option (Option α) :=
  match old, new with
  | none, some value => some (some value)
  | _, _ => none

/-- An option that takes a value. -/
def Given.setValue? (given : Given) (name value : String) : Option Given :=
  match name with
  | "--source-type" => do
      return { given with sourceType := ← once given.sourceType (SourceType.ofWord? value) }
  | "--ecma-version" => do
      return { given with ecmaVersion := ← once given.ecmaVersion (versionOfText? value) }
  | _ => none

/-- An option that takes none. -/
def Given.setFlag? (given : Given) : String → Option Given
  | "--global-return" => if given.globalReturn then none else some { given with globalReturn := true }
  | "--implied-strict" =>
      if given.impliedStrict then none else some { given with impliedStrict := true }
  | "--optimistic" => if given.optimistic then none else some { given with optimistic := true }
  | "--sloppy-block-functions" => if given.hoisted then none else some { given with hoisted := true }
  | _ => none

def Given.setPath? (given : Given) (path : String) : Option Given :=
  if given.path.isSome then none else some { given with path := some path }

def takesValue (name : String) : Bool :=
  ["--source-type", "--ecma-version"].contains name

/-- A text that begins with a hyphen is never a path or a value, but a hyphen
alone may be. -/
def looksLikeOption (text : String) : Bool :=
  match text.toList with
  | '-' :: _ :: _ => true
  | _ => false

/-- The name before an equals sign and the value after it. -/
def splitAtEquals? (text : String) : Option (String × String) :=
  let (name, rest) := text.toList.span (· ≠ '=')
  match rest with
  | '=' :: value => some (String.ofList name, String.ofList value)
  | _ => none

/-- Read arguments. After `--` all of them are paths. -/
def Given.read? (given : Given) : List String → Option Given
  | [] => some given
  | "--" :: paths => paths.foldlM Given.setPath? given
  | arg :: rest =>
      if !looksLikeOption arg then (given.setPath? arg).bind fun given => given.read? rest
      else
        match splitAtEquals? arg with
        | some (name, value) => (given.setValue? name value).bind fun given => given.read? rest
        | none =>
            if takesValue arg then
              match rest with
              | [] => none
              | value :: rest =>
                  if looksLikeOption value then none
                  else (given.setValue? arg value).bind fun given => given.read? rest
            else (given.setFlag? arg).bind fun given => given.read? rest

def Given.request? (given : Given) : Option Request :=
  given.path.map fun path => {
    path
    options := {
      sourceType := given.sourceType.getD .script
      ecmaVersion := given.ecmaVersion.getD 2018
      globalReturn := given.globalReturn
      impliedStrict := given.impliedStrict
      optimistic := given.optimistic
      blockFunctions := if given.hoisted then .sloppyHoisted else .lexical } }

/-- The request that the arguments make, if they are all understood. -/
def ofArguments? : List String → Option Request
  | "dump-scopes" :: arguments => (Given.read? {} arguments).bind Given.request?
  | _ => none

end Request

/-- How a run of the program ends. -/
inductive Outcome where
  | lines (lines : List String)
  | rejected (rejection : Rejection)
  | failed (failure : Failure)
  /-- The arguments were not understood. -/
  | refused
  deriving Inhabited

namespace Outcome

def exitCode : Outcome → Nat
  | .lines _ => 0
  | .rejected _ => 1
  | .refused => 2
  | .failed _ => 101

/-- Answer a request about a text. A text that is no tree is told before
options that do not agree. -/
def ofRequest (request : Request) (text : String) : Outcome :=
  match Tree.ofText? text with
  | .error rejection => .rejected rejection
  | .ok tree =>
      match Settings.ofOptions? request.options with
      | .error rejection => .rejected rejection
      | .ok settings =>
          match analyze settings tree with
          | .error failure => .failed failure
          | .ok table => .lines (Report.lines table)

end Outcome

end Scoping
