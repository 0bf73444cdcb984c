import Scoping.Json.Basic
import Scoping.Options.Basic

namespace Scoping

/-- A version is an unsigned integer of 32 bits. -/
def Edition.versionOfJson? (value : Json) : Option Nat :=
  value.nat?.filter (· < UInt32.size)

/-- A word, which may also be given as an object that has it as its only name,
for `null`. -/
def word? : Json → Option String
  | .string word | .object [(word, .null)] => some word
  | _ => none

def SourceType.ofJson? (value : Json) : Option SourceType :=
  (word? value).bind ofWord?

def Fallback.ofJson? (value : Json) : Option Fallback :=
  (word? value).bind ofWord?

def BlockFunctions.ofJson? (value : Json) : Option BlockFunctions :=
  (word? value).bind ofWord?

/-- The lists of fields for the kinds of an object. -/
def ChildKeys.customOfJson? (value : Json) : Option (List (String × List String)) := do
  (← value.object?).mapM fun (kind, names) => do
    return (kind, ← (← names.array?).mapM Json.string?)

namespace Options

/-- Set the option of this name. A name that is none changes nothing. -/
def set? (options : Options) (name : String) (value : Json) : Option Options :=
  match name with
  | "optimistic" => value.bool?.map fun value => { options with optimistic := value }
  | "ignoreEval" => value.bool?.map fun value => { options with ignoreEval := value }
  | "globalReturn" => value.bool?.map fun value => { options with globalReturn := value }
  | "impliedStrict" => value.bool?.map fun value => { options with impliedStrict := value }
  | "sourceType" =>
      (SourceType.ofJson? value).map fun value => { options with sourceType := value }
  | "ecmaVersion" =>
      (Edition.versionOfJson? value).map fun value => { options with ecmaVersion := value }
  | "childVisitorKeys" =>
      (ChildKeys.customOfJson? value).map fun value =>
        { options with childVisitorKeys := some value }
  | "fallback" => (Fallback.ofJson? value).map fun value => { options with fallback := value }
  | "blockFunctions" =>
      (BlockFunctions.ofJson? value).map fun value => { options with blockFunctions := value }
  | _ => some options

def isOption (name : String) : Bool :=
  ["optimistic", "ignoreEval", "globalReturn", "impliedStrict", "sourceType", "ecmaVersion",
    "childVisitorKeys", "fallback", "blockFunctions"].contains name

/-- Options from an object. What is missing keeps its default, and so do lists
of fields that are `null`. -/
def ofJson? (value : Json) : Option Options := do
  (← value.object?).foldlM (fun options (name, value) =>
    match name, value with
    | "childVisitorKeys", .null => some options
    | name, value => options.set? name value) {}

end Options

end Scoping
