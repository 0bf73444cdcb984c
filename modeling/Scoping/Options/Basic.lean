import Scoping.Tree.ChildKeys

namespace Scoping

/-- An edition of the language, by its number and never by its year. -/
abbrev Edition := Nat

namespace Edition

def latest : Edition := 16

/-- The edition that a version names. Years from 2015 on stand for the edition
of that year, and there is no edition 4. -/
def ofVersion? (version : Nat) : Option Edition :=
  let edition := if 2015 ≤ version then version - 2009 else version
  if edition = 3 ∨ edition = 5 ∨ (6 ≤ edition ∧ edition ≤ latest) then some edition else none

end Edition

inductive SourceType where
  | script
  | esModule
  | commonJS
  deriving DecidableEq, Repr, Inhabited

def SourceType.ofWord? : String → Option SourceType
  | "script" => some .script
  | "module" => some .esModule
  | "commonjs" => some .commonJS
  | _ => none

/-- Where a function declared right inside a block, and not inside the body of
a function, binds its name. -/
inductive BlockFunctions where
  | lexical
  | sloppyHoisted
  deriving DecidableEq, Repr, Inhabited

def BlockFunctions.ofWord? : String → Option BlockFunctions
  | "lexical" => some .lexical
  | "sloppyHoisted" => some .sloppyHoisted
  | _ => none

/-- Whether the name is bound in the block itself. Before edition 6 it never is. -/
def BlockFunctions.bindsInBlock (policy : BlockFunctions) (edition : Nat) (strict : Bool) : Bool :=
  if edition < 6 then false
  else
    match policy with
    | .lexical => true
    | .sloppyHoisted => strict

structure Options where
  /-- Resolve through `with` and direct eval as if they bound no name. -/
  optimistic : Bool := false
  ignoreEval : Bool := false
  globalReturn : Bool := false
  impliedStrict : Bool := false
  sourceType : SourceType := .script
  ecmaVersion : Nat := 2018
  childVisitorKeys : Option (List (String × List String)) := none
  fallback : Fallback := .iteration
  blockFunctions : BlockFunctions := .lexical
  deriving Repr, Inhabited

/-- Options that have been found to agree with one another. -/
structure Settings where
  options : Options
  edition : Edition
  deriving Repr, Inhabited

namespace Settings

def ofOptions? (options : Options) : Except Rejection Settings :=
  match Edition.ofVersion? options.ecmaVersion with
  | none => .error (.unsupportedVersion options.ecmaVersion)
  | some edition =>
      if options.sourceType = .esModule ∧ edition < 6 then .error .moduleTooEarly
      else if options.sourceType = .esModule ∧ options.globalReturn then
        .error .globalReturnInModule
      else .ok ⟨options, edition⟩

def isModule (settings : Settings) : Bool :=
  settings.options.sourceType = .esModule

/-- The program is the body of a function. -/
def globalReturn (settings : Settings) : Bool :=
  settings.options.globalReturn || settings.options.sourceType = .commonJS

def knowsStrict (settings : Settings) : Bool :=
  5 ≤ settings.edition

/-- Blocks and modules have scopes of their own. -/
def hasBlockScopes (settings : Settings) : Bool :=
  6 ≤ settings.edition

def keys (settings : Settings) : ChildKeys where
  custom := settings.options.childVisitorKeys.getD []
  fallback := settings.options.fallback

theorem keys_eq_of_none {settings : Settings} (h : settings.options.childVisitorKeys = none) :
    settings.keys.custom = [] := by
  simp [keys, h]

end Settings

end Scoping
