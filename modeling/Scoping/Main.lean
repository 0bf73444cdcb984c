import Scoping.CommandLine

open Scoping

def usage : String :=
  "usage: dump-scopes FILE [--source-type script|module|commonjs] [--ecma-version N]\n" ++
    "  [--global-return] [--implied-strict] [--optimistic] [--sloppy-block-functions]"

def main (arguments : List String) : IO UInt32 := do
  match Request.ofArguments? arguments with
  | none =>
      IO.eprintln usage
      return 2
  | some request =>
      let text ← try IO.FS.readFile request.path
        catch error =>
          IO.eprintln s!"error: {error}"
          return 1
      let outcome := Outcome.ofRequest request text
      match outcome with
      | .lines lines => for line in lines do IO.println line
      | .rejected rejection => IO.eprintln s!"error: {rejection.message}"
      | .failed failure => IO.eprintln (failure.message?.getD "the analysis failed")
      | .refused => IO.eprintln usage
      return outcome.exitCode.toUInt32
