import Scoping.Json.Number

namespace Scoping.Json

def hexDigit (n : Nat) : Char :=
  if n < 10 then Char.ofNat ('0'.toNat + n) else Char.ofNat ('a'.toNat + n - 10)

/-- A character inside a string. Control characters take the long form. -/
def escapeChar (c : Char) : List Char :=
  if c = '"' then ['\\', '"']
  else if c = '\\' then ['\\', '\\']
  else if c.toNat < 0x20 then
    ['\\', 'u', '0', '0', hexDigit (c.toNat / 16), hexDigit (c.toNat % 16)]
  else [c]

def renderString (text : String) : String :=
  String.ofList ('"' :: text.toList.flatMap escapeChar ++ ['"'])

mutual

/-- The text of a value after `written`, without blanks. -/
def write (written : String) : Json → String
  | .null => written ++ "null"
  | .bool value => written ++ toString value
  | .number value => written ++ value.render
  | .string value => written ++ renderString value
  | .array items => writeItems (written.push '[') true items ++ "]"
  | .object entries => writeEntries (written.push '\x7b') true entries ++ "\x7d"

def writeItems (written : String) (first : Bool) : List Json → String
  | [] => written
  | item :: rest => writeItems (write (if first then written else written.push ',') item) false rest

def writeEntries (written : String) (first : Bool) : List (String × Json) → String
  | [] => written
  | (key, value) :: rest =>
      let begun := (if first then written else written.push ',') ++ renderString key
      writeEntries (write (begun.push ':') value) false rest

end

def render (value : Json) : String := write "" value

end Scoping.Json
