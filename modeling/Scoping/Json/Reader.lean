import Scoping.Json.Token

namespace Scoping.Json

/-- A container that is being read, around the value read next. Items and
entries stand latest first. -/
inductive Frame where
  | array (items : List Json)
  | object (entries : List (String × Json)) (key : String)

/-- What a text may go on with, inside the containers of `outer`. -/
inductive Progress where
  | start (outer : List Frame)
  | startOrEnd (outer : List Frame)
  | afterItem (items : List Json) (outer : List Frame)
  | name (entries : List (String × Json)) (outer : List Frame)
  | nameOrEnd (outer : List Frame)
  | afterName (entries : List (String × Json)) (key : String) (outer : List Frame)
  | afterEntry (entries : List (String × Json)) (outer : List Frame)
  | done (value : Json)

namespace Progress

/-- A finished value goes into the innermost open container. -/
def supply (value : Json) : List Frame → Progress
  | [] => .done value
  | .array items :: outer => .afterItem (value :: items) outer
  | .object entries key :: outer =>
      .afterEntry
        (if (entries.lookup key).isSome then insertEntry key value entries
          else (key, value) :: entries) outer

/-- The token that begins a value. A container opens only while fewer than
`limit` are open. -/
def begin (limit : Option Nat) (outer : List Frame) : Token → Option Progress
  | .scalar value => some (supply value outer)
  | .openArray => if limit.all (outer.length < ·) then some (.startOrEnd outer) else none
  | .openObject => if limit.all (outer.length < ·) then some (.nameOrEnd outer) else none
  | _ => none

def step (limit : Option Nat) (token : Token) : Progress → Option Progress
  | .start outer => begin limit outer token
  | .startOrEnd outer =>
      match token with
      | .closeArray => some (supply (.array []) outer)
      | token => begin limit (.array [] :: outer) token
  | .afterItem items outer =>
      match token with
      | .comma => some (.start (.array items :: outer))
      | .closeArray => some (supply (.array items.reverse) outer)
      | _ => none
  | .name entries outer =>
      match token with
      | .scalar (.string key) => some (.afterName entries key outer)
      | _ => none
  | .nameOrEnd outer =>
      match token with
      | .scalar (.string key) => some (.afterName [] key outer)
      | .closeObject => some (supply (.object []) outer)
      | _ => none
  | .afterName entries key outer =>
      match token with
      | .colon => some (.start (.object entries key :: outer))
      | _ => none
  | .afterEntry entries outer =>
      match token with
      | .comma => some (.name entries outer)
      | .closeObject => some (supply (.object entries.reverse) outer)
      | _ => none
  | .done _ => none

/-- Read on to the end of the text, where the value must be complete. -/
def run (limit : Option Nat) (progress : Progress) : List Char → Option Json
  | [] =>
      match progress with
      | .done value => some value
      | _ => none
  | c :: rest =>
      if Token.isBlank c then run limit progress rest
      else
        match h : Token.read c rest with
        | none => none
        | some (token, after) =>
            have := Token.length_read h
            match progress.step limit token with
            | none => none
            | some progress => run limit progress after
termination_by cs => cs.length

end Progress

/-- The value that a text spells, with at most `limit` containers inside one
another. Of two entries of one name the later gives the value. -/
def read? (limit : Option Nat) (text : String) : Option Json :=
  Progress.run limit (.start []) text.toList

end Scoping.Json
