import Scoping.Json.Number

namespace Scoping.Json

/-- The smallest pieces of a JSON text. A scalar is a value of its own. -/
inductive Token where
  | openArray
  | closeArray
  | openObject
  | closeObject
  | comma
  | colon
  | scalar (value : Json)

namespace Token

/-- Only these four characters may stand between tokens. -/
def isBlank (c : Char) : Bool :=
  c = ' ' || c = '\t' || c = '\n' || c = '\r'

def hexDigit? (c : Char) : Option Nat :=
  if '0' ≤ c ∧ c ≤ '9' then some (c.toNat - '0'.toNat)
  else if 'a' ≤ c ∧ c ≤ 'f' then some (c.toNat - 'a'.toNat + 10)
  else if 'A' ≤ c ∧ c ≤ 'F' then some (c.toNat - 'A'.toNat + 10)
  else none

def hexUnit? (a b c d : Char) : Option Nat := do
  return ((← hexDigit? a) * 16 + (← hexDigit? b)) * 256 + (← hexDigit? c) * 16 + (← hexDigit? d)

def isLeadingUnit (unit : Nat) : Bool := 0xD800 ≤ unit && unit < 0xDC00

def isTrailingUnit (unit : Nat) : Bool := 0xDC00 ≤ unit && unit < 0xE000

/-- The character that a backslash and this letter stand for. -/
def escape? : Char → Option Char
  | '"' => some '"'
  | '\\' => some '\\'
  | '/' => some '/'
  | 'b' => some '\x08'
  | 'f' => some '\x0c'
  | 'n' => some '\n'
  | 'r' => some '\r'
  | 't' => some '\t'
  | _ => none

/-- The rest of a string up to its closing quote, and what follows it. A
leading surrogate is kept until the next escape, which has to complete it. -/
def readString (read : List Char) (leading : Option Nat) : List Char → Option (String × List Char)
  | [] => none
  | '\\' :: 'u' :: a :: b :: c :: d :: rest =>
      match leading, hexUnit? a b c d with
      | _, none => none
      | none, some unit =>
          if isLeadingUnit unit then readString read (some unit) rest
          else if isTrailingUnit unit then none
          else readString (Char.ofNat unit :: read) none rest
      | some first, some unit =>
          if isTrailingUnit unit then
            let code := 0x10000 + (first - 0xD800) * 0x400 + (unit - 0xDC00)
            readString (Char.ofNat code :: read) none rest
          else none
  | c :: rest =>
      if leading.isSome then none
      else if c = '"' then some (String.ofList read.reverse, rest)
      else if c.toNat < 0x20 then none
      else if c = '\\' then
        match rest with
        | [] => none
        | letter :: rest =>
            match escape? letter with
            | none => none
            | some value => readString (value :: read) none rest
      else readString (c :: read) none rest

theorem length_readString {read : List Char} {leading : Option Nat} {cs rest : List Char}
    {value : String} (h : readString read leading cs = some (value, rest)) :
    rest.length ≤ cs.length := by
  fun_induction readString read leading cs <;> simp_all <;> omega

def digitsOf (cs : List Char) : List Nat × List Char :=
  ((cs.takeWhile Char.isDigit).map fun c => c.toNat - '0'.toNat, cs.dropWhile Char.isDigit)

/-- As `digitsOf`, where at least one digit must stand. -/
def someDigits? (cs : List Char) : Option (List Nat × List Char) :=
  if (digitsOf cs).1.isEmpty then none else some (digitsOf cs)

/-- The digits after a point; none where no point stands. -/
def readFraction : List Char → Option (List Nat × List Char)
  | '.' :: rest => someDigits? rest
  | cs => some ([], cs)

def natOf (digits : List Nat) : Nat :=
  digits.foldl (fun value digit => value * 10 + digit) 0

/-- An exponent after its letter, with or without a sign. -/
def readSigned : List Char → Option (Int × List Char)
  | '-' :: rest => (someDigits? rest).map fun (digits, rest) => (-natOf digits, rest)
  | '+' :: rest => (someDigits? rest).map fun (digits, rest) => (natOf digits, rest)
  | cs => (someDigits? cs).map fun (digits, rest) => (natOf digits, rest)

/-- The exponent of a number; zero where no letter stands. -/
def readExponent : List Char → Option (Int × List Char)
  | 'e' :: rest | 'E' :: rest => readSigned rest
  | cs => some (0, cs)

/-- A point or an exponent makes a number a double, whatever its value. -/
def endsInteger : List Char → Bool
  | '.' :: _ | 'e' :: _ | 'E' :: _ => false
  | _ => true

/-- A number after its sign. A zero begins no longer digit string. -/
def readNumber (negative : Bool) (cs : List Char) : Option (Json × List Char) := do
  let (whole, afterWhole) := digitsOf cs
  if whole.isEmpty || (whole.head? = some 0 && 1 < whole.length) then none
  else
    let (fraction, afterFraction) ← readFraction afterWhole
    let (exponent, rest) ← readExponent afterFraction
    let value ← Number.ofDecimal? ⟨negative, whole, fraction, exponent, endsInteger afterWhole⟩
    return (.number value, rest)

theorem length_digitsOf (cs : List Char) : (digitsOf cs).2.length ≤ cs.length :=
  (List.dropWhile_sublist _).length_le

theorem length_someDigits? {cs rest : List Char} {digits : List Nat}
    (h : someDigits? cs = some (digits, rest)) : rest.length ≤ cs.length := by
  simp only [someDigits?, Option.ite_none_left_eq_some, Option.some.injEq] at h
  simpa [h.2] using length_digitsOf cs

theorem length_readFraction {cs rest : List Char} {digits : List Nat}
    (h : readFraction cs = some (digits, rest)) : rest.length ≤ cs.length := by
  unfold readFraction at h
  split at h
  · exact Nat.le_succ_of_le (length_someDigits? h)
  · cases h
    exact Nat.le_refl _

theorem length_readSigned {cs rest : List Char} {exponent : Int}
    (h : readSigned cs = some (exponent, rest)) : rest.length ≤ cs.length := by
  unfold readSigned at h
  split at h <;>
  · obtain ⟨⟨digits, tail⟩, hDigits, hEq⟩ := Option.map_eq_some_iff.1 h
    cases hEq
    have := length_someDigits? hDigits
    simp only [List.length_cons] at *
    omega

theorem length_readExponent {cs rest : List Char} {exponent : Int}
    (h : readExponent cs = some (exponent, rest)) : rest.length ≤ cs.length := by
  unfold readExponent at h
  split at h
  · exact Nat.le_succ_of_le (length_readSigned h)
  · exact Nat.le_succ_of_le (length_readSigned h)
  · cases h
    exact Nat.le_refl _

theorem length_readNumber {negative : Bool} {cs rest : List Char} {value : Json}
    (h : readNumber negative cs = some (value, rest)) :
    rest.length ≤ (digitsOf cs).2.length := by
  simp only [readNumber, Option.bind_eq_bind, Option.pure_def] at h
  split at h
  · cases h
  · obtain ⟨⟨fraction, afterFraction⟩, hFraction, h⟩ := Option.bind_eq_some_iff.1 h
    obtain ⟨⟨exponent, last⟩, hExponent, h⟩ := Option.bind_eq_some_iff.1 h
    obtain ⟨number, _, h⟩ := Option.bind_eq_some_iff.1 h
    cases h
    exact Nat.le_trans (length_readExponent hExponent) (length_readFraction hFraction)

/-- The token that begins with `c`, and what follows it. -/
def read (c : Char) (rest : List Char) : Option (Token × List Char) :=
  match c with
  | '[' => some (.openArray, rest)
  | ']' => some (.closeArray, rest)
  | '{' => some (.openObject, rest)
  | '}' => some (.closeObject, rest)
  | ',' => some (.comma, rest)
  | ':' => some (.colon, rest)
  | '"' => (readString [] none rest).map fun (value, rest) => (.scalar (.string value), rest)
  | '-' => (readNumber true rest).map fun (value, rest) => (.scalar value, rest)
  | 'n' => if rest.take 3 = ['u', 'l', 'l'] then some (.scalar .null, rest.drop 3) else none
  | 't' => if rest.take 3 = ['r', 'u', 'e'] then some (.scalar (.bool true), rest.drop 3) else none
  | 'f' =>
      if rest.take 4 = ['a', 'l', 's', 'e'] then some (.scalar (.bool false), rest.drop 4) else none
  | c =>
      if c.isDigit then
        (readNumber false (c :: rest)).map fun (value, rest) => (.scalar value, rest)
      else none

theorem length_read {c : Char} {rest after : List Char} {token : Token}
    (h : read c rest = some (token, after)) : after.length ≤ rest.length := by
  unfold read at h
  split at h
  case h_7 =>
    obtain ⟨⟨value, tail⟩, hRead, hEq⟩ := Option.map_eq_some_iff.1 h
    cases hEq
    exact length_readString hRead
  case h_8 =>
    obtain ⟨⟨value, tail⟩, hRead, hEq⟩ := Option.map_eq_some_iff.1 h
    cases hEq
    exact Nat.le_trans (length_readNumber hRead) (length_digitsOf rest)
  case h_12 =>
    split at h
    · next hDigit =>
        obtain ⟨⟨value, tail⟩, hRead, hEq⟩ := Option.map_eq_some_iff.1 h
        cases hEq
        have hDrop : (digitsOf (c :: rest)).2 = (digitsOf rest).2 := by
          simp [digitsOf, hDigit]
        exact Nat.le_trans (length_readNumber hRead) (hDrop ▸ length_digitsOf rest)
    · cases h
  all_goals grind

end Token

end Scoping.Json
