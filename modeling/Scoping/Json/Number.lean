import Scoping.Json.Basic

namespace Scoping.Number

/-- The written parts of a number: its sign, the digits before and after the
point, and the exponent. -/
structure Decimal where
  negative : Bool
  whole : List Nat
  fraction : List Nat
  exponent : Int
  isInteger : Bool

/-- Read digits onto a significand of 64 bits, and return the digits that no
longer fit. -/
def readDigits (significand : Nat) : List Nat → Nat × List Nat
  | [] => (significand, [])
  | digit :: rest =>
      if significand * 10 + digit < UInt64.size then readDigits (significand * 10 + digit) rest
      else (significand, digit :: rest)

/-- A double times a power of ten, one rounding a step and none beyond 1e308
at a time. Infinity is no number. -/
def scale (value : Float) (exponent : Int) : Option Float :=
  if exponent.natAbs ≤ 308 then
    let power := Float.ofScientific 1 false exponent.natAbs
    let scaled := if exponent < 0 then value / power else value * power
    if scaled.isInf then none else some scaled
  else if value == 0 then some value
  else if exponent < 0 then scale (value / Float.ofScientific 1 false 308) (exponent + 308)
  else none
termination_by exponent.natAbs
decreasing_by omega

/-- The number that a document keeps for a decimal, if it is in range. Digits
that do not fit 64 bits are dropped: before the point each counts as a power
of ten, after the point it does not count at all. A negative zero is a double. -/
def ofDecimal? (decimal : Decimal) : Option Number :=
  let (whole, extra) := readDigits 0 decimal.whole
  if decimal.isInteger && extra.isEmpty && (!decimal.negative || (0 < whole && whole ≤ 1 <<< 63)) then
    some (.int (if decimal.negative then -whole else whole))
  else
    let (significand, dropped) := readDigits whole decimal.fraction
    let shift : Int := extra.length - (decimal.fraction.length - dropped.length : Nat)
    (scale significand.toUInt64.toFloat (decimal.exponent + shift)).map fun value =>
      .float (if decimal.negative then -value else value)

/-- A finite double is `mantissa * 2 ^ exponent`, up to its sign. -/
private def parts (value : Float) : Nat × Int :=
  let bits := value.toBits.toNat % (1 <<< 63)
  if bits >>> 52 = 0 then (bits, -1074)
  else (bits % (1 <<< 52) + (1 <<< 52), Int.ofNat (bits >>> 52) - 1075)

/-- A finite double with at least seventeen significant digits, which read
back as the same double. -/
def renderFloat (value : Float) : String :=
  let (mantissa, exponent) := parts value
  let sign := if value.toBits.toNat < 1 <<< 63 then "" else "-"
  let numerator := mantissa <<< exponent.toNat
  let denominator := 1 <<< (-exponent).toNat
  let places : Int := 17 + (toString denominator).length - (toString numerator).length
  let scaled := numerator * Nat.pow 10 places.toNat
  let unit := denominator * Nat.pow 10 (-places).toNat
  let digits := (2 * scaled + unit) / (2 * unit)
  s!"{sign}{digits}e{-places}"

def render : Number → String
  | .int value => toString value
  | .float value => renderFloat value

end Scoping.Number
