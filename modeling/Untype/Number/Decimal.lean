-- Numbers as decimal text: all digits of a whole number, otherwise the
-- fewest digits that read back, and never an exponent.
import Untype.Number.Basic

namespace Untype.Number

/-! ## The fewest digits -/

/-- The reals that round to a positive double. -/
structure RoundingRange where
  low : Rat
  high : Rat
  /-- The two ends round to the double too. -/
  closed : Bool

/-- The range of a positive double: half a place to each side, and half as much below a
power of two. -/
def roundingRange (value : Rat) : RoundingRange :=
  let place := lastPlace value
  let unit := (2 : Rat) ^ place
  let digits := (value / unit).floor
  let below := if digits = 0x10000000000000 ∧ -1074 < place then unit / 4 else unit / 2
  ⟨value - below, value + unit / 2, digits % 2 = 0⟩

def RoundingRange.holds (range : RoundingRange) (q : Rat) : Bool :=
  if range.closed then range.low ≤ q && q ≤ range.high else range.low < q && q < range.high

/-- The multiple of `10 ^ place` nearest to `value` among its two neighbours in the range. -/
def onGrid (value : Rat) (range : RoundingRange) (place : Int) : Option Nat :=
  let unit := (10 : Rat) ^ place
  let low := (value / unit).floor.toNat
  let high := low + 1
  match range.holds (low * unit), range.holds (high * unit) with
  | true, true =>
    let toLow := value - low * unit
    let toHigh := high * unit - value
    some (if toLow < toHigh then low
      else if toHigh < toLow then high
      else if low % 2 = 0 then low else high)
  | true, false => some low
  | false, true => some high
  | false, false => none

/-- The greatest `e` with `10 ^ e ≤ q`, for a positive `q`. The estimate by digits of the
numerator and the denominator is at most one too high. -/
def decade (q : Rat) : Int :=
  let digits (n : Nat) : Int := (toString n).length
  let e := digits q.num.natAbs - digits q.den
  if (10 : Rat) ^ e ≤ q then e else e - 1

/-- The first of the places from `place` down that has a number in the range. -/
def shortestFrom (value : Rat) (range : RoundingRange) : Nat → Int → Nat × Int
  | 0, place => ((value / (10 : Rat) ^ place).floor.toNat, place)
  | fuel + 1, place =>
    match onGrid value range place with
    | some digits => (digits, place)
    | none => shortestFrom value range fuel (place - 1)

/-- The fewest digits that read back as a positive double, and the place of the last one. -/
def shortest (value : Rat) : Nat × Int :=
  shortestFrom value (roundingRange value) 20 (decade value + 1)

/-! ## Text -/

/-- `digits · 10 ^ place` without an exponent. -/
def positional (digits : Nat) (place : Int) : String :=
  let cs := (toString digits).toList
  if 0 ≤ place then
    String.ofList (cs ++ List.replicate place.toNat '0')
  else
    let behind := (-place).toNat
    let padded := List.replicate (behind + 1 - cs.length) '0' ++ cs
    let split := padded.length - behind
    -- A last digit of zero cannot come from the fewest digits.
    String.ofList (padded.take split ++ '.' :: padded.drop split)

/-- The text of a positive finite value: all its digits if it is whole and below 10 ^ 21,
otherwise the fewest that read back. -/
def magnitudeText (value : Rat) : String :=
  if value.den = 1 ∧ value < (10 : Rat) ^ (21 : Nat) then
    toString value.num.natAbs
  else
    let (digits, place) := shortest value
    positional digits place

/-- The text of a number. Both zeros are `0`. -/
def text : Number → String
  | nan _ => "NaN"
  | infinity negative => if negative then "-Infinity" else "Infinity"
  | zero _ => "0"
  | finite value => if value < 0 then "-" ++ magnitudeText value.abs else magnitudeText value.abs

end Untype.Number
