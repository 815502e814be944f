-- Double precision numbers as exact rationals, and their arithmetic: each
-- operation is the exact one followed by one rounding.

namespace Untype

/-- A number. `finite` holds the nonzero values; the two zeros and the sign of a NaN are
kept apart because division and the bit form show them. -/
inductive Number where
  | nan (negative : Bool)
  | infinity (negative : Bool)
  | zero (negative : Bool)
  | finite (value : Rat)
deriving DecidableEq

namespace Number

/-! ## Rounding -/

/-- The greatest `e` with `2 ^ e ≤ q`, for a positive `q`. -/
def binade (q : Rat) : Int :=
  let e : Int := (q.num.natAbs.log2 : Int) - (q.den.log2 : Int)
  if (2 : Rat) ^ e ≤ q then e else e - 1

/-- The nearest integer; a half goes to the even neighbour. -/
def nearest (q : Rat) : Int :=
  let low := q.floor
  let rest := q - low
  if rest < 1 / 2 then low
  else if 1 / 2 < rest then low + 1
  else if low % 2 = 0 then low
  else low + 1

/-- The exponent of the last place of the doubles around a positive `q`: 53 digits, and
never below the least double. -/
def lastPlace (q : Rat) : Int := max (binade q - 52) (-1074)

/-- The double nearest to `q`. A result of zero takes the sign of `q`, or `negative` if `q`
is zero itself. -/
def round (negative : Bool) (q : Rat) : Number :=
  if q = 0 then
    zero negative
  else
    let place := lastPlace q.abs
    let value := (nearest (q / (2 : Rat) ^ place) : Rat) * (2 : Rat) ^ place
    if value = 0 then zero (q < 0)
    else if (2 : Rat) ^ (1024 : Nat) ≤ value.abs then infinity (q < 0)
    else finite value

def ofInt (n : Int) : Number := round false n

/-! ## Arithmetic -/

def isNegative : Number → Bool
  | nan negative => negative
  | infinity negative => negative
  | zero negative => negative
  | finite value => value < 0

def value? : Number → Option Rat
  | zero _ => some 0
  | finite value => some value
  | _ => none

def neg : Number → Number
  | nan negative => nan !negative
  | infinity negative => infinity !negative
  | zero negative => zero !negative
  | finite value => finite (-value)

/-- The sum. Two zeros give a negative zero only if both are negative, and a sum that
cancels gives a positive one. -/
def add : Number → Number → Number
  | nan s, _ => nan s
  | _, nan s => nan s
  | infinity s, infinity t => if s = t then infinity s else nan false
  | infinity s, _ => infinity s
  | _, infinity s => infinity s
  | zero s, zero t => zero (s && t)
  | zero _, finite b => finite b
  | finite a, zero _ => finite a
  | finite a, finite b => round false (a + b)

def sub (a b : Number) : Number := a.add b.neg

def mul (a b : Number) : Number :=
  let negative := a.isNegative != b.isNegative
  match a, b with
  | nan s, _ => nan s
  | _, nan s => nan s
  | infinity _, zero _ => nan false
  | zero _, infinity _ => nan false
  | infinity _, _ => infinity negative
  | _, infinity _ => infinity negative
  | zero _, _ => zero negative
  | _, zero _ => zero negative
  | finite p, finite q => round negative (p * q)

def div (a b : Number) : Number :=
  let negative := a.isNegative != b.isNegative
  match a, b with
  | nan s, _ => nan s
  | _, nan s => nan s
  | infinity _, infinity _ => nan false
  | zero _, zero _ => nan false
  | infinity _, _ => infinity negative
  | _, infinity _ => zero negative
  | _, zero _ => infinity negative
  | zero _, _ => zero negative
  | finite p, finite q => round negative (p / q)

def truncate (q : Rat) : Int := q.num.tdiv q.den

/-- The remainder of the division toward zero; it has the sign of `a`. -/
def rem (a b : Number) : Number :=
  match a, b with
  | nan s, _ => nan s
  | _, nan s => nan s
  | infinity _, _ => nan false
  | _, zero _ => nan false
  | zero s, _ => zero s
  | finite p, infinity _ => finite p
  | finite p, finite q => round (p < 0) (p - q * truncate (p / q))

end Number

end Untype
