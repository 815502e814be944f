-- The 64 bits of a number: a sign, eleven bits of exponent and fifty-two of
-- fraction.
import Untype.Number.Basic

namespace Untype.Number

def signBit : Nat := 0x8000000000000000

/-- The first bit above the fraction. -/
def fractionLimit : Nat := 0x10000000000000

def bits (a : Number) : UInt64 :=
  let sign : Nat := if a.isNegative then signBit else 0
  let rest : Nat := match a with
    | nan _ => 0x7ff8000000000000
    | infinity _ => 0x7ff0000000000000
    | zero _ => 0
    | finite value =>
      let place := lastPlace value.abs
      let digits := (value.abs / (2 : Rat) ^ place).floor.toNat
      -- The leading digit of a normal number is not stored: it adds one to the exponent.
      (place + 1074).toNat * fractionLimit + digits
  UInt64.ofNat (sign + rest)

def ofBits (w : UInt64) : Number :=
  let negative := signBit ≤ w.toNat
  let exponent : Nat := w.toNat / fractionLimit % 2048
  let fraction : Nat := w.toNat % fractionLimit
  if exponent = 2047 then
    if fraction = 0 then infinity negative else nan negative
  else if exponent = 0 ∧ fraction = 0 then
    zero negative
  else
    let size : Rat := if exponent = 0 then
        (fraction : Rat) * (2 : Rat) ^ (-1074 : Int)
      else
        ((fractionLimit + fraction : Nat) : Rat) * (2 : Rat) ^ ((exponent : Int) - 1075)
    finite (if negative then -size else size)

/-- The power `a ^ b`, as the machine computes it. -/
def pow (a b : Number) : Number :=
  ofBits (Float.pow (Float.ofBits a.bits) (Float.ofBits b.bits)).toBits

end Untype.Number
