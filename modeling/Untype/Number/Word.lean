-- The operations that read their operands as words of 32 bits.
import Untype.Number.Basic

namespace Untype.Number

/-- The integer part modulo 2 ^ 32; what is not finite counts as 0. -/
def toWord (a : Number) : BitVec 32 :=
  match a.value? with
  | some q => BitVec.ofInt 32 (truncate q)
  | none => 0

def ofSigned (w : BitVec 32) : Number := ofInt w.toInt

def ofUnsigned (w : BitVec 32) : Number := ofInt w.toNat

/-- How far a shift goes: the last five bits of its right operand. -/
def shiftCount (a : Number) : Nat := a.toWord.toNat % 32

def complement (a : Number) : Number := ofSigned (~~~ a.toWord)

def bitAnd (a b : Number) : Number := ofSigned (a.toWord &&& b.toWord)

def bitOr (a b : Number) : Number := ofSigned (a.toWord ||| b.toWord)

def bitXor (a b : Number) : Number := ofSigned (a.toWord ^^^ b.toWord)

def shiftLeft (a b : Number) : Number := ofSigned (a.toWord <<< b.shiftCount)

/-- Shifts the sign in. -/
def shiftRight (a b : Number) : Number := ofSigned (a.toWord.sshiftRight b.shiftCount)

/-- Shifts zeros in. -/
def shiftRightUnsigned (a b : Number) : Number := ofUnsigned (a.toWord >>> b.shiftCount)

end Untype.Number
