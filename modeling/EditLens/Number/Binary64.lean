/-!
Binary64 numbers, given by their bits: the exact value that a pattern stands for, and the pattern
nearest to a ratio or to a decimal.
-/
namespace EditLens

/-- A binary64 number: one sign bit, eleven of exponent and fifty-two of fraction. -/
structure Binary64 where
  bits : UInt64
  deriving DecidableEq, Inhabited, Repr

namespace Binary64

def negative (x : Binary64) : Bool := x.bits >>> 63 == 1

def biased (x : Binary64) : Nat := ((x.bits >>> 52) &&& 0x7ff).toNat

def fraction (x : Binary64) : Nat := (x.bits &&& 0xfffffffffffff).toNat

def isFinite (x : Binary64) : Bool := x.biased != 0x7ff

def isInfinite (x : Binary64) : Bool := x.biased == 0x7ff && x.fraction == 0

def isNaN (x : Binary64) : Bool := x.biased == 0x7ff && x.fraction != 0

def leadingBit : Nat := 0x10000000000000

/-- A finite number has the magnitude `significand * 2 ^ exponent`. -/
def significand (x : Binary64) : Nat :=
  if x.biased = 0 then x.fraction else x.fraction + leadingBit

def exponent (x : Binary64) : Int := (max x.biased 1 : Nat) - 1075

/-- The whole number that a finite number equals, if there is one; both zeros equal 0. -/
def integer? (x : Binary64) : Option Int :=
  if !x.isFinite then none
  else
    let unit := Nat.pow 2 (-x.exponent).toNat
    let units := x.significand * Nat.pow 2 x.exponent.toNat
    if units % unit = 0 then
      let magnitude : Int := (units / unit : Nat)
      some (if x.negative then -magnitude else magnitude)
    else none

def pack (negative : Bool) (magnitude : Nat) : Binary64 :=
  ⟨.ofNat (if negative then 0x8000000000000000 + magnitude else magnitude)⟩

def infinityBits : Nat := 0x7ff * leadingBit

def infinity (negative : Bool) : Binary64 := pack negative infinityBits

def nan : Binary64 := pack false (infinityBits + leadingBit / 2)

/-- The quotient to the nearest whole number, a half going to the even neighbour. -/
def roundDiv (num den : Nat) : Nat :=
  let quotient := num / den
  let rest := num % den
  if 2 * rest < den then quotient
  else if den < 2 * rest then quotient + 1
  else quotient + quotient % 2

/-- The number nearest to `num / den`, a tie going to the even significand. The exponent is the one
that leaves 53 bits before the point, or the least one; carrying out of the significand moves on to
the next exponent, and past the last one to infinity. -/
def ofRatio (negative : Bool) (num den : Nat) : Binary64 :=
  if num = 0 then pack negative 0
  else
    let guess : Int := (num.log2 : Int) - den.log2
    let reached := den * Nat.pow 2 guess.toNat ≤ num * Nat.pow 2 (-guess).toNat
    let exponent := max ((if reached then guess else guess - 1) - 52) (-1074)
    let significand :=
      roundDiv (num * Nat.pow 2 (-exponent).toNat) (den * Nat.pow 2 exponent.toNat)
    pack negative (min ((exponent + 1074).toNat * leadingBit + significand) infinityBits)

/-- The number nearest to `digits * 10 ^ exponent`. Sizes that are certain to overflow or to vanish
are told from the count of digits, so that no large power is worked out for them. -/
def ofDecimal (negative : Bool) (digits : Nat) (exponent : Int) : Binary64 :=
  let size := (Nat.toDigits 10 digits).length + exponent
  if digits = 0 || size < -330 then pack negative 0
  else if 310 < size then infinity negative
  else ofRatio negative (digits * Nat.pow 10 exponent.toNat) (Nat.pow 10 (-exponent).toNat)

end Binary64

end EditLens
