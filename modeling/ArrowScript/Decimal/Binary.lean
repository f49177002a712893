/-!
Binary floating-point numbers taken apart: a finite one is a sign, a natural number and a power of
two. All decimal output is computed from these parts, in exact arithmetic.
-/

namespace ArrowScript.Decimal

/-- The positive number `m * 2 ^ q`, or zero when `m = 0`. -/
structure Binary where
  m : Nat
  q : Int
  /-- The next number below is only half as far away as the next one above. -/
  narrowBelow : Bool
  deriving DecidableEq, Repr

inductive Shape where
  | nan
  | infinite (negative : Bool)
  | finite (negative : Bool) (magnitude : Binary)
  deriving DecidableEq, Repr

/-- The parts of a 64-bit floating-point number. -/
def shape (x : Float) : Shape :=
  let bits := x.toBits.toNat
  let negative := bits / Nat.pow 2 63 == 1
  let e : Nat := bits / Nat.pow 2 52 % Nat.pow 2 11
  let f := bits % Nat.pow 2 52
  if e = 2047 then (if f = 0 then .infinite negative else .nan)
  else if e = 0 then .finite negative ⟨f, -1074, false⟩
  else .finite negative ⟨Nat.pow 2 52 + f, (e : Int) - 1075, f == 0 && 1 < e⟩

namespace Binary

def num (x : Binary) : Nat := x.m * Nat.pow 2 x.q.toNat

/-- Denominator of the number as a fraction; a power of two. -/
def den (x : Binary) : Nat := Nat.pow 2 (-x.q).toNat

/-- Without a fractional part. -/
def isIntegral (x : Binary) : Bool := x.num % x.den == 0

def floor (x : Binary) : Nat := x.num / x.den

theorem den_pos (x : Binary) : 0 < x.den := Nat.two_pow_pos _

end Binary

end ArrowScript.Decimal
