import ArrowScript.Decimal.Binary

/-!
The fewest decimal digits that identify a binary floating-point number. The numbers that round to
it form an interval whose ends belong to it exactly when its mantissa is even. For one, two, ...
digits the two neighbours of the number on the grid with that many digits are tried: the first grid
with a neighbour in the interval gives the answer, the nearer neighbour if both are in it, and the
upper one if they are equally near.
-/

namespace ArrowScript.Decimal

/-- The number `coeff * 10 ^ exp`. -/
structure Scaled where
  coeff : Nat
  exp : Int
  deriving DecidableEq, Repr

namespace Binary

/-- Compares `d * 10 ^ e` with `n / (4 * x.den)`, exactly. -/
def compareGrid (x : Binary) (d : Nat) (e : Int) (n : Nat) : Ordering :=
  compare (d * Nat.pow 10 e.toNat * (4 * x.den)) (n * Nat.pow 10 (-e).toNat)

/-- Whether `d * 10 ^ e` is among the reals that round to `x`. -/
def readsBack (x : Binary) (d : Nat) (e : Int) : Bool :=
  let unit := Nat.pow 2 x.q.toNat
  let low := x.compareGrid d e (4 * x.num - (if x.narrowBelow then 1 else 2) * unit)
  let high := x.compareGrid d e (4 * x.num + 2 * unit)
  let closed := x.m % 2 == 0
  (low == .gt || closed && low == .eq) && (high == .lt || closed && high == .eq)

/-- The neighbour of `x` below, or on it, among the multiples of `10 ^ e`. -/
def gridFloor (x : Binary) (e : Int) : Nat :=
  x.num * Nat.pow 10 (-e).toNat / (x.den * Nat.pow 10 e.toNat)

/-- Whether `x` is nearer to `d * 10 ^ e` than to the next multiple of `10 ^ e`. -/
def nearerBelow (x : Binary) (d : Nat) (e : Int) : Bool :=
  2 * x.num * Nat.pow 10 (-e).toNat < (2 * d + 1) * (x.den * Nat.pow 10 e.toNat)

/-- The best multiple of `10 ^ e` that reads back, if there is one. -/
def onGrid? (x : Binary) (e : Int) : Option Scaled :=
  let d := x.gridFloor e
  match x.readsBack d e, x.readsBack (d + 1) e with
  | true, true => some ⟨if x.nearerBelow d e then d else d + 1, e⟩
  | true, false => some ⟨d, e⟩
  | false, true => some ⟨d + 1, e⟩
  | false, false => none

/-- Number of zeros between the point and the first digit, at most `limit`. -/
def leadingZeros (num den : Nat) : Nat → Nat
  | 0 => 0
  | limit + 1 => if num * 10 < den then leadingZeros (num * 10) den limit + 1 else 0

/-- The exponent of the power of ten just above `x`. -/
def scale (x : Binary) : Int :=
  if x.floor = 0 then -(leadingZeros x.num x.den 400 : Int)
  else (Nat.toDigits 10 x.floor).length

def exact (x : Binary) : Scaled := ⟨x.num * Nat.pow 5 (-x.q).toNat, -((-x.q).toNat : Int)⟩

/-- The shortest decimal that reads back as `x`. -/
def shortest (x : Binary) : Scaled :=
  ((List.range 17).findSome? fun (n : Nat) => x.onGrid? (x.scale - (n + 1))).getD x.exact

end Binary

end ArrowScript.Decimal
