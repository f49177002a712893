import ArrowScript.Decimal.Positional

/-!
Numbers: 64-bit integers and binary floating-point numbers. Integer arithmetic is exact where the
result fits 64 bits and falls back to floating point where it does not, so it never wraps.
-/

namespace ArrowScript

inductive Number where
  | int (n : Int64)
  | float (x : Float)
  deriving DecidableEq, Repr

namespace Number

/-- The integers that fit 64 bits. -/
def Fits (n : Int) : Prop := Int64.minValue.toInt ≤ n ∧ n ≤ Int64.maxValue.toInt

instance (n : Int) : Decidable (Fits n) := by unfold Fits; infer_instance

/-- The exact number `n`, when it fits. -/
def ofInt? (n : Int) : Option Number := if Fits n then some (int (.ofInt n)) else none

/-- The integer nearest to `n` that fits. -/
def clamp (n : Int) : Int64 :=
  if n < Int64.minValue.toInt then Int64.minValue
  else if Int64.maxValue.toInt < n then Int64.maxValue
  else .ofInt n

/-- A literal of digits alone: an integer if it fits. -/
def ofDigits (whole : List Char) : Number :=
  let n := Decimal.ofDigits whole
  (ofInt? n).getD (float (.ofScientific n false 0))

/-- A literal with a point between the two lists of digits. -/
def ofDecimal (whole fraction : List Char) : Number :=
  float (.ofScientific (Decimal.ofDigits (whole ++ fraction)) true fraction.length)

/-- The value in floating point, to nearest with ties to even. -/
def toFloat : Number → Float
  | int n => Float.ofInt n.toInt
  | float x => x

def isZero : Number → Bool
  | int n => n == 0
  | float x => x == 0

/-- The number without its fractional part, as an integer; not-a-number gives zero, and what does
not fit gives the nearest integer that does. -/
def truncate : Number → Number
  | int n => int n
  | float x =>
    match Decimal.shape x with
    | .nan => int 0
    | .infinite negative => int (if negative then Int64.minValue else Int64.maxValue)
    | .finite negative b => int (clamp (if negative then -b.floor else b.floor))

/-- Applies `exact` to two integers when its result is defined and fits, and `rounded` to the
floating-point values otherwise. -/
def combine (exact : Int → Int → Option Int) (rounded : Float → Float → Float)
    (a b : Number) : Number :=
  let exactly : Option Number :=
    match a, b with
    | int m, int n => (exact m.toInt n.toInt).bind ofInt?
    | _, _ => none
  exactly.getD (float (rounded a.toFloat b.toFloat))

def add : Number → Number → Number := combine (fun m n => some (m + n)) (· + ·)

def sub : Number → Number → Number := combine (fun m n => some (m - n)) (· - ·)

def mul : Number → Number → Number := combine (fun m n => some (m * n)) (· * ·)

/-- Division in floating point; there is none by zero. -/
def div? (a b : Number) : Option Number :=
  if b.isZero then none else some (float (a.toFloat / b.toFloat))

/-- The power `m ^ n`; there is none where it cannot fit, because `m` is neither 0 nor 1 nor -1 and
`n` is 64 or more. -/
def boundedPower? (m : Int) (n : Nat) : Option Int :=
  if m = 0 ∨ m = 1 then some (if n = 0 then 1 else m)
  else if m = -1 then some (if n % 2 = 0 then 1 else -1)
  else if n < 64 then some (Int.pow m n)
  else none

/-- Integer powers exist for exponents of 32 bits without sign. -/
def power? (m n : Int) : Option Int :=
  if 0 ≤ n ∧ n.toNat < UInt32.size then boundedPower? m n.toNat else none

def pow : Number → Number → Number := combine power? Float.pow

/-- Order of two numbers: exact between integers, otherwise that of the floating-point values.
Not-a-number is not ordered. -/
def compare? : Number → Number → Option Ordering
  | int m, int n => some (compare m.toInt n.toInt)
  | a, b =>
    let x := a.toFloat
    let y := b.toFloat
    if x < y then some .lt else if x == y then some .eq else if y < x then some .gt else none

def eq (a b : Number) : Bool := a.compare? b == some .eq

def lt (a b : Number) : Bool := a.compare? b == some .lt

def le (a b : Number) : Bool := a.lt b || a.eq b

/-- The number in decimal. A floating-point number always shows a point. -/
def toText : Number → String
  | int n => String.ofList (Decimal.signed (n.toInt < 0) (Decimal.digits n.toInt.natAbs))
  | float x => Decimal.pointed x

end Number

end ArrowScript
