import ArrowScript.Value.Basic

/-!
What the operators do with values. They are defined for numbers, and for strings in two cases:
a string can be appended to a string, and repeated an integral number of times.
-/

namespace ArrowScript

/-- Why an operator gives no value. -/
inductive Refusal where
  | illegal
  | divisionByZero
  deriving DecidableEq, Repr

namespace Value

/-- The largest size in bytes that a repetition may reach. -/
def maxTextBytes : Nat := Nat.pow 2 26

def appendCopies (s : String) (acc : String) : Nat → String
  | 0 => acc
  | n + 1 => appendCopies s (acc ++ s) n

/-- The text `n` times over, unless that is too large; a negative number counts as zero. -/
def repeatText? (s : String) (n : Int) : Option String :=
  if s.utf8ByteSize * n.toNat ≤ maxTextBytes then
    some (if s = "" then "" else appendCopies s "" n.toNat)
  else none

def numberBinary (op : BinaryOp) (a b : Number) : Except Refusal Value :=
  match op with
  | .add => .ok (number (a.add b))
  | .sub => .ok (number (a.sub b))
  | .mul => .ok (number (a.mul b))
  | .div => (a.div? b).elim (.error .divisionByZero) (.ok ∘ number)
  | .pow => .ok (number (a.pow b))
  | .eq => .ok (ofBool (a.eq b))
  | .ne => .ok (ofBool (!a.eq b))
  | .lt => .ok (ofBool (a.lt b))
  | .gt => .ok (ofBool (b.lt a))
  | .le => .ok (ofBool (a.le b))
  | .ge => .ok (ofBool (b.le a))
  | .and => .ok (number (if a.isZero then a else b).truncate)
  | .or => .ok (number (if a.isZero then b else a).truncate)

def binary (op : BinaryOp) : Value → Value → Except Refusal Value
  | number a, number b => numberBinary op a b
  | text s, text t => if op = .add then .ok (text (s ++ t)) else .error .illegal
  | text s, number (.int n) =>
    if op = .mul then (repeatText? s n.toInt).elim (.error .illegal) (.ok ∘ text)
    else .error .illegal
  | _, _ => .error .illegal

def unary : UnaryOp → Value → Except Refusal Value
  | .plus, v => .ok v
  | .neg, v => binary .mul v (number (.int (-1)))
  | .not, number n => .ok (ofBool n.isZero)
  | .not, _ => .error .illegal

end Value

end ArrowScript
