import ArrowScript.Token.Basic

/-!
The operators of expressions. `level` says how tightly an operator binds; operators of one level
group to the left, except powers.
-/

namespace ArrowScript

inductive BinaryOp where
  | add | sub | mul | div | pow
  | eq | ne | lt | gt | le | ge
  | and | or
  deriving DecidableEq, Repr

namespace BinaryOp

def symbol : BinaryOp → String
  | add => "+"
  | sub => "-"
  | mul => "*"
  | div => "/"
  | pow => "^"
  | eq => "=="
  | ne => "!="
  | lt => "<"
  | gt => ">"
  | le => "<="
  | ge => ">="
  | and => "and"
  | or => "or"

def level : BinaryOp → Nat
  | and | or => 1
  | eq | ne | lt | gt | le | ge => 2
  | add | sub => 3
  | mul | div => 4
  | pow => 5

def all : List BinaryOp := [add, sub, mul, div, pow, eq, ne, lt, gt, le, ge, and, or]

end BinaryOp

inductive UnaryOp where
  | plus | neg | not
  deriving DecidableEq, Repr

namespace UnaryOp

def symbol : UnaryOp → String
  | plus => "+"
  | neg => "-"
  | not => "not"

/-- Signs bind as tightly as powers, negation as loosely as a conjunction. -/
def level : UnaryOp → Nat
  | plus | neg => 5
  | not => 1

end UnaryOp

/-- The binary operator that a token stands for between two operands. -/
def TokenKind.binaryOp? : TokenKind → Option BinaryOp
  | keyword .and => some .and
  | keyword .or => some .or
  | symbol .plus => some .add
  | symbol .minus => some .sub
  | symbol .star => some .mul
  | symbol .slash => some .div
  | symbol .caret => some .pow
  | symbol .equal => some .eq
  | symbol .notEqual => some .ne
  | symbol .less => some .lt
  | symbol .greater => some .gt
  | symbol .lessEqual => some .le
  | symbol .greaterEqual => some .ge
  | _ => none

end ArrowScript
