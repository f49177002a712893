import ArrowScript.Diagnostic

/-!
Values: numbers, strings and functions. A value at run time also carries its origin, the span and
frame of the expression that produced it; operations look at the value alone.
-/

namespace ArrowScript

/-- A function, which keeps the table of names that it was defined in. -/
structure Function where
  /-- Tells functions apart that are made by the same definition. -/
  serial : Nat
  name : String
  params : List String
  body : SourceExpr
  table : TableId

namespace Function

/-- The name of a function that has none of its own. -/
def anonymous : String := "<anonymous>"

def summary (f : Function) : String :=
  "Function \x7b name: " ++ Text.quote f.name ++ ", params: " ++ Text.quoteList f.params
    ++ ", .. \x7d"

end Function

inductive Value where
  | number (n : Number)
  | text (s : String)
  | function (f : Function)

namespace Value

/-- The truth values of comparisons. -/
def ofBool (b : Bool) : Value := number (.int (if b then 1 else 0))

/-- Truth: a number other than zero, or a string that is not empty. Functions are not true. -/
def isTrue : Value → Bool
  | number n => !n.isZero
  | text s => s != ""
  | function _ => false

def number? : Value → Option Number
  | number n => some n
  | _ => none

def text? : Value → Option String
  | text s => some s
  | _ => none

def function? : Value → Option Function
  | function f => some f
  | _ => none

/-- Numbers and strings are the same by what they are, functions by which one they are. -/
def same : Value → Value → Bool
  | number m, number n => m.eq n
  | text s, text t => s == t
  | function f, function g => f.serial == g.serial
  | _, _ => false

def toText : Value → String
  | number n => n.toText
  | text s => "\"" ++ s ++ "\""
  | function f => "<function " ++ f.name ++ ">"

end Value

structure Origin where
  span : Span
  frame : Frame

/-- A value with its origin, which only predefined values lack. -/
structure Traced where
  value : Value
  origin? : Option Origin

namespace Traced

/-- The value as produced by the expression at `s` in `frame`. -/
def stamp (v : Value) (s : Span) (frame : Frame) : Traced := ⟨v, some ⟨s, frame⟩⟩

def plain (v : Value) : Traced := ⟨v, none⟩

/-- The same value and span, carried over into another frame. -/
def moveTo (frame : Frame) (v : Traced) : Traced :=
  { v with origin? := v.origin?.map fun o => { o with frame } }

end Traced

end ArrowScript
