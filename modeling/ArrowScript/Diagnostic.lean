import ArrowScript.Expr.Reading
import ArrowScript.Frame

/-!
Diagnostics: what went wrong, where, and in which frame; and the report that shows one to a reader,
with a traceback, the source line and carets under the span.
-/

namespace ArrowScript

inductive Failure where
  | illegalOperation
  | divisionByZero
  | undefined (x : String)
  | extraArguments (count : Nat) (function : String)
  | missingArguments (count : Nat) (function : String)
  | noValue
  deriving DecidableEq, Repr

inductive FailureKind where
  | illegalOperation | zeroDivision | undefined | arityMismatch | noValue
  deriving DecidableEq, Repr

namespace Failure

def kind : Failure → FailureKind
  | illegalOperation => .illegalOperation
  | divisionByZero => .zeroDivision
  | undefined _ => .undefined
  | extraArguments .. | missingArguments .. => .arityMismatch
  | noValue => .noValue

def message : Failure → String
  | illegalOperation => "Illegal operation"
  | divisionByZero => "Division By Zero"
  | undefined x => x ++ " is not defined"
  | extraArguments n f => toString n ++ " extra args passed to '" ++ f ++ "'"
  | missingArguments n f => toString n ++ " not enough args passed to '" ++ f ++ "'"
  | noValue => "expression has no value"

end Failure

inductive DiagnosticKind where
  | illegalCharacter
  | syntaxError
  | runtime (kind : FailureKind)
  deriving DecidableEq, Repr

namespace DiagnosticKind

def title : DiagnosticKind → String
  | illegalCharacter => "IllegalCharacter"
  | syntaxError => "SyntaxError"
  | runtime .zeroDivision => "ZeroDivisionError"
  | runtime _ => "RuntimeError"

def failure? : DiagnosticKind → Option FailureKind
  | runtime k => some k
  | _ => none

end DiagnosticKind

structure Diagnostic where
  kind : DiagnosticKind
  message : String
  span : Span
  /-- The frame that failed; there is none before evaluation begins. -/
  frame? : Option Frame

/-- The kind of report that a fault in the text leads to. -/
def LexFault.kind : LexFault → DiagnosticKind
  | illegal _ => .illegalCharacter
  | _ => .syntaxError

/-- The name of the source that the interactive shell reads. -/
def interactiveName : String := "<stdin>"

namespace Diagnostic

def ofLexError (e : LexError) : Diagnostic := ⟨e.cause.kind, e.cause.message, e.span, none⟩

def ofSyntaxFault (f : SyntaxFault) : Diagnostic :=
  ⟨.syntaxError, f.expected.message, f.span, none⟩

def ofFailure (f : Failure) (s : Span) (frame : Frame) : Diagnostic :=
  ⟨.runtime f.kind, f.message, s, some frame⟩

/-- The traceback, outermost frame first. What fails in the interactive shell before evaluation
is reported as part of the program. -/
def traceback (d : Diagnostic) : List TraceLine :=
  match d.frame? with
  | some f => f.traceback d.span.start
  | none =>
    if d.span.start.source.name = interactiveName then
      [.ofPosition d.span.start Frame.programLabel]
    else []

/-- The kind and, unless it is empty, the message. -/
def header (d : Diagnostic) : String :=
  if d.message = "" then d.kind.title else d.kind.title ++ ": " ++ d.message

end Diagnostic

namespace Span

/-- Where the underlined part of the first line of a span ends. There is always something to
underline, and a span that ends on a later line reaches to the end of its first. -/
def caretStop (s : Span) : Nat :=
  let stop := if s.stop.line = s.start.line then s.stop.column else s.start.sourceLine.length
  max stop (s.start.column + 1)

/-- Blanks up to the span and carets under it. -/
def carets (s : Span) : List Char :=
  List.replicate s.start.column ' ' ++ List.replicate (s.caretStop - s.start.column) '^'

end Span

def paint (color : Bool) (s : String) : String :=
  if color then "\x1b[1m\x1b[31m" ++ s ++ "\x1b[39m\x1b[0m" else s

def Diagnostic.report (color : Bool) (d : Diagnostic) : String :=
  "\n".intercalate <|
    "Traceback (most recent call last):" :: d.traceback.map TraceLine.render
      ++ [paint color d.header,
        "    " ++ String.ofList d.span.start.sourceLine,
        "    " ++ paint color (String.ofList d.span.carets)]

end ArrowScript
