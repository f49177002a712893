/-!
The log of a run: what happened, in order, as data.
-/

namespace ArrowScript

inductive LogLevel where
  | debug | trace
  deriving DecidableEq, Repr

def LogLevel.label : LogLevel → String
  | debug => "debug"
  | trace => "trace"

inductive Event where
  | lexingFailed (source message : String)
  | lexed (count : Nat) (source : String)
  | parsed (outline : String)
  | evaluated (text : String)
  | evaluatedToNothing
  | forLoop (x : String) (iterations : Nat)
  | whileLoop (iterations : Nat)
  | calling (function : String) (depth : Nat)
  | keeping (function : String)
  deriving DecidableEq, Repr

namespace Event

def level : Event → LogLevel
  | forLoop .. | whileLoop _ | calling .. | keeping _ => .trace
  | _ => .debug

def message : Event → String
  | lexingFailed source message => "lexing " ++ source ++ " failed: " ++ message
  | lexed count source => "lexed " ++ toString count ++ " tokens from " ++ source
  | parsed outline => "parsed " ++ outline
  | evaluated text => "evaluated to " ++ text
  | evaluatedToNothing => "evaluated to no value"
  | forLoop x n => "for loop over '" ++ x ++ "' ran " ++ toString n ++ " iterations"
  | whileLoop n => "while loop ran " ++ toString n ++ " iterations"
  | calling f depth => "calling '" ++ f ++ "' at depth " ++ toString depth
  | keeping f => "keeping scope of '" ++ f ++ "' alive for a returned closure"

end Event

end ArrowScript
