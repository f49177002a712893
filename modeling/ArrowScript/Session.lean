import ArrowScript.Eval
import ArrowScript.Expr.Outline

/-!
Sessions: programs run one after the other over the same globals. A program that fails leaves
behind what it had defined before.
-/

namespace ArrowScript

inductive Outcome where
  | value (v : Traced)
  /-- The program ran to its end and has no value. -/
  | nothing
  | failed (d : Diagnostic)
  /-- The bound on the depth of evaluation was reached. -/
  | exhausted

/-- What is kept from one program to the next. -/
structure Session where
  store : Store
  functions : Nat

/-- The outcome of a program, the events of its run in order, and the session after it. -/
structure Run where
  outcome : Outcome
  log : List Event
  session : Session

namespace Session

def start : Session := ⟨Store.empty.addGlobals, 0⟩

/-- The frame of programs, over the first table of the store. -/
def frame : Frame := .program 0

/-- The names that programs have defined, with the predefined ones. -/
def globals (s : Session) : Bindings := s.store.bindings frame.table

def rejected (s : Session) (d : Diagnostic) (log : List Event) : Run := ⟨.failed d, log, s⟩

def evaluate (keep : Retention) (fuel : Nat) (s : Session) (e : SourceExpr) (log : List Event) :
    Run :=
  match eval keep fuel e frame ⟨s.store, s.functions, []⟩ with
  | .ok (some v) m =>
    ⟨.value v, log ++ m.log.reverse ++ [.evaluated v.value.toText], ⟨m.store, m.functions⟩⟩
  | .ok none m =>
    ⟨.nothing, log ++ m.log.reverse ++ [.evaluatedToNothing], ⟨m.store, m.functions⟩⟩
  | .error (.failed d) m => ⟨.failed d, log ++ m.log.reverse, ⟨m.store, m.functions⟩⟩
  | .error .exhausted m => ⟨.exhausted, log ++ m.log.reverse, ⟨m.store, m.functions⟩⟩

/-- Reads and evaluates a program, with a bound on the depth of evaluation. -/
def runWith (keep : Retention) (fuel : Nat) (s : Session) (source : Source) : Run :=
  let stream := TokenStream.ofSource source
  match stream.error? with
  | some e => s.rejected (.ofLexError e) [.lexingFailed source.name e.cause.message]
  | none =>
    let lexed := Event.lexed stream.tokens.length source.name
    match (Reading.ofTokens stream.tokens).outcome with
    | .error f => s.rejected (.ofSyntaxFault f) [lexed]
    | .ok e => s.evaluate keep fuel e [lexed, .parsed e.outline]

/-- A bound that no run reaches in practice. -/
def fuel : Nat := Nat.pow 2 62

def run (s : Session) (source : Source) : Run := s.runWith .escaping fuel source

def runAll (s : Session) : List Source → List Run
  | [] => []
  | source :: rest =>
    let r := s.run source
    r :: runAll r.session rest

end Session

end ArrowScript
