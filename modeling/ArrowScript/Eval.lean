import ArrowScript.Value.Operation
import ArrowScript.Store
import ArrowScript.Event

/-!
Evaluation. Each construct is evaluated by an action on the machine, given an evaluator for its
parts; `eval` ties the knot with a bound on the depth of the evaluation. A value, the absence of a
value, a diagnostic and an exhausted bound are four different outcomes.
-/

namespace ArrowScript

structure Machine where
  store : Store
  functions : Nat
  /-- Events, the latest first. -/
  log : List Event

/-- Why a run stops before its end. -/
inductive Halt where
  | failed (d : Diagnostic)
  | exhausted

abbrev Action (α : Type) := EStateM Halt Machine α

/-- Evaluates an expression in a frame. Loops, and conditionals without a matching branch, have
no value. -/
abbrev Evaluator := SourceExpr → Frame → Action (Option Traced)

/-- Which tables keep their bindings when the call that made them ends. -/
inductive Retention where
  /-- Those that a returned function can still see. -/
  | escaping
  | all
  deriving DecidableEq, Repr

namespace Eval

def fail {α : Type} (f : Failure) (s : Span) (frame : Frame) : Action α :=
  throw (.failed (.ofFailure f s frame))

def note (e : Event) : Action Unit := modify fun m => { m with log := e :: m.log }

def define (t : TableId) (x : String) (v : Traced) : Action Unit :=
  modify fun m => { m with store := m.store.define t x v }

def openTable (t : TableId) : Action TableId :=
  modifyGet fun m => (m.store.next, { m with store := m.store.addWithin t })

def nextSerial : Action Nat :=
  modifyGet fun m => (m.functions, { m with functions := m.functions + 1 })

/-- The value of an expression that must have one. -/
def demand (ev : Evaluator) (e : SourceExpr) (frame : Frame) : Action Traced := do
  match ← ev e frame with
  | some v => return v
  | none => fail .noValue e.ann frame

def demandNumber (ev : Evaluator) (e : SourceExpr) (frame : Frame) : Action Number := do
  let v ← demand ev e frame
  match v.value.number? with
  | some n => return n
  | none => fail .illegalOperation e.ann frame

def demandAll (ev : Evaluator) (frame : Frame) : List SourceExpr → Action (List Traced)
  | [] => return []
  | e :: es => do
    let v ← demand ev e frame
    let vs ← demandAll ev frame es
    return v :: vs

def name (s : Span) (x : String) (frame : Frame) : Action (Option Traced) := do
  match (← get).store.lookup? frame.table x with
  | some v => return some (.stamp v.value s frame)
  | none => fail (.undefined x) s frame

/-- Division by zero is the fault of the right operand, any other refusal that of the whole. -/
def binary (ev : Evaluator) (s : Span) (op : BinaryOp) (l r : SourceExpr) (frame : Frame) :
    Action (Option Traced) := do
  let a ← demand ev l frame
  let b ← demand ev r frame
  match Value.binary op a.value b.value with
  | .ok v => return some (.stamp v s frame)
  | .error .divisionByZero => fail .divisionByZero r.ann frame
  | .error .illegal => fail .illegalOperation s frame

def unary (ev : Evaluator) (s : Span) (op : UnaryOp) (e : SourceExpr) (frame : Frame) :
    Action (Option Traced) := do
  let a ← demand ev e frame
  match Value.unary op a.value with
  | .ok v => return some (.stamp v s frame)
  | .error _ => fail .illegalOperation s frame

def assign (ev : Evaluator) (x : String) (e : SourceExpr) (frame : Frame) :
    Action (Option Traced) := do
  let v ← demand ev e frame
  define frame.table x v
  return some v

/-- The first arm whose test is true, or else the last part. -/
def arms (ev : Evaluator) (otherwise : Option SourceExpr) (frame : Frame) :
    List (SourceExpr × SourceExpr) → Action (Option Traced)
  | [] =>
    match otherwise with
    | some e => ev e frame
    | none => return none
  | (test, body) :: rest => do
    let v ← demand ev test frame
    if v.value.isTrue then ev body frame else arms ev otherwise frame rest

/-- Whether a loop with this step and bound goes on at `index`: upwards below the bound, and
otherwise above it. -/
def inRange (step bound index : Number) : Bool :=
  if Number.le (.int 0) step then index.lt bound else bound.lt index

/-- Runs the body of a loop for `index` and what follows it; the result counts the rounds. -/
def forRounds (ev : Evaluator) (s : Span) (x : String) (step bound : Number) (body : SourceExpr)
    (frame : Frame) : Nat → Number → Nat → Action Nat
  | 0, _, _ => throw .exhausted
  | fuel + 1, index, rounds => do
    if inRange step bound index then
      define frame.table x (.stamp (.number index) s frame)
      let _ ← ev body frame
      forRounds ev s x step bound body frame fuel (index.add step) (rounds + 1)
    else return rounds

/-- The step of a loop, which is one unless it is given. -/
def stepOf (ev : Evaluator) (frame : Frame) : Option SourceExpr → Action Number
  | some e => demandNumber ev e frame
  | none => return .int 1

def forRange (fuel : Nat) (ev : Evaluator) (s : Span) (x : String) (first bound : SourceExpr)
    (step : Option SourceExpr) (body : SourceExpr) (frame : Frame) :
    Action (Option Traced) := do
  let i ← demandNumber ev first frame
  let n ← demandNumber ev bound frame
  let d ← stepOf ev frame step
  let rounds ← forRounds ev s x d n body frame fuel i 0
  note (.forLoop x rounds)
  return none

def whileRounds (ev : Evaluator) (test body : SourceExpr) (frame : Frame) :
    Nat → Nat → Action Nat
  | 0, _ => throw .exhausted
  | fuel + 1, rounds => do
    let v ← demand ev test frame
    if v.value.isTrue then
      let _ ← ev body frame
      whileRounds ev test body frame fuel (rounds + 1)
    else return rounds

def whileLoop (fuel : Nat) (ev : Evaluator) (test body : SourceExpr) (frame : Frame) :
    Action (Option Traced) := do
  let rounds ← whileRounds ev test body frame fuel 0
  note (.whileLoop rounds)
  return none

def defineIf (t : TableId) (v : Traced) : Option String → Action Unit
  | some x => define t x v
  | none => pure ()

/-- A function of the table it is made in; a name of its own is bound there. -/
def function (s : Span) (name? : Option String) (params : List String) (body : SourceExpr)
    (frame : Frame) : Action (Option Traced) := do
  let serial ← nextSerial
  let f : Function := ⟨serial, name?.getD Function.anonymous, params, body, frame.table⟩
  let v := Traced.stamp (.function f) s frame
  defineIf frame.table v name?
  return some v

def bindAll (frame : Frame) : List String → List Traced → Action Unit
  | p :: ps, v :: vs => do
    define frame.table p (v.moveTo frame)
    bindAll frame ps vs
  | _, _ => pure ()

/-- Whether a result is a function that can see the table `t`. -/
def escapes (store : Store) (t : TableId) : Option Traced → Bool
  | some v =>
    match v.value.function? with
    | some f => store.isWithin f.table t
    | none => false
  | none => false

/-- What remains of the table of a call that ends with `result`. -/
def release (keep : Retention) (label : String) (t : TableId) (result : Option Traced)
    (m : Machine) : Machine :=
  match keep with
  | .all => m
  | .escaping =>
    if escapes m.store t result then { m with log := .keeping label :: m.log }
    else { m with store := m.store.clear t }

/-- Evaluates the body of a call in its own frame, and releases the table of that frame. -/
def inFrame (keep : Retention) (ev : Evaluator) (body : SourceExpr) (frame : Frame) :
    Action (Option Traced) := fun m =>
  match ev body frame m with
  | .ok v m' => .ok v (release keep frame.label frame.table v m')
  | .error h m' => .error h (release keep frame.label frame.table none m')

/-- Calls a function with as many arguments as it has parameters. Its names are those of the table
it was made in; its frame is that of the caller. -/
def enter (keep : Retention) (ev : Evaluator) (s : Span) (f : Function) (args : List Traced)
    (caller : Frame) : Action (Option Traced) := do
  let t ← openTable f.table
  let frame := Frame.call f.name s.start caller t
  note (.calling f.name frame.depth)
  bindAll frame f.params args
  inFrame keep ev f.body frame

def apply (keep : Retention) (ev : Evaluator) (s : Span) (callee : Value) (args : List Traced)
    (caller : Frame) : Action (Option Traced) :=
  match callee.function? with
  | none => fail .illegalOperation s caller
  | some f =>
    if f.params.length < args.length then
      fail (.extraArguments (args.length - f.params.length) f.name) s caller
    else if args.length < f.params.length then
      fail (.missingArguments (f.params.length - args.length) f.name) s caller
    else enter keep ev s f args caller

def call (keep : Retention) (ev : Evaluator) (s : Span) (callee : SourceExpr)
    (args : List SourceExpr) (frame : Frame) : Action (Option Traced) := do
  let f ← demand ev callee frame
  let vs ← demandAll ev frame args
  apply keep ev s f.value vs frame

/-- Evaluates one node, its parts by `ev`; `fuel` bounds the rounds of its loops. -/
def node (keep : Retention) (fuel : Nat) (ev : Evaluator) : Evaluator
  | .number s n, frame => return some (.stamp (.number n) s frame)
  | .text s t, frame => return some (.stamp (.text t) s frame)
  | .name s x, frame => name s x frame
  | .binary s op l r, frame => binary ev s op l r frame
  | .unary s op e, frame => unary ev s op e frame
  | .assign _ x e, frame => assign ev x e frame
  | .cond _ test body elifs otherwise, frame => arms ev otherwise frame ((test, body) :: elifs)
  | .forRange s x first bound step body, frame =>
    forRange fuel ev s x first bound step body frame
  | .whileLoop _ test body, frame => whileLoop fuel ev test body frame
  | .function s name? params body, frame => function s name? params body frame
  | .call s callee args, frame => call keep ev s callee args frame

end Eval

def eval (keep : Retention) : Nat → Evaluator
  | 0 => fun _ _ => throw .exhausted
  | fuel + 1 => Eval.node keep fuel (eval keep fuel)

end ArrowScript
