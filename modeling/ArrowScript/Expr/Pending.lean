import ArrowScript.Expr.Basic

/-!
Programs that have been read in part. What has been read is a stack of open constructs, the
innermost first, and a focus that says what may come next. One token at a time, the state takes
the token in or refuses it, and it refuses only where no program goes on with that token.
-/

namespace ArrowScript

/-- What would have been accepted in place of a token. -/
inductive Expectation where
  | atom | comparison | expression | argument | endOfInput
  | identifier | equalsSign | arrow | opening | closing
  | identifierOrOpening | identifierOrClosing | commaOrClosing
  | word (k : Keyword)
  deriving DecidableEq, Repr

namespace Expectation

def message : Expectation → String
  | atom => "Expected int, float, identifier, '+', '-', '('"
  | comparison => "Expected int, float, identifier, '+', '-', '(' or 'not'"
  | expression => "Expected 'set', int, float, '+', '-', '(' or identifier"
  | argument => "Expected ')', 'set', 'if', 'for', 'while', 'fn', int, float, identifier, "
      ++ "'+', '-', '(' or 'not'"
  | endOfInput => "Expected float, int, identifier, 'set', '+', '-' or '('"
  | identifier => "Expected identifier"
  | equalsSign => "Expected '='"
  | arrow => "Expected '->'"
  | opening => "Expected '('"
  | closing => "Expected ')'"
  | identifierOrOpening => "Expected identifier or '('"
  | identifierOrClosing => "Expected identifier or ')'"
  | commaOrClosing => "Expected ',' or ')'"
  | word k => "Expected '" ++ k.spelling ++ "'"

/-- The span to report when a token with span `s` stands where this was expected. -/
def spanAt (s : Span) : Expectation → Span
  | atom | endOfInput => s.toLineEnd
  | expression => s.behind
  | _ => s

end Expectation

/-- Where an operand is wanted, and how much of the grammar is open to it there. -/
inductive Slot where
  | expression
  /-- The first argument of a call. -/
  | argument
  /-- After `and`, `or` and `not`: no definition. -/
  | comparison
  /-- After a sign, an arithmetic or a comparison operator: no definition and no `not`. -/
  | operand
  deriving DecidableEq, Repr

def Slot.expects : Slot → Expectation
  | expression => .expression
  | argument => .argument
  | comparison => .comparison
  | operand => .atom

/-- An open construct that waits for one of its parts. `start` is where it begins. -/
inductive Pending where
  | operator (left : SourceExpr) (op : BinaryOp)
  | unary (op : UnaryOp) (start : Position)
  | group
  | assign (start : Position) (x : String)
  | argument (callee : SourceExpr) (given : List SourceExpr)
  | armTest (start : Position) (arms : List (SourceExpr × SourceExpr))
  | armBody (start : Position) (arms : List (SourceExpr × SourceExpr)) (test : SourceExpr)
  | otherwise (start : Position) (test body : SourceExpr) (elifs : List (SourceExpr × SourceExpr))
  | forFirst (start : Position) (x : String)
  | forBound (start : Position) (x : String) (first : SourceExpr)
  | forStep (start : Position) (x : String) (first bound : SourceExpr)
  | forBody (start : Position) (x : String) (first bound : SourceExpr) (step : Option SourceExpr)
  | whileTest (start : Position)
  | whileBody (start : Position) (test : SourceExpr)
  | functionBody (start : Position) (name : Option String) (params : List String)

/-- A place in the fixed part of a construct, where no operand may stand. -/
inductive Header where
  | assignName (start : Position)
  | assignSign (start : Position) (x : String)
  | forName (start : Position)
  | forFrom (start : Position) (x : String)
  | functionName (start : Position)
  | functionOpening (start : Position) (name : String)
  | firstParam (start : Position) (name : Option String)
  | nextParam (start : Position) (name : Option String) (params : List String)
  | afterParam (start : Position) (name : Option String) (params : List String)
  | functionArrow (start : Position) (name : Option String) (params : List String)

inductive Focus where
  | want (slot : Slot)
  /-- Behind the parenthesis that opens the arguments of a call. -/
  | arguments (callee : SourceExpr)
  | header (h : Header)
  /-- Behind an operand, which can still be called when `callable`. -/
  | operand (e : SourceExpr) (callable : Bool)

structure ReadState where
  focus : Focus
  stack : List Pending

namespace Pending

/-- The first of `arms` followed by `last`, and the ones behind it. -/
def splitArms (arms : List (SourceExpr × SourceExpr)) (last : SourceExpr × SourceExpr) :
    (SourceExpr × SourceExpr) × List (SourceExpr × SourceExpr) :=
  match arms with
  | [] => (last, [])
  | first :: rest => (first, rest ++ [last])

/-- The construct with `e` as its last part, and whether the result can be called; none when more
parts have to follow. -/
def finish? (e : SourceExpr) : Pending → Option (SourceExpr × Bool)
  | operator left op => some (.binary (left.ann.through e.ann) op left e, false)
  | unary op start => some (.unary ⟨start, e.ann.stop⟩ op e, false)
  | assign start x => some (.assign ⟨start, e.ann.stop⟩ x e, false)
  | armBody start arms test =>
    let (first, elifs) := splitArms arms (test, e)
    some (.cond ⟨start, e.ann.stop⟩ first.1 first.2 elifs none, true)
  | otherwise start test body elifs =>
    some (.cond ⟨start, e.ann.stop⟩ test body elifs (some e), true)
  | forBody start x first bound step =>
    some (.forRange ⟨start, e.ann.stop⟩ x first bound step e, true)
  | whileBody start test => some (.whileLoop ⟨start, e.ann.stop⟩ test e, true)
  | functionBody start name params => some (.function ⟨start, e.ann.stop⟩ name params e, true)
  | _ => none

/-- What has to follow the part that the construct waits for. -/
def expects : Pending → Expectation
  | group => .closing
  | argument .. => .commaOrClosing
  | armTest .. => .word .do_
  | forFirst .. => .word .to_
  | forBound .. => .word .then_
  | forStep .. => .word .then_
  | whileTest .. => .word .then_
  | _ => .endOfInput

/-- The state after the construct, with `e` as the part that it waited for, goes on with the token
`t`; none when it does not go on with it. -/
def continue? (e : SourceExpr) (t : Token) (stack : List Pending) : Pending → Option ReadState
  | group =>
    match t.kind with
    | .symbol .closing => some ⟨.operand e true, stack⟩
    | _ => none
  | argument callee given =>
    match t.kind with
    | .symbol .comma => some ⟨.want .expression, argument callee (given ++ [e]) :: stack⟩
    | .symbol .closing =>
      some ⟨.operand (.call (callee.ann.through t.span) callee (given ++ [e])) false, stack⟩
    | _ => none
  | armTest start arms =>
    match t.kind with
    | .keyword .do_ => some ⟨.want .expression, armBody start arms e :: stack⟩
    | _ => none
  | armBody start arms test =>
    match t.kind with
    | .keyword .elif => some ⟨.want .expression, armTest start (arms ++ [(test, e)]) :: stack⟩
    | .keyword .else_ =>
      let (first, elifs) := splitArms arms (test, e)
      some ⟨.want .expression, otherwise start first.1 first.2 elifs :: stack⟩
    | _ => none
  | forFirst start x =>
    match t.kind with
    | .keyword .to_ => some ⟨.want .expression, forBound start x e :: stack⟩
    | _ => none
  | forBound start x first =>
    match t.kind with
    | .keyword .by_ => some ⟨.want .expression, forStep start x first e :: stack⟩
    | .keyword .then_ => some ⟨.want .expression, forBody start x first e none :: stack⟩
    | _ => none
  | forStep start x first bound =>
    match t.kind with
    | .keyword .then_ => some ⟨.want .expression, forBody start x first bound (some e) :: stack⟩
    | _ => none
  | whileTest start =>
    match t.kind with
    | .keyword .then_ => some ⟨.want .expression, whileBody start e :: stack⟩
    | _ => none
  | _ => none

end Pending

namespace Header

def expects : Header → Expectation
  | assignName _ | forName _ | nextParam .. => .identifier
  | assignSign .. => .equalsSign
  | forFrom .. => .word .from_
  | functionName _ => .identifierOrOpening
  | functionOpening .. => .opening
  | firstParam .. => .identifierOrClosing
  | afterParam .. => .commaOrClosing
  | functionArrow .. => .arrow

/-- The state after the fixed part goes on with a token of kind `k`. -/
def continue? (k : TokenKind) (stack : List Pending) : Header → Option ReadState
  | assignName start =>
    match k with
    | .name x => some ⟨.header (assignSign start x), stack⟩
    | _ => none
  | assignSign start x =>
    match k with
    | .symbol .assign => some ⟨.want .expression, .assign start x :: stack⟩
    | _ => none
  | forName start =>
    match k with
    | .name x => some ⟨.header (forFrom start x), stack⟩
    | _ => none
  | forFrom start x =>
    match k with
    | .keyword .from_ => some ⟨.want .expression, .forFirst start x :: stack⟩
    | _ => none
  | functionName start =>
    match k with
    | .name x => some ⟨.header (functionOpening start x), stack⟩
    | .symbol .opening => some ⟨.header (firstParam start none), stack⟩
    | _ => none
  | functionOpening start name =>
    match k with
    | .symbol .opening => some ⟨.header (firstParam start (some name)), stack⟩
    | _ => none
  | firstParam start name =>
    match k with
    | .name p => some ⟨.header (afterParam start name [p]), stack⟩
    | .symbol .closing => some ⟨.header (functionArrow start name []), stack⟩
    | _ => none
  | nextParam start name params =>
    match k with
    | .name p => some ⟨.header (afterParam start name (params ++ [p])), stack⟩
    | _ => none
  | afterParam start name params =>
    match k with
    | .symbol .comma => some ⟨.header (nextParam start name params), stack⟩
    | .symbol .closing => some ⟨.header (functionArrow start name params), stack⟩
    | _ => none
  | functionArrow start name params =>
    match k with
    | .symbol .arrow => some ⟨.want .expression, .functionBody start name params :: stack⟩
    | _ => none

end Header

namespace ReadState

def start : ReadState := ⟨.want .expression, []⟩

/-- The state after a token that begins an operand in a slot. -/
def begin? (slot : Slot) (t : Token) (stack : List Pending) : Option ReadState :=
  let s := t.span
  match t.kind with
  | .number n => some ⟨.operand (.number s n) true, stack⟩
  | .text x => some ⟨.operand (.text s x) true, stack⟩
  | .name x => some ⟨.operand (.name s x) true, stack⟩
  | .symbol .plus => some ⟨.want .operand, .unary .plus s.start :: stack⟩
  | .symbol .minus => some ⟨.want .operand, .unary .neg s.start :: stack⟩
  | .symbol .opening => some ⟨.want .expression, .group :: stack⟩
  | .keyword .not =>
    if slot = .operand then none else some ⟨.want .comparison, .unary .not s.start :: stack⟩
  | .keyword .set =>
    if slot = .expression ∨ slot = .argument then some ⟨.header (.assignName s.start), stack⟩
    else none
  | .keyword .if_ => some ⟨.want .expression, .armTest s.start [] :: stack⟩
  | .keyword .for_ => some ⟨.header (.forName s.start), stack⟩
  | .keyword .while_ => some ⟨.want .expression, .whileTest s.start :: stack⟩
  | .keyword .fn => some ⟨.header (.functionName s.start), stack⟩
  | _ => none

/-- Closes the operators on top of the stack that bind `e` at least as tightly as `op` does. -/
def collapse (op : BinaryOp) (e : SourceExpr) : List Pending → SourceExpr × List Pending
  | .operator left op' :: stack =>
    if op ≠ .pow ∧ op.level ≤ op'.level then
      collapse op (.binary (left.ann.through e.ann) op' left e) stack
    else (e, .operator left op' :: stack)
  | .unary op' start :: stack =>
    if op ≠ .pow ∧ op.level ≤ op'.level then
      collapse op (.unary ⟨start, e.ann.stop⟩ op' e) stack
    else (e, .unary op' start :: stack)
  | stack => (e, stack)

def slotAfter (op : BinaryOp) : Slot := if op.level = 1 then .comparison else .operand

/-- Finishes constructs, the innermost first, until one goes on with the token `t`. -/
def close (t : Token) (e : SourceExpr) : List Pending → Except Expectation ReadState
  | [] => .error .endOfInput
  | p :: stack =>
    match p.continue? e t stack with
    | some s => .ok s
    | none =>
      match p.finish? e with
      | none => .error p.expects
      | some (e', callable) =>
        match callable, t.kind with
        | true, .symbol .opening => .ok ⟨.arguments e', stack⟩
        | _, _ => close t e' stack

/-- Finishes all open constructs at the end of the input. -/
def settle (e : SourceExpr) : List Pending → Except Expectation SourceExpr
  | [] => .ok e
  | p :: stack =>
    match p.finish? e with
    | none => .error p.expects
    | some (e', _) => settle e' stack

def feed (s : ReadState) (t : Token) : Except Expectation ReadState :=
  match s.focus with
  | .want slot => (begin? slot t s.stack).elim (.error slot.expects) .ok
  | .arguments callee =>
    match t.kind with
    | .symbol .closing =>
      .ok ⟨.operand (.call (callee.ann.through t.span) callee []) false, s.stack⟩
    | _ => (begin? .argument t (.argument callee [] :: s.stack)).elim (.error .argument) .ok
  | .header h => (h.continue? t.kind s.stack).elim (.error h.expects) .ok
  | .operand e callable =>
    match t.kind.binaryOp? with
    | some op =>
      let (e', stack) := collapse op e s.stack
      .ok ⟨.want (slotAfter op), .operator e' op :: stack⟩
    | none =>
      match callable, t.kind with
      | true, .symbol .opening => .ok ⟨.arguments e, s.stack⟩
      | _, _ => close t e s.stack

/-- The tree that has been read, when the input ends here. -/
def finish (s : ReadState) : Except Expectation SourceExpr :=
  match s.focus with
  | .want slot => .error slot.expects
  | .arguments _ => .error .argument
  | .header h => .error h.expects
  | .operand e _ => settle e s.stack

end ReadState

end ArrowScript
