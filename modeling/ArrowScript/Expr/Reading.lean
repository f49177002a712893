import ArrowScript.Expr.Pending
import ArrowScript.Token.Stream

/-!
Reading a list of tokens as one expression. The input ends at the first token for its end, or
behind the last token if there is none.
-/

namespace ArrowScript

structure SyntaxFault where
  expected : Expectation
  span : Span

/-- The tree or the fault, and the number of tokens that were taken in before. -/
structure Reading where
  outcome : Except SyntaxFault SourceExpr
  consumed : Nat

namespace Reading

/-- The outcome when the input ends at `stop`. -/
def atEnd (s : ReadState) (consumed : Nat) (stop : Span) : Reading :=
  match s.finish with
  | .ok e => ⟨.ok e, consumed⟩
  | .error x => ⟨.error ⟨x, x.spanAt stop⟩, consumed⟩

/-- Goes on from the state `s`, which has taken in `consumed` tokens and stands at `stop`. -/
def resume (s : ReadState) (consumed : Nat) (stop : Span) : List Token → Reading
  | [] => atEnd s consumed stop
  | t :: rest =>
    if t.kind.isStop then atEnd s consumed t.span
    else
      match s.feed t with
      | .ok s' => resume s' (consumed + 1) t.span.behind rest
      | .error x => ⟨.error ⟨x, x.spanAt t.span⟩, consumed⟩

/-- Reads tokens from the beginning. Without any, the fault lies in an empty source. -/
def ofTokens (ts : List Token) : Reading :=
  resume .start 0 (.empty (.start ⟨"", ""⟩)) ts

end Reading

end ArrowScript
