import Mathlib
import ArrowScript.Expr.Basic

/-! The grammar of expressions, over kinds of tokens. It says which trees a list of tokens may be
read as, and it is ambiguous: an `else` may belong to any conditional that is open where it stands,
an operator behind the body of a function to the body or to the function, and `a ^ b ^ c` may be
folded either way. -/

namespace ArrowScript

inductive Phrase where
  | expr | logic | comparison | relation | arithmetic | term | factor | power | call | base
  deriving DecidableEq, Repr

namespace Phrase

def alone? : Phrase → Option Phrase
  | expr => some logic
  | logic => some comparison
  | comparison => some relation
  | relation => some arithmetic
  | arithmetic => some term
  | term => some factor
  | factor => some power
  | power => some call
  | call => some base
  | base => none

def rank : Phrase → Nat
  | expr => 9
  | logic => 8
  | comparison => 7
  | relation => 6
  | arithmetic => 5
  | term => 4
  | factor => 3
  | power => 2
  | call => 1
  | base => 0

instance : Preorder Phrase := Preorder.lift rank

instance (p q : Phrase) : Decidable (p ≤ q) := inferInstanceAs (Decidable (p.rank ≤ q.rank))

theorem le_expr (p : Phrase) : p ≤ expr := by
  cases p <;> decide

theorem rank_eq_of_alone? {p q : Phrase} (h : p.alone? = some q) : p.rank = q.rank + 1 := by
  cases p <;> cases h <;> rfl

theorem eq_of_rank_eq {p q : Phrase} (h : p.rank = q.rank) : p = q := by
  revert h
  cases p <;> cases q <;> decide

end Phrase

def BinaryOp.token : BinaryOp → TokenKind
  | add => .symbol .plus
  | sub => .symbol .minus
  | mul => .symbol .star
  | div => .symbol .slash
  | pow => .symbol .caret
  | eq => .symbol .equal
  | ne => .symbol .notEqual
  | lt => .symbol .less
  | gt => .symbol .greater
  | le => .symbol .lessEqual
  | ge => .symbol .greaterEqual
  | and => .keyword .and
  | or => .keyword .or

/-- The phrase that a chain of the operator is. It is also what stands before the last operator of
the chain. -/
def BinaryOp.chain : BinaryOp → Phrase
  | and | or => .logic
  | eq | ne | lt | gt | le | ge => .relation
  | add | sub => .arithmetic
  | mul | div => .term
  | pow => .power

def BinaryOp.operand : BinaryOp → Phrase
  | and | or => .comparison
  | eq | ne | lt | gt | le | ge => .arithmetic
  | add | sub => .term
  | mul | div => .factor
  | pow => .factor

def UnaryOp.token : UnaryOp → TokenKind
  | plus => .symbol .plus
  | neg => .symbol .minus
  | not => .keyword .not

def UnaryOp.phrase : UnaryOp → Phrase
  | plus | neg => .factor
  | not => .comparison

abbrev Fragment := List TokenKind × Expr Unit

namespace Fragment

def separated : List (List TokenKind) → List TokenKind
  | [] => []
  | ts :: rest => ts ++ rest.flatMap fun us => .symbol .comma :: us

def arm (a : Fragment × Fragment) : List TokenKind := a.1.1 ++ .keyword .do_ :: a.2.1

def arms : List (Fragment × Fragment) → List TokenKind
  | [] => []
  | a :: rest => .keyword .if_ :: arm a ++ rest.flatMap fun b => .keyword .elif :: arm b

def introduced (k : Keyword) : Option Fragment → List TokenKind
  | none => []
  | some p => .keyword k :: p.1

end Fragment

open Fragment in
/-- `p.Derives ts e`: the phrase `p` derives the tokens `ts`, read as the tree `e`. -/
inductive Phrase.Derives : Phrase → List TokenKind → Expr Unit → Prop
  | alone {p q ts e} (h : p.alone? = some q) (d : Derives q ts e) : Derives p ts e
  | assign {x ts e} (d : Derives .expr ts e) :
      Derives .expr (.keyword .set :: .name x :: .symbol .assign :: ts) (.assign () x e)
  | binary {op ts us l r} (dl : Derives op.chain ts l) (dr : Derives op.operand us r) :
      Derives op.chain (ts ++ op.token :: us) (.binary () op l r)
  | unary {op ts e} (d : Derives op.phrase ts e) :
      Derives op.phrase (op.token :: ts) (.unary () op e)
  | call {ts c} {args : List Fragment} (dc : Derives .base ts c)
      (da : ∀ a ∈ args, Derives .expr a.1 a.2) :
      Derives .call (ts ++ .symbol .opening :: separated (args.map Prod.fst) ++ [.symbol .closing])
        (.call () c (args.map Prod.snd))
  | number {n} : Derives .base [.number n] (.number () n)
  | text {s} : Derives .base [.text s] (.text () s)
  | name {x} : Derives .base [.name x] (.name () x)
  | group {ts e} (d : Derives .expr ts e) :
      Derives .base (.symbol .opening :: ts ++ [.symbol .closing]) e
  | cond {first : Fragment × Fragment} {elifs : List (Fragment × Fragment)}
      {other : Option Fragment}
      (dt : ∀ a ∈ first :: elifs, Derives .expr a.1.1 a.1.2)
      (db : ∀ a ∈ first :: elifs, Derives .expr a.2.1 a.2.2)
      (de : ∀ p ∈ other, Derives .expr p.1 p.2) :
      Derives .base (arms (first :: elifs) ++ introduced .else_ other)
        (.cond () first.1.2 first.2.2 (elifs.map fun a => (a.1.2, a.2.2)) (other.map Prod.snd))
  | forRange {x ts i us j b e} {step : Option Fragment} (di : Derives .expr ts i)
      (dj : Derives .expr us j) (ds : ∀ p ∈ step, Derives .expr p.1 p.2) (de : Derives .expr b e) :
      Derives .base (.keyword .for_ :: .name x :: .keyword .from_ :: ts ++ .keyword .to_ :: us
        ++ introduced .by_ step ++ .keyword .then_ :: b) (.forRange () x i j (step.map Prod.snd) e)
  | whileLoop {ts t b e} (dt : Derives .expr ts t) (de : Derives .expr b e) :
      Derives .base (.keyword .while_ :: ts ++ .keyword .then_ :: b) (.whileLoop () t e)
  | function {name : Option String} {params : List String} {b e} (d : Derives .expr b e) :
      Derives .base (.keyword .fn :: name.toList.map TokenKind.name ++ .symbol .opening ::
        separated (params.map fun x => [TokenKind.name x]) ++ .symbol .closing ::
        .symbol .arrow :: b) (.function () name params e)

namespace Phrase.Derives

variable {p q : Phrase} {ts : List TokenKind} {e : Expr Unit}

theorem mono (h : p ≤ q) (d : p.Derives ts e) : q.Derives ts e := by
  -- on the number of phrases from `p` up to `q`
  obtain ⟨k, hk⟩ := Nat.exists_eq_add_of_le (show p.rank ≤ q.rank from h)
  induction k generalizing q with
  | zero => exact eq_of_rank_eq hk ▸ d
  | succ k ih =>
    obtain ⟨r, hr⟩ : ∃ r, q.alone? = some r := by
      cases q <;> simp [alone?, rank] at hk ⊢
    have hrank := rank_eq_of_alone? hr
    have hr' : r.rank = p.rank + k := by omega
    exact .alone hr (ih (show p.rank ≤ r.rank by omega) hr')

theorem to_expr (d : p.Derives ts e) : expr.Derives ts e :=
  d.mono (le_expr p)

end Phrase.Derives

end ArrowScript
