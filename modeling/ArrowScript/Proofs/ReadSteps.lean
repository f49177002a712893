import Mathlib
import ArrowScript.Proofs.GrammarSound
import ArrowScript.Proofs.Nodes

/-! What a token does to a program that has been read in part. It begins an operand, or goes on
with an open construct, or finishes constructs until one goes on with it; each of these is said here
once, with the kind of the token, the place where a construct begins and the trees it has taken
in. What every state of a reading has is then shown by one case for each of these. -/

namespace ArrowScript

namespace TokenKind

def isAtom : TokenKind → Bool
  | number _ | text _ | name _ => true
  | _ => false

def opens? : TokenKind → Option Slot
  | symbol .plus | symbol .minus => some .operand
  | symbol .opening | keyword .if_ | keyword .while_ => some .expression
  | keyword .not => some .comparison
  | _ => none

def isLink : TokenKind → Bool
  | symbol .comma | keyword .do_ | keyword .elif | keyword .else_ | keyword .to_ | keyword .by_
  | keyword .then_ => true
  | _ => false

end TokenKind

namespace Pending

/-- Where the span of an open construct begins; parentheses have none. -/
def begin? : Pending → Option Position
  | operator left _ => some left.ann.start
  | group => none
  | argument callee _ => some callee.ann.start
  | unary _ p | assign p _ | armTest p _ | armBody p _ _ | otherwise p _ _ _ | forFirst p _
  | forBound p _ _ | forStep p _ _ _ | forBody p _ _ _ _ | whileTest p | whileBody p _
  | functionBody p _ _ => some p

def taken : Pending → List SourceExpr
  | operator left _ => [left]
  | unary .. | group | assign .. | forFirst .. | whileTest _ | functionBody .. => []
  | argument callee given => callee :: given
  | armTest _ arms => arms.flatMap fun a => [a.1, a.2]
  | armBody _ arms test => arms.flatMap (fun a => [a.1, a.2]) ++ [test]
  | otherwise _ test body elifs => test :: body :: elifs.flatMap fun a => [a.1, a.2]
  | forBound _ _ first => [first]
  | forStep _ _ first bound => [first, bound]
  | forBody _ _ first bound step => first :: bound :: step.toList
  | whileBody _ test => [test]

theorem flatMap_splitArms (arms : List (SourceExpr × SourceExpr)) (test e : SourceExpr) :
    ((splitArms arms (test, e)).1 :: (splitArms arms (test, e)).2).flatMap (fun a => [a.1, a.2]) =
      arms.flatMap (fun a => [a.1, a.2]) ++ [test] ++ [e] := by
  rw [← splitArms_eq, List.flatMap_append]
  simp

theorem finish?_parts {p : Pending} {e e' : SourceExpr} {callable : Bool}
    (h : p.finish? e = some (e', callable)) :
    ∃ q ∈ p.begin?, e'.ann = ⟨q, e.ann.stop⟩ ∧ e'.children = p.taken ++ [e] := by
  cases p with
  | operator left op =>
    cases h
    exact ⟨_, rfl, rfl, rfl⟩
  | unary op q =>
    cases h
    exact ⟨_, rfl, rfl, rfl⟩
  | assign q x =>
    cases h
    exact ⟨_, rfl, rfl, rfl⟩
  | armBody q arms test =>
    simp only [finish?, Option.some.injEq, Prod.mk.injEq] at h
    obtain ⟨rfl, -⟩ := h
    exact ⟨_, rfl, rfl, by
      simpa [Expr.children, Expr.parts, taken] using flatMap_splitArms arms test e⟩
  | otherwise q test body elifs =>
    cases h
    exact ⟨_, rfl, rfl, rfl⟩
  | forBody q x first bound step =>
    cases h
    exact ⟨_, rfl, rfl, rfl⟩
  | whileBody q test =>
    cases h
    exact ⟨_, rfl, rfl, rfl⟩
  | functionBody q name params =>
    cases h
    exact ⟨_, rfl, rfl, rfl⟩
  | _ => cases h

inductive Continues (e : SourceExpr) (t : Token) (stack : List Pending) : Pending → ReadState → Prop
  | group (hk : t.kind = .symbol .closing) :
      Continues e t stack .group ⟨.operand e true, stack⟩
  | call {callee : SourceExpr} {given : List SourceExpr} (hk : t.kind = .symbol .closing) :
      Continues e t stack (.argument callee given)
        ⟨.operand (.call (callee.ann.through t.span) callee (given ++ [e])) false, stack⟩
  | part {p p' : Pending} (hk : t.kind.isLink = true) (hbegin : p'.begin? = p.begin?)
      (htaken : p'.taken = p.taken ++ [e]) :
      Continues e t stack p ⟨.want .expression, p' :: stack⟩

theorem continues_of_continue? {p : Pending} {e : SourceExpr} {t : Token} {stack : List Pending}
    {s : ReadState} (h : p.continue? e t stack = some s) : Continues e t stack p s := by
  cases p with
  | group =>
    simp only [continue?] at h
    split at h <;> cases h
    rename_i hk
    exact .group hk
  | argument callee given =>
    simp only [continue?] at h
    split at h <;> cases h <;> rename_i hk
    · exact .part (by rw [hk]; rfl) rfl rfl
    · exact .call hk
  | armBody q arms test =>
    simp only [continue?] at h
    split at h <;> cases h <;> rename_i hk
    · exact .part (by rw [hk]; rfl) rfl (by simp [taken])
    · exact .part (by rw [hk]; rfl) rfl (by simpa [taken] using flatMap_splitArms arms test e)
  | forBound q x first =>
    simp only [continue?] at h
    split at h <;> cases h <;> rename_i hk
    · exact .part (by rw [hk]; rfl) rfl rfl
    · exact .part (by rw [hk]; rfl) rfl rfl
  | armTest q arms =>
    simp only [continue?] at h
    split at h <;> cases h
    rename_i hk
    exact .part (by rw [hk]; rfl) rfl rfl
  | forFirst q x =>
    simp only [continue?] at h
    split at h <;> cases h
    rename_i hk
    exact .part (by rw [hk]; rfl) rfl rfl
  | forStep q x first bound =>
    simp only [continue?] at h
    split at h <;> cases h
    rename_i hk
    exact .part (by rw [hk]; rfl) rfl rfl
  | whileTest q =>
    simp only [continue?] at h
    split at h <;> cases h
    rename_i hk
    exact .part (by rw [hk]; rfl) rfl rfl
  | _ => cases h

end Pending

namespace Header

def begin : Header → Position
  | assignName p | assignSign p _ | forName p | forFrom p _ | functionName p | functionOpening p _
  | firstParam p _ | nextParam p _ _ | afterParam p _ _ | functionArrow p _ _ => p

inductive Advances (h : Header) (stack : List Pending) : ReadState → Prop
  | within {h' : Header} (hbegin : h'.begin = h.begin) : Advances h stack ⟨.header h', stack⟩
  | part {p : Pending} (hbegin : p.begin? = some h.begin) (htaken : p.taken = []) :
      Advances h stack ⟨.want .expression, p :: stack⟩

theorem advances_of_continue? {h : Header} {k : TokenKind} {stack : List Pending} {s : ReadState}
    (hs : h.continue? k stack = some s) : Advances h stack s := by
  cases h <;> simp only [continue?] at hs <;> split at hs <;> cases hs <;>
    first | exact .within rfl | exact .part rfl rfl

end Header

namespace ReadState

inductive Begins (t : Token) (stack : List Pending) : ReadState → Prop
  | atom {e : SourceExpr} (hk : t.kind.isAtom = true) (hspan : e.ann = t.span)
      (hchildren : e.children = []) : Begins t stack ⟨.operand e true, stack⟩
  | part {p : Pending} {slot : Slot} (hk : t.kind.opens? = some slot)
      (hbegin : ∀ q ∈ p.begin?, q = t.span.start) (htaken : p.taken = []) :
      Begins t stack ⟨.want slot, p :: stack⟩
  | assignName (hk : t.kind = .keyword .set) :
      Begins t stack ⟨.header (.assignName t.span.start), stack⟩
  | forName (hk : t.kind = .keyword .for_) : Begins t stack ⟨.header (.forName t.span.start), stack⟩
  | functionName (hk : t.kind = .keyword .fn) :
      Begins t stack ⟨.header (.functionName t.span.start), stack⟩

variable {t : Token} {stack : List Pending} {s s' : ReadState} {e e' : SourceExpr}

theorem begins_of_begin? {slot : Slot} (h : begin? slot t stack = some s) : Begins t stack s := by
  have hpart {p : Pending} {slot : Slot} {k : TokenKind} (hk : t.kind = k)
      (hslot : k.opens? = some slot) (hbegin : ∀ q ∈ p.begin?, q = t.span.start)
      (htaken : p.taken = []) : Begins t stack ⟨.want slot, p :: stack⟩ :=
    .part (hk ▸ hslot) hbegin htaken
  unfold begin? at h
  dsimp only at h
  split at h <;> rename_i hk
  · cases h
    exact .atom (by rw [hk]; rfl) rfl rfl
  · cases h
    exact .atom (by rw [hk]; rfl) rfl rfl
  · cases h
    exact .atom (by rw [hk]; rfl) rfl rfl
  · cases h
    exact hpart hk rfl (by simp [Pending.begin?]) rfl
  · cases h
    exact hpart hk rfl (by simp [Pending.begin?]) rfl
  · cases h
    exact hpart hk rfl (by simp [Pending.begin?]) rfl
  · split_ifs at h
    cases h
    exact hpart hk rfl (by simp [Pending.begin?]) rfl
  · split_ifs at h
    cases h
    exact .assignName hk
  · cases h
    exact hpart hk rfl (by simp [Pending.begin?]) rfl
  · cases h
    exact .forName hk
  · cases h
    exact hpart hk rfl (by simp [Pending.begin?]) rfl
  · cases h
    exact .functionName hk
  · cases h

inductive Finishes : SourceExpr → List Pending → SourceExpr → List Pending → Prop
  | refl {e : SourceExpr} {stack : List Pending} : Finishes e stack e stack
  | step {e e₁ e' : SourceExpr} {p : Pending} {callable : Bool} {stack stack' : List Pending}
      (hp : p.finish? e = some (e₁, callable)) (h : Finishes e₁ stack e' stack') :
      Finishes e (p :: stack) e' stack'

theorem finishes_collapse (op : BinaryOp) (e : SourceExpr) (stack : List Pending) :
    Finishes e stack (collapse op e stack).1 (collapse op e stack).2 := by
  fun_induction collapse op e stack with
  | case1 e left op' stack hop ih => exact .step rfl ih
  | case2 e left op' stack hop => exact .refl
  | case3 e op' q stack hop ih => exact .step rfl ih
  | case4 e op' q stack hop => exact .refl
  | case5 e stack => exact .refl

theorem finishes_of_settle (h : settle e stack = .ok e') : Finishes e stack e' [] := by
  induction stack generalizing e with
  | nil =>
    cases h
    exact .refl
  | cons p stack ih =>
    simp only [settle] at h
    split at h
    · cases h
    · rename_i hfinish
      exact .step hfinish (ih h)

/-- What a token that is taken in does to a state. -/
inductive Takes (t : Token) : ReadState → ReadState → Prop
  | begins {slot : Slot} {stack : List Pending} {s : ReadState} (h : Begins t stack s) :
      Takes t ⟨.want slot, stack⟩ s
  | noArgument {callee : SourceExpr} {stack : List Pending} (hk : t.kind = .symbol .closing) :
      Takes t ⟨.arguments callee, stack⟩
        ⟨.operand (.call (callee.ann.through t.span) callee []) false, stack⟩
  | argument {callee : SourceExpr} {stack : List Pending} {s : ReadState}
      (h : Begins t (.argument callee [] :: stack) s) : Takes t ⟨.arguments callee, stack⟩ s
  | header {hd : Header} {stack : List Pending} {s : ReadState}
      (h : hd.continue? t.kind stack = some s) : Takes t ⟨.header hd, stack⟩ s
  | operator {e e' : SourceExpr} {callable : Bool} {op : BinaryOp} {stack stack' : List Pending}
      (hk : t.kind.binaryOp? = some op) (h : Finishes e stack e' stack') :
      Takes t ⟨.operand e callable, stack⟩ ⟨.want (slotAfter op), .operator e' op :: stack'⟩
  | call {e e' : SourceExpr} {callable : Bool} {stack stack' : List Pending}
      (hk : t.kind = .symbol .opening) (h : Finishes e stack e' stack') :
      Takes t ⟨.operand e callable, stack⟩ ⟨.arguments e', stack'⟩
  | continues {e e' : SourceExpr} {p : Pending} {callable : Bool} {stack stack' : List Pending}
      {s : ReadState} (h : Finishes e stack e' (p :: stack')) (hp : p.Continues e' t stack' s) :
      Takes t ⟨.operand e callable, stack⟩ s

theorem Takes.behind {callable callable' : Bool} {p : Pending}
    (hp : p.finish? e = some (e', callable)) (h : Takes t ⟨.operand e' callable', stack⟩ s) :
    Takes t ⟨.operand e callable', p :: stack⟩ s := by
  -- what happens behind a finished construct happens behind its last part
  cases h with
  | operator hk hf => exact .operator hk (.step hp hf)
  | call hk hf => exact .call hk (.step hp hf)
  | continues hf hs => exact .continues (.step hp hf) hs

theorem takes_of_close {callable : Bool} (h : close t e stack = .ok s) :
    Takes t ⟨.operand e callable, stack⟩ s := by
  induction stack generalizing e with
  | nil => cases h
  | cons p stack ih =>
    simp only [close] at h
    split at h
    · rename_i hcontinue
      cases h
      exact .continues .refl (Pending.continues_of_continue? hcontinue)
    · split at h
      · cases h
      · rename_i hfinish
        split at h
        · rename_i hk
          cases h
          exact .call hk (.step hfinish .refl)
        · exact (ih h).behind hfinish

theorem eq_some_of_elim {x : Option ReadState} {f : Expectation}
    (h : x.elim (.error f) .ok = Except.ok s) : x = some s := by
  cases x <;> cases h
  rfl

theorem takes_of_feed (h : s.feed t = .ok s') : Takes t s s' := by
  obtain ⟨focus, stack⟩ := s
  cases focus with
  | want slot => exact .begins (begins_of_begin? (eq_some_of_elim h))
  | arguments callee =>
    simp only [feed] at h
    split at h
    · rename_i hk
      cases h
      exact .noArgument hk
    · exact .argument (begins_of_begin? (eq_some_of_elim h))
  | header hd => exact .header (eq_some_of_elim h)
  | operand e callable =>
    simp only [feed] at h
    split at h
    · rename_i op hop
      cases h
      exact .operator hop (finishes_collapse op e stack)
    · split at h
      · rename_i hk
        cases h
        exact .call hk .refl
      · exact takes_of_close h

end ReadState

end ArrowScript
