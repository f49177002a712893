import Mathlib
import ArrowScript.Proofs.CorrectPrefix
import ArrowScript.Proofs.ReadSteps

/-! What is expected where an operand is missing. That an operand has to stand somewhere, and how
much of the grammar is open to it there, shows in the last tokens that were taken in: behind an
operator, behind a parenthesis or a comma, behind a word. So the fault that is reported for a
missing operand is a function of the tokens before it. -/

namespace ArrowScript

namespace TokenKind

def endsOperand : List TokenKind → Bool
  | number _ :: _ | text _ :: _ | name _ :: _ | symbol .closing :: _ => true
  | _ => false

def functionHead : List TokenKind → Bool
  | keyword .fn :: _ | name _ :: keyword .fn :: _ => true
  | _ => false

def inParameters : List TokenKind → Bool
  | symbol .opening :: before => functionHead before
  | name _ :: before | symbol .comma :: before => inParameters before
  | _ => false

end TokenKind

open TokenKind (endsOperand functionHead inParameters)

/-- The slot that the tokens taken in so far, the latest first, leave open. A parenthesis opens the
arguments of a call if it stands behind an operand, and a group otherwise; parentheses and commas of
parameters leave no slot open. -/
def Slot.due? : List TokenKind → Option Slot
  | .symbol .plus :: _ | .symbol .minus :: _ | .symbol .star :: _ | .symbol .slash :: _
  | .symbol .caret :: _ | .symbol .equal :: _ | .symbol .notEqual :: _ | .symbol .less :: _
  | .symbol .greater :: _ | .symbol .lessEqual :: _ | .symbol .greaterEqual :: _ => some .operand
  | .keyword .and :: _ | .keyword .or :: _ | .keyword .not :: _ => some .comparison
  | .symbol .opening :: before =>
    if functionHead before then none
    else if endsOperand before then some .argument
    else some .expression
  | .symbol .comma :: before => if inParameters before then none else some .expression
  | [] | .symbol .assign :: _ | .symbol .arrow :: _ | .keyword .if_ :: _ | .keyword .elif :: _
  | .keyword .do_ :: _ | .keyword .else_ :: _ | .keyword .from_ :: _ | .keyword .to_ :: _
  | .keyword .by_ :: _ | .keyword .then_ :: _ | .keyword .while_ :: _ => some .expression
  | _ => none

inductive Header.Behind : Header → List TokenKind → Prop
  | assignName {start before} : Behind (.assignName start) (.keyword .set :: before)
  | assignSign {start x before} : Behind (.assignSign start x) (.name x :: .keyword .set :: before)
  | forName {start before} : Behind (.forName start) (.keyword .for_ :: before)
  | forFrom {start x before} : Behind (.forFrom start x) (.name x :: .keyword .for_ :: before)
  | functionName {start before} : Behind (.functionName start) (.keyword .fn :: before)
  | functionOpening {start x before} :
      Behind (.functionOpening start x) (.name x :: .keyword .fn :: before)
  | firstParam {start x before} (h : functionHead before = true) :
      Behind (.firstParam start x) (.symbol .opening :: before)
  | nextParam {start x params before} (h : inParameters before = true) :
      Behind (.nextParam start x params) (.symbol .comma :: before)
  | afterParam {start x params y before} (h : inParameters before = true) :
      Behind (.afterParam start x params) (.name y :: before)
  | functionArrow {start x params before} :
      Behind (.functionArrow start x params) (.symbol .closing :: before)

inductive Focus.Behind : Focus → List TokenKind → Prop
  | want {slot before} (h : Slot.due? before = some slot) : Behind (.want slot) before
  | arguments {callee before} (h : Slot.due? before = some .argument) :
      Behind (.arguments callee) before
  | header {hd before} (h : Header.Behind hd before) : Behind (.header hd) before
  | operand {e callable before} (hends : endsOperand before = true)
      (hhead : functionHead before = false) (hparams : inParameters before = false) :
      Behind (.operand e callable) before

variable {slot : Slot} {before : List TokenKind} {t : Token} {stack : List Pending}
  {s s' : ReadState} {e : SourceExpr} {callable : Bool} {k : TokenKind}

namespace Slot

theorem of_due? (h : due? before = some slot) :
    endsOperand before = false ∧ functionHead before = false ∧ inParameters before = false := by
  cases before with
  | nil => exact ⟨rfl, rfl, rfl⟩
  | cons k before =>
    cases k with
    | symbol x =>
      cases x with
      | opening =>
        have hhead : functionHead before = false := by
          by_contra hhead
          simp [due?, hhead] at h
        exact ⟨rfl, rfl, hhead⟩
      | comma =>
        have hparams : inParameters before = false := by
          by_contra hparams
          simp [due?, hparams] at h
        exact ⟨rfl, rfl, hparams⟩
      | closing => cases h
      | _ => exact ⟨rfl, rfl, rfl⟩
    | keyword x =>
      cases x with
      | set | for_ | fn => cases h
      | _ => exact ⟨rfl, rfl, rfl⟩
    | _ => cases h

theorem due?_of_opens? (hk : k.opens? = some slot) (hends : endsOperand before = false)
    (hhead : functionHead before = false) : due? (k :: before) = some slot := by
  unfold TokenKind.opens? at hk
  split at hk <;> cases hk <;> simp [due?, hends, hhead]

theorem due?_of_isLink (hk : k.isLink = true) (hparams : inParameters before = false) :
    due? (k :: before) = some .expression := by
  unfold TokenKind.isLink at hk
  split at hk
  case h_8 => cases hk
  all_goals simp [due?, hparams]

theorem due?_of_binaryOp? {op : BinaryOp} (hk : k.binaryOp? = some op) :
    due? (k :: before) = some (ReadState.slotAfter op) := by
  unfold TokenKind.binaryOp? at hk
  split at hk <;> cases hk <;> rfl

theorem due?_call (hends : endsOperand before = true) (hhead : functionHead before = false) :
    due? (.symbol .opening :: before) = some .argument := by
  simp [due?, hends, hhead]

end Slot

theorem TokenKind.functionHead_name (x : String) (h : functionHead before = false) :
    functionHead (.name x :: before) = false := by
  cases before with
  | nil => rfl
  | cons k before =>
    cases k with
    | keyword w =>
      cases w with
      | fn => cases h
      | _ => rfl
    | _ => rfl

namespace Focus.Behind

theorem closing : Behind (.operand e callable) (.symbol .closing :: before) :=
  .operand rfl rfl rfl

theorem begins (hdue : Slot.due? before = some slot) (h : ReadState.Begins t stack s) :
    Behind s.focus (t.kind :: before) := by
  obtain ⟨hends, hhead, hparams⟩ := Slot.of_due? hdue
  cases h with
  | atom hk =>
    cases hkind : t.kind with
    | number n => exact .operand rfl rfl rfl
    | text x => exact .operand rfl rfl rfl
    | name x => exact .operand rfl (TokenKind.functionHead_name x hhead) hparams
    | _ =>
      rw [hkind] at hk
      cases hk
  | part hk => exact .want (Slot.due?_of_opens? hk hends hhead)
  | assignName hk =>
    rw [hk]
    exact .header .assignName
  | forName hk =>
    rw [hk]
    exact .header .forName
  | functionName hk =>
    rw [hk]
    exact .header .functionName

theorem headerStep {hd : Header} (hb : hd.Behind before) (h : hd.continue? k stack = some s) :
    Behind s.focus (k :: before) := by
  cases hb with
  | assignName =>
    simp only [Header.continue?] at h
    split at h <;> cases h
    exact .header .assignSign
  | assignSign =>
    simp only [Header.continue?] at h
    split at h <;> cases h
    exact .want rfl
  | forName =>
    simp only [Header.continue?] at h
    split at h <;> cases h
    exact .header .forFrom
  | forFrom =>
    simp only [Header.continue?] at h
    split at h <;> cases h
    exact .want rfl
  | functionName =>
    simp only [Header.continue?] at h
    split at h <;> cases h
    · exact .header .functionOpening
    · exact .header (.firstParam rfl)
  | functionOpening =>
    simp only [Header.continue?] at h
    split at h <;> cases h
    exact .header (.firstParam rfl)
  | firstParam hhead =>
    simp only [Header.continue?] at h
    split at h <;> cases h
    · exact .header (.afterParam hhead)
    · exact .header .functionArrow
  | nextParam hparams =>
    simp only [Header.continue?] at h
    split at h <;> cases h
    exact .header (.afterParam hparams)
  | afterParam hparams =>
    simp only [Header.continue?] at h
    split at h <;> cases h
    · exact .header (.nextParam hparams)
    · exact .header .functionArrow
  | functionArrow =>
    simp only [Header.continue?] at h
    split at h <;> cases h
    exact .want rfl

theorem feed (hs : Behind s.focus before) (h : s.feed t = .ok s') :
    Behind s'.focus (t.kind :: before) := by
  cases ReadState.takes_of_feed h with
  | begins h =>
    cases hs with
    | want hdue => exact begins hdue h
  | noArgument hk =>
    rw [hk]
    exact closing
  | argument h =>
    cases hs with
    | arguments hdue => exact begins hdue h
  | header h =>
    cases hs with
    | header hb => exact headerStep hb h
  | operator hk => exact .want (Slot.due?_of_binaryOp? hk)
  | call hk =>
    cases hs with
    | operand hends hhead hparams =>
      rw [hk]
      exact .arguments (Slot.due?_call hends hhead)
  | continues hf hp =>
    -- finishing a construct takes in no token, so all that counts is the one that goes on
    cases hp with
    | group hk =>
      rw [hk]
      exact closing
    | call hk =>
      rw [hk]
      exact closing
    | part hk =>
      cases hs with
      | operand hends hhead hparams => exact .want (Slot.due?_of_isLink hk hparams)

theorem feedAll {ts : List Token} (hs : Behind s.focus before) (h : s.feedAll ts = .ok s') :
    Behind s'.focus ((ts.map Token.kind).reverse ++ before) := by
  induction ts generalizing s before with
  | nil =>
    cases h
    exact hs
  | cons t ts ih =>
    rw [ReadState.feedAll_cons] at h
    cases ht : s.feed t with
    | error x => simp [ht, Except.bind] at h
    | ok s₁ =>
      rw [ht] at h
      simpa using ih (hs.feed ht) h

end Focus.Behind

namespace Slot

theorem expects_injective : Function.Injective expects := by
  intro slot slot' h
  cases slot <;> cases slot' <;> first | rfl | cases h

theorem message_expects_iff {x : Expectation} :
    x.message = slot.expects.message ↔ x = slot.expects := by
  refine ⟨fun h => ?_, congrArg _⟩
  cases x with
  | word w => cases w <;> cases slot <;> exact absurd h (by decide +kernel)
  | _ => cases slot <;> first | rfl | exact absurd h (by decide +kernel)

end Slot

theorem Header.expects_ne (hd : Header) (slot : Slot) : hd.expects ≠ slot.expects := by
  cases hd <;> cases slot <;> exact Expectation.noConfusion

theorem Pending.expects_ne (p : Pending) (slot : Slot) : p.expects ≠ slot.expects := by
  cases p <;> cases slot <;> exact Expectation.noConfusion

theorem Header.Behind.due? {hd : Header} (h : hd.Behind before) : Slot.due? before = none := by
  cases h with
  | firstParam hhead => simp [Slot.due?, hhead]
  | nextParam hparams => simp [Slot.due?, hparams]
  | _ => rfl

namespace ReadState

variable {x : Expectation}

theorem close_error_ne (h : close t e stack = .error x) (slot : Slot) : x ≠ slot.expects := by
  induction stack generalizing e with
  | nil =>
    cases h
    cases slot <;> exact Expectation.noConfusion
  | cons p stack ih =>
    simp only [close] at h
    split at h
    · cases h
    · split at h
      · cases h
        exact p.expects_ne slot
      · split at h
        · cases h
        · exact ih h

theorem settle_error_ne (h : settle e stack = .error x) (slot : Slot) : x ≠ slot.expects := by
  induction stack generalizing e with
  | nil => cases h
  | cons p stack ih =>
    simp only [settle] at h
    split at h
    · cases h
      exact p.expects_ne slot
    · exact ih h

def Refuses (s : ReadState) (x : Expectation) : Prop :=
  (∃ t, s.feed t = .error x) ∨ s.finish = .error x

theorem eq_error_of_elim {o : Option ReadState} {y : Expectation}
    (h : o.elim (.error y) .ok = (.error x : Except Expectation ReadState)) : x = y := by
  cases o <;> cases h
  rfl

theorem Refuses.want (h : Refuses ⟨.want slot, stack⟩ x) : x = slot.expects := by
  obtain ⟨t, h⟩ | h := h
  · exact eq_error_of_elim h
  · cases h
    rfl

theorem Refuses.arguments (h : Refuses ⟨.arguments e, stack⟩ x) : x = Slot.argument.expects := by
  obtain ⟨t, h⟩ | h := h
  · simp only [feed] at h
    split at h
    · cases h
    · exact eq_error_of_elim h
  · cases h
    rfl

theorem Refuses.header {hd : Header} (h : Refuses ⟨.header hd, stack⟩ x) : x = hd.expects := by
  obtain ⟨t, h⟩ | h := h
  · exact eq_error_of_elim h
  · cases h
    rfl

theorem Refuses.operand (h : Refuses ⟨.operand e callable, stack⟩ x) (slot : Slot) :
    x ≠ slot.expects := by
  obtain ⟨t, h⟩ | h := h
  · simp only [feed] at h
    split at h
    · cases h
    · split at h
      · cases h
      · exact close_error_ne h slot
  · exact settle_error_ne h slot

theorem Refuses.eq_expects_iff (h : s.Refuses x) (hs : Focus.Behind s.focus before) (slot : Slot) :
    x = slot.expects ↔ Slot.due? before = some slot := by
  obtain ⟨focus, stack⟩ := s
  cases hs with
  | want hdue => rw [h.want, hdue, Slot.expects_injective.eq_iff, Option.some_inj]
  | arguments hdue => rw [h.arguments, hdue, Slot.expects_injective.eq_iff, Option.some_inj]
  | header hb => simp [h.header, hb.due?, Header.expects_ne]
  | operand hends _ _ =>
    -- behind an operand no slot is open, and only specific faults arise
    refine iff_of_false (h.operand slot) fun hdue => ?_
    simp [(Slot.of_due? hdue).1] at hends

end ReadState

namespace Reading

open ReadState

variable {ts : List Token} {f : SyntaxFault} {n : Nat} {stop : Span}

theorem finish_of_atEnd (h : (atEnd s n stop).outcome = .error f) :
    s.finish = .error f.expected := by
  unfold atEnd at h
  split at h
  · cases h
  · rename_i x hx
    cases h
    exact hx

theorem exists_refuses (h : (ofTokens ts).outcome = .error f) :
    ∃ s q, start.feedAll (ts.take (ofTokens ts).consumed) = .ok s ∧
      (ts ++ [ending (.empty (.start ⟨"", ""⟩)) ts])[(ofTokens ts).consumed]? = some q ∧
      f.span = f.expected.spanAt q.span ∧ s.Refuses f.expected := by
  obtain ⟨pre, s, q, hpre, hfeed, hcount, hprefix, hspan, hq⟩ := exists_of_error h
  rw [← ofTokens, Nat.zero_add] at hcount
  rw [hcount]
  have hrefuses : s.Refuses f.expected := by
    cases hstop : q.kind.isStop with
    | false => exact .inl ⟨q, hq hstop⟩
    | true =>
      -- the end of the input is either supplied behind all tokens or one of them
      right
      obtain heq | ⟨rest, rfl⟩ := List.prefix_concat_iff.1 hprefix
      · obtain rfl : pre = ts := (List.append_inj' heq rfl).1
        rw [ofTokens, ← List.append_nil pre, resume_append hpre hfeed] at h
        exact finish_of_atEnd h
      · rw [ofTokens, List.append_assoc, resume_append hpre hfeed, List.singleton_append, resume,
          if_pos hstop] at h
        exact finish_of_atEnd h
  have hle : pre.length ≤ ts.length := by simpa using hprefix.length_le
  have htake : ts.take pre.length = pre := by
    have heq := List.prefix_iff_eq_take.1 ((List.prefix_append pre [q]).trans hprefix)
    rw [List.take_append_of_le_length hle] at heq
    exact heq.symm
  obtain ⟨rest, hrest⟩ := hprefix
  exact ⟨s, q, htake.symm ▸ hfeed, by simp [← hrest], hspan, hrefuses⟩

/-- Where reading fails, it fails with the generic message of a slot if and only if the tokens that
it took in leave that slot open. The message for the operand of an operator is reported from the
token that stands there to the end of its line, that for a whole expression behind the token, and
the others at the token. -/
theorem ofTokens_missing_operand (ts : List Token) (f : SyntaxFault)
    (h : (ofTokens ts).outcome = .error f) :
    let k := (ofTokens ts).consumed
    let message := f.expected.message
    ∃ q, (ts ++ [ending (.empty (.start ⟨"", ""⟩)) ts])[k]? = some q ∧
      (∀ slot : Slot, message = slot.expects.message ↔
        Slot.due? ((ts.take k).map Token.kind).reverse = some slot) ∧
      (message = Expectation.atom.message → f.span = ⟨q.span.start, q.span.stop.lineEnd⟩) ∧
      (message = Expectation.comparison.message ∨ message = Expectation.argument.message →
        f.span = q.span) ∧
      (message = Expectation.expression.message → f.span = ⟨q.span.stop, q.span.stop⟩) := by
  intro k message
  obtain ⟨s, q, hfeed, hq, hspan, hrefuses⟩ := exists_refuses h
  have hbehind := (Focus.Behind.want rfl : Focus.Behind start.focus []).feedAll hfeed
  rw [List.append_nil] at hbehind
  have hexpects (slot : Slot) (heq : message = slot.expects.message) :
      f.span = slot.expects.spanAt q.span := by
    rw [hspan, Slot.message_expects_iff.1 heq]
  refine ⟨q, hq, fun slot => ?_, hexpects .operand, ?_, hexpects .expression⟩
  · rw [Slot.message_expects_iff]
    exact hrefuses.eq_expects_iff hbehind slot
  · rintro (heq | heq)
    · exact hexpects .comparison heq
    · exact hexpects .argument heq

theorem ofTokens_missing_operand_call :
    let s : Span := .empty (.start ⟨"a", ""⟩)
    let ts : List Token := [⟨.keyword .fn, s⟩, ⟨.symbol .opening, s⟩, ⟨.name "a", s⟩,
      ⟨.symbol .closing, s⟩, ⟨.symbol .arrow, s⟩, ⟨.name "g", s⟩, ⟨.symbol .opening, s⟩,
      ⟨.keyword .and, s⟩]
    (ofTokens ts).outcome = .error ⟨.argument, s⟩ ∧ (ofTokens ts).consumed = 7 ∧
      Slot.due? ((ts.take 7).map Token.kind).reverse = some .argument ∧
      ∃ q, ts[7]? = some q ∧ s = q.span := by
  intro s ts
  have h : (ofTokens ts).outcome = .error ⟨.argument, s⟩ := rfl
  obtain ⟨q, hq, hslot, -, hspan, -⟩ := ofTokens_missing_operand ts _ h
  exact ⟨h, rfl, (hslot .argument).1 rfl, q, hq, hspan (.inr rfl)⟩

end Reading

end ArrowScript
