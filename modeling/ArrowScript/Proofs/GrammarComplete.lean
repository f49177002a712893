import Mathlib
import ArrowScript.Proofs.GrammarSound

/-! Reading refuses nothing that derives. Reading is greedy: each token goes to the innermost
construct that can take it, whichever construct a derivation had in mind. What a derivation needs
of the open constructs is only which of them can still end and be called, which can go on with
another arm, and which wait for a token of their own. Reading greedily always has at least those
open. -/

namespace ArrowScript

open Phrase

/-- What an open construct can still become. -/
inductive Mark where
  -- it can end, and be called
  | body
  -- it can end and be called, or go on with an `elif` or an `else`
  | arm
  | group | argument | test | first | bound | step
  deriving DecidableEq

namespace Mark

def wall : Mark → Bool
  | body | arm => false
  | _ => true

/-- `Covers g n`: constructs with the marks `g`, the innermost first, are open, which is good
enough where constructs with the marks `n` are needed. -/
inductive Covers : List Mark → List Mark → Prop
  | nil : Covers [] []
  | cons {m g n} (h : Covers g n) : Covers (m :: g) (m :: n)
  | arm {g n} (h : Covers g n) : Covers (arm :: g) (body :: n)
  | extra {m g n} (hm : m.wall = false) (h : Covers g n) : Covers (m :: g) n

namespace Covers

variable {m k : Mark} {g n : List Mark}

theorem drop (hm : m.wall = false) (h : Covers g (m :: n)) : Covers g n := by
  -- whatever stands in `g` for `m` can end as well, so it becomes an extra
  generalize hn : m :: n = n' at h
  induction h with
  | nil => cases hn
  | cons h _ =>
    cases hn
    exact .extra hm h
  | arm h _ =>
    cases hn
    exact .extra rfl h
  | extra hk _ ih => exact .extra hk (ih hn)

theorem tail (hm : m.wall = false) (h : Covers (k :: g) (m :: n)) : Covers g n := by
  cases h with
  | cons h => exact h
  | arm h => exact h
  | extra _ h => exact h.drop hm

theorem of_cons (h : Covers (m :: g) (m :: n)) : Covers g n := by
  cases h with
  | cons h => exact h
  | extra hm h => exact h.drop hm

theorem of_arm (h : Covers g (.arm :: n)) : Covers g (.body :: n) := by
  generalize hn : Mark.arm :: n = n' at h
  induction h with
  | nil => cases hn
  | cons h _ =>
    cases hn
    exact .arm h
  | arm h _ => cases hn
  | extra hk _ ih => exact .extra hk (ih hn)

end Covers

end Mark

open Mark (Covers)

namespace Pending

def mark? : Pending → Option Mark
  | operator .. | unary .. | assign .. => none
  | group => some .group
  | argument .. => some .argument
  | armTest .. => some .test
  | armBody .. => some .arm
  | otherwise .. | forBody .. | whileBody .. | functionBody .. => some .body
  | forFirst .. => some .first
  | forBound .. => some .bound
  | forStep .. | whileTest .. => some .step

def marks (stack : List Pending) : List Mark := stack.filterMap mark?

variable {p : Pending} {stack : List Pending}

theorem marks_of_none (h : p.mark? = none) : marks (p :: stack) = marks stack :=
  List.filterMap_cons_none h

theorem marks_of_some {m : Mark} (h : p.mark? = some m) : marks (p :: stack) = m :: marks stack :=
  List.filterMap_cons_some h

theorem finish?_of_none (h : p.mark? = none) (e : SourceExpr) :
    ∃ e', p.finish? e = some (e', false) := by
  cases p <;> first | exact ⟨_, rfl⟩ | cases h

theorem finish?_of_some {m : Mark} (h : p.mark? = some m) (hm : m.wall = false) (e : SourceExpr) :
    ∃ e', p.finish? e = some (e', true) := by
  cases p <;> first | exact ⟨_, rfl⟩ | (cases h <;> cases hm)

theorem continue?_eq_none {t : Token} (h : ∀ m ∈ p.mark?, m.wall = false)
    (ha : p.mark? = some .arm → t.kind ≠ .keyword .elif ∧ t.kind ≠ .keyword .else_)
    (e : SourceExpr) : p.continue? e t stack = none := by
  cases p with
  | armBody =>
    obtain ⟨h₁, h₂⟩ := ha rfl
    simp only [continue?]
  | operator | unary | assign | otherwise | forBody | whileBody | functionBody => rfl
  | _ => cases h _ rfl

end Pending

def Slot.reach : Slot → Phrase
  | expression | argument => .expr
  | comparison => .comparison
  | operand => .relation

namespace ReadState

open Pending (marks)
open Fragment (separated arm arms introduced)

variable {stack : List Pending} {e : SourceExpr} {t : Token} {m : Mark} {n : List Mark}

theorem close_of_none {p : Pending} (hp : p.mark? = none) :
    ∃ e', close t e (p :: stack) = close t e' stack := by
  obtain ⟨e', he'⟩ := Pending.finish?_of_none hp e
  have hc : p.continue? e t stack = none :=
    Pending.continue?_eq_none (by simp [hp]) (by simp [hp]) e
  exact ⟨e', by simp only [close, hc, he']⟩

theorem close_of_some {p : Pending} (hp : p.mark? = some m) (hm : m.wall = false)
    (ht : t.kind ≠ .symbol .opening)
    (ha : m = .arm → t.kind ≠ .keyword .elif ∧ t.kind ≠ .keyword .else_) :
    ∃ e', close t e (p :: stack) = close t e' stack := by
  obtain ⟨e', he'⟩ := Pending.finish?_of_some hp hm e
  have hc : p.continue? e t stack = none :=
    Pending.continue?_eq_none (by simpa [hp] using hm) (by simpa [hp] using ha) e
  refine ⟨e', ?_⟩
  simp only [close, hc, he']
  split
  · contradiction
  · rfl

theorem close_opening (ht : t.kind = .symbol .opening) (h : Covers (marks stack) (.body :: n)) :
    ∃ callee stack', close t e stack = .ok ⟨.arguments callee, stack'⟩ ∧
      Covers (marks stack') n := by
  induction stack generalizing e with
  | nil => cases h
  | cons p stack ih =>
    cases hp : p.mark? with
    | none =>
      obtain ⟨e', he'⟩ : ∃ e', close t e (p :: stack) = close t e' stack := close_of_none hp
      rw [Pending.marks_of_none hp] at h
      simpa only [he'] using ih h
    | some m =>
      rw [Pending.marks_of_some hp] at h
      have hw : m.wall = false := by
        cases h with
        | cons => rfl
        | arm => rfl
        | extra hw => exact hw
      obtain ⟨e', he'⟩ := Pending.finish?_of_some hp hw e
      have hc : p.continue? e t stack = none :=
        Pending.continue?_eq_none (by simpa [hp] using hw) (by simp [ht]) e
      -- the construct on top may not be the one that `n` counts on, which is then left over
      exact ⟨e', stack, by simp only [close, hc, he', ht], h.tail rfl⟩

theorem close_continue? (ht : t.kind ≠ .symbol .opening)
    (hm : m.wall = true ∧ t.kind ≠ .keyword .elif ∧ t.kind ≠ .keyword .else_ ∨ m = .arm)
    (h : Covers (marks stack) (m :: n)) :
    ∃ (p : Pending) (e' : SourceExpr) (stack' : List Pending), p.mark? = some m ∧
      Covers (marks stack') n ∧
      ∀ s, p.continue? e' t stack' = some s → close t e stack = .ok s := by
  induction stack generalizing e with
  | nil => cases h
  | cons p stack ih =>
    cases hp : p.mark? with
    | none =>
      obtain ⟨e', he'⟩ : ∃ e', close t e (p :: stack) = close t e' stack := close_of_none hp
      rw [Pending.marks_of_none hp] at h
      simpa only [he'] using ih h
    | some k =>
      rw [Pending.marks_of_some hp] at h
      by_cases hk : k = m
      · subst hk
        exact ⟨p, e, stack, hp, h.of_cons, fun s hs => by simp only [close, hs]⟩
      -- anything else on top is an extra, which ends
      · obtain ⟨hw, h'⟩ : k.wall = false ∧ Covers (marks stack) (m :: n) := by
          cases h with
          | cons => contradiction
          | arm => simp [Mark.wall] at hm
          | extra hw h => exact ⟨hw, h⟩
        have ha : k = .arm → t.kind ≠ .keyword .elif ∧ t.kind ≠ .keyword .else_ := by
          rintro rfl
          exact (hm.resolve_right (Ne.symm hk)).2
        obtain ⟨e', he'⟩ : ∃ e', close t e (p :: stack) = close t e' stack :=
          close_of_some hp hw ht ha
        simpa only [he'] using ih h'

theorem settle_ok (h : Covers (marks stack) []) : ∃ e', settle e stack = .ok e' := by
  induction stack generalizing e with
  | nil => exact ⟨e, rfl⟩
  | cons p stack ih =>
    cases hp : p.mark? with
    | none =>
      rw [Pending.marks_of_none hp] at h
      obtain ⟨e', he'⟩ := Pending.finish?_of_none hp e
      simpa only [settle, he'] using ih h
    | some k =>
      rw [Pending.marks_of_some hp] at h
      cases h with
      | extra hw h =>
        obtain ⟨e', he'⟩ := Pending.finish?_of_some hp hw e
        simpa only [settle, he'] using ih h

theorem marks_collapse (op : BinaryOp) (e : SourceExpr) (stack : List Pending) :
    marks (collapse op e stack).2 = marks stack := by
  fun_induction collapse op e stack with
  | case1 _ _ _ _ _ ih => exact ih.trans (Pending.marks_of_none rfl).symm
  | case3 _ _ _ _ _ ih => exact ih.trans (Pending.marks_of_none rfl).symm
  | _ => rfl

def Ahead (slot : Slot) (n : List Mark) (s : ReadState) : Prop :=
  s.focus = .want slot ∧ Covers (marks s.stack) n

def Opened (n : List Mark) (s : ReadState) : Prop :=
  (∃ callee, s.focus = .arguments callee) ∧ Covers (marks s.stack) n

def Behind (n : List Mark) (s : ReadState) : Prop :=
  (∃ e c, s.focus = .operand e c) ∧ Covers (marks s.stack) n

def Callable (n : List Mark) (s : ReadState) : Prop :=
  ∃ e c, s.focus = .operand e c ∧
    Covers (if c then .body :: marks s.stack else marks s.stack) (.body :: n)

theorem Callable.behind {s : ReadState} (h : Callable n s) : Behind n s := by
  obtain ⟨e, c, hs, hn⟩ := h
  refine ⟨⟨e, c, hs⟩, ?_⟩
  cases c with
  | false => exact hn.drop rfl
  | true => exact hn.tail rfl

theorem Behind.callable {s : ReadState} (h : Behind (.body :: n) s) : Callable n s := by
  obtain ⟨⟨e, c, hs⟩, hn⟩ := h
  refine ⟨e, c, hs, ?_⟩
  cases c with
  | false => exact hn
  | true => exact .extra rfl hn

def Moves (P : ReadState → Prop) (ks : List TokenKind) (Q : ReadState → Prop) : Prop :=
  ∀ s, P s → ∀ ts : List Token, ts.map Token.kind = ks → ∃ s', s.feedAll ts = .ok s' ∧ Q s'

namespace Moves

variable {P Q R : ReadState → Prop} {k : TokenKind} {ks ks' : List TokenKind}

theorem nil (h : ∀ s, P s → Q s) : Moves P [] Q := by
  intro s hs ts hts
  obtain rfl := List.map_eq_nil_iff.1 hts
  exact ⟨s, rfl, h s hs⟩

theorem one (h : ∀ s, P s → ∀ t : Token, t.kind = k → ∃ s', s.feed t = .ok s' ∧ Q s') :
    Moves P [k] Q := by
  intro s hs ts hts
  obtain ⟨t, rfl, ht⟩ := List.map_eq_singleton_iff.1 hts
  obtain ⟨s', hs', hq⟩ := h s hs t ht
  exact ⟨s', by rw [feedAll_cons, hs']; rfl, hq⟩

theorem append (h : Moves P ks R) (h' : Moves R ks' Q) : Moves P (ks ++ ks') Q := by
  intro s hs ts hts
  obtain ⟨us, vs, rfl, rfl, rfl⟩ := List.map_eq_append_iff.1 hts
  obtain ⟨s', hs', hr⟩ := h s hs us rfl
  obtain ⟨s'', hs'', hq⟩ := h' s' hr vs rfl
  exact ⟨s'', by rw [feedAll_append, hs']; exact hs'', hq⟩

theorem mono (h : Moves P ks R) (hq : ∀ s, R s → Q s) : Moves P ks Q := by
  intro s hs ts hts
  obtain ⟨s', hs', hr⟩ := h s hs ts hts
  exact ⟨s', hs', hq s' hr⟩

end Moves

inductive GoesOn : Mark → TokenKind → (List Mark → ReadState → Prop) → Prop
  | group : GoesOn .group (.symbol .closing) Callable
  | comma : GoesOn .argument (.symbol .comma) fun n => Ahead .expression (.argument :: n)
  | closing : GoesOn .argument (.symbol .closing) Behind
  | do_ : GoesOn .test (.keyword .do_) fun n => Ahead .expression (.arm :: n)
  | elif : GoesOn .arm (.keyword .elif) fun n => Ahead .expression (.test :: n)
  | else_ : GoesOn .arm (.keyword .else_) fun n => Ahead .expression (.body :: n)
  | to_ : GoesOn .first (.keyword .to_) fun n => Ahead .expression (.bound :: n)
  | by_ : GoesOn .bound (.keyword .by_) fun n => Ahead .expression (.step :: n)
  | thenBound : GoesOn .bound (.keyword .then_) fun n => Ahead .expression (.body :: n)
  | thenStep : GoesOn .step (.keyword .then_) fun n => Ahead .expression (.body :: n)

theorem GoesOn.continue? {p : Pending} {Q : List Mark → ReadState → Prop}
    (h : GoesOn m t.kind Q) (hp : p.mark? = some m) (hn : Covers (marks stack) n) :
    ∃ s, p.continue? e t stack = some s ∧ Q n s := by
  generalize hk : t.kind = k at h
  cases h <;> cases p <;> cases hp <;>
    simp only [Pending.continue?, hk, Option.some.injEq, exists_eq_left']
  case group => exact ⟨e, true, rfl, .cons hn⟩
  case closing => exact ⟨⟨_, false, rfl⟩, hn⟩
  all_goals exact ⟨rfl, .cons hn⟩

theorem moves_goesOn {k : TokenKind} {Q : List Mark → ReadState → Prop} (h : GoesOn m k Q)
    (n : List Mark) : Moves (Behind (m :: n)) [k] (Q n) := by
  refine .one ?_
  rintro ⟨_, stack⟩ ⟨⟨e, c, rfl⟩, hn⟩ t rfl
  have hop : t.kind.binaryOp? = none := by
    generalize t.kind = k at h
    cases h <;> rfl
  have ht : t.kind ≠ .symbol .opening := by
    generalize t.kind = k at h
    cases h <;> simp
  have hm : m.wall = true ∧ t.kind ≠ .keyword .elif ∧ t.kind ≠ .keyword .else_ ∨ m = .arm := by
    generalize t.kind = k at h
    cases h <;> simp [Mark.wall]
  have hfeed : feed ⟨.operand e c, stack⟩ t = close t e stack := by
    simp only [feed, hop]
    split
    · contradiction
    · rfl
  obtain ⟨p, e', stack', hp, hn', hclose⟩ := close_continue? (e := e) ht hm hn
  obtain ⟨s', hs', hq⟩ := h.continue? (e := e') hp hn'
  exact ⟨s', hfeed.trans (hclose s' hs'), hq⟩

theorem moves_operator (op : BinaryOp) (n : List Mark) :
    Moves (Behind n) [op.token] (Ahead (slotAfter op) n) := by
  refine .one ?_
  rintro ⟨_, stack⟩ ⟨⟨e, c, rfl⟩, hn⟩ t ht
  refine ⟨_, by simp only [feed, TokenKind.binaryOp?_eq_some.2 ht]; rfl, rfl, ?_⟩
  exact (marks_collapse op e stack).symm ▸ hn

theorem moves_call (n : List Mark) : Moves (Callable n) [.symbol .opening] (Opened n) := by
  refine .one ?_
  rintro ⟨_, stack⟩ ⟨e, c, rfl, hn⟩ t ht
  cases c with
  | false =>
    obtain ⟨callee, stack', hclose, hn'⟩ := close_opening (e := e) ht hn
    exact ⟨_, by simpa [feed, ht, TokenKind.binaryOp?] using hclose, ⟨callee, rfl⟩, hn'⟩
  | true =>
    exact ⟨⟨.arguments e, stack⟩, by simp [feed, ht, TokenKind.binaryOp?], ⟨e, rfl⟩, hn.tail rfl⟩

theorem moves_called (n : List Mark) : Moves (Opened n) [.symbol .closing] (Behind n) := by
  refine .one ?_
  rintro ⟨_, stack⟩ ⟨⟨callee, rfl⟩, hn⟩ t ht
  refine ⟨⟨.operand (.call (callee.ann.through t.span) callee []) false, stack⟩, ?_,
    ⟨_, false, rfl⟩, hn⟩
  simp only [feed, ht]

theorem moves_argument {ks : List TokenKind}
    (h : Moves (Ahead .argument (.argument :: n)) ks (Behind (.argument :: n))) :
    Moves (Opened n) ks (Behind (.argument :: n)) := by
  rintro ⟨_, stack⟩ ⟨⟨callee, rfl⟩, hn⟩ ts hts
  obtain ⟨s', hs', hq⟩ := h ⟨.want .argument, .argument callee [] :: stack⟩
    ⟨rfl, .cons hn⟩ ts hts
  refine ⟨s', ?_, hq⟩
  cases ts with
  | nil =>
    -- before its first token nothing is behind an operand
    cases hs'
    obtain ⟨⟨e, c, h⟩, -⟩ := hq
    cases h
  | cons t ts =>
    rw [feedAll_cons] at hs' ⊢
    have hfeed : feed ⟨.arguments callee, stack⟩ t =
        feed ⟨.want .argument, .argument callee [] :: stack⟩ t := by
      simp only [feed]
      split
      · rename_i ht
        simp [feed, begin?, ht, Except.bind] at hs'
      · rfl
    rwa [hfeed]

theorem moves_begin {slot : Slot} {k : TokenKind} {Q : ReadState → Prop}
    (h : ∀ t stack, t.kind = k → Covers (marks stack) n →
      ∃ s, begin? slot t stack = some s ∧ Q s) : Moves (Ahead slot n) [k] Q := by
  refine .one ?_
  rintro ⟨_, stack⟩ ⟨rfl, hn⟩ t ht
  obtain ⟨s, hs, hq⟩ := h t stack ht hn
  exact ⟨s, by simp only [feed, hs, Option.elim], hq⟩

def Within (h : Position → Header) (n : List Mark) (s : ReadState) : Prop :=
  ∃ start, s.focus = .header (h start) ∧ Covers (marks s.stack) n

theorem moves_within {h h' : Position → Header} {k : TokenKind}
    (hc : ∀ start stack, (h start).continue? k stack = some ⟨.header (h' start), stack⟩)
    (n : List Mark) : Moves (Within h n) [k] (Within h' n) := by
  refine .one ?_
  rintro ⟨_, stack⟩ ⟨start, rfl, hn⟩ t rfl
  exact ⟨⟨.header (h' start), stack⟩, by simp only [feed, hc, Option.elim], start, rfl, hn⟩

theorem moves_leave {h : Position → Header} {p : Position → Pending} {k : TokenKind}
    {n' : List Mark}
    (hc : ∀ start stack, (h start).continue? k stack = some ⟨.want .expression, p start :: stack⟩)
    (hn' : ∀ start stack, Covers (marks stack) n → Covers (marks (p start :: stack)) n') :
    Moves (Within h n) [k] (Ahead .expression n') := by
  refine .one ?_
  rintro ⟨_, stack⟩ ⟨start, rfl, hn⟩ t rfl
  exact ⟨⟨.want .expression, p start :: stack⟩, by simp only [feed, hc, Option.elim], rfl,
    hn' start stack hn⟩

theorem moves_set {slot : Slot} (hslot : expr ≤ slot.reach) (x : String) (n : List Mark) :
    Moves (Ahead slot n) [.keyword .set, .name x, .symbol .assign] (Ahead .expression n) := by
  have hset : Moves (Ahead slot n) [.keyword .set] (Within .assignName n) := by
    have h : slot = .expression ∨ slot = .argument := by revert hslot; cases slot <;> decide
    exact moves_begin fun t stack ht hn =>
      ⟨⟨.header (.assignName t.span.start), stack⟩, by simp only [begin?, ht, if_pos h], _, rfl, hn⟩
  have hname : Moves (Within .assignName n) [.name x] (Within (.assignSign · x) n) :=
    moves_within (fun _ _ => rfl) n
  exact hset.append (hname.append (moves_leave (p := (.assign · x)) (fun _ _ => rfl)
    (fun _ _ hn => hn)))

theorem moves_for (slot : Slot) (x : String) (n : List Mark) :
    Moves (Ahead slot n) [.keyword .for_, .name x, .keyword .from_]
      (Ahead .expression (.first :: n)) := by
  have hfor : Moves (Ahead slot n) [.keyword .for_] (Within .forName n) :=
    moves_begin fun t stack ht hn =>
      ⟨⟨.header (.forName t.span.start), stack⟩, by simp only [begin?, ht], _, rfl, hn⟩
  have hname : Moves (Within .forName n) [.name x] (Within (.forFrom · x) n) :=
    moves_within (fun _ _ => rfl) n
  exact hfor.append (hname.append (moves_leave (p := (.forFirst · x)) (fun _ _ => rfl)
    (fun _ _ hn => .cons hn)))

theorem moves_params (name : Option String) (params : List String) (n : List Mark) :
    Moves (Within (.firstParam · name) n)
      (separated (params.map fun x => [TokenKind.name x]) ++ [.symbol .closing])
      (Within (.functionArrow · name params) n) := by
  cases params with
  | nil => exact moves_within (fun _ _ => rfl) n
  | cons x xs =>
    have hx : Moves (Within (.firstParam · name) n) [.name x] (Within (.afterParam · name [x]) n) :=
      moves_within (fun _ _ => rfl) n
    have more : ∀ ps, Moves (Within (.afterParam · name ps) n)
        ((xs.map fun y => [TokenKind.name y]).flatMap fun us => .symbol .comma :: us)
        (Within (.afterParam · name (ps ++ xs)) n) := by
      clear hx
      induction xs with
      | nil => exact fun ps => .nil (by simp)
      | cons y ys ih =>
        intro ps
        have hcomma : Moves (Within (.afterParam · name ps) n) [.symbol .comma]
            (Within (.nextParam · name ps) n) := moves_within (fun _ _ => rfl) n
        have hy : Moves (Within (.nextParam · name ps) n) [.name y]
            (Within (.afterParam · name (ps ++ [y])) n) := moves_within (fun _ _ => rfl) n
        simpa using hcomma.append (hy.append (ih (ps ++ [y])))
    have hclose : Moves (Within (.afterParam · name (x :: xs)) n) [.symbol .closing]
        (Within (.functionArrow · name (x :: xs)) n) := moves_within (fun _ _ => rfl) n
    exact (hx.append (more [x])).append hclose

def Readable (ks : List TokenKind) : Prop := ∀ n, Moves (Ahead .expression n) ks (Behind n)

theorem Behind.of_arm {s : ReadState} (h : Behind (.arm :: n) s) : Behind (.body :: n) s :=
  ⟨h.1, h.2.of_arm⟩

theorem moves_atom {slot : Slot} {k : TokenKind} {f : Span → SourceExpr}
    (h : ∀ t stack, t.kind = k → begin? slot t stack = some ⟨.operand (f t.span) true, stack⟩)
    (n : List Mark) : Moves (Ahead slot n) [k] (Callable n) :=
  moves_begin fun t stack ht hn => ⟨_, h t stack ht, f t.span, true, rfl, .cons hn⟩

theorem moves_group {ks : List TokenKind} (h : Readable ks) (slot : Slot) (n : List Mark) :
    Moves (Ahead slot n) (.symbol .opening :: ks ++ [.symbol .closing]) (Callable n) := by
  have hopen : Moves (Ahead slot n) [.symbol .opening] (Ahead .expression (.group :: n)) :=
    moves_begin fun t stack ht hn =>
      ⟨⟨.want .expression, .group :: stack⟩, by simp only [begin?, ht], rfl, .cons hn⟩
  exact (hopen.append (h _)).append (moves_goesOn .group n)

theorem moves_unary {slot : Slot} {op : UnaryOp} (hslot : op.phrase ≤ slot.reach) (n : List Mark) :
    ∃ slot', op.phrase ≤ slot'.reach ∧ Moves (Ahead slot n) [op.token] (Ahead slot' n) := by
  cases op with
  | plus =>
    refine ⟨.operand, by decide, moves_begin fun t stack ht hn =>
      ⟨⟨.want .operand, .unary .plus t.span.start :: stack⟩, ?_, rfl, hn⟩⟩
    simp only [begin?, ht, UnaryOp.token]
  | neg =>
    refine ⟨.operand, by decide, moves_begin fun t stack ht hn =>
      ⟨⟨.want .operand, .unary .neg t.span.start :: stack⟩, ?_, rfl, hn⟩⟩
    simp only [begin?, ht, UnaryOp.token]
  | not =>
    have h : slot ≠ .operand := by
      rintro rfl
      exact absurd hslot (by decide)
    refine ⟨.comparison, by decide, moves_begin fun t stack ht hn =>
      ⟨⟨.want .comparison, .unary .not t.span.start :: stack⟩, ?_, rfl, hn⟩⟩
    simp only [begin?, ht, UnaryOp.token, if_neg h]

theorem moves_arm {a : Fragment × Fragment} (ht : Readable a.1.1) (hb : Readable a.2.1)
    (n : List Mark) : Moves (Ahead .expression (.test :: n)) (arm a) (Behind (.arm :: n)) :=
  (ht _).append ((moves_goesOn .do_ n).append (hb _))

theorem moves_elifs {elifs : List (Fragment × Fragment)} (ht : ∀ a ∈ elifs, Readable a.1.1)
    (hb : ∀ a ∈ elifs, Readable a.2.1) (n : List Mark) :
    Moves (Behind (.arm :: n)) (elifs.flatMap fun a => .keyword .elif :: arm a)
      (Behind (.arm :: n)) := by
  induction elifs with
  | nil => exact .nil fun _ hs => hs
  | cons a elifs ih =>
    rw [List.forall_mem_cons] at ht hb
    exact ((moves_goesOn .elif n).append (moves_arm ht.1 hb.1 n)).append (ih ht.2 hb.2)

theorem moves_cond {first : Fragment × Fragment} {elifs : List (Fragment × Fragment)}
    {other : Option Fragment} (ht : ∀ a ∈ first :: elifs, Readable a.1.1)
    (hb : ∀ a ∈ first :: elifs, Readable a.2.1) (he : ∀ f ∈ other, Readable f.1) (slot : Slot)
    (n : List Mark) :
    Moves (Ahead slot n) (arms (first :: elifs) ++ introduced .else_ other) (Callable n) := by
  rw [List.forall_mem_cons] at ht hb
  have hif : Moves (Ahead slot n) [.keyword .if_] (Ahead .expression (.test :: n)) :=
    moves_begin fun t stack ht hn =>
      ⟨⟨.want .expression, .armTest t.span.start [] :: stack⟩, by simp only [begin?, ht], rfl,
        .cons hn⟩
  have harms := (hif.append (moves_arm ht.1 hb.1 n)).append (moves_elifs ht.2 hb.2 n)
  refine (harms.append ?_).mono fun _ => Behind.callable
  cases other with
  | none => exact .nil fun _ => Behind.of_arm
  | some f => exact (moves_goesOn .else_ n).append (he f rfl _)

theorem moves_forRange {x : String} {ts us b : List TokenKind} {step : Option Fragment}
    (hi : Readable ts) (hj : Readable us) (hs : ∀ f ∈ step, Readable f.1) (hb : Readable b)
    (slot : Slot) (n : List Mark) :
    Moves (Ahead slot n) (.keyword .for_ :: .name x :: .keyword .from_ :: ts ++ .keyword .to_ :: us
      ++ introduced .by_ step ++ .keyword .then_ :: b) (Callable n) := by
  have hbound := ((moves_for slot x n).append (hi _)).append ((moves_goesOn .to_ n).append (hj _))
  have hthen : Moves (Behind (.bound :: n)) (introduced .by_ step ++ [.keyword .then_])
      (Ahead .expression (.body :: n)) := by
    cases step with
    | none => exact moves_goesOn .thenBound n
    | some f => exact ((moves_goesOn .by_ n).append (hs f rfl _)).append (moves_goesOn .thenStep n)
  have hbody := (hb (.body :: n)).mono fun _ => Behind.callable
  simpa using hbound.append (hthen.append hbody)

theorem moves_whileLoop {ts b : List TokenKind} (ht : Readable ts) (hb : Readable b) (slot : Slot)
    (n : List Mark) :
    Moves (Ahead slot n) (.keyword .while_ :: ts ++ .keyword .then_ :: b) (Callable n) := by
  have hwhile : Moves (Ahead slot n) [.keyword .while_] (Ahead .expression (.step :: n)) :=
    moves_begin fun t stack ht hn =>
      ⟨⟨.want .expression, .whileTest t.span.start :: stack⟩, by simp only [begin?, ht], rfl,
        .cons hn⟩
  have hbody := (hb (.body :: n)).mono fun _ => Behind.callable
  exact (hwhile.append (ht _)).append ((moves_goesOn .thenStep n).append hbody)

theorem moves_function {name : Option String} {params : List String} {b : List TokenKind}
    (hb : Readable b) (slot : Slot) (n : List Mark) :
    Moves (Ahead slot n) (.keyword .fn :: name.toList.map TokenKind.name ++ .symbol .opening ::
      separated (params.map fun x => [TokenKind.name x]) ++ .symbol .closing :: .symbol .arrow :: b)
      (Callable n) := by
  have hfn : Moves (Ahead slot n) [.keyword .fn] (Within .functionName n) :=
    moves_begin fun t stack ht hn =>
      ⟨⟨.header (.functionName t.span.start), stack⟩, by simp only [begin?, ht], _, rfl, hn⟩
  have hname : Moves (Within .functionName n) (name.toList.map TokenKind.name ++
      [.symbol .opening]) (Within (.firstParam · name) n) := by
    cases name with
    | none => exact moves_within (fun _ _ => rfl) n
    | some x =>
      have hx : Moves (Within .functionName n) [.name x] (Within (.functionOpening · x) n) :=
        moves_within (fun _ _ => rfl) n
      exact hx.append (moves_within (fun _ _ => rfl) n)
  have harrow : Moves (Within (.functionArrow · name params) n) [.symbol .arrow]
      (Ahead .expression (.body :: n)) :=
    moves_leave (p := (.functionBody · name params)) (fun _ _ => rfl) (fun _ _ hn => .cons hn)
  have hbody := (hb (.body :: n)).mono fun _ => Behind.callable
  have hhead := hfn.append (hname.append ((moves_params name params n).append harrow))
  simpa using hhead.append hbody

theorem moves_arguments {args : List Fragment}
    (ha : ∀ a ∈ args, ∀ slot, expr ≤ slot.reach → ∀ n, Moves (Ahead slot n) a.1 (Behind n))
    (n : List Mark) :
    Moves (Opened n) (separated (args.map Prod.fst) ++ [.symbol .closing]) (Behind n) := by
  cases args with
  | nil => exact moves_called n
  | cons a args =>
    rw [List.forall_mem_cons] at ha
    have hfirst := moves_argument (ha.1 .argument le_rfl (.argument :: n))
    have hrest : Moves (Behind (.argument :: n))
        ((args.map Prod.fst).flatMap fun us => .symbol .comma :: us) (Behind (.argument :: n)) := by
      have ha' := ha.2
      clear ha
      induction args with
      | nil => exact .nil fun _ hs => hs
      | cons b args ih =>
        rw [List.forall_mem_cons] at ha'
        have hb := ha'.1 .expression le_rfl (.argument :: n)
        exact ((moves_goesOn .comma n).append hb).append (ih ha'.2)
    exact (hfirst.append hrest).append (moves_goesOn .closing n)

def Past : Phrase → List Mark → ReadState → Prop
  | .base, n => Callable n
  | _, n => Behind n

theorem past_chain (op : BinaryOp) (n : List Mark) : Past op.chain n = Behind n := by
  cases op <;> rfl

theorem past_operand (op : BinaryOp) (n : List Mark) : Past op.operand n = Behind n := by
  cases op <;> rfl

theorem Past.behind {p : Phrase} {s : ReadState} (h : Past p n s) : Behind n s := by
  cases p with
  | base => exact Callable.behind h
  | _ => exact h

/-- What derives is taken in wherever its phrase may begin. -/
theorem moves_of_derives {p : Phrase} {ks : List TokenKind} {e : Expr Unit} (d : p.Derives ks e)
    (slot : Slot) (hslot : p ≤ slot.reach) (n : List Mark) :
    Moves (Ahead slot n) ks (Past p n) := by
  -- The stack is never mentioned: whichever constructs reading has open, the marks `n` are covered
  -- before the phrase and behind it.
  induction d generalizing slot n with
  | @alone p q ks e h _ ih =>
    have hrank := rank_eq_of_alone? h
    have hq : q ≤ p := show q.rank ≤ p.rank by omega
    have hp : Past p n = Behind n := by cases p <;> first | rfl | cases h
    rw [hp]
    exact (ih slot (hq.trans hslot) n).mono fun _ => Past.behind
  | assign _ ih => exact (moves_set hslot _ n).append (ih .expression le_rfl n)
  | @binary op ks us l r _ _ ihl ihr =>
    -- the operator is accepted behind any operand, though it may join a body that `l` ends in
    have hl := ihl slot hslot n
    have hr := ihr (slotAfter op) (by cases op <;> decide) n
    rw [past_chain] at hl ⊢
    rw [past_operand] at hr
    exact hl.append ((moves_operator op n).append hr)
  | unary _ ih =>
    obtain ⟨slot', hslot', hop⟩ := moves_unary hslot n
    exact hop.append (ih slot' hslot' n)
  | call _ _ ihc iha =>
    have hc := (ihc slot (le_trans (by decide) hslot) n).append (moves_call n)
    have := hc.append (moves_arguments iha n)
    rwa [List.append_assoc] at this ⊢
  | @number a =>
    refine moves_atom (f := fun s => .number s a) (fun t stack ht => ?_) n
    simp only [begin?, ht]
  | @text a =>
    refine moves_atom (f := fun s => .text s a) (fun t stack ht => ?_) n
    simp only [begin?, ht]
  | @name x =>
    refine moves_atom (f := fun s => .name s x) (fun t stack ht => ?_) n
    simp only [begin?, ht]
  | group _ ih => exact moves_group (ih .expression le_rfl) slot n
  | cond _ _ _ iht ihb ihe =>
    exact moves_cond (fun a ha => iht a ha .expression le_rfl)
      (fun a ha => ihb a ha .expression le_rfl) (fun f hf => ihe f hf .expression le_rfl) slot n
  | forRange _ _ _ _ ihi ihj ihs ihe =>
    exact moves_forRange (ihi .expression le_rfl) (ihj .expression le_rfl)
      (fun f hf => ihs f hf .expression le_rfl) (ihe .expression le_rfl) slot n
  | whileLoop _ _ iht ihe =>
    exact moves_whileLoop (iht .expression le_rfl) (ihe .expression le_rfl) slot n
  | function _ ih => exact moves_function (ih .expression le_rfl) slot n

end ReadState

namespace Reading

open ReadState

def body (ts : List Token) : List Token := ts.takeWhile fun t => !t.kind.isStop

variable {s : ReadState} {ts : List Token}

theorem resume_eq (s : ReadState) (n : Nat) (stop : Span) (ts : List Token) :
    (∃ s' stop', s.feedAll (body ts) = .ok s' ∧
      resume s n stop ts = atEnd s' (n + (body ts).length) stop') ∨
    ∃ x f, s.feedAll (body ts) = .error x ∧ (resume s n stop ts).outcome = .error f := by
  induction ts generalizing s n stop with
  | nil => exact .inl ⟨s, stop, rfl, rfl⟩
  | cons t ts ih =>
    cases ht : t.kind.isStop with
    | true =>
      have hb : body (t :: ts) = [] := by simp [body, ht]
      rw [hb]
      exact .inl ⟨s, t.span, rfl, by simp [resume, ht]⟩
    | false =>
      have hb : body (t :: ts) = t :: body ts := by simp [body, ht]
      rw [hb, feedAll_cons]
      cases hf : s.feed t with
      | error x => exact .inr ⟨x, ⟨x, x.spanAt t.span⟩, rfl, by simp [resume, ht, hf]⟩
      | ok s₁ =>
        have hr : resume s n stop (t :: ts) = resume s₁ (n + 1) t.span.behind ts := by
          simp [resume, ht, hf]
        have hlen : n + (t :: body ts).length = n + 1 + (body ts).length := by
          rw [List.length_cons]
          omega
        rw [hr, hlen]
        exact ih s₁ (n + 1) t.span.behind

theorem outcome_atEnd {e : SourceExpr} {n : Nat} {stop : Span} :
    (atEnd s n stop).outcome = .ok e ↔ s.finish = .ok e := by
  unfold atEnd
  split <;> rename_i h <;> simp [h]

theorem consumed_atEnd (s : ReadState) (n : Nat) (stop : Span) : (atEnd s n stop).consumed = n := by
  unfold atEnd
  split <;> rfl

theorem derives_of_ok {e : SourceExpr} (h : (ofTokens ts).outcome = .ok e) :
    expr.Derives ((body ts).map Token.kind) e.erase ∧
      (ofTokens ts).consumed = (body ts).length := by
  rcases resume_eq start 0 (.empty (.start ⟨"", ""⟩)) ts with ⟨s, stop, hf, hs⟩ | ⟨x, f, -, hf⟩
  · rw [Nat.zero_add] at hs
    rw [ofTokens, hs] at h ⊢
    exact ⟨(reads_start.feedAll hf).finish (outcome_atEnd.1 h), consumed_atEnd _ _ _⟩
  · cases h.symm.trans hf

theorem ok_of_derives {e : Expr Unit} (d : expr.Derives ((body ts).map Token.kind) e) :
    ∃ e', (ofTokens ts).outcome = .ok e' := by
  obtain ⟨⟨focus, stack⟩, hf, ⟨e₀, c, rfl⟩, hn⟩ :=
    moves_of_derives d .expression le_rfl [] start ⟨rfl, .nil⟩ (body ts) rfl
  obtain ⟨e', he'⟩ := settle_ok (e := e₀) hn
  rcases resume_eq start 0 (.empty (.start ⟨"", ""⟩)) ts with ⟨s, stop, hf', hs⟩ | ⟨x, f, hx, -⟩
  · obtain rfl := Except.ok.inj (hf.symm.trans hf')
    refine ⟨e', ?_⟩
    rw [ofTokens, hs]
    exact outcome_atEnd.2 he'
  · cases hf.symm.trans hx

/-- Reading succeeds exactly on what derives. A tree that is read is one that the tokens derive,
and then all of them were taken in; where a fault is reported, they derive no tree at all. -/
theorem ofTokens_exact (ts : List Token) :
    match (ofTokens ts).outcome with
    | .ok e => expr.Derives ((body ts).map Token.kind) e.erase ∧
        (ofTokens ts).consumed = (body ts).length
    | .error _ => ¬ ∃ e, expr.Derives ((body ts).map Token.kind) e := by
  split
  · rename_i e h
    exact derives_of_ok h
  · rename_i f h
    rintro ⟨e, d⟩
    obtain ⟨e', he'⟩ := ok_of_derives d
    cases h.symm.trans he'

end Reading

end ArrowScript
