import Mathlib
import ArrowScript.Proofs.GrammarComplete

/-! Faults are found at the first token that is wrong. What has been taken in before a fault can be
completed to a program, whichever constructs are open; and a token that is refused is refused
whatever follows it, since reading never looks beyond the token it is at. -/

namespace ArrowScript

open Mark (Covers)

theorem Mark.Covers.refl (g : List Mark) : Covers g g := by
  induction g with
  | nil => exact .nil
  | cons m g ih => exact .cons ih

namespace ReadState

open Pending (marks)

def Completable (P : ReadState → Prop) : Prop :=
  ∃ ks : List TokenKind, (∀ k ∈ ks, k.isStop = false) ∧ Moves P ks (Behind [])

namespace Completable

variable {P Q : ReadState → Prop} {n : List Mark}

theorem step {k : TokenKind} (h : Moves P [k] Q) (hk : k.isStop = false) (hq : Completable Q) :
    Completable P := by
  obtain ⟨ks, hks, hmoves⟩ := hq
  exact ⟨k :: ks, List.forall_mem_cons.2 ⟨hk, hks⟩, h.append hmoves⟩

theorem mono (h : ∀ s, P s → Q s) (hq : Completable Q) : Completable P := by
  obtain ⟨ks, hks, hmoves⟩ := hq
  exact ⟨ks, hks, fun s hs => hmoves s (h s hs)⟩

theorem ahead (slot : Slot) (h : Completable (Behind n)) : Completable (Ahead slot n) := by
  have hnumber : Moves (Ahead slot n) [.number (.int 0)] (Callable n) :=
    moves_atom (f := fun s => .number s (.int 0)) (fun t stack ht => by simp only [begin?, ht]) n
  exact .step (hnumber.mono fun _ => Callable.behind) rfl h

theorem of_body (h : Completable (Behind n)) : Completable (Behind (.body :: n)) :=
  h.mono fun _ hs => ⟨hs.1, hs.2.drop rfl⟩

theorem of_arm (h : Completable (Behind n)) : Completable (Behind (.arm :: n)) :=
  h.of_body.mono fun _ => Behind.of_arm

theorem behind (n : List Mark) : Completable (Behind n) := by
  induction n with
  | nil => exact ⟨[], by simp, .nil fun _ hs => hs⟩
  | cons m n ih =>
    -- the token that the construct goes on with, a number where it needs one more part
    have hbody : Completable (Ahead .expression (.body :: n)) := .ahead _ ih.of_body
    have hbound : Completable (Behind (.bound :: n)) :=
      .step (moves_goesOn .thenBound n) rfl hbody
    cases m with
    | body => exact ih.of_body
    | arm => exact ih.of_arm
    | group => exact .step (moves_goesOn .group n) rfl (ih.mono fun _ => Callable.behind)
    | argument => exact .step (moves_goesOn .closing n) rfl ih
    | test => exact .step (moves_goesOn .do_ n) rfl (.ahead _ ih.of_arm)
    | first => exact .step (moves_goesOn .to_ n) rfl (.ahead _ hbound)
    | bound => exact hbound
    | step => exact .step (moves_goesOn .thenStep n) rfl hbody

theorem functionArrow (name : Option String) (params : List String) (n : List Mark) :
    Completable (Within (.functionArrow · name params) n) :=
  .step (k := .symbol .arrow)
    (moves_leave (p := (.functionBody · name params)) (fun _ _ => rfl) fun _ _ hn => .cons hn) rfl
    (.ahead _ (.behind (.body :: n)))

theorem firstParam (name : Option String) (n : List Mark) :
    Completable (Within (.firstParam · name) n) :=
  .step (k := .symbol .closing) (moves_within (fun _ _ => rfl) n) rfl (.functionArrow name [] n)

theorem afterParam (name : Option String) (params : List String) (n : List Mark) :
    Completable (Within (.afterParam · name params) n) :=
  .step (k := .symbol .closing) (moves_within (fun _ _ => rfl) n) rfl
    (.functionArrow name params n)

theorem assignSign (x : String) (n : List Mark) : Completable (Within (.assignSign · x) n) :=
  .step (k := .symbol .assign)
    (moves_leave (p := (.assign · x)) (fun _ _ => rfl) fun _ _ hn => hn) rfl (.ahead _ (.behind n))

theorem forFrom (x : String) (n : List Mark) : Completable (Within (.forFrom · x) n) :=
  .step (k := .keyword .from_)
    (moves_leave (p := (.forFirst · x)) (fun _ _ => rfl) fun _ _ hn => .cons hn) rfl
    (.ahead _ (.behind (.first :: n)))

theorem header (h : Header) (n : List Mark) :
    Completable fun s => s.focus = .header h ∧ Covers (marks s.stack) n := by
  have within {f : Position → Header} (start : Position) (hf : f start = h)
      (hc : Completable (Within f n)) :
      Completable fun s => s.focus = .header h ∧ Covers (marks s.stack) n :=
    hc.mono fun s hs => ⟨start, hf ▸ hs.1, hs.2⟩
  cases h with
  | assignName start =>
    exact within start rfl
      (.step (k := .name "x") (moves_within (fun _ _ => rfl) n) rfl (.assignSign "x" n))
  | assignSign start x => exact within start rfl (.assignSign x n)
  | forName start =>
    exact within start rfl
      (.step (k := .name "x") (moves_within (fun _ _ => rfl) n) rfl (.forFrom "x" n))
  | forFrom start x => exact within start rfl (.forFrom x n)
  | functionName start =>
    exact within start rfl
      (.step (k := .symbol .opening) (moves_within (fun _ _ => rfl) n) rfl (.firstParam none n))
  | functionOpening start name =>
    exact within (f := (.functionOpening · name)) start rfl
      (.step (k := .symbol .opening) (moves_within (fun _ _ => rfl) n) rfl
        (.firstParam (some name) n))
  | firstParam start name => exact within start rfl (.firstParam name n)
  | nextParam start name params =>
    exact within (f := (.nextParam · name params)) start rfl
      (.step (k := .name "x") (moves_within (fun _ _ => rfl) n) rfl
        (.afterParam name (params ++ ["x"]) n))
  | afterParam start name params => exact within start rfl (.afterParam name params n)
  | functionArrow start name params => exact within start rfl (.functionArrow name params n)

end Completable

/-- Every state can be completed to a program. -/
theorem exists_completion (s : ReadState) :
    ∃ (ts : List Token) (s' : ReadState) (e : SourceExpr),
      (∀ t ∈ ts, t.kind.isStop = false) ∧ s.feedAll ts = .ok s' ∧ s'.finish = .ok e := by
  have hcomplete : Completable (· = s) := by
    obtain ⟨focus, stack⟩ := s
    have hcovers : Covers (marks stack) (marks stack) := .refl _
    cases focus with
    | want slot =>
      exact (Completable.ahead slot (.behind _)).mono (by rintro _ rfl; exact ⟨rfl, hcovers⟩)
    | arguments callee =>
      exact (Completable.step (moves_called _) rfl (.behind _)).mono
        (by rintro _ rfl; exact ⟨⟨callee, rfl⟩, hcovers⟩)
    | header h => exact (Completable.header h _).mono (by rintro _ rfl; exact ⟨rfl, hcovers⟩)
    | operand e c =>
      exact (Completable.behind _).mono (by rintro _ rfl; exact ⟨⟨e, c, rfl⟩, hcovers⟩)
  obtain ⟨ks, hks, hmoves⟩ := hcomplete
  obtain ⟨⟨focus, stack⟩, hfeed, ⟨e, c, rfl⟩, hcovers⟩ :=
    hmoves s rfl (ks.map fun k => ⟨k, .empty (.start ⟨"", ""⟩)⟩) (by simp [Function.comp_def])
  obtain ⟨e', he'⟩ := settle_ok (e := e) hcovers
  exact ⟨_, _, e', by simpa using hks, hfeed, he'⟩

end ReadState

namespace Reading

open ReadState

variable {s s' : ReadState} {ts pre rest : List Token} {t : Token} {n : Nat} {stop : Span}

/-- The token for the end of the input that a list without one is given. -/
def ending (stop : Span) (ts : List Token) : Token :=
  ⟨.stop, (ts.getLast?.map (·.span.behind)).getD stop⟩

theorem ending_cons (stop : Span) (t : Token) (ts : List Token) :
    ending stop (t :: ts) = ending t.span.behind ts := by
  cases ts <;> simp [ending, List.getLast?_cons]

theorem resume_taken (ht : t.kind.isStop = false) (h : s.feed t = .ok s') :
    resume s n stop (t :: ts) = resume s' (n + 1) t.span.behind ts := by
  simp [resume, ht, h]

theorem resume_refused (ht : t.kind.isStop = false) {x : Expectation} (h : s.feed t = .error x) :
    resume s n stop (t :: ts) = ⟨.error ⟨x, x.spanAt t.span⟩, n⟩ := by
  simp [resume, ht, h]

theorem resume_append (hpre : ∀ u ∈ pre, u.kind.isStop = false) (hfeed : s.feedAll pre = .ok s') :
    resume s n stop (pre ++ ts) = resume s' (n + pre.length) (ending stop pre).span ts := by
  induction pre generalizing s n stop with
  | nil =>
    cases hfeed
    rfl
  | cons u pre ih =>
    rw [List.forall_mem_cons] at hpre
    rw [feedAll_cons] at hfeed
    cases hu : s.feed u with
    | error x => simp [hu, Except.bind] at hfeed
    | ok s₁ =>
      rw [hu] at hfeed
      have hlen : n + 1 + pre.length = n + (u :: pre).length := by
        rw [List.length_cons]
        omega
      rw [List.cons_append, resume_taken hpre.1 hu, ih hpre.2 hfeed, ending_cons, hlen]

theorem error_of_atEnd {f : SyntaxFault} (h : (atEnd s n stop).outcome = .error f) :
    f.span = f.expected.spanAt stop := by
  unfold atEnd at h
  split at h
  · cases h
  · cases h
    rfl

theorem exists_of_error {f : SyntaxFault} (h : (resume s n stop ts).outcome = .error f) :
    ∃ pre s' t, (∀ u ∈ pre, u.kind.isStop = false) ∧ s.feedAll pre = .ok s' ∧
      (resume s n stop ts).consumed = n + pre.length ∧ pre ++ [t] <+: ts ++ [ending stop ts] ∧
      f.span = f.expected.spanAt t.span ∧
      (t.kind.isStop = false → s'.feed t = .error f.expected) := by
  induction ts generalizing s n stop with
  | nil =>
    exact ⟨[], s, ending stop [], by simp, rfl, consumed_atEnd s n stop, List.prefix_rfl,
      error_of_atEnd h, fun ht => by cases ht⟩
  | cons u ts ih =>
    cases hu : u.kind.isStop with
    | true =>
      have hend : resume s n stop (u :: ts) = atEnd s n u.span := by simp [resume, hu]
      rw [hend] at h ⊢
      exact ⟨[], s, u, by simp, rfl, consumed_atEnd s n u.span, by simp, error_of_atEnd h,
        fun ht => by simp [hu] at ht⟩
    | false =>
      cases hf : s.feed u with
      | error x =>
        rw [resume_refused hu hf] at h ⊢
        cases h
        exact ⟨[], s, u, by simp, rfl, rfl, by simp, rfl, fun _ => hf⟩
      | ok s₁ =>
        rw [resume_taken hu hf] at h ⊢
        obtain ⟨pre, s', t, hpre, hfeed, hcount, hprefix, hspan, ht⟩ := ih h
        refine ⟨u :: pre, s', t, List.forall_mem_cons.2 ⟨hu, hpre⟩, ?_, ?_, ?_, hspan, ht⟩
        · rw [feedAll_cons, hf]
          exact hfeed
        · rw [hcount, List.length_cons]
          omega
        · rw [ending_cons]
          simpa using hprefix

theorem spanAt_start (x : Expectation) (s : Span) :
    (x.spanAt s).start = s.start ∨ (x.spanAt s).start = s.stop := by
  cases x <;> first | exact .inl rfl | exact .inr rfl

theorem exists_ok_append (hpre : ∀ u ∈ pre, u.kind.isStop = false)
    (hfeed : start.feedAll pre = .ok s) : ∃ more e, (ofTokens (pre ++ more)).outcome = .ok e := by
  obtain ⟨more, s', e, hmore, hfeed', hfinish⟩ := exists_completion s
  refine ⟨more, e, ?_⟩
  rw [ofTokens, resume_append hpre hfeed, ← List.append_nil more, resume_append hmore hfeed']
  exact outcome_atEnd.2 hfinish

theorem ofTokens_refused (hpre : ∀ u ∈ pre, u.kind.isStop = false)
    (hfeed : start.feedAll pre = .ok s) (ht : t.kind.isStop = false) {x : Expectation}
    (hx : s.feed t = .error x) {us : List Token} (hus : pre ++ [t] <+: us) :
    ofTokens us = ⟨.error ⟨x, x.spanAt t.span⟩, pre.length⟩ := by
  obtain ⟨rest, rfl⟩ := hus
  rw [ofTokens, List.append_assoc, resume_append hpre hfeed, List.singleton_append,
    resume_refused ht hx, Nat.zero_add]

/-- Where reading fails, it has found the first token that is wrong. What it took in before can be
completed to a program. If the token is not the end of the input, every list that begins with the
same tokens up to and with it fails in the same way. The fault is reported at the start or at the
end of the token. -/
theorem ofTokens_correct_prefix (ts : List Token) (f : SyntaxFault)
    (h : (ofTokens ts).outcome = .error f) :
    let k := (ofTokens ts).consumed
    ∃ t, (ts ++ [ending (.empty (.start ⟨"", ""⟩)) ts])[k]? = some t ∧
      (∃ more e, (ofTokens (ts.take k ++ more)).outcome = .ok e) ∧
      (t.kind.isStop = false → ∀ us, ts.take (k + 1) <+: us → ofTokens us = ofTokens ts) ∧
      (f.span.start = t.span.start ∨ f.span.start = t.span.stop) := by
  intro k
  obtain ⟨pre, s, t, hpre, hfeed, hcount, hprefix, hspan, ht⟩ := exists_of_error h
  have hk : k = pre.length := hcount.trans (Nat.zero_add _)
  have htake : ts.take k = pre := by
    have hle : pre.length ≤ ts.length := by simpa using hprefix.length_le
    have := List.prefix_iff_eq_take.1 ((List.prefix_append pre [t]).trans hprefix)
    rw [List.take_append_of_le_length hle] at this
    rw [hk, ← this]
  refine ⟨t, ?_, htake ▸ exists_ok_append hpre hfeed, fun hstop us hus => ?_, ?_⟩
  · obtain ⟨rest, hrest⟩ := hprefix
    rw [← hrest, hk]
    simp
  · -- a token that is not the end of the input is one of the list
    have hts : pre ++ [t] <+: ts := by
      refine (List.prefix_concat_iff.1 hprefix).resolve_left fun heq => ?_
      have hlast : t = ending _ ts := List.singleton_inj.1 (List.append_inj' heq rfl).2
      rw [hlast] at hstop
      cases hstop
    have htake' : ts.take (k + 1) = pre ++ [t] := by
      rw [List.prefix_iff_eq_take.1 hts, hk]
      simp
    rw [ofTokens_refused hpre hfeed hstop (ht hstop) (htake' ▸ hus),
      ofTokens_refused hpre hfeed hstop (ht hstop) hts]
  · rw [hspan]
    exact spanAt_start f.expected t.span

theorem ofTokens_correct_prefix_group :
    let s : Span := .empty (.start ⟨"a", ""⟩)
    let ts : List Token := [⟨.symbol .opening, s⟩, ⟨.number (.int 1), s⟩, ⟨.symbol .plus, s⟩,
      ⟨.symbol .closing, s⟩, ⟨.number (.int 2), s⟩, ⟨.stop, s⟩]
    (ofTokens ts).outcome = .error ⟨.atom, s.toLineEnd⟩ ∧ (ofTokens ts).consumed = 3 ∧
      (∃ more e, (ofTokens (ts.take 3 ++ more)).outcome = .ok e) ∧
      ∀ us, ts.take 4 <+: us → ofTokens us = ofTokens ts := by
  intro s ts
  have h : (ofTokens ts).outcome = .error ⟨.atom, s.toLineEnd⟩ := rfl
  obtain ⟨t, hkind, hmore, hsame, -⟩ := ofTokens_correct_prefix ts _ h
  cases hkind
  exact ⟨h, rfl, hmore, hsame rfl⟩

end Reading

end ArrowScript
