import Mathlib
import ArrowScript.Proofs.CorrectPrefix
import ArrowScript.Proofs.ReadSteps
import ArrowScript.Proofs.Tiling

/-! The spans of trees. Reading takes the start of a construct from its first token and the end from
its last, or from those of its parts. Since tokens come in the order of the text, what begins a
construct never lies behind what ends it, and every span lies in the source that was read. -/

namespace ArrowScript

abbrev SourceExpr.LiesIn (source : Source) (e : SourceExpr) : Prop :=
  Expr.Every (Span.LiesIn source) e

structure Pending.Placed (source : Source) (i : Nat) (p : Pending) : Prop where
  cursor : ∀ q ∈ p.begin?, q.IsCursorOf source
  le : ∀ q ∈ p.begin?, q.index ≤ i
  taken : ∀ e ∈ p.taken, SourceExpr.LiesIn source e

theorem Pending.Placed.mono {source : Source} {i j : Nat} {p : Pending} (h : p.Placed source i)
    (hij : i ≤ j) : p.Placed source j := ⟨h.cursor, fun q hq => (h.le q hq).trans hij, h.taken⟩

theorem Pending.placed_single {source : Source} {i : Nat} {e : SourceExpr} {p : Pending}
    (he : SourceExpr.LiesIn source e) (hle : e.ann.start.index ≤ i)
    (hbegin : p.begin? = some e.ann.start) (htaken : p.taken = [e]) : p.Placed source i := by
  refine ⟨fun q hq => ?_, fun q hq => ?_, by simpa [htaken] using he⟩ <;>
    obtain rfl : e.ann.start = q := Option.some.inj (hbegin.symm.trans hq)
  · exact he.ann.start
  · exact hle

namespace ReadState

/-- Everything that a state holds lies in the source and at `i` or before. What is open behind an
operand begins before the operand ends. -/
def Placed (source : Source) (i : Nat) (s : ReadState) : Prop :=
  match s.focus with
  | .want _ => ∀ p ∈ s.stack, p.Placed source i
  | .arguments callee => SourceExpr.LiesIn source callee ∧ callee.ann.start.index ≤ i ∧
      ∀ p ∈ s.stack, p.Placed source i
  | .header h => h.begin.IsCursorOf source ∧ h.begin.index ≤ i ∧ ∀ p ∈ s.stack, p.Placed source i
  | .operand e _ => SourceExpr.LiesIn source e ∧ e.ann.stop.index ≤ i ∧
      ∀ p ∈ s.stack, p.Placed source e.ann.stop.index

variable {source : Source} {i : Nat} {s s' : ReadState} {t : Token} {e e' : SourceExpr}
  {p : Pending} {stack stack' : List Pending}

theorem placed_start : start.Placed source 0 := by
  intro p hp
  cases hp

theorem liesIn_concat {q : Position} (hq : q ∈ p.begin?) (hp : p.Placed source i)
    (he : SourceExpr.LiesIn source e) (hstart : e'.ann.start = q)
    (hstop : e'.ann.stop.IsCursorOf source) (hi : i ≤ e'.ann.stop.index)
    (hchildren : e'.children = p.taken ++ [e]) : SourceExpr.LiesIn source e' := by
  refine .node ⟨?_, hstop, ?_⟩ ?_
  · rw [hstart]
    exact hp.cursor q hq
  · rw [hstart]
    exact (hp.le q hq).trans hi
  · rw [hchildren, List.forall_mem_append]
    exact ⟨hp.taken, by simpa using he⟩

theorem placed_finishes (h : Finishes e stack e' stack') (he : SourceExpr.LiesIn source e)
    (hstack : ∀ p ∈ stack, p.Placed source e.ann.stop.index) :
    SourceExpr.LiesIn source e' ∧ e'.ann.stop = e.ann.stop ∧
      ∀ p ∈ stack', p.Placed source e'.ann.stop.index := by
  induction h with
  | refl => exact ⟨he, rfl, hstack⟩
  | @step e e₁ e' p callable stack stack' hp h ih =>
    obtain ⟨hplaced, hrest⟩ := List.forall_mem_cons.1 hstack
    obtain ⟨q, hq, hspan, hchildren⟩ := Pending.finish?_parts hp
    have hstop : e₁.ann.stop = e.ann.stop := by rw [hspan]
    have he₁ : SourceExpr.LiesIn source e₁ :=
      liesIn_concat hq hplaced he (by rw [hspan]) (hstop ▸ he.ann.stop) (by rw [hstop]) hchildren
    obtain ⟨he', hstop', hstack'⟩ := ih he₁ (hstop ▸ hrest)
    exact ⟨he', hstop'.trans hstop, hstack'⟩

theorem placed_begins (ht : t.span.LiesIn source)
    (hstack : ∀ p ∈ stack, p.Placed source t.span.start.index) (h : Begins t stack s) :
    s.Placed source t.span.stop.index := by
  have hlater : ∀ p ∈ stack, p.Placed source t.span.stop.index :=
    fun p hp => (hstack p hp).mono ht.le
  cases h with
  | atom hk hspan hchildren =>
    refine ⟨.node (hspan ▸ ht) (by simp [hchildren]), by rw [hspan], ?_⟩
    rw [hspan]
    exact hlater
  | part hk hbegin htaken =>
    refine List.forall_mem_cons.2 ⟨⟨fun q hq => ?_, fun q hq => ?_, by simp [htaken]⟩, hlater⟩
    · exact hbegin q hq ▸ ht.start
    · exact hbegin q hq ▸ ht.le
  | assignName => exact ⟨ht.start, ht.le, hlater⟩
  | forName => exact ⟨ht.start, ht.le, hlater⟩
  | functionName => exact ⟨ht.start, ht.le, hlater⟩

theorem placed_advances {hd : Header} (hcursor : hd.begin.IsCursorOf source)
    (hle : hd.begin.index ≤ i) (hstack : ∀ p ∈ stack, p.Placed source i)
    (h : hd.Advances stack s) : s.Placed source i := by
  cases h with
  | within hbegin => exact ⟨hbegin ▸ hcursor, hbegin ▸ hle, hstack⟩
  | part hbegin htaken =>
    refine List.forall_mem_cons.2 ⟨⟨?_, ?_, by simp [htaken]⟩, hstack⟩ <;> rw [hbegin]
    · rintro _ ⟨⟩
      exact hcursor
    · rintro _ ⟨⟩
      exact hle

theorem placed_continues (he : SourceExpr.LiesIn source e) (ht : t.span.LiesIn source)
    (hle : e.ann.stop.index ≤ t.span.stop.index)
    (hstack : ∀ q ∈ p :: stack, q.Placed source e.ann.stop.index)
    (h : p.Continues e t stack s) : s.Placed source t.span.stop.index := by
  obtain ⟨hp, hrest⟩ := List.forall_mem_cons.1 hstack
  have hlater : ∀ p ∈ stack, p.Placed source t.span.stop.index :=
    fun p hp => (hrest p hp).mono hle
  cases h with
  | group => exact ⟨he, hle, hrest⟩
  | call => exact ⟨liesIn_concat rfl hp he rfl ht.stop hle rfl, le_rfl, hlater⟩
  | part hk hbegin htaken =>
    refine List.forall_mem_cons.2 ⟨⟨hbegin ▸ hp.cursor, hbegin ▸ (hp.mono hle).le, ?_⟩, hlater⟩
    rw [htaken, List.forall_mem_append]
    exact ⟨hp.taken, by simpa using he⟩

theorem Placed.feed (hs : s.Placed source i) (ht : t.span.LiesIn source)
    (hi : i ≤ t.span.start.index) (h : s.feed t = .ok s') :
    s'.Placed source t.span.stop.index := by
  have hstop := hi.trans ht.le
  cases takes_of_feed h with
  | begins h => exact placed_begins ht (fun p hp => (hs p hp).mono hi) h
  | @noArgument callee stack hk =>
    obtain ⟨hcallee, hstart, hrest⟩ := hs
    have hcall : SourceExpr.LiesIn source (.call (callee.ann.through t.span) callee []) := by
      refine .node ⟨hcallee.ann.start, ht.stop, hstart.trans hstop⟩ ?_
      simpa [Expr.children, Expr.parts] using hcallee
    exact ⟨hcall, le_rfl, fun p hp => (hrest p hp).mono hstop⟩
  | @argument callee stack s' h =>
    obtain ⟨hcallee, hstart, hrest⟩ := hs
    have hopen : ∀ p ∈ .argument callee [] :: stack, p.Placed source i :=
      List.forall_mem_cons.2 ⟨Pending.placed_single hcallee hstart rfl rfl, hrest⟩
    exact placed_begins ht (fun p hp => (hopen p hp).mono hi) h
  | header h =>
    obtain ⟨hcursor, hle, hrest⟩ := hs
    exact placed_advances hcursor (hle.trans hstop) (fun p hp => (hrest p hp).mono hstop)
      (Header.advances_of_continue? h)
  | operator hk hf =>
    obtain ⟨he', hend, hrest⟩ := placed_finishes hf hs.1 hs.2.2
    have hle := hend ▸ hs.2.1.trans hstop
    exact List.forall_mem_cons.2 ⟨Pending.placed_single he' (he'.ann.le.trans hle) rfl rfl,
      fun p hp => (hrest p hp).mono hle⟩
  | call hk hf =>
    obtain ⟨he', hend, hrest⟩ := placed_finishes hf hs.1 hs.2.2
    have hle := hend ▸ hs.2.1.trans hstop
    exact ⟨he', he'.ann.le.trans hle, fun p hp => (hrest p hp).mono hle⟩
  | continues hf hp =>
    obtain ⟨he', hend, hrest⟩ := placed_finishes hf hs.1 hs.2.2
    exact placed_continues he' ht (hend ▸ hs.2.1.trans hstop) hrest hp

theorem Placed.finish (hs : s.Placed source i) (h : s.finish = .ok e) :
    SourceExpr.LiesIn source e := by
  obtain ⟨focus, stack⟩ := s
  cases focus with
  | operand e' callable => exact (placed_finishes (finishes_of_settle h) hs.1 hs.2.2).1
  | _ => cases h

end ReadState

namespace Reading

open ReadState

variable {source : Source} {i n : Nat} {s : ReadState} {ts : List Token} {stop : Span}

def LiesIn (source : Source) (r : Reading) : Prop :=
  match r.outcome with
  | .ok e => SourceExpr.LiesIn source e
  | .error f => f.span.LiesIn source

theorem liesIn_spanAt (x : Expectation) {s : Span} (hs : s.LiesIn source) :
    (x.spanAt s).LiesIn source := by
  unfold Expectation.spanAt
  split
  · exact hs.toLineEnd
  · exact hs.toLineEnd
  · exact hs.behind
  · exact hs

theorem liesIn_atEnd (hs : s.Placed source i) (hstop : stop.LiesIn source) :
    (atEnd s n stop).LiesIn source := by
  unfold LiesIn
  cases h : (atEnd s n stop).outcome with
  | ok e => exact hs.finish (outcome_atEnd.1 h)
  | error f =>
    change f.span.LiesIn source
    rw [error_of_atEnd h]
    exact liesIn_spanAt _ hstop

theorem liesIn_resume (hs : s.Placed source i) (hstop : stop.LiesIn source)
    (hts : ∀ t ∈ ts, t.span.LiesIn source) (hi : ∀ t ∈ ts, i ≤ t.span.start.index)
    (hordered : ts.Pairwise fun t u => t.span.stop.index ≤ u.span.start.index) :
    (resume s n stop ts).LiesIn source := by
  induction ts generalizing s i n stop with
  | nil => exact liesIn_atEnd hs hstop
  | cons t ts ih =>
    rw [List.forall_mem_cons] at hts hi
    rw [List.pairwise_cons] at hordered
    cases hk : t.kind.isStop with
    | true =>
      simp only [resume, hk, if_true]
      exact liesIn_atEnd hs hts.1
    | false =>
      cases hf : s.feed t with
      | error x =>
        rw [resume_refused hk hf]
        exact liesIn_spanAt x hts.1
      | ok s' =>
        rw [resume_taken hk hf]
        exact ih (hs.feed hts.1 hi.1 hf) hts.1.behind hts.2 hordered.1 hordered.2

end Reading

namespace TokenStream

open Position (Follows)

theorem liesIn_ofSource (source : Source) :
    (∀ t ∈ (ofSource source).tokens, t.span.LiesIn source) ∧
    (ofSource source).tokens.Pairwise (fun t u => t.span.stop.index ≤ u.span.start.index) ∧
    ∀ fault ∈ (ofSource source).error?, fault.span.LiesIn source := by
  obtain ⟨read, rest, ts, stop, error?, htext, htiled, hending, hstream⟩ :=
    ofChars_tiled (.start source) source.text.toList
  have hread : read <+: source.text.toList := ⟨rest, htext.symm⟩
  have hend : (Position.advanceOver (.start source) read).Follows read :=
    (Follows.start source).advanceOver hread
  have hfault : Span.LiesIn source ⟨Position.advanceOver (.start source) read, stop⟩ ∧
      ∀ fault ∈ error?, fault.span = ⟨Position.advanceOver (.start source) read, stop⟩ := by
    have hcursor : (Position.advanceOver (.start source) read).IsCursorOf source :=
      ⟨Position.source_advanceOver _ _, read, hend⟩
    cases hending with
    | done => exact ⟨.empty hcursor, by simp⟩
    | @fault cause w hw rest =>
      have hstarts : read ++ w <+: source.text.toList := by
        rw [htext, List.prefix_append_right_inj]
        exact List.prefix_append _ _
      have hw' := hend.advanceOver (hcursor.1 ▸ hstarts)
      refine ⟨⟨hcursor, ⟨?_, _, hw'⟩, ?_⟩, by simp⟩
      · rw [Position.source_advanceOver]
        exact hcursor.1
      · rw [Position.index_advanceOver _ w]
        exact Nat.le_add_right _ _
  rw [ofSource, hstream]
  refine ⟨?_, ?_, fun fault hf => hfault.2 fault hf ▸ hfault.1⟩
  · rw [List.forall_mem_append]
    refine ⟨htiled.liesIn (Follows.start source) rfl hread, ?_⟩
    simpa using Span.LiesIn.empty hfault.1.stop
  · rw [List.pairwise_append]
    refine ⟨htiled.ordered, List.pairwise_singleton _ _, fun t ht u hu => ?_⟩
    rw [List.mem_singleton.1 hu]
    calc t.span.stop.index ≤ (Position.start source).index + String.utf8Len read :=
          (htiled.inside t ht).2.2
      _ = (Position.advanceOver (.start source) read).index :=
          (Position.index_advanceOver _ _).symm
      _ ≤ stop.index := hfault.1.le

end TokenStream

theorem Reading.liesIn_ofSource (source : Source) :
    (Reading.ofTokens (TokenStream.ofSource source).tokens).LiesIn source := by
  obtain ⟨hts, hordered, -⟩ := TokenStream.liesIn_ofSource source
  have hstart : (Span.empty (.start source)).LiesIn source :=
    .empty (Position.isCursorOf_start source)
  have h := liesIn_resume (n := 0) ReadState.placed_start hstart hts
    (fun _ _ => Nat.zero_le _) hordered
  -- a list that is not empty is read without a look at where it is taken to end
  cases hs : (TokenStream.ofSource source).tokens with
  | nil =>
    obtain ⟨_, _, _, _, _, -, -, -, hstream⟩ :=
      TokenStream.ofChars_tiled (.start source) source.text.toList
    rw [TokenStream.ofSource, hstream] at hs
    simp at hs
  | cons t ts =>
    rw [hs] at h
    exact h

end ArrowScript
