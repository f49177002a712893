import Mathlib
import ArrowScript.Proofs.Release
import ArrowScript.Proofs.TreeSpans

/-! The spans of a tree nest. A construct takes in its parts from left to right, and whatever is
still open begins before the part that it waits for. So the spans of the children of a node follow
one another within the span of the node, although parentheses around them are dropped. -/

namespace ArrowScript

namespace SourceExpr

structure InOrder (i j : Nat) (es : List SourceExpr) : Prop where
  ge : ∀ e ∈ es, i ≤ e.ann.start.index
  le : ∀ e ∈ es, e.ann.stop.index ≤ j
  ordered : es.Pairwise fun c d => c.ann.stop.index ≤ d.ann.start.index

structure Nests (tokens : List Token) (e : SourceExpr) : Prop where
  nonempty : e.ann.start.index < e.ann.stop.index
  starts : ∃ t ∈ tokens, t.span.start = e.ann.start
  stops : ∃ t ∈ tokens, t.span.stop = e.ann.stop
  children : InOrder e.ann.start.index e.ann.stop.index e.children

def Nested (tokens : List Token) (e : SourceExpr) : Prop := ∀ n, e.Contains n → Nests tokens n

variable {tokens : List Token} {e : SourceExpr} {es : List SourceExpr} {i j k : Nat}

theorem InOrder.nil : InOrder i j [] := ⟨by simp, by simp, .nil⟩

theorem InOrder.single (h : e.ann.stop.index ≤ j) : InOrder e.ann.start.index j [e] :=
  ⟨by simp, by simpa using h, List.pairwise_singleton _ _⟩

theorem InOrder.mono (h : InOrder i j es) (hjk : j ≤ k) : InOrder i k es :=
  ⟨h.ge, fun e he => (h.le e he).trans hjk, h.ordered⟩

theorem InOrder.concat (h : InOrder i j es) (hij : i ≤ j) (hj : j ≤ e.ann.start.index)
    (hjk : j ≤ k) (hk : e.ann.stop.index ≤ k) : InOrder i k (es ++ [e]) := by
  refine ⟨?_, ?_, ?_⟩
  · rw [List.forall_mem_append]
    exact ⟨h.ge, by simpa using hij.trans hj⟩
  · rw [List.forall_mem_append]
    exact ⟨(h.mono hjk).le, by simpa using hk⟩
  · rw [List.pairwise_append]
    refine ⟨h.ordered, List.pairwise_singleton _ _, fun c hc d hd => ?_⟩
    rw [List.mem_singleton.1 hd]
    exact (h.le c hc).trans hj

theorem Nested.self (h : Nested tokens e) : Nests tokens e := h e .refl

theorem Nested.node (h : Nests tokens e) (hc : ∀ c ∈ e.children, Nested tokens c) :
    Nested tokens e := Expr.forall_contains h hc

end SourceExpr

open SourceExpr (InOrder Nests Nested)

structure Pending.Fits (tokens : List Token) (i : Nat) (p : Pending) : Prop where
  starts : ∀ q ∈ p.begin?, ∃ t ∈ tokens, t.span.start = q
  le : ∀ q ∈ p.begin?, q.index ≤ i
  taken : ∀ q ∈ p.begin?, InOrder q.index i p.taken
  nested : ∀ e ∈ p.taken, Nested tokens e

theorem Pending.fits_single {tokens : List Token} {i : Nat} {e : SourceExpr} {p : Pending}
    (he : Nested tokens e) (hle : e.ann.stop.index ≤ i) (hbegin : p.begin? = some e.ann.start)
    (htaken : p.taken = [e]) : p.Fits tokens i := by
  refine ⟨fun q hq => ?_, fun q hq => ?_, fun q hq => ?_, by simpa [htaken] using he⟩ <;>
    obtain rfl : e.ann.start = q := Option.some.inj (hbegin.symm.trans hq)
  · exact he.self.starts
  · exact he.self.nonempty.le.trans hle
  · rw [htaken]
    exact .single hle

namespace ReadState

variable {tokens : List Token} {i j : Nat} {s s' : ReadState} {t : Token} {e e' : SourceExpr}
  {p : Pending} {stack stack' : List Pending}

/-- What the innermost construct has taken in lies before the byte `i`, and what each other one has
taken in lies before the beginning of the one in it. -/
def StackFits (tokens : List Token) : Nat → List Pending → Prop
  | _, [] => True
  | i, p :: stack => p.Fits tokens i ∧ StackFits tokens ((p.begin?.map (·.index)).getD i) stack

theorem StackFits.mono (h : StackFits tokens i stack) (hij : i ≤ j) : StackFits tokens j stack := by
  induction stack generalizing i j with
  | nil => trivial
  | cons p stack ih =>
    obtain ⟨hp, hstack⟩ := h
    refine ⟨⟨hp.starts, fun q hq => (hp.le q hq).trans hij, fun q hq => (hp.taken q hq).mono hij,
      hp.nested⟩, ?_⟩
    cases hq : p.begin? with
    | none =>
      rw [hq] at hstack
      exact ih hstack hij
    | some q =>
      rw [hq] at hstack
      exact hstack

def Fits (tokens : List Token) (i : Nat) (s : ReadState) : Prop :=
  match s.focus with
  | .want _ => StackFits tokens i s.stack
  | .arguments callee => Nested tokens callee ∧ callee.ann.stop.index ≤ i ∧
      StackFits tokens callee.ann.start.index s.stack
  | .header h => (∃ t ∈ tokens, t.span.start = h.begin) ∧
      h.begin.index ≤ i ∧ StackFits tokens h.begin.index s.stack
  | .operand e _ => Nested tokens e ∧ e.ann.stop.index ≤ i ∧
      StackFits tokens e.ann.start.index s.stack

theorem nested_concat {q : Position} (hq : q ∈ p.begin?) (hp : p.Fits tokens e.ann.start.index)
    (he : Nested tokens e) (hspan : e'.ann.start = q)
    (hstops : ∃ t ∈ tokens, t.span.stop = e'.ann.stop) (hle : e.ann.stop.index ≤ e'.ann.stop.index)
    (hchildren : e'.children = p.taken ++ [e]) : Nested tokens e' := by
  have hlt := he.self.nonempty
  have hqe := hp.le q hq
  refine .node ⟨?_, ?_, hstops, ?_⟩ fun c hc => ?_
  · rw [hspan]
    omega
  · rw [hspan]
    exact hp.starts q hq
  · rw [hspan, hchildren]
    exact (hp.taken q hq).concat hqe le_rfl (by omega) hle
  · rw [hchildren, List.mem_append, List.mem_singleton] at hc
    rcases hc with hc | rfl
    · exact hp.nested c hc
    · exact he

theorem nested_finishes (h : Finishes e stack e' stack') (he : Nested tokens e)
    (hs : StackFits tokens e.ann.start.index stack) :
    Nested tokens e' ∧ e'.ann.stop = e.ann.stop ∧ StackFits tokens e'.ann.start.index stack' := by
  induction h with
  | refl => exact ⟨he, rfl, hs⟩
  | @step e e₁ e' p callable stack stack' hp h ih =>
    obtain ⟨hfits, hrest⟩ := hs
    obtain ⟨q, hq, hspan, hchildren⟩ := Pending.finish?_parts hp
    rw [Option.mem_def.1 hq] at hrest
    have hstart : e₁.ann.start = q := by rw [hspan]
    have hstop : e₁.ann.stop = e.ann.stop := by rw [hspan]
    have he₁ : Nested tokens e₁ :=
      nested_concat hq hfits he hstart (hstop ▸ he.self.stops) (by rw [hstop]) hchildren
    obtain ⟨he', hstop', hstack'⟩ := ih he₁ (hstart ▸ hrest)
    exact ⟨he', hstop'.trans hstop, hstack'⟩

theorem fits_begins (htok : t ∈ tokens) (ht : t.span.start.index < t.span.stop.index)
    (hs : StackFits tokens t.span.start.index stack) (h : Begins t stack s) :
    s.Fits tokens t.span.stop.index := by
  have hstart : ∃ u ∈ tokens, u.span.start = t.span.start := ⟨t, htok, rfl⟩
  cases h with
  | @atom e hatom hspan hchildren =>
    have he : Nested tokens e := by
      refine .node ⟨?_, ?_, ?_, ?_⟩ (by simp [hchildren])
      · rwa [hspan]
      · rwa [hspan]
      · rw [hspan]
        exact ⟨t, htok, rfl⟩
      · rw [hchildren]
        exact .nil
    refine ⟨he, by rw [hspan], ?_⟩
    rw [hspan]
    exact hs
  | @part p slot hslot hbegin htaken =>
    -- a parenthesis does not show in the tree, so a group has no beginning of its own
    refine ⟨⟨fun q hq => ?_, fun q hq => ?_, fun q hq => ?_, by simp [htaken]⟩, ?_⟩
    · rw [hbegin q hq]
      exact hstart
    · rw [hbegin q hq]
      exact ht.le
    · rw [htaken]
      exact .nil
    · cases hq : p.begin? with
      | none => exact hs.mono ht.le
      | some q =>
        rw [hbegin q hq]
        exact hs
  | assignName => exact ⟨hstart, ht.le, hs⟩
  | forName => exact ⟨hstart, ht.le, hs⟩
  | functionName => exact ⟨hstart, ht.le, hs⟩

theorem fits_advances {hd : Header} (hstart : ∃ t ∈ tokens, t.span.start = hd.begin)
    (hle : hd.begin.index ≤ i) (hs : StackFits tokens hd.begin.index stack)
    (h : hd.Advances stack s) : s.Fits tokens i := by
  cases h with
  | within hbegin => exact ⟨hbegin ▸ hstart, hbegin ▸ hle, hbegin ▸ hs⟩
  | part hbegin htaken =>
    refine ⟨⟨?_, ?_, ?_, by simp [htaken]⟩, ?_⟩
    · rw [hbegin]
      rintro _ ⟨⟩
      exact hstart
    · rw [hbegin]
      rintro _ ⟨⟩
      exact hle
    · rw [htaken]
      exact fun _ _ => .nil
    · rw [hbegin]
      exact hs

theorem fits_continues (htok : t ∈ tokens) (ht : t.span.start.index < t.span.stop.index)
    (he : Nested tokens e) (hle : e.ann.stop.index ≤ t.span.start.index)
    (hs : StackFits tokens e.ann.start.index (p :: stack)) (h : p.Continues e t stack s) :
    s.Fits tokens t.span.stop.index := by
  obtain ⟨hp, hstack⟩ := hs
  have hlt := he.self.nonempty
  cases h with
  | group hclosing => exact ⟨he, by omega, hstack⟩
  | @call callee given hclosing =>
    refine ⟨nested_concat rfl hp he rfl ⟨t, htok, rfl⟩ ?_ rfl, le_rfl, hstack⟩
    change e.ann.stop.index ≤ t.span.stop.index
    omega
  | @part p p' hlink hbegin htaken =>
    refine ⟨⟨?_, ?_, ?_, ?_⟩, ?_⟩
    · rw [hbegin]
      exact hp.starts
    · rw [hbegin]
      intro q hq
      have hqe := hp.le q hq
      omega
    · rw [hbegin, htaken]
      intro q hq
      exact (hp.taken q hq).concat (hp.le q hq) le_rfl (by omega) (by omega)
    · rw [htaken, List.forall_mem_append]
      exact ⟨hp.nested, by simpa using he⟩
    · rw [hbegin]
      cases hq : p.begin? with
      | none =>
        rw [hq] at hstack
        exact hstack.mono (by simp only [Option.map_none, Option.getD_none]; omega)
      | some q =>
        rw [hq] at hstack
        exact hstack

theorem Fits.feed (hs : s.Fits tokens i) (htok : t ∈ tokens)
    (ht : t.span.start.index < t.span.stop.index) (hi : i ≤ t.span.start.index)
    (h : s.feed t = .ok s') : s'.Fits tokens t.span.stop.index := by
  cases takes_of_feed h with
  | begins h => exact fits_begins htok ht (hs.mono hi) h
  | @noArgument callee stack hk =>
    obtain ⟨hcallee, hle, hstack⟩ := hs
    have hlt := hcallee.self.nonempty
    have hinner : InOrder callee.ann.start.index t.span.stop.index [callee] := .single (by omega)
    have hcall : Nested tokens (.call (callee.ann.through t.span) callee []) := by
      refine .node ⟨?_, hcallee.self.starts, ⟨t, htok, rfl⟩, hinner⟩ ?_
      · change callee.ann.start.index < t.span.stop.index
        omega
      · simpa [Expr.children, Expr.parts] using hcallee
    exact ⟨hcall, le_rfl, hstack⟩
  | @argument callee stack s h =>
    obtain ⟨hcallee, hle, hstack⟩ := hs
    have hopen : StackFits tokens t.span.start.index (.argument callee [] :: stack) :=
      ⟨Pending.fits_single hcallee (hle.trans hi) rfl rfl, hstack⟩
    exact fits_begins htok ht hopen h
  | header h =>
    obtain ⟨hstart, hle, hstack⟩ := hs
    exact fits_advances hstart (by omega) hstack (Header.advances_of_continue? h)
  | operator hk hf =>
    obtain ⟨he', hstop, hrest⟩ := nested_finishes hf hs.1 hs.2.2
    have hle := hstop ▸ hs.2.1.trans (hi.trans ht.le)
    exact ⟨Pending.fits_single he' hle rfl rfl, hrest⟩
  | call hk hf =>
    obtain ⟨he', hstop, hrest⟩ := nested_finishes hf hs.1 hs.2.2
    exact ⟨he', hstop ▸ hs.2.1.trans (hi.trans ht.le), hrest⟩
  | continues hf hp =>
    obtain ⟨he', hstop, hrest⟩ := nested_finishes hf hs.1 hs.2.2
    exact fits_continues htok ht he' (hstop ▸ hs.2.1.trans hi) hrest hp

theorem Fits.feedAll {ts : List Token} (hs : s.Fits tokens i) (hts : ts ⊆ tokens)
    (hi : ∀ t ∈ ts, i ≤ t.span.start.index)
    (hnonempty : ∀ t ∈ ts, t.span.start.index < t.span.stop.index)
    (hordered : ts.Pairwise fun t u => t.span.stop.index ≤ u.span.start.index)
    (h : s.feedAll ts = .ok s') : ∃ j, s'.Fits tokens j := by
  induction ts generalizing s i with
  | nil =>
    cases h
    exact ⟨i, hs⟩
  | cons t ts ih =>
    rw [List.forall_mem_cons] at hi hnonempty
    rw [List.pairwise_cons] at hordered
    rw [feedAll_cons] at h
    cases ht : s.feed t with
    | error x => simp [ht, Except.bind] at h
    | ok s₁ =>
      rw [ht] at h
      exact ih (hs.feed (hts List.mem_cons_self) hnonempty.1 hi.1 ht)
        (fun u hu => hts (List.mem_cons_of_mem _ hu)) hordered.1 hnonempty.2 hordered.2 h

theorem Fits.finish (hs : s.Fits tokens i) (h : s.finish = .ok e) : Nested tokens e := by
  obtain ⟨focus, stack⟩ := s
  cases focus with
  | operand e' callable => exact (nested_finishes (finishes_of_settle h) hs.1 hs.2.2).1
  | _ => cases h

end ReadState

theorem Reading.nested_of_ok {ts : List Token} {e : SourceExpr}
    (hnonempty : ∀ t ∈ body ts, t.span.start.index < t.span.stop.index)
    (hordered : ts.Pairwise fun t u => t.span.stop.index ≤ u.span.start.index)
    (h : (ofTokens ts).outcome = .ok e) : Nested (body ts) e := by
  rcases resume_eq .start 0 (.empty (.start ⟨"", ""⟩)) ts with ⟨s, stop, hfeed, hs⟩ | ⟨x, f, -, hf⟩
  · rw [ofTokens, hs] at h
    have hstart : ReadState.start.Fits (body ts) 0 := trivial
    obtain ⟨j, hj⟩ := hstart.feedAll (List.Subset.refl _) (fun _ _ => Nat.zero_le _) hnonempty
      (hordered.sublist (List.takeWhile_sublist _)) hfeed
    exact hj.finish (outcome_atEnd.1 h)
  · cases h.symm.trans hf

namespace Source

variable {source : Source}

theorem reading_of_tree? {e : SourceExpr} (h : source.tree? = some e) :
    (Reading.ofTokens (TokenStream.ofSource source).tokens).outcome = .ok e := by
  unfold tree? at h
  dsimp only at h
  split at h
  · rename_i hread
    cases h
    exact hread
  · cases h

theorem token_nonempty (source : Source) :
    ∀ t ∈ Reading.body (TokenStream.ofSource source).tokens,
      t.span.start.index < t.span.stop.index := by
  obtain ⟨read, rest, ts, stop, error?, -, htiled, -, hstream⟩ :=
    TokenStream.ofChars_tiled (.start source) source.text.toList
  have hbody : Reading.body (TokenStream.ofSource source).tokens = ts := by
    rw [Reading.body, TokenStream.ofSource, hstream, List.takeWhile_append_of_pos]
    · simp [TokenKind.isStop]
    · exact fun t ht => by simp [htiled.isStop_eq_false t ht]
  rw [hbody]
  exact fun t ht => (htiled.inside t ht).2.1

/-- In the tree of a source, the span of each node goes from the start of a token to the end of one
and is not empty. The spans of its children lie within it, in the order of the source, and none of
them reaches into the next. -/
theorem spans_nest (source : Source) {e : SourceExpr} (h : source.tree? = some e)
    {n : SourceExpr} (hn : e.Contains n) :
    let tokens := Reading.body (TokenStream.ofSource source).tokens
    n.ann.start.index < n.ann.stop.index ∧
    (∃ t ∈ tokens, t.span.start = n.ann.start) ∧ (∃ t ∈ tokens, t.span.stop = n.ann.stop) ∧
    (∀ c ∈ n.children,
      n.ann.start.index ≤ c.ann.start.index ∧ c.ann.stop.index ≤ n.ann.stop.index) ∧
    n.children.Pairwise fun c d => c.ann.stop.index ≤ d.ann.start.index := by
  intro tokens
  obtain ⟨-, hordered, -⟩ := TokenStream.liesIn_ofSource source
  have hnests : Nests tokens n :=
    Reading.nested_of_ok (token_nonempty source) hordered (reading_of_tree? h) n hn
  exact ⟨hnests.nonempty, hnests.starts, hnests.stops,
    fun c hc => ⟨hnests.children.ge c hc, hnests.children.le c hc⟩, hnests.children.ordered⟩

theorem spans_nest_call :
    let source : Source := ⟨"a", "(f)(-x)"⟩
    let pos (i : Nat) : Position := ⟨source, i, 0, i⟩
    let n : SourceExpr := .call ⟨pos 1, pos 7⟩ (.name ⟨pos 1, pos 2⟩ "f")
      [.unary ⟨pos 4, pos 6⟩ .neg (.name ⟨pos 5, pos 6⟩ "x")]
    source.tree? = some n ∧ n.Contains n ∧ n.ann.start.index < n.ann.stop.index ∧
      n.children.Pairwise fun c d => c.ann.stop.index ≤ d.ann.start.index := by
  intro source pos n
  have htree : source.tree? = some n := by cbv
  obtain ⟨hlt, -, -, -, hordered⟩ := spans_nest source htree .refl
  exact ⟨htree, .refl, hlt, hordered⟩

end Source

end ArrowScript
