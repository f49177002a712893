import Mathlib
import ArrowScript.Proofs.CorrectPrefix
import ArrowScript.Proofs.Written

/-! A tree that is written is read back. Its tokens put parentheses around every construct, so that
no open construct of the surroundings can take a token of it, and none of its own parts can take a
token that belongs to the construct. -/

namespace ArrowScript

namespace ReadState

open Fragment (separated)
open ArrowScript.Expr (tokensArms tokensTail tokensList)

variable {α : Type} {s s' : ReadState} {stack : List Pending} {slot : Slot} {e : SourceExpr}
  {c : Bool} {k : TokenKind} {ks : List TokenKind} {Q : ReadState → Prop}

def Stands (e : Expr Unit) (stack : List Pending) (s : ReadState) : Prop :=
  ∃ e' c, s = ⟨.operand e' c, stack⟩ ∧ e'.erase = e

def Recovers (e : Expr α) : Prop :=
  ∀ slot stack, Moves (· = ⟨.want slot, stack⟩) e.tokens (Stands e.erase stack)

theorem Moves.step
    (h : ∀ t : Token, t.kind = k → ∃ s', s.feed t = .ok s' ∧ Moves (· = s') ks Q) :
    Moves (· = s) (k :: ks) Q := by
  rintro _ rfl ts hts
  obtain ⟨t, ts, rfl, rfl, rfl⟩ := List.map_eq_cons_iff.1 hts
  obtain ⟨s', hs', hmoves⟩ := h t rfl
  rw [feedAll_cons, hs']
  exact hmoves s' rfl ts rfl

theorem Recovers.bind {e : Expr α} (h : Recovers e)
    (hks : ∀ e' c, e'.erase = e.erase → Moves (· = ⟨.operand e' c, stack⟩) ks Q) :
    Moves (· = ⟨.want slot, stack⟩) (e.tokens ++ ks) Q := by
  refine (h slot stack).append ?_
  rintro _ ⟨e', c, rfl, he⟩
  exact hks e' c he _ rfl

theorem moves_done {u : Expr Unit} (h : e.erase = u) :
    Moves (· = ⟨.operand e c, stack⟩) [] (Stands u stack) := by
  refine .nil ?_
  rintro _ rfl
  exact ⟨e, c, rfl, h⟩

theorem moves_want (h : ∀ t : Token, t.kind = k →
      ∃ s', begin? slot t stack = some s' ∧ Moves (· = s') ks Q) :
    Moves (· = ⟨.want slot, stack⟩) (k :: ks) Q := by
  refine .step fun t ht => ?_
  obtain ⟨s', hs', hmoves⟩ := h t ht
  exact ⟨s', by simp only [feed, hs', Option.elim], hmoves⟩

theorem moves_open (h : Moves (· = ⟨.want .expression, .group :: stack⟩) ks Q) :
    Moves (· = ⟨.want slot, stack⟩) (.symbol .opening :: ks) Q :=
  moves_want fun t ht => ⟨_, by simp only [begin?, ht], h⟩

theorem moves_header {h : Header} (hs : h.continue? k stack = some s')
    (hmoves : Moves (· = s') ks Q) : Moves (· = ⟨.header h, stack⟩) (k :: ks) Q := by
  refine .step fun t ht => ⟨s', ?_, hmoves⟩
  simp only [feed, ht, hs, Option.elim]

theorem feed_eq_close {t : Token} (hop : t.kind.binaryOp? = none)
    (hopen : t.kind ≠ .symbol .opening) : feed ⟨.operand e c, stack⟩ t = close t e stack := by
  simp only [feed, hop]
  split
  · contradiction
  · rfl

theorem feed_continue {p : Pending} {t : Token} (hop : t.kind.binaryOp? = none)
    (hopen : t.kind ≠ .symbol .opening) (hs : p.continue? e t stack = some s') :
    feed ⟨.operand e c, p :: stack⟩ t = .ok s' := by
  rw [feed_eq_close hop hopen]
  simp only [close, hs]

inductive GivesWay (e : SourceExpr) : Pending → TokenKind → Pending → Prop
  | comma {callee given} :
      GivesWay e (.argument callee given) (.symbol .comma) (.argument callee (given ++ [e]))
  | do_ {start arms} : GivesWay e (.armTest start arms) (.keyword .do_) (.armBody start arms e)
  | elif {start arms test} :
      GivesWay e (.armBody start arms test) (.keyword .elif) (.armTest start (arms ++ [(test, e)]))
  | else_ {start arms test first elifs} (h : Pending.splitArms arms (test, e) = (first, elifs)) :
      GivesWay e (.armBody start arms test) (.keyword .else_)
        (.otherwise start first.1 first.2 elifs)
  | to_ {start x} : GivesWay e (.forFirst start x) (.keyword .to_) (.forBound start x e)
  | by_ {start x first} :
      GivesWay e (.forBound start x first) (.keyword .by_) (.forStep start x first e)
  | thenBound {start x first} :
      GivesWay e (.forBound start x first) (.keyword .then_) (.forBody start x first e none)
  | thenStep {start x first bound} :
      GivesWay e (.forStep start x first bound) (.keyword .then_)
        (.forBody start x first bound (some e))
  | thenTest {start} : GivesWay e (.whileTest start) (.keyword .then_) (.whileBody start e)

theorem moves_givesWay {p q : Pending} (h : GivesWay e p k q)
    (hmoves : Moves (· = ⟨.want .expression, q :: stack⟩) ks Q) :
    Moves (· = ⟨.operand e c, p :: stack⟩) (k :: ks) Q := by
  refine .step fun t ht => ⟨_, ?_, hmoves⟩
  have hop : t.kind.binaryOp? = none := by cases h <;> rw [ht] <;> rfl
  have hopen : t.kind ≠ .symbol .opening := by cases h <;> simp [ht]
  refine feed_continue hop hopen ?_
  cases h <;> simp only [Pending.continue?, ht]
  case else_ hsplit => rw [hsplit]

theorem continue?_closing {p : Pending} {t : Token} {r : SourceExpr × Bool}
    (hp : p.finish? e = some r) (ht : t.kind = .symbol .closing) :
    p.continue? e t stack = none := by
  cases p <;> simp_all [Pending.continue?, Pending.finish?]

theorem moves_close {p : Pending} {e' : SourceExpr} {c' : Bool} {u : Expr Unit}
    (hp : p.finish? e = some (e', c')) (hu : e'.erase = u) :
    Moves (· = ⟨.operand e c, p :: .group :: stack⟩) [.symbol .closing] (Stands u stack) := by
  refine .step fun t ht => ⟨⟨.operand e' true, stack⟩, ?_, moves_done hu⟩
  have hgroup : close t e' (.group :: stack) = .ok ⟨.operand e' true, stack⟩ := by
    simp only [close, Pending.continue?, ht]
  rw [feed_eq_close (by rw [ht]; rfl) (by simp [ht]), close, continue?_closing hp ht]
  simp only [hp, ht, hgroup]

theorem begin?_sign (op : UnaryOp) {t : Token} (ht : t.kind = op.token) :
    ∃ slot, begin? .expression t stack = some ⟨.want slot, .unary op t.span.start :: stack⟩ := by
  cases op <;> exact ⟨_, by simp only [begin?, ht, UnaryOp.token]; rfl⟩

theorem recovers_binary {a : α} {op : BinaryOp} {l r : Expr α} (hl : Recovers l) (hr : Recovers r) :
    Recovers (.binary a op l r) := by
  intro slot stack
  simp only [Expr.tokens, List.cons_append, List.append_assoc]
  refine moves_open (hl.bind fun l' c hl' => .step fun t ht => ?_)
  refine ⟨⟨.want (slotAfter op), .operator l' op :: .group :: stack⟩, ?_, ?_⟩
  · -- only the parenthesis is open below the left operand, so nothing collapses
    simp only [feed, TokenKind.binaryOp?_eq_some.2 ht]
    rfl
  · exact hr.bind fun r' c hr' => moves_close rfl (by simp [hl', hr'])

theorem recovers_unary {a : α} {op : UnaryOp} {e : Expr α} (he : Recovers e) :
    Recovers (.unary a op e) := by
  intro slot stack
  simp only [Expr.tokens, List.cons_append]
  refine moves_open (moves_want fun t ht => ?_)
  obtain ⟨slot', hbegin⟩ := begin?_sign op ht
  exact ⟨_, hbegin, he.bind fun e' c he' => moves_close rfl (by simp [he'])⟩

theorem recovers_assign {a : α} {x : String} {e : Expr α} (he : Recovers e) :
    Recovers (.assign a x e) := by
  intro slot stack
  simp only [Expr.tokens, List.cons_append]
  refine moves_open (moves_want fun t ht =>
    ⟨⟨.header (.assignName t.span.start), .group :: stack⟩, by simp [begin?, ht], ?_⟩)
  refine moves_header rfl (moves_header rfl ?_)
  exact he.bind fun e' c he' => moves_close rfl (by simp [he'])

theorem recovers_whileLoop {a : α} {t b : Expr α} (ht : Recovers t) (hb : Recovers b) :
    Recovers (.whileLoop a t b) := by
  intro slot stack
  simp only [Expr.tokens, List.cons_append, List.append_assoc]
  refine moves_open (moves_want fun u hu =>
    ⟨⟨.want .expression, .whileTest u.span.start :: .group :: stack⟩,
      by simp only [begin?, hu], ?_⟩)
  refine ht.bind fun t' c ht' => moves_givesWay .thenTest ?_
  exact hb.bind fun b' c hb' => moves_close rfl (by simp [ht', hb'])

theorem moves_tokensArms {start : Position} {arms : List (Expr α × Expr α)}
    (harms : ∀ arm ∈ arms, Recovers arm.1 ∧ Recovers arm.2)
    {given : List (SourceExpr × SourceExpr)} {t b : SourceExpr}
    (hmoves : ∀ given' t' b' c', (given' ++ [(t', b')]).map (fun a => (a.1.erase, a.2.erase)) =
      (given ++ [(t, b)]).map (fun a => (a.1.erase, a.2.erase)) ++
        arms.map (fun a => (a.1.erase, a.2.erase)) →
      Moves (· = ⟨.operand b' c', .armBody start given' t' :: stack⟩) ks Q) :
    Moves (· = ⟨.operand b c, .armBody start given t :: stack⟩) (tokensArms arms ++ ks) Q := by
  -- the arms of a conditional are read in turn. What follows them is read with the last arm open
  -- and the others behind it
  induction arms generalizing given t b c with
  | nil => exact hmoves given t b c (by simp)
  | cons arm arms ih =>
    obtain ⟨u, v⟩ := arm
    rw [List.forall_mem_cons] at harms
    obtain ⟨⟨hu, hv⟩, harms⟩ := harms
    simp only [tokensArms, List.cons_append, List.append_assoc]
    refine moves_givesWay .elif (hu.bind fun u' c hu' => moves_givesWay .do_ ?_)
    refine hv.bind fun v' c hv' => ih harms fun given' t' b' c' h => hmoves given' t' b' c' ?_
    simpa [hu', hv'] using h

theorem recovers_cond {a : α} {t b : Expr α} {arms : List (Expr α × Expr α)}
    {other : Option (Expr α)} (ht : Recovers t) (hb : Recovers b)
    (harms : ∀ arm ∈ arms, Recovers arm.1 ∧ Recovers arm.2) (hother : ∀ e ∈ other, Recovers e) :
    Recovers (.cond a t b arms other) := by
  intro slot stack
  simp only [Expr.tokens, List.cons_append, List.append_assoc]
  refine moves_open (moves_want fun u hu =>
    ⟨⟨.want .expression, .armTest u.span.start [] :: .group :: stack⟩,
      by simp only [begin?, hu], ?_⟩)
  refine ht.bind fun t' c ht' => moves_givesWay .do_ ?_
  refine hb.bind fun b' c hb' => moves_tokensArms harms fun given test body c h => ?_
  -- the arms as they have been read, the first one apart from the others
  obtain ⟨first, elifs, hsplit⟩ : ∃ first elifs,
      Pending.splitArms given (test, body) = (first, elifs) := ⟨_, _, rfl⟩
  simp only [Pending.splitArms_eq, hsplit, List.nil_append, List.map_cons, List.map_nil, ht', hb',
    List.singleton_append, List.cons.injEq, Prod.mk.injEq] at h
  obtain ⟨⟨hfirst, hfirst'⟩, helifs⟩ := h
  cases other with
  | none =>
    -- the last arm is the end of the conditional
    refine moves_close (by simp only [Pending.finish?, hsplit]; rfl) ?_
    simp [hfirst, hfirst', helifs]
  | some e =>
    refine moves_givesWay (.else_ hsplit) ((hother e rfl).bind fun e' c he' => moves_close rfl ?_)
    simp [hfirst, hfirst', helifs, he']

theorem recovers_forRange {a : α} {x : String} {i j b : Expr α} {step : Option (Expr α)}
    (hi : Recovers i) (hj : Recovers j) (hstep : ∀ e ∈ step, Recovers e) (hb : Recovers b) :
    Recovers (.forRange a x i j step b) := by
  intro slot stack
  simp only [Expr.tokens, List.cons_append, List.append_assoc]
  refine moves_open (moves_want fun u hu =>
    ⟨⟨.header (.forName u.span.start), .group :: stack⟩, by simp only [begin?, hu], ?_⟩)
  refine moves_header rfl (moves_header rfl (hi.bind fun i' c hi' => ?_))
  refine moves_givesWay .to_ (hj.bind fun j' c hj' => ?_)
  have hbody : ∀ step' : Option SourceExpr, step'.map Expr.erase = step.map Expr.erase →
      Moves (· = ⟨.want .expression, .forBody u.span.start x i' j' step' :: .group :: stack⟩)
        (b.tokens ++ [.symbol .closing]) (Stands (Expr.forRange a x i j step b).erase stack) := by
    intro step' hstep'
    exact hb.bind fun b' c hb' => moves_close rfl (by simp [hi', hj', hb', hstep'])
  cases step with
  | none => exact moves_givesWay .thenBound (hbody none rfl)
  | some e =>
    refine moves_givesWay .by_ ((hstep e rfl).bind fun e' c he' => ?_)
    exact moves_givesWay .thenStep (hbody (some e') (by simp [he']))

theorem moves_moreParams {start : Position} {n : Option String} (given : List String)
    {ps : List String}
    (hmoves : Moves (· = ⟨.header (.functionArrow start n (given ++ ps)), stack⟩) ks Q) :
    Moves (· = ⟨.header (.afterParam start n given), stack⟩)
      ((ps.map fun x => [TokenKind.name x]).flatMap (.symbol .comma :: ·) ++
        .symbol .closing :: ks) Q := by
  induction ps generalizing given with
  | nil =>
    rw [List.append_nil] at hmoves
    exact moves_header rfl hmoves
  | cons p ps ih =>
    have hrest := ih (given ++ [p]) (by rwa [List.append_assoc])
    exact moves_header rfl (moves_header rfl hrest)

theorem recovers_function {a : α} {n : Option String} {ps : List String} {b : Expr α}
    (hb : Recovers b) : Recovers (.function a n ps b) := by
  intro slot stack
  simp only [Expr.tokens, List.cons_append, List.append_assoc]
  refine moves_open (moves_want fun u hu =>
    ⟨⟨.header (.functionName u.span.start), .group :: stack⟩, by simp only [begin?, hu], ?_⟩)
  have hbody : Moves (· = ⟨.header (.functionArrow u.span.start n ps), .group :: stack⟩)
      (.symbol .arrow :: (b.tokens ++ [.symbol .closing]))
      (Stands (Expr.function a n ps b).erase stack) :=
    moves_header rfl (hb.bind fun b' c hb' => moves_close rfl (by simp [hb']))
  have hparams : Moves (· = ⟨.header (.firstParam u.span.start n), .group :: stack⟩)
      (separated (ps.map fun x => [TokenKind.name x]) ++
        .symbol .closing :: .symbol .arrow :: (b.tokens ++ [.symbol .closing]))
      (Stands (Expr.function a n ps b).erase stack) := by
    cases ps with
    | nil => exact moves_header rfl hbody
    | cons p ps => exact moves_header rfl (moves_moreParams [p] hbody)
  cases n with
  | none => exact moves_header rfl hparams
  | some x => exact moves_header rfl (moves_header rfl hparams)

theorem moves_arguments_of {callee : SourceExpr} (hks : ks ≠ [])
    (h : Moves (· = ⟨.want .argument, .argument callee [] :: stack⟩) ks Q) :
    Moves (· = ⟨.arguments callee, stack⟩) ks Q := by
  rintro _ rfl ts rfl
  obtain ⟨s', hs', hq⟩ := h _ rfl ts rfl
  obtain ⟨t, ts, rfl⟩ := List.exists_cons_of_ne_nil (mt List.map_eq_nil_iff.2 hks)
  refine ⟨s', ?_, hq⟩
  rw [feedAll_cons] at hs' ⊢
  have hfeed : feed ⟨.arguments callee, stack⟩ t =
      feed ⟨.want .argument, .argument callee [] :: stack⟩ t := by
    simp only [feed]
    split
    · rename_i ht
      simp [feed, begin?, ht, Except.bind] at hs'
    · rfl
  rwa [hfeed]

theorem moves_moreArguments {callee : SourceExpr} {given : List SourceExpr} {es : List (Expr α)}
    {u : Expr Unit} (hes : ∀ e ∈ es, Recovers e)
    (hu : .call () callee.erase ((given ++ [e]).map Expr.erase ++ es.map Expr.erase) = u) :
    Moves (· = ⟨.operand e c, .argument callee given :: stack⟩)
      ((tokensList es).flatMap (.symbol .comma :: ·) ++ [.symbol .closing]) (Stands u stack) := by
  induction es generalizing given e c with
  | nil =>
    refine .step fun t ht => ?_
    refine ⟨⟨.operand (.call (callee.ann.through t.span) callee (given ++ [e])) false, stack⟩,
      feed_continue (by rw [ht]; rfl) (by simp [ht]) ?_, moves_done (by simpa using hu)⟩
    simp only [Pending.continue?, ht]
  | cons e₁ es ih =>
    rw [List.forall_mem_cons] at hes
    simp only [tokensList, List.flatMap_cons, List.cons_append, List.append_assoc]
    refine moves_givesWay .comma (hes.1.bind fun e' c he' => ih hes.2 ?_)
    simpa [he'] using hu

theorem recovers_call {a : α} {callee : Expr α} {es : List (Expr α)} (hc : Recovers callee)
    (hes : ∀ e ∈ es, Recovers e) : Recovers (.call a callee es) := by
  intro slot stack
  simp only [Expr.tokens, List.cons_append, List.append_assoc]
  refine moves_open (hc.bind fun callee' c hc' => .step fun t ht => ?_)
  refine ⟨⟨.operand callee' true, stack⟩, feed_continue (by rw [ht]; rfl) (by simp [ht]) ?_,
    .step fun t ht => ?_⟩
  · simp only [Pending.continue?, ht]
  refine ⟨⟨.arguments callee', stack⟩, by simp [feed, ht, TokenKind.binaryOp?], ?_⟩
  cases es with
  | nil =>
    refine .step fun t ht => ?_
    exact ⟨⟨.operand (.call (callee'.ann.through t.span) callee' []) false, stack⟩,
      by simp only [feed, ht], moves_done (by simp [hc'])⟩
  | cons e es =>
    rw [List.forall_mem_cons] at hes
    simp only [tokensList, separated, List.append_assoc]
    have hargs : Moves (· = ⟨.want .argument, .argument callee' [] :: stack⟩)
        (e.tokens ++ ((tokensList es).flatMap (.symbol .comma :: ·) ++ [.symbol .closing]))
        (Stands (Expr.call a callee (e :: es)).erase stack) :=
      hes.1.bind fun e' c he' => moves_moreArguments hes.2 (by simp [hc', he'])
    exact moves_arguments_of (by simp) hargs

theorem recovers_atom {e : Expr α} {f : Span → SourceExpr} (htokens : e.tokens = [k])
    (hbegin : ∀ slot t stack, t.kind = k →
      begin? slot t stack = some ⟨.operand (f t.span) true, stack⟩)
    (hf : ∀ s, (f s).erase = e.erase) : Recovers e := by
  intro slot stack
  rw [htokens]
  exact moves_want fun t ht => ⟨_, hbegin slot t stack ht, moves_done (hf t.span)⟩

theorem recovers (e : Expr α) : Recovers e := by
  induction e with
  | number a n =>
    exact recovers_atom (k := .number n) (f := (.number · n)) (by simp only [Expr.tokens])
      (fun slot t stack ht => by simp only [begin?, ht]) fun _ => rfl
  | text a s =>
    exact recovers_atom (k := .text s) (f := (.text · s)) (by simp only [Expr.tokens])
      (fun slot t stack ht => by simp only [begin?, ht]) fun _ => rfl
  | name a x =>
    exact recovers_atom (k := .name x) (f := (.name · x)) (by simp only [Expr.tokens])
      (fun slot t stack ht => by simp only [begin?, ht]) fun _ => rfl
  | binary a op l r hl hr => exact recovers_binary hl hr
  | unary a op e he => exact recovers_unary he
  | assign a x e he => exact recovers_assign he
  | cond a t b arms other ht hb harms hother => exact recovers_cond ht hb harms hother
  | forRange a x i j step b hi hj hstep hb => exact recovers_forRange hi hj hstep hb
  | whileLoop a t b ht hb => exact recovers_whileLoop ht hb
  | function a n ps b hb => exact recovers_function hb
  | call a c es hc hes => exact recovers_call hc hes

end ReadState

namespace Lexeme

theorem Splits.isStop_eq_false {cs : List Char} {ps : List Segment} (h : Splits cs ps) :
    ∀ k ∈ ps.filterMap Segment.kind?, k.isStop = false := by
  induction h with
  | nil => simp
  | blank _ _ ih => exact ih
  | lexeme hw _ _ ih => exact List.forall_mem_cons.2 ⟨isStop_of_spells hw, ih⟩

end Lexeme

namespace Expr

open Lexeme Reading ReadState

variable {α : Type}

/-- A tree that can be written is read back from its source, in which no fault is reported. -/
theorem read_print (t : Expr α) (ht : t.Writable) (file : String) :
    let stream := TokenStream.ofSource ⟨file, t.print⟩
    stream.error? = none ∧
      ∃ e, (ofTokens stream.tokens).outcome = .ok e ∧ e.erase = t.erase := by
  intro stream
  obtain ⟨ps, hps, hkinds⟩ : Lexes t.print.toList t.tokens := by
    simpa using ht.prints [] [] apart_nil ⟨[], .nil, rfl⟩
  obtain ⟨herror, htokens⟩ := TokenStream.ofChars_of_splits hps (.start ⟨file, t.print⟩)
  refine ⟨herror, ?_⟩
  -- the tokens of the tree, and the end of the input behind them
  obtain ⟨us, vs, hstream, hus, hvs⟩ := List.map_eq_append_iff.1 htokens
  obtain ⟨v, rfl, hv⟩ := List.map_eq_singleton_iff.1 hvs
  have hstop : ∀ u ∈ us, u.kind.isStop = false := by
    have := hps.isStop_eq_false
    rw [← hus] at this
    simpa using this
  obtain ⟨s, hfeed, e, c, rfl, he⟩ := recovers t .expression [] .start rfl us (hus.trans hkinds)
  refine ⟨e, ?_, he⟩
  have hend : ofTokens (us ++ [v]) =
      resume ⟨.operand e c, []⟩ (0 + us.length) (ending (.empty (.start ⟨"", ""⟩)) us).span [v] :=
    resume_append hstop hfeed
  rw [show stream.tokens = us ++ [v] from hstream, hend]
  simp [resume, hv, TokenKind.isStop, atEnd, finish, settle]

theorem read_print_call :
    let t : Expr Unit := .call () (.function () (some "f") ["x"]
      (.binary () .mul (.name () "x") (.number () (.float 2.5)))) [.text () "a\"\\"]
    t.print = "((fn f(x) -> (x * 2.5)))(\"a\\\"\\\\\")" ∧
      (TokenStream.ofSource ⟨"in", t.print⟩).error? = none ∧
      ∃ e, (ofTokens (TokenStream.ofSource ⟨"in", t.print⟩).tokens).outcome = .ok e ∧
        e.erase = t.erase := by
  intro t
  have hf : IsName "f" := ⟨⟨'f', [], rfl, by decide, by simp⟩, fun k => by cases k <;> decide⟩
  have hx : IsName "x" := ⟨⟨'x', [], rfl, by decide, by simp⟩, fun k => by cases k <;> decide⟩
  have hn : Number.Unsigned (.float 2.5) := ⟨⟨5629499534213120, -51, false⟩, by decide +kernel⟩
  have ht : t.Writable := .call (.function (by simpa using hf) (by simpa using hx)
    (.binary (.name hx) (.number hn))) (by simpa using .text)
  exact ⟨by decide +kernel, read_print t ht "in"⟩

end Expr

end ArrowScript
