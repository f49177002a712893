import Mathlib
import ArrowScript.Proofs.Binary64
import ArrowScript.Proofs.Bounds
import ArrowScript.Proofs.Isolation

/-! Loops over integers. The index is advanced by additions that may leave the integers, and then it
is compared as a floating-point number; still the loop runs for the terms of an arithmetic
progression, and for no other index. -/

namespace ArrowScript

namespace Number

theorem lt_int_int (m n : Int64) : (int m).lt (int n) = decide (m.toInt < n.toInt) := by
  simp only [lt, compare?]
  rw [Bool.eq_iff_iff]
  simp [compare_lt_iff_lt]

theorem le_zero_int (n : Int64) : (int 0).le (int n) = decide (0 ≤ n.toInt) := by
  simp only [le, lt, eq, compare?]
  rw [Bool.eq_iff_iff]
  simp [compare_lt_iff_lt, le_iff_lt_or_eq]

theorem Fits.toInt_ofInt {n : ℤ} (h : Fits n) : (Int64.ofInt n).toInt = n :=
  Int64.toInt_ofInt_of_le h.1 (Int.lt_of_le_sub_one h.2)

theorem fits_toInt (n : Int64) : Fits n.toInt := ⟨n.le_toInt, Int.le_sub_one_of_lt n.toInt_lt⟩

end Number

structure Loop where
  keep : Retention
  span : Span
  var : String
  body : SourceExpr
  frame : Frame
  first : Int64
  bound : Int64
  step : Int64

namespace Loop

open Number (Fits)

variable (l : Loop)

def length : ℕ := ⌈((l.bound.toInt - l.first.toInt : ℤ) : ℚ) / (l.step.toInt : ℚ)⌉₊

def term (k : ℕ) : ℤ := l.first.toInt + k * l.step.toInt

def index : ℕ → Number
  | 0 => .int l.first
  | k + 1 => (index k).add (.int l.step)

variable {l} {k : ℕ}

theorem term_succ (k : ℕ) : l.term (k + 1) = l.term k + l.step.toInt := by
  simp only [term]
  push_cast
  ring

theorem lt_length_iff_of_pos (hstep : 0 < l.step.toInt) :
    k < l.length ↔ l.term k < l.bound.toInt := by
  have hcast : (0 : ℚ) < l.step.toInt := by exact_mod_cast hstep
  rw [length, Nat.lt_ceil, lt_div_iff₀ hcast, term]
  norm_cast
  omega

theorem lt_length_iff_of_neg (hstep : l.step.toInt < 0) :
    k < l.length ↔ l.bound.toInt < l.term k := by
  have hcast : (l.step.toInt : ℚ) < 0 := by exact_mod_cast hstep
  rw [length, Nat.lt_ceil, lt_div_iff_of_neg hcast, term]
  norm_cast
  omega

theorem fits_term (hstep : l.step.toInt ≠ 0) (hk : k < l.length) : Fits (l.term k) := by
  obtain ⟨hfirst, hfirst'⟩ := Number.fits_toInt l.first
  obtain ⟨hbound, hbound'⟩ := Number.fits_toInt l.bound
  rcases hstep.lt_or_gt with hneg | hpos
  · have hlt := (lt_length_iff_of_neg hneg).1 hk
    have hle : l.term k ≤ l.first.toInt :=
      add_le_of_nonpos_right (mul_nonpos_of_nonneg_of_nonpos (Int.natCast_nonneg k) hneg.le)
    exact ⟨by omega, by omega⟩
  · have hlt := (lt_length_iff_of_pos hpos).1 hk
    have hle : l.first.toInt ≤ l.term k :=
      le_add_of_nonneg_right (mul_nonneg (Int.natCast_nonneg k) hpos.le)
    exact ⟨by omega, by omega⟩

theorem index_eq (hstep : l.step.toInt ≠ 0) (hk : k < l.length) :
    l.index k = .int (.ofInt (l.term k)) := by
  induction k with
  | zero => simp [index, term]
  | succ k ih =>
    have hfits := fits_term hstep hk
    have hbefore := fits_term hstep (Nat.lt_of_succ_lt hk)
    rw [term_succ] at hfits ⊢
    rw [index, ih (Nat.lt_of_succ_lt hk), Number.add_int, hbefore.toInt_ofInt, if_pos hfits]

theorem inRange_int (i : Int64) (hi : i.toInt = l.term k) (hstep : l.step.toInt ≠ 0) :
    Eval.inRange (.int l.step) (.int l.bound) (.int i) = decide (k < l.length) := by
  rw [Eval.inRange, Number.le_zero_int, Number.lt_int_int, Number.lt_int_int, hi]
  rcases hstep.lt_or_gt with hneg | hpos
  · rw [if_neg (by simpa using hneg), decide_eq_decide.2 (lt_length_iff_of_neg hneg)]
  · rw [if_pos (by simpa using hpos.le), decide_eq_decide.2 (lt_length_iff_of_pos hpos)]

theorem inRange_overflow (hstep : l.step.toInt ≠ 0) (hk : k < l.length)
    (hfits : ¬Fits (l.term (k + 1))) :
    Eval.inRange (.int l.step) (.int l.bound) (l.index (k + 1)) = false := by
  have hbefore := fits_term hstep hk
  have hterm := hbefore.toInt_ofInt
  rw [term_succ] at hfits
  rw [index, index_eq hstep hk, Eval.inRange, Number.le_zero_int]
  obtain ⟨hmin, hmax⟩ := hbefore
  rcases hstep.lt_or_gt with hneg | hpos
  · rw [if_neg (by simpa using hneg)]
    apply Number.not_lt_add
    rw [hterm]
    by_contra hle
    exact hfits ⟨by omega, by omega⟩
  · rw [if_pos (by simpa using hpos.le)]
    apply Number.not_add_lt
    rw [hterm]
    by_contra hle
    exact hfits ⟨by omega, by omega⟩

theorem inRange_index (hstep : l.step.toInt ≠ 0) (hk : k ≤ l.length) :
    Eval.inRange (.int l.step) (.int l.bound) (l.index k) = decide (k < l.length) := by
  rcases hk.lt_or_eq with hlt | heq
  · rw [index_eq hstep hlt]
    exact inRange_int _ (fits_term hstep hlt).toInt_ofInt hstep
  · cases k with
    | zero => exact inRange_int l.first (by simp [term]) hstep
    | succ k =>
      have hlt : k < l.length := heq ▸ Nat.lt_succ_self k
      by_cases hfits : Fits (l.term (k + 1))
      · have hindex : l.index (k + 1) = .int (.ofInt (l.term (k + 1))) := by
          have hbefore := fits_term hstep hlt
          rw [term_succ] at hfits ⊢
          rw [index, index_eq hstep hlt, Number.add_int, hbefore.toInt_ofInt, if_pos hfits]
        rw [hindex]
        exact inRange_int _ hfits.toInt_ofInt hstep
      · rw [inRange_overflow hstep hlt hfits, heq, decide_eq_false (lt_irrefl _)]

variable (l)

def begin (k : ℕ) (m : Machine) : Machine :=
  let v : Traced := .stamp (.number (.int (.ofInt (l.term k)))) l.span l.frame
  { m with store := m.store.define l.frame.table l.var v }

inductive Runs : ℕ → Machine → Machine → Prop where
  | zero (m : Machine) : Runs 0 m m
  | next {k : ℕ} {m m' m'' : Machine} {v : Option Traced} (h : Runs k m m')
      (hbody : Settles l.keep l.body l.frame (l.begin k m') (.ok v m'')) : Runs (k + 1) m m''

def rounds (fuel left k : ℕ) : Action ℕ :=
  Eval.forRounds (eval l.keep fuel) l.span l.var (.int l.step) (.int l.bound) l.body l.frame left
    (l.index k) k

variable {l} {fuel left : ℕ} {m m' m'' : Machine}

theorem rounds_end (hstep : l.step.toInt ≠ 0) :
    l.rounds fuel (left + 1) l.length m = .ok l.length m := by
  unfold rounds Eval.forRounds
  rw [inRange_index hstep le_rfl, decide_eq_false (lt_irrefl _)]
  rfl

theorem rounds_next (hstep : l.step.toInt ≠ 0) (hk : k < l.length) :
    l.rounds fuel (left + 1) k m =
      match eval l.keep fuel l.body l.frame (l.begin k m) with
      | .ok _ m' => l.rounds fuel left (k + 1) m'
      | .error h m' => .error h m' := by
  unfold rounds
  rw [Eval.forRounds, inRange_index hstep hk.le, decide_eq_true hk, index_eq hstep hk]
  change EStateM.bind _ _ (l.begin k m) = _
  unfold EStateM.bind
  cases eval l.keep fuel l.body l.frame (l.begin k m) with
  | error h m' => rfl
  | ok v m' => rw [index, index_eq hstep hk]

theorem Runs.rounds_eq (h : l.Runs k m m') (hstep : l.step.toInt ≠ 0) (hk : k ≤ l.length) :
    ∃ bound, ∀ fuel ≥ bound, ∀ left, l.rounds fuel (k + left) 0 m = l.rounds fuel left k m' := by
  induction h with
  | zero m => exact ⟨0, fun fuel _ left => by rw [Nat.zero_add]⟩
  | @next k m m' m'' v h hbody ih =>
    obtain ⟨bound, hbound⟩ := ih (Nat.le_of_succ_le hk)
    obtain ⟨bound', hbound'⟩ := hbody.eventually
    refine ⟨max bound bound', fun fuel hfuel left => ?_⟩
    rw [show k + 1 + left = k + (left + 1) by omega,
      hbound fuel (le_of_max_le_left hfuel) (left + 1), rounds_next hstep hk,
      hbound' fuel (le_of_max_le_right hfuel)]

variable (l)

/-- How the loop may end: all terms are visited and there is no value, or the evaluation for one of
them is the first to fail and its diagnostic is that of the loop. -/
inductive Ends (m : Machine) : EStateM.Result Halt Machine (Option Traced) → Prop where
  | done {m' : Machine} (h : l.Runs l.length m m') :
      Ends m (.ok none { m' with log := .forLoop l.var l.length :: m'.log })
  | failed {k : ℕ} {m' m'' : Machine} {d : Diagnostic} (hk : k < l.length) (h : l.Runs k m m')
      (hbody : Settles l.keep l.body l.frame (l.begin k m') (.error (.failed d) m'')) :
      Ends m (.error (.failed d) m'')

def finish : EStateM.Result Halt Machine ℕ → EStateM.Result Halt Machine (Option Traced)
  | .ok n m => .ok none { m with log := .forLoop l.var n :: m.log }
  | .error h m => .error h m

variable {l} {r : EStateM.Result Halt Machine (Option Traced)}

theorem Ends.rounds_eq (h : l.Ends m r) (hstep : l.step.toInt ≠ 0) :
    ∃ bound, ∀ fuel ≥ bound, l.finish (l.rounds fuel fuel 0 m) = r := by
  cases h with
  | @done m' h =>
    obtain ⟨bound, hbound⟩ := h.rounds_eq hstep le_rfl
    refine ⟨max bound (l.length + 1), fun fuel hfuel => ?_⟩
    obtain ⟨left, rfl⟩ : ∃ left, fuel = l.length + (left + 1) :=
      ⟨fuel - (l.length + 1), by omega⟩
    rw [hbound _ (le_of_max_le_left hfuel), rounds_end hstep]
    rfl
  | @failed k m' m'' d hk h hbody =>
    obtain ⟨bound, hbound⟩ := h.rounds_eq hstep hk.le
    obtain ⟨bound', hbound'⟩ := hbody.eventually
    refine ⟨max (max bound bound') (k + 1), fun fuel hfuel => ?_⟩
    obtain ⟨left, rfl⟩ : ∃ left, fuel = k + (left + 1) := ⟨fuel - (k + 1), by omega⟩
    rw [hbound _ (by omega), rounds_next hstep hk, hbound' _ (by omega)]
    rfl

theorem Runs.finish_rounds (h : l.Runs k m m') (hstep : l.step.toInt ≠ 0) (hk : k ≤ l.length)
    (fuel left : ℕ) :
    (∃ m'', l.rounds fuel left k m' = .error .exhausted m'') ∨
      l.Ends m (l.finish (l.rounds fuel left k m')) := by
  induction left generalizing k m' with
  | zero => exact .inl ⟨m', rfl⟩
  | succ left ih =>
    rcases hk.lt_or_eq with hlt | rfl
    · rw [rounds_next hstep hlt]
      cases hbody : eval l.keep fuel l.body l.frame (l.begin k m') with
      | ok v m'' => exact ih (h.next ⟨⟨fuel, hbody⟩, nofun⟩) hlt
      | error halt m'' =>
        cases halt with
        | exhausted => exact .inl ⟨m'', rfl⟩
        | failed d => exact .inr (.failed hlt h ⟨⟨fuel, hbody⟩, nofun⟩)
    · rw [rounds_end hstep]
      exact .inr (.done h)

end Loop

theorem Settles.next_le {keep : Retention} {e : SourceExpr} {frame : Frame} {m : Machine}
    {r : EStateM.Result Halt Machine (Option Traced)} (h : Settles keep e frame m r) :
    m.store.next ≤ (Eval.final r).store.next := by
  obtain ⟨⟨fuel, rfl⟩, -⟩ := h
  exact (eval_confined keep fuel e frame m).next_le

namespace Loop

variable {l : Loop} {k : ℕ} {m m' : Machine}

theorem Runs.table_lt (h : l.Runs k m m') (hm : l.frame.table < m.store.next) :
    l.frame.table < m'.store.next := by
  induction h with
  | zero m => exact hm
  | @next k m m' m'' v h hbody ih =>
    have hbegin : (l.begin k m').store.next = m'.store.next := by simp [begin, Store.define]
    exact (hbegin ▸ ih hm).trans_le hbody.next_le

theorem local?_begin (hm : l.frame.table < m.store.next) :
    (l.begin k m).store.local? l.frame.table l.var =
      some (.stamp (.number (.int (.ofInt (l.term k)))) l.span l.frame) := by
  rw [begin, Store.local?, Store.define, Store.bindings_update_self _ hm, Bindings.find?_insert,
    if_pos rfl]

theorem exists_runs (h : ∀ k < l.length, ∀ m', l.Runs k m m' →
      ∃ v m'', Settles l.keep l.body l.frame (l.begin k m') (.ok v m'')) :
    ∃ m', l.Runs l.length m m' := by
  have hprefix : ∀ k ≤ l.length, ∃ m', l.Runs k m m' := by
    intro k hk
    induction k with
    | zero => exact ⟨m, .zero m⟩
    | succ k ih =>
      obtain ⟨m', hruns⟩ := ih (Nat.le_of_succ_le hk)
      obtain ⟨v, m'', hbody⟩ := h k hk m' hruns
      exact ⟨m'', hruns.next hbody⟩
  exact hprefix l.length le_rfl

end Loop

def Yields (keep : Retention) (e : SourceExpr) (frame : Frame) (m : Machine) (n : Int64)
    (m' : Machine) : Prop :=
  ∃ v : Traced, Settles keep e frame m (.ok (some v) m') ∧ v.value = .number (.int n)

def YieldsStep (keep : Retention) (frame : Frame) (m : Machine) (d : Int64) (m' : Machine) :
    Option SourceExpr → Prop
  | some e => Yields keep e frame m d m'
  | none => d = 1 ∧ m' = m

variable {keep : Retention} {frame : Frame} {m m' : Machine} {n : Int64}

theorem Eval.bind_ok {α β : Type} {x : Action α} {f : α → Action β} {a : α}
    (h : x m = .ok a m') : (x >>= f) m = f a m' := by
  change EStateM.bind x f m = _
  rw [EStateM.bind, h]

theorem Yields.demandNumber_eq {e : SourceExpr} (h : Yields keep e frame m n m') :
    ∃ bound, ∀ fuel ≥ bound, Eval.demandNumber (eval keep fuel) e frame m = .ok (.int n) m' := by
  obtain ⟨v, hv, hn⟩ := h
  obtain ⟨bound, hbound⟩ := hv.eventually
  refine ⟨bound, fun fuel hfuel => ?_⟩
  have hdemand : Eval.demand (eval keep fuel) e frame m = .ok v m' :=
    Eval.bind_ok (hbound fuel hfuel)
  refine (Eval.bind_ok hdemand).trans ?_
  rw [hn]
  rfl

theorem YieldsStep.stepOf_eq {step : Option SourceExpr} (h : YieldsStep keep frame m n m' step) :
    ∃ bound, ∀ fuel ≥ bound, Eval.stepOf (eval keep fuel) frame step m = .ok (.int n) m' := by
  cases step with
  | none =>
    obtain ⟨rfl, rfl⟩ := h
    exact ⟨0, fun _ _ => rfl⟩
  | some e => exact Yields.demandNumber_eq h

section

variable {s : Span} {x : String} {first bound body : SourceExpr} {step : Option SourceExpr}
  {m₁ m₂ m₃ : Machine} {a b d : Int64}

theorem eval_forRange_eq (s : Span) (x : String) (body : SourceExpr)
    (hfirst : Yields keep first frame m a m₁)
    (hbound : Yields keep bound frame m₁ b m₂) (hstep : YieldsStep keep frame m₂ d m₃ step) :
    let l : Loop := ⟨keep, s, x, body, frame, a, b, d⟩
    ∃ enough, ∀ fuel ≥ enough,
      eval keep (fuel + 1) (.forRange s x first bound step body) frame m =
        l.finish (l.rounds fuel fuel 0 m₃) := by
  intro l
  obtain ⟨f₁, hf₁⟩ := hfirst.demandNumber_eq
  obtain ⟨f₂, hf₂⟩ := hbound.demandNumber_eq
  obtain ⟨f₃, hf₃⟩ := hstep.stepOf_eq
  refine ⟨max (max f₁ f₂) f₃, fun fuel hfuel => ?_⟩
  refine (Eval.bind_ok (hf₁ fuel (by omega))).trans ?_
  refine (Eval.bind_ok (hf₂ fuel (by omega))).trans ?_
  refine (Eval.bind_ok (hf₃ fuel (by omega))).trans ?_
  change EStateM.bind (l.rounds fuel fuel 0) _ m₃ = _
  unfold EStateM.bind
  cases l.rounds fuel fuel 0 m₃ <;> rfl

theorem settles_forRange_iff (hfirst : Yields keep first frame m a m₁)
    (hbound : Yields keep bound frame m₁ b m₂) (hstep : YieldsStep keep frame m₂ d m₃ step)
    (hd : d.toInt ≠ 0) (r : EStateM.Result Halt Machine (Option Traced)) :
    let l : Loop := ⟨keep, s, x, body, frame, a, b, d⟩
    Settles keep (.forRange s x first bound step body) frame m r ↔ l.Ends m₃ r := by
  intro l
  obtain ⟨enough, henough⟩ := eval_forRange_eq s x body hfirst hbound hstep
  constructor
  · intro h
    obtain ⟨bound, hbound⟩ := h.eventually
    have hr := hbound (max enough bound + 1) (by omega)
    rw [henough _ (le_max_left _ _)] at hr
    rcases (Loop.Runs.zero m₃).finish_rounds hd (Nat.zero_le l.length) (max enough bound)
      (max enough bound) with ⟨m', hm'⟩ | hends
    · rw [hm'] at hr
      exact absurd hr.symm (h.2 m')
    · rwa [hr] at hends
  · intro h
    obtain ⟨bound, hbound⟩ := h.rounds_eq hd
    refine ⟨⟨max enough bound + 1, ?_⟩, ?_⟩
    · rw [henough _ (le_max_left _ _), hbound _ (le_max_right _ _)]
    · cases h <;> nofun

theorem Yields.next_le {e : SourceExpr} (h : Yields keep e frame m n m') :
    m.store.next ≤ m'.store.next := by
  obtain ⟨v, hv, -⟩ := h
  exact hv.next_le

theorem YieldsStep.next_le (h : YieldsStep keep frame m n m' step) :
    m.store.next ≤ m'.store.next := by
  cases step with
  | none => exact h.2 ▸ le_rfl
  | some e => exact Yields.next_le h

/-- A loop from `a` towards `b` by `d` visits the terms `a + k * d` before `b`, of which there are
`(b - a) / d` rounded up. Each of them is an integer and is bound in the table of the frame when the
body is evaluated for it. The loop ends when all have been visited, and without a value, or when the
evaluation of the body for one of them fails, and with its diagnostic; there is no other way. -/
theorem forRange_exact (s : Span) (x : String) (body : SourceExpr)
    (hfirst : Yields keep first frame m a m₁) (hbound : Yields keep bound frame m₁ b m₂)
    (hstep : YieldsStep keep frame m₂ d m₃ step) (hd : d ≠ 0) :
    let l : Loop := ⟨keep, s, x, body, frame, a, b, d⟩
    (∀ k < l.length, (Int64.ofInt (l.term k)).toInt = a.toInt + k * d.toInt) ∧
    (frame.table < m.store.next → ∀ k m', l.Runs k m₃ m' →
      (l.begin k m').store.local? frame.table x =
        some (.stamp (.number (.int (.ofInt (l.term k)))) s frame)) ∧
    ((∀ k < l.length, ∀ m', l.Runs k m₃ m' →
        ∃ v m'', Settles keep body frame (l.begin k m') (.ok v m'')) →
      ∃ m', l.Runs l.length m₃ m') ∧
    ∀ r, Settles keep (.forRange s x first bound step body) frame m r ↔ l.Ends m₃ r := by
  intro l
  have hd' : d.toInt ≠ 0 := fun h => hd (Int64.toInt_inj.1 h)
  refine ⟨fun k hk => (Loop.fits_term (l := l) hd' hk).toInt_ofInt, fun hm k m' hruns => ?_,
    Loop.exists_runs, settles_forRange_iff hfirst hbound hstep hd'⟩
  have hm₃ : frame.table < m₃.store.next :=
    ((hm.trans_le hfirst.next_le).trans_le hbound.next_le).trans_le hstep.next_le
  exact Loop.local?_begin (hruns.table_lt hm₃)

end

theorem forRange_exact_at_limit :
    let s : Span := .empty (.start ⟨"a", ""⟩)
    let number (n : Int64) : SourceExpr := .number s (.int n)
    let a : Int64 := Int64.maxValue - 3
    let body : SourceExpr := .assign s "i" (.text s "")
    let m : Machine := ⟨Store.empty.addGlobals, 0, []⟩
    let l : Loop := ⟨.escaping, s, "i", body, .program 0, a, Int64.maxValue, 2⟩
    l.length = 2 ∧ ¬Number.Fits (l.term 2) ∧ 0 < m.store.next ∧
      (∀ k < l.length, (Int64.ofInt (l.term k)).toInt = a.toInt + k * 2) ∧
      (∀ k m', l.Runs k m m' → (l.begin k m').store.local? 0 "i" =
        some (.stamp (.number (.int (.ofInt (l.term k)))) s (.program 0))) ∧
      ∀ r, Settles .escaping
        (.forRange s "i" (number a) (number Int64.maxValue) (some (number 2)) body) (.program 0) m
          r ↔ l.Ends m r := by
  intro s number a body m l
  have hyields (n : Int64) : Yields .escaping (number n) (.program 0) m n m :=
    ⟨_, ⟨⟨1, rfl⟩, nofun⟩, rfl⟩
  have hstep : YieldsStep .escaping (.program 0) m 2 m (some (number 2)) := hyields 2
  have hm : 0 < m.store.next := by decide
  have hpos : 0 < l.step.toInt := by decide
  have hlength : l.length = 2 :=
    le_antisymm (not_lt.1 (mt (Loop.lt_length_iff_of_pos hpos).1 (by decide)))
      ((Loop.lt_length_iff_of_pos hpos).2 (by decide))
  obtain ⟨hterms, hlocal, -, hends⟩ :=
    forRange_exact s "i" body (hyields a) (hyields Int64.maxValue) hstep (by decide)
  exact ⟨hlength, by decide, hm, hterms, hlocal hm, hends⟩

end ArrowScript
