import Mathlib
import ArrowScript.Proofs.LexicalGrammar

/-! Decimals as they are written. Where a finite number in floating point is not whole, no whole
number rounds to it. The shortest decimal that does is therefore not whole either, and has a digit
behind its point. -/

namespace ArrowScript

namespace Decimal

namespace Scaled

variable {d : Scaled}

def Equals (d : Scaled) (n : Nat) : Prop :=
  d.coeff * 10 ^ d.exp.toNat = n * 10 ^ (-d.exp).toNat

theorem equals_of_nonneg (h : 0 ≤ d.exp) : d.Equals (d.coeff * 10 ^ d.exp.toNat) := by
  have hexp : (-d.exp).toNat = 0 := by omega
  rw [Equals, hexp, pow_zero, mul_one]

theorem Equals.of_dropZeros {n limit : Nat} (h : (d.dropZeros limit).Equals n) : d.Equals n := by
  induction limit generalizing d with
  | zero => exact h
  | succ limit ih =>
    rw [dropZeros] at h
    split_ifs at h with hzero
    · obtain ⟨hcoeff, hexp⟩ := hzero
      have hnext := ih h
      have hten : d.coeff / 10 * 10 = d.coeff := by omega
      have hup : (d.exp + 1).toNat = 0 := by omega
      have hup' : d.exp.toNat = 0 := by omega
      have hdown : (-d.exp).toNat = (-(d.exp + 1)).toNat + 1 := by omega
      simp only [Equals, hup, pow_zero, mul_one] at hnext
      rw [Equals, hup', pow_zero, mul_one, hdown, pow_succ, ← mul_assoc, ← hnext, hten]
    · exact h

theorem exp_neg_of_not_equals (h : ∀ n, ¬ d.Equals n) :
    (d.dropZeros (-d.exp).toNat).exp < 0 := by
  by_contra hnonneg
  exact h _ (Equals.of_dropZeros (equals_of_nonneg (not_lt.1 hnonneg)))

end Scaled

namespace Binary

variable {x : Binary} {n : Nat}

theorem isIntegral_of_mul_den (h : n * x.den = x.num) : x.isIntegral = true := by
  rw [isIntegral, beq_iff_eq, ← h]
  exact Nat.mul_mod_left n x.den

theorem ne_zero_of_not_isIntegral (h : x.isIntegral = false) : x.m ≠ 0 := by
  intro hm
  have hzero : x.isIntegral = true := isIntegral_of_mul_den (n := 0) (by simp [num, hm])
  simp [h] at hzero

theorem neg_of_not_isIntegral (h : x.isIntegral = false) : x.q < 0 := by
  by_contra hq
  have hexp : (-x.q).toNat = 0 := by omega
  have hden : x.den = 1 := by simp [den, hexp]
  have : x.isIntegral = true := isIntegral_of_mul_den (n := x.num) (by rw [hden, mul_one])
  simp [h] at this

theorem bounds_of_readsBack {c : Nat} {e : Int} (h : x.readsBack c e = true)
    (hn : Scaled.Equals ⟨c, e⟩ n) :
    4 * x.num - 2 * 2 ^ x.q.toNat ≤ n * (4 * x.den) ∧
      n * (4 * x.den) ≤ 4 * x.num + 2 * 2 ^ x.q.toNat := by
  have hpos : 0 < 10 ^ (-e).toNat := by positivity
  have hmul : c * 10 ^ e.toNat * (4 * x.den) = n * (4 * x.den) * 10 ^ (-e).toNat := by
    rw [show c * 10 ^ e.toNat = n * 10 ^ (-e).toNat from hn]
    ring
  have hlow {m : Nat} {p : Prop}
      (hm : x.compareGrid c e m = .gt ∨ p ∧ x.compareGrid c e m = .eq) : m ≤ n * (4 * x.den) := by
    simp only [compareGrid, Nat.pow_eq, hmul, Nat.compare_eq_gt, Nat.compare_eq_eq] at hm
    exact Nat.le_of_mul_le_mul_right (by omega) hpos
  have hhigh {m : Nat} {p : Prop}
      (hm : x.compareGrid c e m = .lt ∨ p ∧ x.compareGrid c e m = .eq) : n * (4 * x.den) ≤ m := by
    simp only [compareGrid, Nat.pow_eq, hmul, Nat.compare_eq_lt, Nat.compare_eq_eq] at hm
    exact Nat.le_of_mul_le_mul_right (by omega) hpos
  simp only [readsBack, Nat.pow_eq, Bool.and_eq_true, Bool.or_eq_true, beq_iff_eq] at h
  refine ⟨le_trans ?_ (hlow h.1), hhigh h.2⟩
  split_ifs <;> omega

theorem isIntegral_of_readsBack {c : Nat} {e : Int} (h : x.readsBack c e = true)
    (hn : Scaled.Equals ⟨c, e⟩ n) : x.isIntegral = true := by
  by_contra hfalse
  rw [Bool.not_eq_true] at hfalse
  have hunit : x.q.toNat = 0 := by
    have := neg_of_not_isIntegral hfalse
    omega
  obtain ⟨hlow, hhigh⟩ := bounds_of_readsBack h hn
  rw [hunit, pow_zero] at hlow hhigh
  -- four times the distance from `n` is at most two, so there is none
  have heq : n * x.den = x.num := by
    rw [mul_left_comm] at hlow hhigh
    omega
  simp [isIntegral_of_mul_den heq] at hfalse

theorem isIntegral_of_exact (h : x.exact.Equals n) : x.isIntegral = true := by
  have hup : (-((-x.q).toNat : Int)).toNat = 0 := by omega
  have hdown : (-(-((-x.q).toNat : Int))).toNat = (-x.q).toNat := by omega
  have hfive : 0 < 5 ^ (-x.q).toNat := by positivity
  simp only [exact, Scaled.Equals, Nat.pow_eq, hup, hdown, pow_zero, mul_one] at h
  refine isIntegral_of_mul_den (n := n) (Nat.eq_of_mul_eq_mul_right hfive ?_)
  calc n * x.den * 5 ^ (-x.q).toNat
      = n * (2 * 5) ^ (-x.q).toNat := by rw [den, Nat.pow_eq, mul_pow, mul_assoc]
    _ = x.num * 5 ^ (-x.q).toNat := h.symm

theorem readsBack_of_onGrid? {e : Int} {d : Scaled} (h : x.onGrid? e = some d) :
    x.readsBack d.coeff d.exp = true := by
  unfold onGrid? at h
  dsimp only at h
  split at h <;> rename_i h₁ h₂ <;> cases h
  · split_ifs <;> assumption
  · exact h₁
  · exact h₂

theorem not_equals_shortest (h : x.isIntegral = false) (n : Nat) : ¬ x.shortest.Equals n := by
  intro hn
  have hwhole : x.isIntegral = true := by
    cases hfind : (List.range 17).findSome? fun (n : Nat) => x.onGrid? (x.scale - (n + 1)) with
    | none =>
      rw [shortest, hfind, Option.getD_none] at hn
      exact isIntegral_of_exact hn
    | some d =>
      rw [shortest, hfind, Option.getD_some] at hn
      obtain ⟨k, -, hk⟩ := List.exists_of_findSome?_eq_some hfind
      exact isIntegral_of_readsBack (readsBack_of_onGrid? hk) hn
  simp [h] at hwhole

end Binary

theorem isDigit_digits (n : Nat) : ∀ c ∈ digits n, c.isDigit :=
  fun _ => Nat.isDigit_of_mem_toDigits (by decide) (by decide)

theorem isDigit_padded (zeros n : Nat) :
    ∀ c ∈ List.replicate zeros '0' ++ digits n, c.isDigit := by
  intro c hc
  rcases List.mem_append.1 hc with hc | hc
  · rw [List.eq_of_mem_replicate hc]
    decide
  · exact isDigit_digits _ c hc

theorem Scaled.positional_split {d d' : Scaled} (hd : d.dropZeros (-d.exp).toNat = d')
    (h : d'.exp < 0) :
    ∃ whole fraction : List Char, d.positional = whole ++ '.' :: fraction ∧
      fraction.length = (-d'.exp).toNat ∧
      ∃ zeros, whole ++ fraction = List.replicate zeros '0' ++ digits d'.coeff := by
  rw [positional, hd]
  dsimp only
  rw [if_neg (by omega)]
  generalize hplaces : (-d'.exp).toNat = places
  generalize hpadded : List.replicate (places + 1 - (digits d'.coeff).length) '0' ++
    digits d'.coeff = padded
  have hlength : places < padded.length := by
    rw [← hpadded, List.length_append, List.length_replicate]
    omega
  refine ⟨_, _, rfl, ?_, _, (List.take_append_drop _ _).trans hpadded.symm⟩
  rw [List.length_drop]
  omega

end Decimal

end ArrowScript
