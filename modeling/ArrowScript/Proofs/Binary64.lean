import Mathlib
import ArrowScript.Number

/-! Binary floating point with 64 bits. Conversion from integers and the sum of two numbers of one
sign give the nearest number with a mantissa of 53 bits, and of two that are as near the one with
the even mantissa. What follows for sums of integers that do not fit 64 bits is at the end. -/

namespace ArrowScript.Binary64

open Float.Model Float.Model.UnpackedFloat

structure NearestEven (x : ℚ) (r : ℕ) : Prop where
  le_add_half : x ≤ r + 1 / 2
  sub_half_le : r - 1 / 2 ≤ x
  even_of_tie : x = r + 1 / 2 ∨ x = r - 1 / 2 → Even r

namespace NearestEven

variable {x : ℚ} {r k : ℕ}

theorem of_lt (hlt : r - 1 / 2 < x) (hgt : x < r + 1 / 2) : NearestEven x r :=
  ⟨hgt.le, hlt.le, fun htie => htie.elim (fun h => absurd h hgt.ne) fun h => absurd h hlt.ne'⟩

theorem le_of_le (h : NearestEven x r) (hk : (k : ℚ) ≤ x) : k ≤ r := by
  have hlt : (k : ℚ) < r + 1 := by linarith [h.le_add_half]
  exact Nat.lt_succ_iff.1 (by exact_mod_cast hlt)

theorem le_of_ge (h : NearestEven x r) (hk : x ≤ k) : r ≤ k := by
  have hlt : (r : ℚ) < k + 1 := by linarith [h.sub_half_le]
  exact Nat.lt_succ_iff.1 (by exact_mod_cast hlt)

theorem le_of_even (h : NearestEven x r) (hk : Even k) (hx : (k : ℚ) - 1 / 2 ≤ x) : k ≤ r := by
  by_contra hlt
  have hle : (r : ℚ) + 1 ≤ k := by exact_mod_cast Nat.not_le.1 hlt
  have heq : x = r + 1 / 2 := by linarith [h.le_add_half]
  have hk' : (k : ℚ) = r + 1 := by linarith
  have hsucc : k = r + 1 := by exact_mod_cast hk'
  have heven := h.even_of_tie (.inl heq)
  rw [hsucc, Nat.even_add_one] at hk
  exact hk heven

end NearestEven

/-- A mantissa stands for `x`, whose whole part it is. One residual bit says whether the rest is
half or more, the other whether it is anything but zero or half. -/
structure Stands (em : ExtendedMantissa) (x : ℚ) : Prop where
  le : em.mantissa ≤ x
  lt : x < em.mantissa + 1
  roundBit_iff : em.roundBit = true ↔ em.mantissa + 1 / 2 ≤ x
  stickyBit_iff : em.stickyBit = true ↔ x ≠ em.mantissa ∧ x ≠ em.mantissa + 1 / 2

namespace Stands

variable {em : ExtendedMantissa} {x : ℚ}

theorem exact (m : ℕ) : Stands ⟨m, false, false⟩ m where
  le := le_rfl
  lt := lt_add_one _
  roundBit_iff := by simp
  stickyBit_iff := by simp

theorem residue_iff (h : Stands em x) : (em.roundBit || em.stickyBit) = true ↔ x ≠ em.mantissa := by
  rw [Bool.or_eq_true, h.roundBit_iff, h.stickyBit_iff]
  constructor
  · rintro (hle | hne)
    · intro heq
      linarith
    · exact hne.1
  · intro hne
    by_cases hhalf : x = em.mantissa + 1 / 2
    · exact .inl hhalf.ge
    · exact .inr ⟨hne, hhalf⟩

theorem shiftRightOne (h : Stands em x) : Stands em.shiftRightOne (x / 2) := by
  have hle := h.le
  have hlt := h.lt
  have hresidue := h.residue_iff
  rcases Nat.even_or_odd' em.mantissa with ⟨k, hk | hk⟩
  · have hhalf : em.mantissa / 2 = k := by omega
    have hbit : (em.mantissa % 2 != 0) = false := by simp [hk]
    rw [hk] at hle hlt hresidue
    push_cast at hle hlt hresidue
    refine ⟨?_, ?_, ?_, ?_⟩ <;> simp only [ExtendedMantissa.shiftRightOne, hhalf, hbit]
    · linarith
    · linarith
    · simp only [Bool.false_eq_true, false_iff, not_le]
      linarith
    · rw [hresidue]
      exact ⟨fun hne => ⟨fun heq => hne (by linarith), by linarith⟩,
        fun hne heq => hne.1 (by linarith)⟩
  · have hhalf : em.mantissa / 2 = k := by omega
    have hbit : (em.mantissa % 2 != 0) = true := by simp [hk]
    rw [hk] at hle hlt hresidue
    push_cast at hle hlt hresidue
    refine ⟨?_, ?_, ?_, ?_⟩ <;> simp only [ExtendedMantissa.shiftRightOne, hhalf, hbit]
    · linarith
    · linarith
    · simp only [true_iff]
      linarith
    · rw [hresidue]
      exact ⟨fun hne => ⟨by linarith, fun heq => hne (by linarith)⟩,
        fun hne heq => hne.2 (by linarith)⟩

theorem shiftRight (h : Stands em x) (n : ℕ) : Stands (em >>> n) (x / 2 ^ n) := by
  induction n with
  | zero => simpa using! h
  | succ n ih =>
    rw [pow_succ, ← div_div]
    exact ih.shiftRightOne

theorem nearestEven (h : Stands em x) : NearestEven x em.roundedMantissa := by
  obtain ⟨m, round, sticky⟩ := em
  obtain ⟨hle, hlt, hround, hsticky⟩ := h
  dsimp only at hle hlt hround hsticky
  cases round <;> cases sticky <;>
    simp only [Bool.false_eq_true, false_iff, true_iff, not_le, not_and_or, not_not]
      at hround hsticky
  · change NearestEven x m
    exact .of_lt (by linarith) hround
  · change NearestEven x m
    exact .of_lt (by linarith) hround
  · -- the rest is half a unit, and an odd mantissa goes up
    have hx : x = m + 1 / 2 := hsticky.resolve_left (by linarith)
    change NearestEven x (m + m % 2)
    rcases Nat.even_or_odd m with hm | hm
    · rw [Nat.even_iff.1 hm, add_zero]
      exact ⟨hx.le, by linarith, fun _ => hm⟩
    · rw [Nat.odd_iff.1 hm]
      refine ⟨?_, ?_, fun _ => hm.add_one⟩ <;> push_cast <;> linarith
  · have hgt : (m : ℚ) + 1 / 2 < x := lt_of_le_of_ne hround (Ne.symm hsticky.2)
    change NearestEven x (m + 1)
    apply NearestEven.of_lt <;> push_cast <;> linarith

end Stands

/-- Rounding in units of `2 ^ t`: `v` lies between the two powers of two where 53 bits have this
unit, and `r` units are nearest to it. -/
structure RoundsAt (t : ℤ) (r : ℕ) (v : ℚ) : Prop where
  le : 2 ^ 52 * 2 ^ t ≤ v
  lt : v < 2 ^ 53 * 2 ^ t
  nearest : NearestEven (v / 2 ^ t) r

def Rounds (v w : ℚ) : Prop := ∃ t r, RoundsAt t r v ∧ w = r * 2 ^ t

namespace RoundsAt

variable {t : ℤ} {r : ℕ} {v : ℚ}

theorem le_mantissa (h : RoundsAt t r v) : 2 ^ 52 ≤ r := by
  apply h.nearest.le_of_le
  rw [le_div_iff₀ (by positivity)]
  exact_mod_cast h.le

theorem mantissa_le (h : RoundsAt t r v) : r ≤ 2 ^ 53 := by
  apply h.nearest.le_of_ge
  rw [div_le_iff₀ (by positivity)]
  exact_mod_cast h.lt.le

theorem lt_of_value_lt (h : RoundsAt t r v) {n : ℤ} (hv : v < 2 ^ n) : t + 52 < n := by
  have hpow : (2 : ℚ) ^ (52 + t) < 2 ^ n := by
    rw [zpow_add₀ two_ne_zero]
    exact_mod_cast h.le.trans_lt hv
  have := (zpow_lt_zpow_iff_right₀ one_lt_two).1 hpow
  omega

theorem lt_of_le_value (h : RoundsAt t r v) {n : ℤ} (hv : 2 ^ n ≤ v) : n < t + 53 := by
  have hpow : (2 : ℚ) ^ n < 2 ^ (53 + t) := by
    rw [zpow_add₀ two_ne_zero]
    exact_mod_cast hv.trans_lt h.lt
  have := (zpow_lt_zpow_iff_right₀ one_lt_two).1 hpow
  omega

theorem unit_eq (h : RoundsAt t r v) (hv : 2 ^ 62 ≤ v) (hv' : v < 2 ^ 63) : t = 10 := by
  have hle : 62 < t + 53 := h.lt_of_le_value (by exact_mod_cast hv)
  have hlt : t + 52 < 63 := h.lt_of_value_lt (by exact_mod_cast hv')
  omega

end RoundsAt

theorem mul_zpow_le_of_lt {k : ℕ} {j t : ℤ} (hk : k ≤ 2 ^ 53) (hjt : j < t) :
    (k : ℚ) * 2 ^ j ≤ 2 ^ 52 * 2 ^ t := by
  have hpow : (2 : ℚ) ^ j ≤ 2 ^ (t - 1) := zpow_le_zpow_right₀ one_le_two (by omega)
  have hk' : (k : ℚ) ≤ 2 ^ 53 := by exact_mod_cast hk
  calc (k : ℚ) * 2 ^ j ≤ 2 ^ 53 * 2 ^ (t - 1) := by gcongr
    _ = 2 ^ 52 * 2 ^ t := by rw [zpow_sub_one₀ two_ne_zero]; ring

theorem mul_zpow_eq_units (k : ℕ) {j t : ℤ} (htj : t ≤ j) :
    (k : ℚ) * 2 ^ j = (k * 2 ^ (j - t).toNat : ℕ) * 2 ^ t := by
  obtain ⟨n, rfl⟩ := Int.le.dest htj
  rw [add_sub_cancel_left, Int.toNat_natCast, zpow_add₀ two_ne_zero]
  push_cast
  rw [zpow_natCast]
  ring

namespace Rounds

variable {v w : ℚ} {k : ℕ} {j : ℤ}

theorem le_of_le (h : Rounds v w) (hk : k ≤ 2 ^ 53) (hv : (k : ℚ) * 2 ^ j ≤ v) :
    (k : ℚ) * 2 ^ j ≤ w := by
  obtain ⟨t, r, hr, rfl⟩ := h
  rcases le_or_gt t j with htj | hjt
  · rw [mul_zpow_eq_units k htj] at hv ⊢
    have hle := hr.nearest.le_of_le ((le_div_iff₀ (by positivity)).2 hv)
    gcongr
  · have hr' : (2 ^ 52 : ℚ) ≤ r := by exact_mod_cast hr.le_mantissa
    exact (mul_zpow_le_of_lt hk hjt).trans (by gcongr)

theorem le_of_ge (h : Rounds v w) (hk : k ≤ 2 ^ 53) (hv : v ≤ (k : ℚ) * 2 ^ j) :
    w ≤ (k : ℚ) * 2 ^ j := by
  obtain ⟨t, r, hr, rfl⟩ := h
  rcases le_or_gt t j with htj | hjt
  · rw [mul_zpow_eq_units k htj] at hv ⊢
    have hle := hr.nearest.le_of_ge ((div_le_iff₀ (by positivity)).2 hv)
    gcongr
  · have hle : r ≤ 2 ^ 52 := by
      apply hr.nearest.le_of_ge
      rw [div_le_iff₀ (by positivity)]
      exact_mod_cast hv.trans (mul_zpow_le_of_lt hk hjt)
    have hle' : (r : ℚ) ≤ 2 ^ 52 := by exact_mod_cast hle
    exact le_trans (by gcongr) (hr.le.trans hv)

theorem eq_of_short (h : Rounds v w) (hk : k ≤ 2 ^ 53) (hv : v = (k : ℚ) * 2 ^ j) : w = v :=
  hv ▸ le_antisymm (h.le_of_ge hk hv.le) (h.le_of_le hk hv.ge)

theorem bounds {n : ℕ} {w : ℚ} (h : Rounds n w) (hn : 0 < n) (hn' : n ≤ 2 ^ 63) :
    1 ≤ w ∧ w ≤ 2 ^ 63 := by
  have hlow : (1 : ℚ) ≤ n := by exact_mod_cast hn
  have hhigh : (n : ℚ) ≤ 2 ^ 63 := by exact_mod_cast hn'
  have hle := h.le_of_le (k := 1) (j := 0) (by norm_num) (by simpa using hlow)
  have hge := h.le_of_ge (k := 1) (j := 63) (by norm_num) (by norm_num at hhigh ⊢; exact hhigh)
  norm_num at hle hge ⊢
  exact ⟨hle, hge⟩

theorem exists_units (h : Rounds v w) (hv : 2 ^ 62 ≤ v) (hv' : v ≤ 2 ^ 63) :
    ∃ n : ℕ, w = n * 1024 ∧ v - 512 ≤ w := by
  rcases hv'.lt_or_eq with hlt | rfl
  · obtain ⟨t, r, hr, rfl⟩ := h
    obtain rfl := hr.unit_eq hv hlt
    refine ⟨r, by norm_num, ?_⟩
    have hhalf := hr.nearest.le_add_half
    rw [div_le_iff₀ (by positivity)] at hhalf
    norm_num at hhalf ⊢
    linarith
  · have hw := h.eq_of_short (k := 1) (j := 63) (by norm_num) (by norm_num)
    exact ⟨2 ^ 53, by rw [hw]; norm_num, by rw [hw]; norm_num⟩

theorem two_pow_le (h : Rounds v w) (hv : 2 ^ 63 - 512 ≤ v) : 2 ^ 63 ≤ w := by
  -- the last number below `2 ^ 63` is 1024 less than it, and what lies halfway is rounded up
  rcases le_or_gt (2 ^ 63) v with hle | hlt
  · have hw := h.le_of_le (k := 1) (j := 63) (by norm_num) (by norm_num at hle ⊢; exact hle)
    norm_num at hw ⊢
    exact hw
  · obtain ⟨t, r, hr, rfl⟩ := h
    obtain rfl := hr.unit_eq (by linarith) hlt
    have hmantissa : 2 ^ 53 ≤ r := by
      apply hr.nearest.le_of_even (by decide)
      rw [le_div_iff₀ (by positivity)]
      norm_num at hv ⊢
      linarith
    have hmantissa' : (2 ^ 53 : ℚ) ≤ r := by exact_mod_cast hmantissa
    norm_num
    linarith

end Rounds

theorem two_pow_le_of_sum {p q : ℕ} {v w z : ℚ} (hp : Rounds p v) (hq : Rounds q w)
    (hz : Rounds (v + w) z) (hp' : p ≤ 2 ^ 63) (hq' : q ≤ 2 ^ 63) (hsum : 2 ^ 63 ≤ p + q) :
    2 ^ 63 ≤ z := by
  -- numbers near the limit of 64 bits lose at most half a unit in conversion, and their sum is
  -- rounded up again
  wlog hpq : q ≤ p generalizing p q v w
  · exact this hq hp (add_comm v w ▸ hz) hq' hp' (add_comm p q ▸ hsum) (Nat.le_of_not_le hpq)
  have hlow : (2 ^ 62 : ℚ) ≤ p := by exact_mod_cast (by omega : 2 ^ 62 ≤ p)
  have hhigh : (p : ℚ) ≤ 2 ^ 63 := by exact_mod_cast hp'
  have hsum' : (2 ^ 63 : ℚ) ≤ p + q := by exact_mod_cast hsum
  obtain ⟨n, rfl, hn⟩ := hp.exists_units hlow hhigh
  apply hz.two_pow_le
  -- what is missing to half a unit below the limit is a number of 53 bits
  have hmissing : (2 ^ 54 - 1 - 2 * n : ℚ) * 512 ≤ w := by
    rcases le_or_gt (2 * n) (2 ^ 54 - 1) with hle | hgt
    · have hcast : ((2 ^ 54 - 1 - 2 * n : ℕ) : ℚ) = 2 ^ 54 - 1 - 2 * n := by
        rw [Nat.cast_sub hle]
        norm_num
      have hn' : (2 ^ 53 : ℚ) ≤ 2 * n + 1 := by linarith
      have hn'' : 2 ^ 53 ≤ 2 * n + 1 := by exact_mod_cast hn'
      have hw := hq.le_of_le (k := 2 ^ 54 - 1 - 2 * n) (j := 9) (by omega)
        (by rw [hcast]; norm_num; linarith)
      rw [hcast] at hw
      norm_num at hw ⊢
      linarith
    · have hw := hq.le_of_le (k := 0) (j := 0) (by norm_num) (by simp)
      have hgt' : (2 ^ 54 : ℚ) ≤ 2 * n := by exact_mod_cast (by omega : 2 ^ 54 ≤ 2 * n)
      norm_num at hw hgt' ⊢
      linarith
  linarith

structure Normal (q : ℕ) (t : ℤ) : Prop where
  le : 2 ^ 52 ≤ q
  lt : q < 2 ^ 53
  min_le : -1074 ≤ t
  le_max : t ≤ 971

theorem Normal.log2_eq {q : ℕ} {t : ℤ} (h : Normal q t) : q.log2 = 52 :=
  (Nat.log2_eq_iff (by have := h.le; omega)).2 ⟨h.le, h.lt⟩

theorem mantissaBits_binary64 : Format.binary64.mantissaBits = 53 := rfl

theorem targetExponent_binary64 (total : ℤ) :
    Format.binary64.targetExponent total = max (total - 53) (-1074) := by
  have hmin : Format.binary64.minExponent = -1074 := by decide
  rw [Format.targetExponent, hmin, mantissaBits_binary64]
  rfl

theorem targetExponent_eq (m : ℕ) (e : ℤ) :
    Format.binary64.targetExponent (totalExponent m e) = max (m.log2 + e - 52) (-1074) := by
  rw [targetExponent_binary64, totalExponent]
  congr 1
  omega

theorem shiftToTargetExponent_eq {m : ℕ} {e : ℤ} (hm : 2 ^ 52 ≤ m) (he : -1074 ≤ m.log2 - 52 + e) :
    shiftToTargetExponent .binary64 m e .exact =
      ((⟨m, false, false⟩ : ExtendedMantissa) >>> (m.log2 - 52), e + (m.log2 - 52 : ℕ)) := by
  have hlog : 52 ≤ m.log2 := (Nat.le_log2 (by omega)).2 hm
  have hshift : (Format.binary64.targetExponent (totalExponent m e) - e).toNat = m.log2 - 52 := by
    rw [targetExponent_eq]
    omega
  simp only [shiftToTargetExponent, shiftToExponent, hshift, ExtendedMantissa.ofMantissaAndAccuracy]

def Rounded (f : UnpackedFloat) (s : Sign) (v : ℚ) : Prop :=
  ∃ q t hq, f = .finite s q t hq ∧ Normal q t ∧ Rounds v (q * 2 ^ t)

theorem roundsAt_shiftRight {m n : ℕ} {e : ℤ} (hn : m.log2 = 52 + n) :
    RoundsAt (e + n) ((⟨m, false, false⟩ : ExtendedMantissa) >>> n).roundedMantissa
      (m * 2 ^ e) := by
  have hm : m ≠ 0 := by
    rintro rfl
    simp at hn
    omega
  obtain ⟨hlow, hhigh⟩ := (Nat.log2_eq_iff hm).1 hn
  have hlow' : (2 ^ 52 * 2 ^ n : ℚ) ≤ m := by rw [← pow_add]; exact_mod_cast hlow
  have hhigh' : (m : ℚ) < 2 ^ 53 * 2 ^ n := by
    rw [← pow_add, show 53 + n = 52 + n + 1 by omega]
    exact_mod_cast hhigh
  have hpow : (2 : ℚ) ^ (e + n) = 2 ^ n * 2 ^ e := by
    rw [zpow_add₀ two_ne_zero, zpow_natCast, mul_comm]
  have hpos : (0 : ℚ) < 2 ^ e := by positivity
  refine ⟨?_, ?_, ?_⟩ <;> rw [hpow]
  · rw [← mul_assoc]
    gcongr
  · rw [← mul_assoc]
    gcongr
  · rw [mul_div_mul_right _ _ hpos.ne']
    exact ((Stands.exact m).shiftRight n).nearestEven

theorem roundWithAccuracy_eq {s : Sign} {m : ℕ} {e e₁ e₂ : ℤ} {em₁ em₂ : ExtendedMantissa}
    (hfirst : shiftToTargetExponent .binary64 m e .exact = (em₁, e₁))
    (hsecond : shiftToTargetExponent .binary64 em₁.roundedMantissa e₁ .exact = (em₂, e₂))
    (hpos : 0 < em₂.mantissa) :
    roundWithAccuracy .binary64 s m e .exact = .finite s em₂.mantissa e₂ hpos := by
  simp only [roundWithAccuracy, hfirst, hsecond]
  exact dif_neg hpos.ne'

theorem roundWithAccuracy_exact (s : Sign) {m : ℕ} {e : ℤ} {v : ℚ} (hm : 2 ^ 52 ≤ m)
    (hvalue : m * 2 ^ e = v) (hv : 1 ≤ v) (hv' : v ≤ 2 ^ 64) :
    Rounded (roundWithAccuracy .binary64 s m e .exact) s v := by
  subst hvalue
  obtain ⟨n, hn⟩ := Nat.exists_eq_add_of_le ((Nat.le_log2 (by omega)).2 hm)
  have hrounds := roundsAt_shiftRight (e := e) hn
  have hmin : 0 < e + n + 53 := hrounds.lt_of_le_value (by simpa using hv)
  have hmax : e + n + 52 < 65 := hrounds.lt_of_value_lt (hv'.trans_lt (by norm_num))
  have hfirst := shiftToTargetExponent_eq (e := e) hm (by omega)
  rw [hn, Nat.add_sub_cancel_left] at hfirst
  generalize (⟨m, false, false⟩ : ExtendedMantissa) >>> n = em at hrounds hfirst
  have hle := hrounds.le_mantissa
  have hlog := (Nat.le_log2 (by omega)).2 hle
  have hsecond := shiftToTargetExponent_eq (e := e + n) hle (by omega)
  rcases hrounds.mantissa_le.lt_or_eq with hlt | heq
  · have hnormal : Normal em.roundedMantissa (e + n) := ⟨hle, hlt, by omega, by omega⟩
    rw [hnormal.log2_eq, Nat.sub_self, Nat.cast_zero, add_zero] at hsecond
    exact ⟨_, _, _, roundWithAccuracy_eq hfirst hsecond (show 0 < em.roundedMantissa by omega),
      hnormal, e + n, _, hrounds, rfl⟩
  · -- all bits were ones, and the next power of two has another unit
    have hnormal : Normal (2 ^ 52) (e + n + 1) := ⟨by omega, by omega, by omega, by omega⟩
    have hcarry : shiftToTargetExponent .binary64 em.roundedMantissa (e + n) .exact =
        (⟨2 ^ 52, false, false⟩, e + n + 1) := by
      rw [hsecond, heq, Nat.log2_two_pow]
      rfl
    refine ⟨_, _, _, roundWithAccuracy_eq hfirst hcarry (by norm_num), hnormal, e + n, _,
      hrounds, ?_⟩
    rw [heq, zpow_add_one₀ two_ne_zero]
    push_cast
    ring

theorem round_eq (s : Sign) {m : ℕ} {e : ℤ} (hv : (1 : ℚ) ≤ m * 2 ^ e) :
    UnpackedFloat.round .binary64 s m e =
      roundWithAccuracy .binary64 s (m * 2 ^ (52 - m.log2)) (e - (52 - m.log2 : ℕ)) .exact := by
  have hlog : 0 < (m.log2 : ℤ) + 1 + e := by
    have hlt : (m : ℚ) < 2 ^ (m.log2 + 1) := by exact_mod_cast Nat.lt_log2_self
    have hpow : (2 : ℚ) ^ (0 : ℤ) < 2 ^ (m.log2 + 1 + e : ℤ) := by
      rw [zpow_zero, zpow_add₀ two_ne_zero]
      refine hv.trans_lt ?_
      gcongr
      exact_mod_cast hlt
    exact (zpow_lt_zpow_iff_right₀ one_lt_two).1 hpow
  have hshift : (e - Format.binary64.targetExponent (totalExponent m e)).toNat = 52 - m.log2 := by
    rw [targetExponent_eq]
    omega
  simp only [UnpackedFloat.round, decreaseExponent, hshift, Nat.shiftLeft_eq]

theorem round_exact (s : Sign) {m : ℕ} {e : ℤ} {v : ℚ} (hvalue : m * 2 ^ e = v) (hv : 1 ≤ v)
    (hv' : v ≤ 2 ^ 64) : Rounded (UnpackedFloat.round .binary64 s m e) s v := by
  subst hvalue
  have hpos : m ≠ 0 := by
    rintro rfl
    norm_num at hv
  have hlong : 2 ^ 52 ≤ m * 2 ^ (52 - m.log2) :=
    calc 2 ^ 52 ≤ 2 ^ (m.log2 + (52 - m.log2)) := Nat.pow_le_pow_right two_pos (by omega)
      _ = 2 ^ m.log2 * 2 ^ (52 - m.log2) := pow_add ..
      _ ≤ m * 2 ^ (52 - m.log2) := Nat.mul_le_mul_right _ (Nat.log2_self_le hpos)
  have hvalue : ((m * 2 ^ (52 - m.log2) : ℕ) : ℚ) * 2 ^ (e - (52 - m.log2 : ℕ)) = m * 2 ^ e := by
    rw [zpow_sub₀ two_ne_zero, zpow_natCast]
    push_cast
    field_simp
  rw [round_eq s hv]
  exact roundWithAccuracy_exact s hlong hvalue hv hv'

theorem unpackSign_packComponents {spec : Format} {s : Sign} {exponent : BitVec spec.exponentBits}
    {mantissa : BitVec spec.mantissaBitsWithoutImplicit} :
    unpackSign (packComponents spec s exponent mantissa) = s.toBitVec := by
  refine BitVec.eq_of_getLsbD_eq fun i hi => ?_
  obtain rfl : i = 0 := by omega
  simp [unpackSign, packComponents, BitVec.getLsbD_append, BitVec.getElem_append]

theorem pack_normal (s : Sign) {q b : ℕ} {t : ℤ} (h : Normal q t) (hq : 0 < q)
    (hb : t + 1075 = b) : UnpackedFloat.pack .binary64 (.finite s q t hq) =
      packComponents .binary64 s (BitVec.ofNat 11 b) (BitVec.ofNat 52 q) := by
  have hmax := h.le_max
  have hbiased : (t + Format.binary64.exponentBias + (52 : ℕ)).toNat = b := by
    rw [show Format.binary64.exponentBias = 1023 by decide]
    omega
  simp only [UnpackedFloat.pack, hbiased, h.log2_eq]
  rw [if_neg (by omega), if_pos (by decide)]

theorem unpack_packComponents (s : Sign) {q b : ℕ} (hle : 2 ^ 52 ≤ q) (hlt : q < 2 ^ 53)
    (hq : 0 < q) (hmin : 0 < b) (hmax : b < 2047) :
    UnpackedFloat.unpack .binary64
      (packComponents .binary64 s (BitVec.ofNat 11 b) (BitVec.ofNat 52 q)) =
        .finite s q (b - 1075) hq := by
  -- the leading bit of the mantissa is not packed; it comes back because the exponent is neither
  -- the smallest nor the largest
  have hb : (BitVec.ofNat 11 b).toNat = b := by
    rw [BitVec.toNat_ofNat]
    omega
  have hones : BitVec.ofNat 11 b ≠ -1#11 := fun heq => by
    have := hb.symm.trans (congrArg BitVec.toNat heq)
    simp at this
    omega
  have hzero : BitVec.ofNat 11 b ≠ 0#11 := fun heq => by
    have := hb.symm.trans (congrArg BitVec.toNat heq)
    simp at this
    omega
  unfold UnpackedFloat.unpack
  simp only [unpackMantissa_packComponents, unpackExponent_packComponents]
  rw [if_neg hones, if_neg hzero]
  congr 1
  · rw [unpackSign_packComponents]
    cases s <;> rfl
  · rw [BitVec.toNat_append, ← Nat.shiftLeft_add_eq_or_of_lt (BitVec.isLt _)]
    simp
    omega
  · rw [hb, show Format.binary64.exponentBias = 1023 by decide]
    omega

theorem unpack_pack (s : Sign) {q : ℕ} {t : ℤ} (h : Normal q t) (hq : 0 < q) :
    (Float.Model.pack (.finite s q t hq)).unpack = .finite s q t hq := by
  have hmin := h.min_le
  have hmax := h.le_max
  obtain ⟨b, hb⟩ : ∃ b : ℕ, t + 1075 = b := ⟨(t + 1075).toNat, by omega⟩
  have ht : t = b - 1075 := by omega
  change UnpackedFloat.unpack .binary64 (UnpackedFloat.pack .binary64 (.finite s q t hq)) = _
  rw [pack_normal s h hq hb, unpack_packComponents s h.le h.lt hq (by omega) (by omega), ht]

def Holds (x : Float) (s : Sign) (w : ℚ) : Prop :=
  ∃ q t hq, x.toModel.unpack = .finite s q t hq ∧ Normal q t ∧ w = q * 2 ^ t

theorem Rounded.holds {f : UnpackedFloat} {s : Sign} {v : ℚ} (h : Rounded f s v) :
    ∃ w, Rounds v w ∧ Holds (.ofModel (.pack f)) s w := by
  obtain ⟨q, t, hq, rfl, hnormal, hrounds⟩ := h
  exact ⟨_, hrounds, q, t, hq, unpack_pack s hnormal hq, hnormal, rfl⟩

def one : Float := Float.ofBits 0x3FF0000000000000

theorem unpack_one : one.toModel.unpack = .finite .positive (2 ^ 52) (-52) (by norm_num) := rfl

theorem normalize_natCast {n : ℕ} (hn : 0 < n) (e : ℤ) :
    UnpackedFloat.normalize .binary64 n e .positive =
      UnpackedFloat.round .binary64 .positive n e := by
  have hcompare : compare (n : ℤ) 0 = .gt := compare_gt_iff_gt.2 (by exact_mod_cast hn)
  rw [UnpackedFloat.normalize, hcompare]
  rfl

theorem normalize_neg_natCast {n : ℕ} (hn : 0 < n) (e : ℤ) :
    UnpackedFloat.normalize .binary64 (-n) e .positive =
      UnpackedFloat.round .binary64 .negative n e := by
  have hcompare : compare (-n : ℤ) 0 = .lt :=
    compare_lt_iff_lt.2 (neg_lt_zero.2 (by exact_mod_cast hn))
  rw [UnpackedFloat.normalize, hcompare]
  simp

theorem holds_toFloat {n : ℕ} (hn : 0 < n) (hn' : n < 2 ^ 53) :
    Holds n.toUInt64.toFloat .positive n := by
  have hvalue : (n : ℚ) * 2 ^ (0 : ℤ) = n := by rw [zpow_zero, mul_one]
  have hlow : (1 : ℚ) ≤ n := by exact_mod_cast hn
  have hhigh : (n : ℚ) ≤ 2 ^ 64 := by exact_mod_cast (by omega : n ≤ 2 ^ 64)
  obtain ⟨w, hrounds, hholds⟩ := (round_exact .positive hvalue hlow hhigh).holds
  have htoNat : n.toUInt64.toNat = n := by
    rw [Nat.toUInt64, UInt64.toNat_ofNat', Nat.mod_eq_of_lt (by omega)]
  have hmodel : n.toUInt64.toFloat =
      .ofModel (.pack (UnpackedFloat.round .binary64 .positive n 0)) := by
    rw [← normalize_natCast hn]
    conv_rhs => rw [← htoNat]
    rfl
  rw [hmodel]
  rwa [hrounds.eq_of_short hn'.le hvalue.symm] at hholds

theorem Holds.mul_one {x : Float} {s : Sign} {v : ℚ} (h : Holds x s v) (hv : 1 ≤ v)
    (hv' : v ≤ 2 ^ 64) : ∃ w, Rounds v w ∧ Holds (x * one) s w := by
  obtain ⟨q, t, hq, hx, hnormal, rfl⟩ := h
  have hvalue : ((q * 2 ^ 52 : ℕ) : ℚ) * 2 ^ (t + -52) = q * 2 ^ t := by
    rw [zpow_add₀ two_ne_zero]
    push_cast
    norm_num
    ring
  have hlong : 2 ^ 52 ≤ q * 2 ^ 52 := Nat.le_mul_of_pos_left _ hq
  have hmul : x * one =
      .ofModel (.pack (roundWithAccuracy .binary64 s (q * 2 ^ 52) (t + -52) .exact)) := by
    change Float.ofModel (.pack (UnpackedFloat.mul .binary64 x.toModel.unpack
      one.toModel.unpack)) = _
    rw [hx, unpack_one]
    cases s <;> rfl
  rw [hmul]
  exact (roundWithAccuracy_exact s hlong hvalue hv hv').holds

theorem holds_ofNat {n : ℕ} (hn : 0 < n) (hn' : n ≤ 2 ^ 64) :
    ∃ w, Rounds n w ∧ Holds (Float.ofNat n) .positive w := by
  -- small numbers are converted and then multiplied by one, both exactly; others are rounded from
  -- their digits
  have hlow : (1 : ℚ) ≤ n := by exact_mod_cast hn
  have hhigh : (n : ℚ) ≤ 2 ^ 64 := by exact_mod_cast hn'
  by_cases hshort : n < 2 ^ 53
  · have hscientific : Float.ofNat n = n.toUInt64.toFloat * one := by
      change Float.ofScientific n false 0 = _
      rw [Float.ofScientific, dif_pos ⟨hshort, by norm_num⟩]
      rfl
    rw [hscientific]
    exact (holds_toFloat hn hshort).mul_one hlow hhigh
  · have hscientific : Float.ofNat n = .ofModel (.pack
        (roundWithAccuracy .binary64 .positive (n * 2 ^ 53) (-53) .exact)) := by
      change Float.ofScientific n false 0 = _
      rw [Float.ofScientific, dif_neg (fun h => hshort h.1)]
      change Float.ofModel (.pack (UnpackedFloat.ofScientific .binary64 n 0)) = _
      have hpow : (0 : ℤ) ≤ 2 ^ 11 + n.log2 := by positivity
      rw [UnpackedFloat.ofScientific, dif_neg hn.ne', if_neg (by norm_num),
        if_neg (not_lt.2 (neg_nonpos.2 hpow)), if_pos le_rfl]
      change Float.ofModel (.pack
        (roundWithAccuracy .binary64 .positive (n <<< 53 * 1) (-53) .exact)) = _
      rw [Nat.shiftLeft_eq, Nat.mul_one]
    have hvalue : ((n * 2 ^ 53 : ℕ) : ℚ) * 2 ^ (-53 : ℤ) = n := by
      push_cast
      norm_num
      ring
    rw [hscientific]
    exact (roundWithAccuracy_exact .positive (by omega) hvalue hlow hhigh).holds

theorem Holds.neg {x : Float} {s : Sign} {v : ℚ} (h : Holds x s v) :
    Holds (Float.neg x) (-s) v := by
  obtain ⟨q, t, hq, hx, hnormal, rfl⟩ := h
  refine ⟨q, t, hq, ?_, hnormal, rfl⟩
  change (Float.Model.pack x.toModel.unpack.neg).unpack = _
  rw [hx]
  exact unpack_pack (-s) hnormal hq

theorem normalize_apply (s : Sign) {a b : ℕ} (h : 0 < a + b) (e : ℤ) :
    UnpackedFloat.normalize .binary64 (s.apply a + s.apply b) e .positive =
      UnpackedFloat.round .binary64 s (a + b) e := by
  cases s with
  | positive =>
    rw [← normalize_natCast h, Nat.cast_add]
    rfl
  | negative =>
    rw [← normalize_neg_natCast h, Nat.cast_add, neg_add]
    rfl

theorem Holds.add {x y : Float} {s : Sign} {v w : ℚ} (hx : Holds x s v) (hy : Holds y s w)
    (hlow : 1 ≤ v + w) (hhigh : v + w ≤ 2 ^ 64) :
    ∃ z, Rounds (v + w) z ∧ Holds (x + y) s z := by
  obtain ⟨q, t, hq, hxq, -, rfl⟩ := hx
  obtain ⟨r, u, hr, hyr, -, rfl⟩ := hy
  have hvalue : ((q * 2 ^ (t - min t u).toNat + r * 2 ^ (u - min t u).toNat : ℕ) : ℚ) *
      2 ^ min t u = q * 2 ^ t + r * 2 ^ u := by
    rw [mul_zpow_eq_units q (min_le_left t u), mul_zpow_eq_units r (min_le_right t u), Nat.cast_add,
      add_mul]
  have hsum : x + y = .ofModel (.pack (UnpackedFloat.round .binary64 s
      (q * 2 ^ (t - min t u).toNat + r * 2 ^ (u - min t u).toNat) (min t u))) := by
    change Float.ofModel (.pack (UnpackedFloat.add .binary64 x.toModel.unpack y.toModel.unpack)) = _
    rw [hxq, hyr, UnpackedFloat.add, ← normalize_apply s (by positivity)]
    simp only [decreaseExponent, Nat.shiftLeft_eq]
  rw [hsum]
  exact (round_exact s hvalue hlow hhigh).holds

theorem holds_ofInt (s : Sign) {n : ℕ} (hn : 0 < n) (hn' : n ≤ 2 ^ 64) :
    ∃ w, Rounds n w ∧ Holds (Float.ofInt (s.apply n)) s w := by
  obtain ⟨w, hrounds, hholds⟩ := holds_ofNat hn hn'
  cases s with
  | positive => exact ⟨w, hrounds, hholds⟩
  | negative =>
    obtain ⟨k, rfl⟩ := Nat.exists_eq_succ_of_ne_zero hn.ne'
    exact ⟨w, hrounds, hholds.neg⟩

def signed : Sign → ℚ → ℚ
  | .positive, w => w
  | .negative, w => -w

/-- The value of a floating-point number that is not too small and not too large. -/
inductive Denotes (x : Float) : ℚ → Prop where
  | zero {s : Sign} (h : x.toModel.unpack = .zero s) : Denotes x 0
  | finite {s : Sign} {w : ℚ} (h : Holds x s w) : Denotes x (signed s w)

theorem Normal.value_lt {q r : ℕ} {t u : ℤ} (hq : Normal q t) (hr : Normal r u)
    (h : (compare t u).then (compare q r) = .lt) : (q : ℚ) * 2 ^ t < r * 2 ^ u := by
  have hlt : (q : ℚ) < 2 ^ 53 := by exact_mod_cast hq.lt
  have hle : (2 ^ 52 : ℚ) ≤ r := by exact_mod_cast hr.le
  rcases Ordering.then_eq_lt.1 h with htu | ⟨htu, hqr⟩
  · have htu' : t + 1 ≤ u := compare_lt_iff_lt.1 htu
    calc (q : ℚ) * 2 ^ t < 2 ^ 53 * 2 ^ t := by gcongr
      _ = 2 ^ 52 * 2 ^ (t + 1) := by rw [zpow_add_one₀ two_ne_zero]; ring
      _ ≤ 2 ^ 52 * 2 ^ u := by gcongr; norm_num
      _ ≤ r * 2 ^ u := by gcongr
  · rw [compare_eq_iff_eq.1 htu]
    have hqr' : (q : ℚ) < r := by exact_mod_cast compare_lt_iff_lt.1 hqr
    gcongr

theorem Holds.pos {x : Float} {s : Sign} {w : ℚ} (h : Holds x s w) : 0 < w := by
  obtain ⟨q, t, hq, -, -, rfl⟩ := h
  positivity

theorem compare_of_lt {x y : Float} (h : x < y) :
    x.toModel.unpack.compare y.toModel.unpack = some .lt := by
  have hmodel : x.toModel < y.toModel := of_decide_eq_true h
  exact beq_iff_eq.1 (show (_ == _) = true from hmodel)

theorem Denotes.lt_of_lt {x y : Float} {a b : ℚ} (hx : Denotes x a) (hy : Denotes y b)
    (h : x < y) : a < b := by
  have hcompare := compare_of_lt h
  cases hx with
  | zero hx =>
    rw [hx] at hcompare
    cases hy with
    | zero hy =>
      rw [hy] at hcompare
      cases hcompare
    | @finite s w hy =>
      have hpos := hy.pos
      obtain ⟨r, u, hr, hyr, -, rfl⟩ := hy
      rw [hyr] at hcompare
      cases s with
      | positive => exact hpos
      | negative => cases hcompare
  | @finite s v hx =>
    have hpos := hx.pos
    obtain ⟨q, t, hq, hxq, hxn, rfl⟩ := hx
    rw [hxq] at hcompare
    cases hy with
    | zero hy =>
      rw [hy] at hcompare
      cases s with
      | positive => cases hcompare
      | negative => exact neg_neg_of_pos hpos
    | @finite s' w hy =>
      have hpos' := hy.pos
      obtain ⟨r, u, hr, hyr, hyn, rfl⟩ := hy
      rw [hyr] at hcompare
      cases s <;> cases s'
      · have hswap : ((compare t u).then (compare q r)).swap = .lt := Option.some.inj hcompare
        rw [Ordering.swap_then, ← Std.OrientedOrd.eq_swap, ← Std.OrientedOrd.eq_swap] at hswap
        exact neg_lt_neg (hyn.value_lt hxn hswap)
      · exact (neg_neg_of_pos hpos).trans hpos'
      · cases hcompare
      · exact hxn.value_lt hyn (Option.some.inj hcompare)

theorem exists_denotes_ofInt {b : ℤ} (hb : b.natAbs ≤ 2 ^ 63) :
    ∃ z, Denotes (Float.ofInt b) z ∧ |z| ≤ 2 ^ 63 := by
  have hnonzero (s : Sign) (hpos : 0 < b.natAbs) :
      ∃ z, Denotes (Float.ofInt (s.apply b.natAbs)) z ∧ |z| ≤ 2 ^ 63 := by
    obtain ⟨w, hw, hholds⟩ := holds_ofInt s hpos (by omega)
    refine ⟨signed s w, .finite hholds, ?_⟩
    have habs : |signed s w| = w := by
      cases s <;> simp [signed, abs_of_pos hholds.pos]
    rw [habs]
    exact (hw.bounds hpos hb).2
  rcases lt_trichotomy b 0 with hneg | rfl | hpos
  · have hsign : b = Sign.apply .negative b.natAbs := by
      change b = -(b.natAbs : ℤ)
      omega
    rw [hsign]
    exact hnonzero .negative (by omega)
  · exact ⟨0, .zero (s := .positive) rfl, by norm_num⟩
  · have hsign : b = Sign.apply .positive b.natAbs := by
      change b = (b.natAbs : ℤ)
      omega
    rw [hsign]
    exact hnonzero .positive (by omega)

theorem exists_holds_sum (s : Sign) {p q : ℕ} (hp : 0 < p) (hq : 0 < q) (hp' : p ≤ 2 ^ 63)
    (hq' : q ≤ 2 ^ 63) (hsum : 2 ^ 63 ≤ p + q) :
    ∃ z, 2 ^ 63 ≤ z ∧ Holds (Float.ofInt (s.apply p) + Float.ofInt (s.apply q)) s z := by
  obtain ⟨v, hv, hvholds⟩ := holds_ofInt s hp (by omega)
  obtain ⟨w, hw, hwholds⟩ := holds_ofInt s hq (by omega)
  obtain ⟨hv1, hv2⟩ := hv.bounds hp hp'
  obtain ⟨hw1, hw2⟩ := hw.bounds hq hq'
  obtain ⟨z, hz, hzholds⟩ := hvholds.add hwholds (by linarith) (by linarith)
  exact ⟨z, two_pow_le_of_sum hv hw hz hp' hq' hsum, hzholds⟩

theorem not_sum_lt {p q : ℕ} {b : ℤ} (hp : 0 < p) (hq : 0 < q) (hp' : p ≤ 2 ^ 63) (hq' : q ≤ 2 ^ 63)
    (hb : b.natAbs ≤ 2 ^ 63) (hsum : 2 ^ 63 ≤ p + q) :
    ¬Float.ofInt p + Float.ofInt q < Float.ofInt b := by
  intro hlt
  obtain ⟨z, hz, hholds⟩ := exists_holds_sum .positive hp hq hp' hq' hsum
  obtain ⟨w, hw, hbound⟩ := exists_denotes_ofInt hb
  have hzw : z < w := (Denotes.finite hholds).lt_of_lt hw hlt
  linarith [(abs_le.1 hbound).2]

theorem not_lt_sum {p q : ℕ} {b : ℤ} (hp : 0 < p) (hq : 0 < q) (hp' : p ≤ 2 ^ 63) (hq' : q ≤ 2 ^ 63)
    (hb : b.natAbs ≤ 2 ^ 63) (hsum : 2 ^ 63 ≤ p + q) :
    ¬Float.ofInt b < Float.ofInt (-p) + Float.ofInt (-q) := by
  intro hlt
  obtain ⟨z, hz, hholds⟩ := exists_holds_sum .negative hp hq hp' hq' hsum
  obtain ⟨w, hw, hbound⟩ := exists_denotes_ofInt hb
  have hwz : w < -z := hw.lt_of_lt (.finite hholds) hlt
  linarith [(abs_le.1 hbound).1]

end ArrowScript.Binary64

namespace ArrowScript.Number

theorem add_int (m n : Int64) :
    add (int m) (int n) = if Fits (m.toInt + n.toInt) then int (.ofInt (m.toInt + n.toInt))
      else float (Float.ofInt m.toInt + Float.ofInt n.toInt) := by
  simp only [add, combine, Option.bind_some, ofInt?]
  split <;> rfl

theorem toFloat_lt_of_lt {a b : Number} (h : a.lt b = true)
    (hab : ∀ m n, ¬(a = int m ∧ b = int n)) : a.toFloat < b.toFloat := by
  have hcompare : a.compare? b = some .lt := by simpa [lt] using h
  unfold compare? at hcompare
  split at hcompare
  · exact absurd ⟨rfl, rfl⟩ (hab _ _)
  · dsimp only at hcompare
    by_contra hlt
    rw [if_neg hlt] at hcompare
    split_ifs at hcompare
    all_goals cases hcompare

theorem not_add_lt {m n b : Int64} (h : Int64.maxValue.toInt < m.toInt + n.toInt) :
    (add (int m) (int n)).lt (int b) = false := by
  have hm := m.toInt_lt
  have hn := n.toInt_lt
  have hb := b.toInt_lt
  have hb' := b.le_toInt
  have hmax : Int64.maxValue.toInt = 2 ^ 63 - 1 := by decide
  have hfits : ¬Fits (m.toInt + n.toInt) := fun hfits => absurd hfits.2 (not_le.2 h)
  obtain ⟨p, hp⟩ := Int.eq_ofNat_of_zero_le (show 0 ≤ m.toInt by omega)
  obtain ⟨q, hq⟩ := Int.eq_ofNat_of_zero_le (show 0 ≤ n.toInt by omega)
  rw [Bool.eq_false_iff]
  intro hlt
  rw [add_int, if_neg hfits, hp, hq] at hlt
  have hfloat := toFloat_lt_of_lt hlt (by simp)
  simp only [toFloat] at hfloat
  exact Binary64.not_sum_lt (by omega) (by omega) (by omega) (by omega) (by omega) (by omega) hfloat

theorem not_lt_add {m n b : Int64} (h : m.toInt + n.toInt < Int64.minValue.toInt) :
    (int b).lt (add (int m) (int n)) = false := by
  have hm := m.le_toInt
  have hn := n.le_toInt
  have hb := b.toInt_lt
  have hb' := b.le_toInt
  have hmin : Int64.minValue.toInt = -2 ^ 63 := by decide
  have hfits : ¬Fits (m.toInt + n.toInt) := fun hfits => absurd hfits.1 (not_le.2 h)
  obtain ⟨p, hp⟩ := Int.exists_eq_neg_ofNat (show m.toInt ≤ 0 by omega)
  obtain ⟨q, hq⟩ := Int.exists_eq_neg_ofNat (show n.toInt ≤ 0 by omega)
  rw [Bool.eq_false_iff]
  intro hlt
  rw [add_int, if_neg hfits, hp, hq] at hlt
  have hfloat := toFloat_lt_of_lt hlt (by simp)
  simp only [toFloat] at hfloat
  exact Binary64.not_lt_sum (by omega) (by omega) (by omega) (by omega) (by omega) (by omega) hfloat

end ArrowScript.Number
