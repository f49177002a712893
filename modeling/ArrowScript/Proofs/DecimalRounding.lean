import Mathlib
import ArrowScript.Proofs.Binary64
import ArrowScript.Proofs.NumberIdentity

/-! Decimals as they are read. A decimal is the quotient of its digits and a power of ten, and the
quotient is rounded once: to the nearest number, and of two that are as near to the one with the
even mantissa. Below the smallest normal number the unit no longer shrinks, and mantissas do
instead. So every decimal in the interval of the reals that round to a number is read as this
number. -/

namespace ArrowScript

namespace Decimal.Binary

variable {b : Binary} {x : ℚ}

theorem low_eq (b : Binary) :
    b.low = (b.m - if b.narrowBelow then 1 / 4 else 1 / 2) * 2 ^ b.q := by
  rw [low, quarter]
  split_ifs <;> ring

theorem high_eq (b : Binary) : b.high = (b.m + 1 / 2) * 2 ^ b.q := by
  rw [high, quarter]
  ring

theorem encloses_of_units
    (hlow : (b.m - if b.narrowBelow then 1 / 4 else 1 / 2) < x ∨
      Even b.m ∧ (b.m - if b.narrowBelow then 1 / 4 else 1 / 2) = x)
    (hhigh : x < b.m + 1 / 2 ∨ Even b.m ∧ x = b.m + 1 / 2) : b.Encloses (x * 2 ^ b.q) := by
  constructor
  · rw [low_eq]
    exact hlow.imp (fun h => by gcongr) fun h => ⟨h.1, by rw [h.2]⟩
  · rw [high_eq]
    exact hhigh.imp (fun h => by gcongr) fun h => ⟨h.1, by rw [h.2]⟩

end Decimal.Binary

namespace Binary64

open Float.Model Float.Model.UnpackedFloat
open Decimal (Binary)

theorem ofMantissaAndAccuracy_inexact (k a b : ℕ) :
    ExtendedMantissa.ofMantissaAndAccuracy k (.inexact (compare a b)) =
      ⟨k, decide (b ≤ a), decide (a ≠ b)⟩ := by
  rcases lt_trichotomy a b with h | rfl | h
  · simp [compare_lt_iff_lt.2 h, ExtendedMantissa.ofMantissaAndAccuracy, h.ne, h]
  · simp [ExtendedMantissa.ofMantissaAndAccuracy]
  · simp [compare_gt_iff_gt.2 h, ExtendedMantissa.ofMantissaAndAccuracy, h.ne', h.le]

theorem mantissa_ofMantissaAndAccuracy (m : ℕ) (acc : Accuracy) :
    (ExtendedMantissa.ofMantissaAndAccuracy m acc).mantissa = m := by
  cases acc with
  | exact => rfl
  | inexact o => cases o <;> rfl

theorem Stands.quotient (m : ℕ) {n : ℕ} (hn : 0 < n) :
    Stands (.ofMantissaAndAccuracy (m / n) (accuracyOfFraction (m % n) n)) (m / n) := by
  have hpos : (0 : ℚ) < n := by exact_mod_cast hn
  have hsplit : (m : ℚ) / n = (m / n : ℕ) + (m % n : ℕ) / n := by
    rw [div_eq_iff hpos.ne', add_mul, div_mul_cancel₀ _ hpos.ne', mul_comm]
    exact_mod_cast (Nat.div_add_mod m n).symm
  have hrest : ((m % n : ℕ) : ℚ) < n := by exact_mod_cast Nat.mod_lt m hn
  rw [hsplit]
  generalize m / n = k
  generalize m % n = r at hrest
  rcases Nat.eq_zero_or_pos r with rfl | hr
  · simpa [accuracyOfFraction] using! Stands.exact k
  · have hgt : 0 < (r : ℚ) / n := by positivity
    have hlt : (r : ℚ) / n < 1 := (div_lt_one hpos).2 hrest
    have hhalf : n ≤ 2 * r ↔ 1 / 2 ≤ (r : ℚ) / n := by
      rw [div_le_div_iff₀ two_pos hpos, one_mul, mul_comm (r : ℚ)]
      exact_mod_cast Iff.rfl
    have htie : 2 * r = n ↔ (r : ℚ) / n = 1 / 2 := by
      rw [div_eq_div_iff hpos.ne' two_ne_zero, one_mul, mul_comm (r : ℚ)]
      exact_mod_cast Iff.rfl
    rw [accuracyOfFraction, if_neg hr.ne', ofMantissaAndAccuracy_inexact]
    refine ⟨by linarith, by linarith, ?_, ?_⟩
    · simp only [decide_eq_true_eq, hhalf, add_le_add_iff_left]
    · simp [htie, hgt.ne']

/-- Rounding in units of `2 ^ t`, down to the smallest unit: as in `RoundsAt`, but in the smallest
unit `v` need not have 53 bits. -/
structure RoundsGradually (t : ℤ) (r : ℕ) (v : ℚ) : Prop where
  ge : -1074 ≤ t
  le : -1074 < t → 2 ^ 52 * 2 ^ t ≤ v
  lt : v < 2 ^ 53 * 2 ^ t
  nearest : NearestEven (v / 2 ^ t) r

namespace RoundsGradually

variable {t : ℤ} {r : ℕ} {v : ℚ}

theorem mantissa_le (h : RoundsGradually t r v) : r ≤ 2 ^ 53 := by
  apply h.nearest.le_of_ge
  rw [div_le_iff₀ (by positivity)]
  exact_mod_cast h.lt.le

theorem le_mantissa (h : RoundsGradually t r v) (ht : -1074 < t) : 2 ^ 52 ≤ r :=
  RoundsAt.le_mantissa ⟨h.le ht, h.lt, h.nearest⟩

theorem canonical (h : RoundsGradually t r v) (hr : r < 2 ^ 53) :
    Binary.Canonical ⟨r, t, decide (r = 2 ^ 52 ∧ -1074 < t)⟩ :=
  ⟨hr, h.ge, h.le_mantissa, decide_eq_true_iff⟩

theorem encloses (h : RoundsGradually t r v) :
    Binary.Encloses ⟨r, t, decide (r = 2 ^ 52 ∧ -1074 < t)⟩ v := by
  -- the nearest mantissa has the number in its interval. From a power of two the interval reaches
  -- only half as far down, but nothing below the power is rounded in its unit
  have hpos : (0 : ℚ) < 2 ^ t := by positivity
  rw [← div_mul_cancel₀ v hpos.ne']
  apply Binary.encloses_of_units <;> dsimp only
  · split_ifs with hnarrow
    · left
      obtain ⟨rfl, ht⟩ := of_decide_eq_true hnarrow
      have hle : 2 ^ 52 ≤ v / 2 ^ t := (le_div_iff₀ hpos).2 (h.le ht)
      push_cast
      linarith
    · exact h.nearest.sub_half_le.lt_or_eq.imp_right fun heq =>
        ⟨h.nearest.even_of_tie (.inr heq.symm), heq⟩
  · exact h.nearest.le_add_half.lt_or_eq.imp_right fun heq =>
      ⟨h.nearest.even_of_tie (.inl heq), heq⟩

theorem canonical_carry (h : RoundsGradually t r v) :
    Binary.Canonical ⟨2 ^ 52, t + 1, true⟩ := by
  have hge := h.ge
  refine ⟨?_, ?_, fun _ => le_rfl, ?_⟩ <;> dsimp only
  · norm_num
  · omega
  · exact iff_of_true rfl ⟨rfl, by omega⟩

theorem encloses_carry (h : RoundsGradually t (2 ^ 53) v) :
    Binary.Encloses ⟨2 ^ 52, t + 1, true⟩ v := by
  -- where all bits were ones, the next power of two has another unit
  have hpos : (0 : ℚ) < 2 ^ t := by positivity
  have hv : v = v / 2 ^ t / 2 * 2 ^ (t + 1) := by
    rw [zpow_add_one₀ two_ne_zero]
    field_simp
  have hlt : v / 2 ^ t < 2 ^ 53 := (div_lt_iff₀ hpos).2 h.lt
  have hhalf := h.nearest.sub_half_le
  push_cast at hhalf
  rw [hv]
  apply Binary.encloses_of_units <;> dsimp only <;> push_cast
  · rw [if_pos rfl]
    refine (lt_or_eq_of_le ?_).imp_right fun heq => ⟨by decide, heq⟩
    linarith
  · left
    linarith

end RoundsGradually

section Shifts

variable {m r : ℕ} {e t : ℤ} {v : ℚ}

theorem shiftToTargetExponent_of_le (acc : Accuracy) (ht : max (m.log2 + e - 52) (-1074) = t)
    (h : e ≤ t) : shiftToTargetExponent .binary64 m e acc =
      (ExtendedMantissa.ofMantissaAndAccuracy m acc >>> (t - e).toNat, t) := by
  rw [shiftToTargetExponent, targetExponent_eq, ht, shiftToExponent]
  congr 1
  omega

theorem shiftToTargetExponent_of_short (hr : r < 2 ^ 53) (ht : -1074 ≤ t) :
    shiftToTargetExponent .binary64 r t .exact = (⟨r, false, false⟩, t) := by
  have hlog : r.log2 < 53 := by
    rcases Nat.eq_zero_or_pos r with rfl | hpos
    · decide
    · exact (Nat.log2_lt hpos.ne').2 hr
  have hshift : (max (r.log2 + t - 52) (-1074) - t).toNat = 0 := by omega
  rw [shiftToTargetExponent, targetExponent_eq, shiftToExponent, hshift, Nat.cast_zero, add_zero]
  rfl

theorem shiftToTargetExponent_carry (ht : -1074 ≤ t) :
    shiftToTargetExponent .binary64 (2 ^ 53) t .exact = (⟨2 ^ 52, false, false⟩, t + 1) := by
  have hshift : (max ((2 ^ 53).log2 + t - 52) (-1074) - t).toNat = 1 := by
    rw [Nat.log2_two_pow]
    omega
  rw [shiftToTargetExponent, targetExponent_eq, shiftToExponent, hshift]
  rfl

theorem Stands.roundsGradually {acc : Accuracy}
    (h : Stands (.ofMantissaAndAccuracy m acc) (v / 2 ^ e))
    (ht : max (m.log2 + e - 52) (-1074) = t) (he : e ≤ t) :
    RoundsGradually t
      (ExtendedMantissa.ofMantissaAndAccuracy m acc >>> (t - e).toNat).roundedMantissa v := by
  -- the mantissa is cut to 53 bits, or where this would need too small a unit, to fewer
  have hpos : (0 : ℚ) < 2 ^ e := by positivity
  have hle := h.le
  have hlt := h.lt
  have hshift := h.shiftRight (t - e).toNat
  rw [mantissa_ofMantissaAndAccuracy, le_div_iff₀ hpos] at hle
  rw [mantissa_ofMantissaAndAccuracy, div_lt_iff₀ hpos] at hlt
  rw [div_div, ← zpow_natCast, ← zpow_add₀ two_ne_zero, Int.toNat_of_nonneg (by omega),
    add_sub_cancel] at hshift
  have hunits (k : ℕ) (n : ℕ) : (2 : ℚ) ^ k * 2 ^ ((n : ℤ) + e - k) = (2 ^ n : ℕ) * 2 ^ e := by
    push_cast
    rw [← zpow_natCast, ← zpow_natCast, ← zpow_add₀ two_ne_zero, ← zpow_add₀ two_ne_zero]
    congr 1
    omega
  refine ⟨by omega, fun hnormal => ?_, ?_, hshift.nearestEven⟩
  · have hlog : t = m.log2 + e - 52 := by omega
    have hm : m ≠ 0 := by
      rintro rfl
      rw [Nat.log2_zero] at hlog
      omega
    calc (2 : ℚ) ^ 52 * 2 ^ t = (2 ^ m.log2 : ℕ) * 2 ^ e := by rw [hlog]; exact hunits 52 _
      _ ≤ m * 2 ^ e := by gcongr; exact Nat.log2_self_le hm
      _ ≤ v := hle
  · have hlog : ((m.log2 + 1 : ℕ) : ℤ) + e - 53 ≤ t := by omega
    calc v < (m + 1) * 2 ^ e := hlt
      _ ≤ (2 ^ (m.log2 + 1) : ℕ) * 2 ^ e := by gcongr; exact_mod_cast Nat.lt_log2_self
      _ = 2 ^ 53 * 2 ^ (((m.log2 + 1 : ℕ) : ℤ) + e - 53) := (hunits 53 _).symm
      _ ≤ 2 ^ 53 * 2 ^ t := by gcongr; norm_num

end Shifts

def unpacked (b : Binary) : UnpackedFloat :=
  if h : 0 < b.m then .finite .positive b.m b.q h else .zero .positive

/-- The number that `v` rounds to; it may be too large to be packed. -/
def Nearest (f : UnpackedFloat) (v : ℚ) : Prop :=
  ∃ b : Binary, b.Canonical ∧ b.Encloses v ∧ f = unpacked b

section Rounding

variable {m n : ℕ} {e f : ℤ} {v : ℚ}

theorem roundWithAccuracy_eq_unpacked {e₁ : ℤ} {acc : Accuracy} {em : ExtendedMantissa}
    {b : Binary} (hfirst : shiftToTargetExponent .binary64 m e acc = (em, e₁))
    (hsecond : shiftToTargetExponent .binary64 em.roundedMantissa e₁ .exact =
      (⟨b.m, false, false⟩, b.q)) :
    roundWithAccuracy .binary64 .positive m e acc = unpacked b := by
  simp only [roundWithAccuracy, hfirst, hsecond, unpacked, Nat.pos_iff_ne_zero]
  by_cases hm : b.m = 0
  · rw [dif_pos hm, dif_neg (not_not.2 hm)]
  · rw [dif_neg hm, dif_pos hm]

theorem nearest_roundWithAccuracy {acc : Accuracy}
    (h : Stands (.ofMantissaAndAccuracy m acc) (v / 2 ^ e)) (hlong : e ≤ -1074 ∨ 2 ^ 52 ≤ m) :
    Nearest (roundWithAccuracy .binary64 .positive m e acc) v := by
  have hlog : e ≤ -1074 ∨ 52 ≤ m.log2 := hlong.imp_right fun hm => (Nat.le_log2 (by omega)).2 hm
  obtain ⟨t, ht⟩ : ∃ t, max (m.log2 + e - 52 : ℤ) (-1074) = t := ⟨_, rfl⟩
  have he : e ≤ t := by omega
  have hfirst := shiftToTargetExponent_of_le acc ht he
  have hrounds := h.roundsGradually ht he
  rcases hrounds.mantissa_le.lt_or_eq with hlt | heq
  · exact ⟨_, hrounds.canonical hlt, hrounds.encloses, roundWithAccuracy_eq_unpacked hfirst
      (shiftToTargetExponent_of_short hlt hrounds.ge)⟩
  · refine ⟨_, hrounds.canonical_carry, (heq ▸ hrounds).encloses_carry,
      roundWithAccuracy_eq_unpacked hfirst ?_⟩
    rw [heq]
    exact shiftToTargetExponent_carry hrounds.ge

theorem nearest_mul (hm : 0 < m) (hn : 0 < n) (hlong : 2 ^ 52 ≤ m * n) :
    Nearest (UnpackedFloat.mul .binary64 (.finite .positive m e hm) (.finite .positive n f hn))
      (m * 2 ^ e * (n * 2 ^ f)) := by
  have hvalue : (m : ℚ) * 2 ^ e * (n * 2 ^ f) / 2 ^ (e + f) = (m * n : ℕ) := by
    rw [zpow_add₀ two_ne_zero]
    push_cast
    field_simp
  refine nearest_roundWithAccuracy ?_ (.inr hlong)
  rw [hvalue]
  exact .exact _

theorem exists_divCore (hm : 0 < m) (hn : 0 < n) :
    ∃ s : ℕ, divCore .binary64 m e n f =
        (m * 2 ^ s / n, e - f - s, accuracyOfFraction (m * 2 ^ s % n) n) ∧
      (e - f - s ≤ -1074 ∨ 2 ^ 52 ≤ m * 2 ^ s / n) := by
  -- the dividend first gets as many more bits as the quotient needs
  have htarget : Format.binary64.targetExponent (totalExponent m e - totalExponent n f) =
      max (m.log2 + e - (n.log2 + f) - 53) (-1074) := by
    rw [targetExponent_binary64, totalExponent, totalExponent]
    omega
  refine ⟨(e - f - min (e - f) (max (m.log2 + e - (n.log2 + f) - 53) (-1074))).toNat, ?_, ?_⟩
  · simp only [divCore, htarget, Nat.shiftLeft_eq]
    congr 2
    omega
  · generalize hs : (e - f - min (e - f) (max (m.log2 + e - (n.log2 + f) - 53) (-1074))).toNat = s
    -- either the smallest unit is reached, or the dividend is 53 bits longer than the divisor
    have hbits : e - f - s ≤ -1074 ∨ n.log2 + 53 ≤ m.log2 + s := by omega
    refine hbits.imp_right fun hbits => (Nat.le_div_iff_mul_le hn).2 ?_
    calc 2 ^ 52 * n ≤ 2 ^ 52 * 2 ^ (n.log2 + 1) := Nat.mul_le_mul_left _ Nat.lt_log2_self.le
      _ = 2 ^ (n.log2 + 53) := by rw [← pow_add]; congr 1; omega
      _ ≤ 2 ^ (m.log2 + s) := Nat.pow_le_pow_right two_pos hbits
      _ = 2 ^ m.log2 * 2 ^ s := pow_add ..
      _ ≤ m * 2 ^ s := Nat.mul_le_mul_right _ (Nat.log2_self_le hm.ne')

theorem nearest_div (hm : 0 < m) (hn : 0 < n) :
    Nearest (UnpackedFloat.div .binary64 (.finite .positive m e hm) (.finite .positive n f hn))
      (m * 2 ^ e / (n * 2 ^ f)) := by
  obtain ⟨s, hcore, hlong⟩ := exists_divCore (e := e) (f := f) hm hn
  have hdiv : UnpackedFloat.div .binary64 (.finite .positive m e hm) (.finite .positive n f hn) =
      roundWithAccuracy .binary64 .positive (m * 2 ^ s / n) (e - f - s)
        (accuracyOfFraction (m * 2 ^ s % n) n) := by
    rw [UnpackedFloat.div, hcore]
    rfl
  have hvalue : (m : ℚ) * 2 ^ e / (n * 2 ^ f) / 2 ^ (e - f - s) = (m * 2 ^ s : ℕ) / n := by
    rw [zpow_sub₀ two_ne_zero, zpow_sub₀ two_ne_zero, zpow_natCast]
    push_cast
    field_simp
  rw [hdiv]
  refine nearest_roundWithAccuracy ?_ hlong
  rw [hvalue]
  exact .quotient _ hn

theorem nearest_zero (hle : 0 ≤ v) (hlt : v < 2 ^ (-1075 : ℤ)) : Nearest (.zero .positive) v := by
  have hpos : (0 : ℚ) < 2 ^ (-1074 : ℤ) := by positivity
  have hunit : (2 : ℚ) ^ (-1075 : ℤ) = 1 / 2 * 2 ^ (-1074 : ℤ) := by
    rw [show (-1074 : ℤ) = -1075 + 1 by norm_num, zpow_add_one₀ two_ne_zero]
    ring
  have hlow : 0 ≤ v / 2 ^ (-1074 : ℤ) := by positivity
  have hhigh : v / 2 ^ (-1074 : ℤ) < 1 / 2 := (div_lt_iff₀ hpos).2 (hunit ▸ hlt)
  have hnearest : NearestEven (v / 2 ^ (-1074 : ℤ)) 0 :=
    .of_lt (by rw [Nat.cast_zero]; linarith) (by rw [Nat.cast_zero]; linarith)
  have hrounds : RoundsGradually (-1074) 0 v :=
    ⟨le_rfl, fun h => absurd h (lt_irrefl _), by linarith, hnearest⟩
  exact ⟨_, hrounds.canonical (by norm_num), hrounds.encloses, rfl⟩

theorem nearest_tiny {k : ℕ} (h : 2 ^ 11 + n.log2 < k) :
    Nearest (.zero .positive) (n / 10 ^ k) := by
  refine nearest_zero (by positivity) ?_
  calc (n : ℚ) / 10 ^ k < 2 ^ (n.log2 + 1) / 2 ^ k := by
        gcongr
        · exact_mod_cast Nat.lt_log2_self
        · norm_num
    _ = 2 ^ ((n.log2 + 1 : ℕ) - k : ℤ) := by
        rw [zpow_sub₀ two_ne_zero, zpow_natCast, zpow_natCast]
    _ ≤ 2 ^ (-1075 : ℤ) := zpow_le_zpow_right₀ one_le_two (by omega)

end Rounding

section Packing

variable {x : Float} {b : Binary}

theorem toNat_packComponents {e f : ℕ} (he : e < 2 ^ 11) (hf : f < 2 ^ 52) :
    (packComponents .binary64 .positive (BitVec.ofNat 11 e) (BitVec.ofNat 52 f)).toNat =
      e * 2 ^ 52 + f := by
  simp only [packComponents, BitVec.toNat_append, BitVec.toNat_ofNat, Nat.mod_eq_of_lt he,
    Nat.mod_eq_of_lt hf]
  rw [← Nat.shiftLeft_add_eq_or_of_lt hf, ← Nat.shiftLeft_add_eq_or_of_lt he]
  simp [Sign.toBitVec, Nat.shiftLeft_eq]

theorem pack_subnormal {f : ℕ} (hf : f < 2 ^ 52) :
    UnpackedFloat.pack .binary64 (unpacked ⟨f, -1074, false⟩) =
      packComponents .binary64 .positive (BitVec.ofNat 11 0) (BitVec.ofNat 52 f) := by
  rcases Nat.eq_zero_or_pos f with rfl | hpos
  · rfl
  · have hlog : f.log2 + 1 ≠ Format.binary64.mantissaBits := by
      have := (Nat.log2_lt hpos.ne').2 hf
      rw [mantissaBits_binary64]
      omega
    rw [unpacked, dif_pos hpos]
    simp only [UnpackedFloat.pack]
    rw [if_neg (by decide), if_neg hlog]

theorem eq_pack_of_shape (h : Decimal.shape x = .finite false b) :
    x = .ofModel (.pack (unpacked b)) := by
  obtain ⟨e, f, he, hf, hbits, hb⟩ := Decimal.exists_of_shape h
  have hpack : UnpackedFloat.pack .binary64 (unpacked b) =
      packComponents .binary64 .positive (BitVec.ofNat 11 e) (BitVec.ofNat 52 f) := by
    obtain ⟨rfl, rfl⟩ | ⟨hpos, rfl⟩ := hb
    · exact pack_subnormal hf
    · have hnormal : Normal (2 ^ 52 + f) ((e : Int) - 1075) :=
        ⟨by omega, by omega, by omega, by omega⟩
      have hone : BitVec.ofNat 52 (2 ^ 52 + f) = BitVec.ofNat 52 f := by
        apply BitVec.eq_of_toNat_eq
        simp
      rw [unpacked, dif_pos (Nat.add_pos_left (by norm_num) f),
        pack_normal .positive hnormal _ (b := e) (by omega), hone]
  refine Float.toBits_inj.1 (UInt64.toNat_inj.1 ?_)
  calc x.toBits.toNat = e * 2 ^ 52 + f := by simpa using hbits
    _ = (UnpackedFloat.pack .binary64 (unpacked b)).toNat := by
        rw [hpack, toNat_packComponents (by omega) hf]

theorem unpack_of_shape (h : Decimal.shape x = .finite false b) (hnormal : Normal b.m b.q)
    (hm : 0 < b.m) : x.toModel.unpack = .finite .positive b.m b.q hm := by
  rw [eq_pack_of_shape h, unpacked, dif_pos hm]
  exact unpack_pack .positive hnormal hm

end Packing

section Decimals

variable {n k : ℕ}

theorem shape_powerOfTen (hk : k < Float.exactlyRepresentablePowersOfTen.size) :
    Decimal.shape Float.exactlyRepresentablePowersOfTen[k] =
      .finite false ⟨5 ^ k * 2 ^ (52 - (5 ^ k).log2), k - (52 - (5 ^ k).log2 : ℕ), k == 0⟩ := by
  -- the powers of ten that can be told by 53 bits: the mantissa is the power of five, with zeros
  -- behind it
  have hk' : k < 23 := hk
  decide +kernel +revert

theorem holds_powerOfTen (hk : k < Float.exactlyRepresentablePowersOfTen.size) :
    Holds Float.exactlyRepresentablePowersOfTen[k] .positive (10 ^ k) := by
  have hk' : k < 23 := hk
  have hshape := shape_powerOfTen hk
  have hcanonical := Decimal.canonical_of_shape hshape
  have hnormal : Normal (5 ^ k * 2 ^ (52 - (5 ^ k).log2)) (k - (52 - (5 ^ k).log2 : ℕ)) :=
    ⟨hcanonical.normal (by dsimp only; omega), hcanonical.lt, hcanonical.ge, by omega⟩
  refine ⟨_, _, by positivity, unpack_of_shape hshape hnormal _, hnormal, ?_⟩
  rw [zpow_sub₀ two_ne_zero, zpow_natCast, zpow_natCast]
  push_cast
  field_simp
  rw [← mul_pow]
  norm_num

theorem nearest_div_powerOfTen (hn : n < 2 ^ 53)
    (hk : k < Float.exactlyRepresentablePowersOfTen.size) :
    Nearest (UnpackedFloat.div .binary64 n.toUInt64.toFloat.toModel.unpack
      Float.exactlyRepresentablePowersOfTen[k].toModel.unpack) (n / 10 ^ k) := by
  obtain ⟨q, t, hq, hpower, -, hvalue⟩ := holds_powerOfTen hk
  rw [hpower, hvalue]
  rcases Nat.eq_zero_or_pos n with rfl | hpos
  · have hzero : (0 : ℕ).toUInt64.toFloat.toModel.unpack = .zero .positive := rfl
    rw [hzero]
    exact nearest_zero (by simp) (by simp)
  · obtain ⟨p, u, hp, hunpack, -, hvalue'⟩ := holds_toFloat hpos hn
    rw [hunpack, hvalue']
    exact nearest_div hp hq

theorem nearest_ofScientific (n k : ℕ) :
    Nearest (UnpackedFloat.ofScientific .binary64 n (-k)) (n / 10 ^ k) := by
  have hexponent : Format.binary64.exponentBits = 11 := rfl
  rw [UnpackedFloat.ofScientific, hexponent]
  split_ifs with hn hlarge htiny hk
  · subst hn
    exact nearest_zero (by simp) (by simp)
  · omega
  · exact nearest_tiny (by omega)
  · -- without a fraction there is no quotient, and the bits are made enough by zeros
    obtain rfl : k = 0 := by omega
    have hlong : 2 ^ 52 ≤ n <<< Format.binary64.mantissaBits * 10 ^ (-((0 : ℕ) : ℤ)).toNat := by
      rw [mantissaBits_binary64, Nat.shiftLeft_eq, Nat.cast_zero, neg_zero, Int.toNat_zero,
        pow_zero, mul_one]
      omega
    convert! nearest_mul _ _ hlong using 1
    simp [Nat.shiftLeft_eq]
  · have hdiv := nearest_div (e := 0) (f := 0) (Nat.pos_of_ne_zero hn) (n := 10 ^ k) (by positivity)
    simpa using hdiv

theorem exists_nearest (n k : ℕ) :
    ∃ f, Float.ofScientific n true k = .ofModel (.pack f) ∧ Nearest f (n / 10 ^ k) := by
  by_cases hshort : n < 2 ^ 53 ∧ k ≤ 22
  · refine ⟨_, ?_, nearest_div_powerOfTen hshort.1 (Nat.lt_succ_iff.2 hshort.2)⟩
    rw [Float.ofScientific, dif_pos hshort]
    rfl
  · refine ⟨_, ?_, nearest_ofScientific n k⟩
    rw [Float.ofScientific, dif_neg hshort, if_pos rfl, Int.negOfNat_eq]
    rfl

/-- A decimal that rounds to a number is read as this number. -/
theorem ofScientific_of_encloses {x : Float} {b : Binary} (hx : Decimal.shape x = .finite false b)
    (h : b.Encloses (n / 10 ^ k)) : Float.ofScientific n true k = x := by
  obtain ⟨f, hread, c, hcanonical, hc, rfl⟩ := exists_nearest n k
  -- no real rounds to two numbers, so the parts found are those of `x` and can be packed
  have hbinary : b = c := Binary.eq_of_encloses (Decimal.canonical_of_shape hx) hcanonical h hc
  rw [hread, ← hbinary]
  exact (eq_pack_of_shape hx).symm

end Decimals

end Binary64

end ArrowScript
