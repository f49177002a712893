import Mathlib
import ArrowScript.Proofs.Progression

/-! Integer powers. With an exponent that is not negative, a power is an integer exactly when it
fits 64 bits and its exponent 32. Longer exponents are not tried, although all powers of 0, 1 and
-1 fit. -/

namespace ArrowScript.Number

/-- `r` is the power of two integers as it should be: exact where it fits, and otherwise in floating
point. -/
def IsPower (a e : Int64) (r : Number) : Prop :=
  if Fits (a.toInt ^ e.toInt.toNat) then ∃ n, r = int n ∧ n.toInt = a.toInt ^ e.toInt.toNat
  else ∃ x, r = float x

/-- Powers of 0, 1 and -1 that are not tried. -/
structure Untried (a e : Int64) : Prop where
  base : a = 0 ∨ a = 1 ∨ a = -1
  exponent : 2 ^ 32 ≤ e.toInt

theorem natAbs_le_one_iff (a : Int64) : a.toInt.natAbs ≤ 1 ↔ a = 0 ∨ a = 1 ∨ a = -1 := by
  have hzero : (0 : Int64).toInt = 0 := rfl
  have hone : (1 : Int64).toInt = 1 := rfl
  have hneg : (-1 : Int64).toInt = -1 := by decide
  rw [← Int64.toInt_inj, ← Int64.toInt_inj, ← Int64.toInt_inj, hzero, hone, hneg]
  omega

section

variable {m : ℤ} {n : ℕ}

theorem fits_pow (hm : m.natAbs ≤ 1) (n : ℕ) : Fits (m ^ n) := by
  have hmin : Int64.minValue.toInt = -2 ^ 63 := by decide
  have hmax : Int64.maxValue.toInt = 2 ^ 63 - 1 := by decide
  have hsmall : (m ^ n).natAbs ≤ 1 := by
    rw [Int.natAbs_pow]
    exact pow_le_one₀ (Nat.zero_le _) hm
  exact ⟨by omega, by omega⟩

theorem not_fits_pow (hm : 2 ≤ m.natAbs) (hn : 64 ≤ n) : ¬ Fits (m ^ n) := by
  -- every other base at least doubles with each step
  have hmin : Int64.minValue.toInt = -2 ^ 63 := by decide
  have hmax : Int64.maxValue.toInt = 2 ^ 63 - 1 := by decide
  have hlarge : 2 ^ 64 ≤ (m ^ n).natAbs := by
    calc 2 ^ 64 ≤ 2 ^ n := Nat.pow_le_pow_right (by norm_num) hn
      _ ≤ m.natAbs ^ n := Nat.pow_le_pow_left hm n
      _ = (m ^ n).natAbs := (Int.natAbs_pow m n).symm
  rintro ⟨hlow, hhigh⟩
  omega

theorem boundedPower?_of_natAbs_le_one (hm : m.natAbs ≤ 1) (n : ℕ) :
    boundedPower? m n = some (m ^ n) := by
  obtain rfl | rfl | rfl : m = 0 ∨ m = 1 ∨ m = -1 := by omega
  · cases n <;> simp [boundedPower?]
  · simp [boundedPower?]
  · rcases Nat.even_or_odd n with hn | hn
    · simp [boundedPower?, Nat.even_iff.1 hn, hn.neg_one_pow]
    · simp [boundedPower?, Nat.odd_iff.1 hn, hn.neg_one_pow]

theorem boundedPower?_of_two_le (hm : 2 ≤ m.natAbs) (n : ℕ) :
    boundedPower? m n = if n < 64 then some (m ^ n) else none := by
  have hzero : ¬ (m = 0 ∨ m = 1) := by omega
  have hneg : m ≠ -1 := by omega
  rw [boundedPower?, if_neg hzero, if_neg hneg]
  rfl

theorem bind_boundedPower? (m : ℤ) (n : ℕ) : (boundedPower? m n).bind ofInt? = ofInt? (m ^ n) := by
  rcases Nat.lt_or_ge 1 m.natAbs with hm | hm
  · rw [boundedPower?_of_two_le hm]
    split_ifs with hn
    · rfl
    · rw [Option.bind_none, ofInt?, if_neg (not_fits_pow hm (not_lt.1 hn))]
  · rw [boundedPower?_of_natAbs_le_one hm, Option.bind_some]

end

theorem pow_int_of_lt {a e : Int64} (he : 0 ≤ e.toInt) (he' : e.toInt < 2 ^ 32) :
    pow (int a) (int e) = (ofInt? (a.toInt ^ e.toInt.toNat)).getD
      (float ((int a).toFloat.pow (int e).toFloat)) := by
  have htried : 0 ≤ e.toInt ∧ e.toInt.toNat < UInt32.size := by
    have hsize : UInt32.size = 2 ^ 32 := rfl
    omega
  rw [pow, combine, power?, if_pos htried, bind_boundedPower?]

theorem pow_int_of_le (a : Int64) {e : Int64} (he : 2 ^ 32 ≤ e.toInt) :
    pow (int a) (int e) = float ((int a).toFloat.pow (int e).toFloat) := by
  have huntried : ¬ (0 ≤ e.toInt ∧ e.toInt.toNat < UInt32.size) := by
    have hsize : UInt32.size = 2 ^ 32 := rfl
    omega
  rw [pow, combine, power?, if_neg huntried, Option.bind_none, Option.getD_none]

theorem isPower_of_lt {a e : Int64} (he : 0 ≤ e.toInt) (he' : e.toInt < 2 ^ 32) :
    IsPower a e (pow (int a) (int e)) := by
  rw [IsPower, pow_int_of_lt he he', ofInt?]
  split_ifs with hfits
  · exact ⟨_, rfl, hfits.toInt_ofInt⟩
  · exact ⟨_, rfl⟩

theorem pow_of_untried {a e : Int64} (h : Untried a e) :
    Fits (a.toInt ^ e.toInt.toNat) ∧ ∃ x, pow (int a) (int e) = float x :=
  ⟨fits_pow ((natAbs_le_one_iff a).2 h.base) _, _, pow_int_of_le a h.exponent⟩

theorem not_isPower_of_untried {a e : Int64} (h : Untried a e) :
    ¬ IsPower a e (pow (int a) (int e)) := by
  obtain ⟨hfits, x, hx⟩ := pow_of_untried h
  rw [IsPower, if_pos hfits, hx]
  rintro ⟨n, hn, -⟩
  cases hn

/-- With an exponent that is not negative, integers have the power that they should have, unless it
is one that is not tried. -/
theorem pow_exact (a e : Int64) (he : 0 ≤ e.toInt) :
    (IsPower a e (pow (int a) (int e)) ↔ ¬ Untried a e) ∧
      (Untried a e → Fits (a.toInt ^ e.toInt.toNat) ∧ ∃ x, pow (int a) (int e) = float x) := by
  refine ⟨⟨fun hpower h => not_isPower_of_untried h hpower, fun h => ?_⟩, pow_of_untried⟩
  rcases lt_or_ge e.toInt (2 ^ 32) with hlt | hge
  · exact isPower_of_lt he hlt
  · -- a base beyond -1 and 1, so nothing of this length fits
    have hbase : ¬ a.toInt.natAbs ≤ 1 := fun hbase => h ⟨(natAbs_le_one_iff a).1 hbase, hge⟩
    rw [IsPower, if_neg (not_fits_pow (by omega) (by omega))]
    exact ⟨_, pow_int_of_le a hge⟩

theorem pow_exact_least :
    0 ≤ (63 : Int64).toInt ∧ ¬ Untried (-2) 63 ∧
      ∃ n, pow (int (-2)) (int 63) = int n ∧ n.toInt = (-2) ^ 63 := by
  have htried : ¬ Untried (-2) 63 := fun h => absurd h.exponent (by decide)
  have hpower := (pow_exact (-2) 63 (by decide)).1.2 htried
  have hfits : Fits ((-2 : Int64).toInt ^ (63 : Int64).toInt.toNat) := by decide
  rw [IsPower, if_pos hfits] at hpower
  exact ⟨by decide, htried, hpower⟩

theorem pow_one_untried :
    let e : Int64 := 4294967296
    0 ≤ e.toInt ∧ (∃ x, pow (int 1) (int e) = float x) ∧ ¬ IsPower 1 e (pow (int 1) (int e)) := by
  intro e
  have huntried : Untried 1 e := ⟨.inr (.inl rfl), by decide⟩
  exact ⟨by decide, (pow_of_untried huntried).2, not_isPower_of_untried huntried⟩

end ArrowScript.Number
