import Mathlib
import ArrowScript.Proofs.NumberText

/-! The text of a number identifies it. What is written for a number in floating point lies in the
interval of the reals that round to it, and the intervals of two numbers have no point in common:
where two of them meet, their mantissas are not both even. -/

namespace ArrowScript

namespace Decimal

theorem zpow_mul_pow_neg {a : ℚ} (ha : a ≠ 0) (e : ℤ) : a ^ e * a ^ (-e).toNat = a ^ e.toNat := by
  have hsum : e + ((-e).toNat : ℤ) = (e.toNat : ℤ) := by omega
  rw [← zpow_natCast, ← zpow_natCast, ← zpow_add₀ ha, hsum]

namespace Scaled

def value (d : Scaled) : ℚ := d.coeff * 10 ^ d.exp

theorem value_dropZeros (d : Scaled) (limit : Nat) : (d.dropZeros limit).value = d.value := by
  induction limit generalizing d with
  | zero => rfl
  | succ limit ih =>
    rw [dropZeros]
    split_ifs with hzero
    · have hten : ((d.coeff / 10 : ℕ) : ℚ) * 10 = d.coeff := by
        exact_mod_cast (by omega : d.coeff / 10 * 10 = d.coeff)
      rw [ih, value, value, zpow_add_one₀ (by norm_num), ← hten]
      ring
    · rfl

end Scaled

namespace Binary

variable {b c : Binary} {v : ℚ}

/-- The magnitudes of finite numbers: the mantissa has 53 bits, and the first of them is set unless
the exponent is the least one. -/
structure Canonical (b : Binary) : Prop where
  lt : b.m < 2 ^ 53
  ge : -1074 ≤ b.q
  normal : -1074 < b.q → 2 ^ 52 ≤ b.m
  narrow : b.narrowBelow = true ↔ b.m = 2 ^ 52 ∧ -1074 < b.q

def value (b : Binary) : ℚ := b.m * 2 ^ b.q

def quarter (b : Binary) : ℚ := 2 ^ b.q / 4

def low (b : Binary) : ℚ := (4 * b.m - if b.narrowBelow then 1 else 2) * b.quarter

def high (b : Binary) : ℚ := (4 * b.m + 2) * b.quarter

/-- The real `v` rounds to `b`; the ends do where the mantissa is even. -/
structure Encloses (b : Binary) (v : ℚ) : Prop where
  low : b.low < v ∨ Even b.m ∧ b.low = v
  high : v < b.high ∨ Even b.m ∧ v = b.high

theorem quarter_pos (b : Binary) : 0 < b.quarter := by
  rw [quarter]
  positivity

theorem encloses_value (b : Binary) : b.Encloses b.value := by
  have hpos := b.quarter_pos
  have hvalue : b.value = 4 * b.m * b.quarter := by
    rw [value, quarter]
    ring
  constructor
  · left
    rw [hvalue, Binary.low]
    gcongr
    split_ifs <;> linarith
  · left
    rw [hvalue, Binary.high]
    gcongr
    linarith

theorem low_bound (hc : c.Canonical) (hq : -1074 < c.q) :
    (2 ^ 54 - 1 : ℚ) ≤ 4 * c.m - if c.narrowBelow then 1 else 2 := by
  have hm := hc.normal hq
  split_ifs with hnarrow
  · rw [(hc.narrow.1 hnarrow).1]
    norm_num
  · have hne : c.m ≠ 2 ^ 52 := fun h => hnarrow (hc.narrow.2 ⟨h, hq⟩)
    have hm' : 2 ^ 52 + 1 ≤ c.m := by omega
    have : ((2 ^ 52 + 1 : ℕ) : ℚ) ≤ c.m := by exact_mod_cast hm'
    push_cast at this
    linarith

theorem high_le_low (hb : b.Canonical) (hc : c.Canonical)
    (h : b.q < c.q ∨ b.q = c.q ∧ b.m < c.m) :
    b.high ≤ c.low ∧ (b.high = c.low → ¬ (Even b.m ∧ Even c.m)) := by
  have hpos := b.quarter_pos
  rcases h with hq | ⟨hq, hm⟩
  · have hquarter : 2 * b.quarter ≤ c.quarter := by
      have hpow : (2 : ℚ) ^ (b.q + 1) ≤ 2 ^ c.q := zpow_le_zpow_right₀ (by norm_num) (by omega)
      rw [zpow_add_one₀ (by norm_num)] at hpow
      rw [quarter, quarter]
      linarith
    have hlow : (2 ^ 54 - 1) * (2 * b.quarter) ≤ c.low := by
      have hbound := low_bound hc (by have := hb.ge; omega)
      rw [low]
      gcongr
    have hhigh : b.high = (4 * b.m + 2) * b.quarter := rfl
    -- only the last number before a power of two comes so near, and its mantissa is odd
    rcases Nat.lt_or_ge b.m (2 ^ 53 - 1) with hm | hm
    · have hlt : b.high < c.low := by
        have : (b.m : ℚ) < 2 ^ 53 - 1 := by
          have : ((b.m + 1 : ℕ) : ℚ) < ((2 ^ 53 : ℕ) : ℚ) := by exact_mod_cast (by omega)
          push_cast at this
          linarith
        nlinarith
      exact ⟨hlt.le, fun heq => absurd heq hlt.ne⟩
    · have hm' : b.m = 2 ^ 53 - 1 := by
        have := hb.lt
        omega
      refine ⟨?_, fun _ heven => ?_⟩
      · rw [hhigh, hm']
        norm_num at hlow ⊢
        linarith
      · rw [hm'] at heven
        exact absurd heven.1 (by decide)
  · have hsame : c.quarter = b.quarter := by rw [quarter, quarter, hq]
    rw [high, low, hsame]
    have hstep : (b.m : ℚ) + 1 ≤ c.m := by exact_mod_cast hm
    have hle : 4 * (b.m : ℚ) + 2 ≤ 4 * c.m - if c.narrowBelow then 1 else 2 := by
      split_ifs <;> linarith
    refine ⟨mul_le_mul_of_nonneg_right hle hpos.le, fun heq heven => ?_⟩
    have hend := mul_right_cancel₀ hpos.ne' heq
    have hnext : c.m = b.m + 1 := by
      have : (c.m : ℚ) ≤ b.m + 1 := by
        split_ifs at hend <;> linarith
      have : c.m ≤ b.m + 1 := by exact_mod_cast this
      omega
    rw [hnext, Nat.even_add_one] at heven
    exact heven.2 heven.1

theorem not_encloses (hb : b.Canonical) (hc : c.Canonical)
    (h : b.q < c.q ∨ b.q = c.q ∧ b.m < c.m) (hbv : b.Encloses v) : ¬ c.Encloses v := by
  intro hcv
  obtain ⟨hle, hmeet⟩ := high_le_low hb hc h
  rcases hbv.high with hhigh | ⟨hb', hhigh⟩ <;> rcases hcv.low with hlow | ⟨hc', hlow⟩
  · linarith
  · linarith
  · linarith
  · exact hmeet (by rw [hlow, hhigh]) ⟨hb', hc'⟩

/-- No real rounds to two numbers. -/
theorem eq_of_encloses (hb : b.Canonical) (hc : c.Canonical) (hbv : b.Encloses v)
    (hcv : c.Encloses v) : b = c := by
  have hbc : ¬ (b.q < c.q ∨ b.q = c.q ∧ b.m < c.m) := fun h => not_encloses hb hc h hbv hcv
  have hcb : ¬ (c.q < b.q ∨ c.q = b.q ∧ c.m < b.m) := fun h => not_encloses hc hb h hcv hbv
  have hq : b.q = c.q := by omega
  have hm : b.m = c.m := by omega
  have hnarrow : b.narrowBelow = c.narrowBelow := by
    rw [Bool.eq_iff_iff, hb.narrow, hc.narrow, hq, hm]
  cases b
  cases c
  simp_all

theorem value_eq (b : Binary) : b.value = b.num / b.den := by
  have hden : (b.den : ℚ) ≠ 0 := by exact_mod_cast b.den_pos.ne'
  rw [eq_div_iff hden, value, num, den, Nat.pow_eq, Nat.pow_eq]
  push_cast
  rw [mul_assoc, zpow_mul_pow_neg two_ne_zero]

theorem quarter_mul (b : Binary) : b.quarter * (4 * b.den) = 2 ^ b.q.toNat := by
  rw [quarter, den, Nat.pow_eq, ← zpow_mul_pow_neg two_ne_zero b.q]
  push_cast
  ring

theorem compareGrid_eq (d : Nat) (e : Int) (k : Nat) :
    b.compareGrid d e (k * 2 ^ b.q.toNat) = compare ((d : ℚ) * 10 ^ e) (k * b.quarter) := by
  have hscale : (0 : ℚ) < 10 ^ (-e).toNat * (4 * b.den) := by
    have : (0 : ℚ) < b.den := by exact_mod_cast b.den_pos
    positivity
  have hleft : ((d * Nat.pow 10 e.toNat * (4 * b.den) : ℕ) : ℚ) =
      d * 10 ^ e * (10 ^ (-e).toNat * (4 * b.den)) := by
    rw [Nat.pow_eq]
    push_cast
    rw [← zpow_mul_pow_neg (by norm_num : (10 : ℚ) ≠ 0) e]
    ring
  have hright : ((k * 2 ^ b.q.toNat * Nat.pow 10 (-e).toNat : ℕ) : ℚ) =
      k * b.quarter * (10 ^ (-e).toNat * (4 * b.den)) := by
    rw [Nat.pow_eq]
    push_cast
    rw [← quarter_mul]
    ring
  rw [compareGrid]
  generalize d * Nat.pow 10 e.toNat * (4 * b.den) = l at hleft
  generalize k * 2 ^ b.q.toNat * Nat.pow 10 (-e).toNat = r at hright
  have hlt : l < r ↔ (d : ℚ) * 10 ^ e < k * b.quarter := by
    rw [← mul_lt_mul_iff_of_pos_right hscale, ← hleft, ← hright]
    exact Nat.cast_lt.symm
  have heq : l = r ↔ (d : ℚ) * 10 ^ e = k * b.quarter := by
    rw [← mul_left_inj' hscale.ne', ← hleft, ← hright]
    exact Nat.cast_inj.symm
  simp only [compare, compareOfLessAndEq, hlt, heq]

theorem encloses_of_readsBack {d : Nat} {e : Int} (hm : 0 < b.m) (h : b.readsBack d e = true) :
    b.Encloses (d * 10 ^ e) := by
  have hlow : 4 * b.num - (if b.narrowBelow then 1 else 2) * 2 ^ b.q.toNat =
      (4 * b.m - if b.narrowBelow then 1 else 2) * 2 ^ b.q.toNat := by
    rw [num, Nat.pow_eq, Nat.sub_mul, mul_assoc]
  have hhigh : 4 * b.num + 2 * 2 ^ b.q.toNat = (4 * b.m + 2) * 2 ^ b.q.toNat := by
    rw [num, Nat.pow_eq]
    ring
  simp only [readsBack, Nat.pow_eq, hlow, hhigh, compareGrid_eq, Bool.and_eq_true, Bool.or_eq_true,
    beq_iff_eq, ← Nat.even_iff] at h
  have hcast : ((4 * b.m - if b.narrowBelow then 1 else 2 : ℕ) : ℚ) * b.quarter = b.low := by
    have hle : (if b.narrowBelow then 1 else 2) ≤ 4 * b.m := by split_ifs <;> omega
    rw [low, Nat.cast_sub hle]
    push_cast
    rfl
  have hcast' : ((4 * b.m + 2 : ℕ) : ℚ) * b.quarter = b.high := by
    rw [high]
    push_cast
    rfl
  rw [hcast, hcast'] at h
  constructor
  · exact h.1.imp (fun h => compare_gt_iff_gt.1 h) fun h => ⟨h.1, (compare_eq_iff_eq.1 h.2).symm⟩
  · exact h.2.imp (fun h => compare_lt_iff_lt.1 h) fun h => ⟨h.1, compare_eq_iff_eq.1 h.2⟩

theorem value_exact (b : Binary) : b.exact.value = b.value := by
  have hpow : (10 : ℚ) ^ (-b.q).toNat = 2 ^ (-b.q).toNat * 5 ^ (-b.q).toNat := by
    rw [← mul_pow]
    norm_num
  rw [exact, Scaled.value, value_eq, den, Nat.pow_eq, Nat.pow_eq, zpow_neg, zpow_natCast, hpow]
  push_cast
  field_simp

theorem encloses_shortest (hm : 0 < b.m) : b.Encloses b.shortest.value := by
  cases hfind : (List.range 17).findSome? fun (n : Nat) => b.onGrid? (b.scale - (n + 1)) with
  | none =>
    rw [shortest, hfind, Option.getD_none, value_exact]
    exact b.encloses_value
  | some d =>
    rw [shortest, hfind, Option.getD_some]
    obtain ⟨k, -, hk⟩ := List.exists_of_findSome?_eq_some hfind
    exact encloses_of_readsBack hm (readsBack_of_onGrid? hk)

end Binary

inductive Writes : List Char → ℚ → Prop
  | pointed {whole fraction : List Char} (hne : fraction ≠ [])
      (h : ∀ c ∈ whole ++ fraction, c.isDigit) :
      Writes (whole ++ '.' :: fraction) (ofDigits (whole ++ fraction) / 10 ^ fraction.length)

theorem ofDigits_padded (zeros n : Nat) :
    ofDigits (List.replicate zeros '0' ++ digits n) = n := by
  have hzeros : (List.replicate zeros '0').foldl
      (fun n c => 10 * n + (c.toNat - '0'.toNat)) 0 = 0 := by
    induction zeros with
    | zero => rfl
    | succ zeros ih => simpa [List.replicate_succ] using ih
  rw [ofDigits, List.foldl_append, hzeros]
  exact Nat.ofDigitChars_ten_toDigits

theorem bne_point_of_isDigit {c : Char} (h : c.isDigit) : c != '.' := by
  rw [bne_iff_ne]
  rintro rfl
  exact absurd h (by decide)

theorem Writes.unique {cs : List Char} {v w : ℚ} (hv : Writes cs v) (hw : Writes cs w) :
    v = w := by
  obtain @⟨whole, fraction, -, h⟩ := hv
  generalize hcs : whole ++ '.' :: fraction = cs at hw
  obtain @⟨whole', fraction', -, h'⟩ := hw
  have hpoint {whole fraction : List Char} (h : ∀ c ∈ whole ++ fraction, c.isDigit) :
      ∀ c ∈ whole, c != '.' :=
    fun c hc => bne_point_of_isDigit (h c (List.mem_append_left _ hc))
  have hhead (fraction : List Char) : ∀ c ∈ ('.' :: fraction).head?, (c != '.') = false := by simp
  have hwhole : whole = whole' := by
    rw [← Lexeme.takeWhile_run (hpoint h) (hhead fraction), hcs,
      Lexeme.takeWhile_run (hpoint h') (hhead fraction')]
  subst hwhole
  rw [List.append_cancel_left_eq, List.cons.injEq] at hcs
  rw [hcs.2]

theorem Scaled.writes_positional {d : Scaled} (h : ∀ n, ¬ d.Equals n) :
    Writes d.positional d.value := by
  have hexp := exp_neg_of_not_equals h
  generalize hd : d.dropZeros (-d.exp).toNat = d' at hexp
  obtain ⟨whole, fraction, htext, hlength, zeros, hdigits⟩ := positional_split hd hexp
  have hvalue : d.value = ofDigits (whole ++ fraction) / 10 ^ fraction.length := by
    have hneg : d'.exp = -(fraction.length : ℤ) := by omega
    rw [← value_dropZeros d (-d.exp).toNat, hd, value, hdigits, ofDigits_padded, hneg, zpow_neg,
      zpow_natCast, div_eq_mul_inv]
  rw [htext, hvalue]
  exact .pointed (List.ne_nil_of_length_pos (by omega)) (hdigits ▸ isDigit_padded zeros _)

theorem Binary.value_floor {b : Binary} (h : b.isIntegral = true) :
    b.value = ofDigits (digits b.floor ++ ['0']) / 10 ^ ['0'].length := by
  have hden : (b.den : ℚ) ≠ 0 := by exact_mod_cast b.den_pos.ne'
  have hfloor : b.floor * b.den = b.num := Nat.div_mul_cancel (Nat.dvd_of_mod_eq_zero (by
    simpa [isIntegral] using h))
  have hdigits : ofDigits (digits b.floor ++ ['0']) = 10 * b.floor := by
    have hzero := ofDigits_padded 0 b.floor
    rw [List.replicate_zero, List.nil_append] at hzero
    rw [ofDigits, List.foldl_append, ← ofDigits, hzero]
    rfl
  rw [value_eq, hdigits, ← hfloor]
  push_cast
  field_simp
  simp

theorem pointed_writes {x : Float} {negative : Bool} {b : Binary}
    (h : shape x = .finite negative b) :
    ∃ cs v, (pointed x).toList = signed negative cs ∧ Writes cs v ∧ b.Encloses v := by
  cases hb : b.isIntegral with
  | true =>
    refine ⟨digits b.floor ++ ['.', '0'], b.value, by simp [pointed, h, hb], ?_, b.encloses_value⟩
    rw [Binary.value_floor hb]
    refine .pointed (List.cons_ne_nil _ _) fun c hc => ?_
    rcases List.mem_append.1 hc with hc | hc
    · exact isDigit_digits _ c hc
    · rw [List.mem_singleton.1 hc]
      decide
  | false =>
    have hm : b.m ≠ 0 := Binary.ne_zero_of_not_isIntegral hb
    exact ⟨b.shortest.positional, b.shortest.value, by simp [pointed, plain, h, hb, hm],
      Scaled.writes_positional (Binary.not_equals_shortest hb),
      Binary.encloses_shortest (Nat.pos_of_ne_zero hm)⟩

theorem exists_of_shape {x : Float} {negative : Bool} {b : Binary}
    (h : shape x = .finite negative b) :
    ∃ e f : Nat, e < 2047 ∧ f < 2 ^ 52 ∧
      x.toBits.toNat = negative.toNat * 2 ^ 63 + e * 2 ^ 52 + f ∧
      (e = 0 ∧ b = ⟨f, -1074, false⟩ ∨
        e ≠ 0 ∧ b = ⟨2 ^ 52 + f, (e : Int) - 1075, f == 0 && 1 < e⟩) := by
  have hlt : x.toBits.toNat < 2 ^ 64 := x.toBits.toNat_lt
  simp only [shape, Nat.pow_eq] at h
  generalize x.toBits.toNat = n at hlt h
  generalize hs : n / 2 ^ 63 = s at h
  generalize he : n / 2 ^ 52 % 2 ^ 11 = e at h
  generalize hf : n % 2 ^ 52 = f at h
  have hsign : (s == 1).toNat = s := by
    have hbit : s = 0 ∨ s = 1 := by omega
    rcases hbit with rfl | rfl <;> rfl
  have hbits : n = (s == 1).toNat * 2 ^ 63 + e * 2 ^ 52 + f := by
    rw [hsign]
    omega
  split_ifs at h with htop hinf hzero
  · cases h
    exact ⟨e, f, by omega, by omega, hbits, .inl ⟨hzero, rfl⟩⟩
  · cases h
    exact ⟨e, f, by omega, by omega, hbits, .inr ⟨hzero, rfl⟩⟩

theorem canonical_of_shape {x : Float} {negative : Bool} {b : Binary}
    (h : shape x = .finite negative b) : b.Canonical := by
  obtain ⟨e, f, -, hf, -, ⟨-, rfl⟩ | ⟨he, rfl⟩⟩ := exists_of_shape h
  · refine ⟨?_, le_rfl, fun h => absurd h (lt_irrefl _), by simp⟩
    dsimp only
    omega
  · refine ⟨?_, ?_, fun _ => Nat.le_add_right _ _, ?_⟩
    · dsimp only
      omega
    · dsimp only
      omega
    · simp only [Bool.and_eq_true, beq_iff_eq, decide_eq_true_eq]
      omega

theorem shape_injective {x y : Float} {negative : Bool} {b : Binary}
    (hx : shape x = .finite negative b) (hy : shape y = .finite negative b) : x = y := by
  obtain ⟨e, f, -, hf, hbits, hb⟩ := exists_of_shape hx
  obtain ⟨e', f', -, hf', hbits', hb'⟩ := exists_of_shape hy
  have hsame : e = e' ∧ f = f' := by
    rcases hb with ⟨rfl, rfl⟩ | ⟨he, rfl⟩ <;> rcases hb' with ⟨rfl, hb'⟩ | ⟨he', hb'⟩ <;>
      rw [Binary.mk.injEq] at hb' <;> omega
  obtain ⟨rfl, rfl⟩ := hsame
  exact Float.toBits_inj.1 (UInt64.toNat_inj.1 (hbits.trans hbits'.symm))

structure Numeral (cs : List Char) : Prop where
  ne_nil : cs ≠ []
  chars : ∀ c ∈ cs, c.isDigit ∨ c = '.'

theorem numeral_digits (n : Nat) : Numeral (digits n) :=
  ⟨Nat.toDigits_ne_nil, fun c hc => .inl (isDigit_digits n c hc)⟩

theorem Writes.mem_point {cs : List Char} {v : ℚ} (h : Writes cs v) : '.' ∈ cs := by
  cases h
  simp

theorem Writes.numeral {cs : List Char} {v : ℚ} (h : Writes cs v) : Numeral cs := by
  refine ⟨List.ne_nil_of_mem h.mem_point, ?_⟩
  cases h with
  | pointed _ h =>
    intro c hc
    rw [List.mem_append, List.mem_cons, or_left_comm] at hc
    rcases hc with rfl | hc
    · exact .inr rfl
    · exact .inl (h c (List.mem_append.2 hc))

theorem Numeral.head_ne {cs : List Char} (h : Numeral cs) (ds : List Char) : cs ≠ '-' :: ds := by
  rintro rfl
  exact absurd (h.chars '-' (by simp)) (by decide)

theorem signed_injective {negative negative' : Bool} {cs ds : List Char} (hcs : Numeral cs)
    (hds : Numeral ds) (h : signed negative cs = signed negative' ds) :
    negative = negative' ∧ cs = ds := by
  cases negative <;> cases negative' <;> simp only [signed, reduceIte, Bool.false_eq_true] at h
  · exact ⟨rfl, h⟩
  · exact absurd h (hcs.head_ne ds)
  · exact absurd h.symm (hds.head_ne cs)
  · exact ⟨rfl, List.tail_eq_of_cons_eq h⟩

theorem pointed_injective {x y : Float} {negative negative' : Bool} {b c : Binary}
    (hx : shape x = .finite negative b) (hy : shape y = .finite negative' c)
    (h : pointed x = pointed y) : x = y := by
  obtain ⟨cs, v, hxtext, hcs, hb⟩ := pointed_writes hx
  obtain ⟨ds, w, hytext, hds, hc⟩ := pointed_writes hy
  obtain ⟨hsign, heq⟩ := signed_injective hcs.numeral hds.numeral (by rw [← hxtext, h, hytext])
  subst hsign heq
  have hvalue : v = w := hcs.unique hds
  subst hvalue
  have hbinary : b = c :=
    Binary.eq_of_encloses (canonical_of_shape hx) (canonical_of_shape hy) hb hc
  subst hbinary
  exact shape_injective hx hy

end Decimal

namespace Number

def IsFinite : Number → Prop
  | int _ => True
  | float x => ∃ negative b, Decimal.shape x = .finite negative b

variable {m n : Number}

theorem toText_int (n : Int64) :
    (int n).toText.toList = Decimal.signed (n.toInt < 0) (Decimal.digits n.toInt.natAbs) := by
  rw [toText, String.toList_ofList]

theorem IsFinite.toText_eq (h : n.IsFinite) :
    ∃ negative cs, n.toText.toList = Decimal.signed negative cs ∧ Decimal.Numeral cs := by
  cases n with
  | int n => exact ⟨_, _, toText_int n, Decimal.numeral_digits _⟩
  | float x =>
    obtain ⟨negative, b, hx⟩ := h
    obtain ⟨cs, v, htext, hcs, -⟩ := Decimal.pointed_writes hx
    exact ⟨negative, cs, htext, hcs.numeral⟩

theorem toText_int_ne_float (n : Int64) {x : Float} (h : (float x).IsFinite) :
    (int n).toText ≠ (float x).toText := by
  intro heq
  obtain ⟨negative, b, hx⟩ := h
  obtain ⟨cs, v, htext, hcs, -⟩ := Decimal.pointed_writes hx
  have hsigned : Decimal.signed (n.toInt < 0) (Decimal.digits n.toInt.natAbs) =
      Decimal.signed negative cs := by
    rw [← toText_int, heq, ← htext, toText]
  obtain ⟨-, hdigits⟩ :=
    Decimal.signed_injective (Decimal.numeral_digits _) hcs.numeral hsigned
  have hpoint := hcs.mem_point
  rw [← hdigits] at hpoint
  exact absurd (Decimal.isDigit_digits _ _ hpoint) (by decide)

theorem toText_int_injective {m n : Int64} (h : (int m).toText = (int n).toText) : m = n := by
  have hsigned := congrArg String.toList h
  rw [toText_int, toText_int] at hsigned
  obtain ⟨hsign, hdigits⟩ :=
    Decimal.signed_injective (Decimal.numeral_digits _) (Decimal.numeral_digits _) hsigned
  have hsign' : m.toInt < 0 ↔ n.toInt < 0 := by simpa using hsign
  have habs : m.toInt.natAbs = n.toInt.natAbs := by
    rw [← Nat.ofDigitChars_ten_toDigits (n := m.toInt.natAbs),
      ← Nat.ofDigitChars_ten_toDigits (n := n.toInt.natAbs)]
    exact congrArg (Nat.ofDigitChars 10 · 0) hdigits
  exact Int64.toInt_inj.1 (by omega)

theorem IsFinite.toText_injective (hm : m.IsFinite) (hn : n.IsFinite) (h : m.toText = n.toText) :
    m = n := by
  cases m with
  | int m =>
    cases n with
    | int n => rw [toText_int_injective h]
    | float y => exact absurd h (toText_int_ne_float m hn)
  | float x =>
    cases n with
    | int n => exact absurd h.symm (toText_int_ne_float n hm)
    | float y =>
      obtain ⟨_, _, hx⟩ := hm
      obtain ⟨_, _, hy⟩ := hn
      rw [Decimal.pointed_injective hx hy h]

end Number

end ArrowScript
