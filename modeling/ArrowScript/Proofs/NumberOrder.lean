import Mathlib
import ArrowScript.Proofs.Binary64

/-! The order of numbers. Two integers are compared exactly, and any other two numbers in floating
point, where integers beyond 53 bits may become the same number. Both orders are total, and the
first refines the second; but where two integers become the same number, a comparison through that
number does not tell them apart. -/

namespace ArrowScript

namespace Binary64

open Float.Model Float.Model.UnpackedFloat

/-- The place of a number in the order: by sign, exponent and mantissa, with the infinities
outermost. -/
def place? : UnpackedFloat → Option (ℤ ×ₗ ℤ ×ₗ ℤ)
  | notANumber => none
  | infinity s => some (toLex (s.apply 2, toLex (0, 0)))
  | zero _ => some (toLex (0, toLex (0, 0)))
  | finite s m e _ => some (toLex (s.apply 1, toLex (s.apply e, s.apply m)))

theorem compare_natCast (a b : ℕ) : compare (a : ℤ) (b : ℤ) = compare a b := by
  rw [← cmp_eq_compare, ← cmp_eq_compare]
  exact Nat.strictMono_cast.cmp_map_eq a b

theorem compare_neg_neg (a b : ℤ) : compare (-a) (-b) = (compare a b).swap := by
  have hanti : StrictAnti fun n : ℤ => -n := fun _ _ => neg_lt_neg
  rw [← Std.OrientedOrd.eq_swap, ← cmp_eq_compare, ← cmp_eq_compare]
  exact hanti.cmp_map_eq a b

theorem compare_finite (s s' : Sign) {m m' : ℕ} {e e' : ℤ} (hm : 0 < m) (hm' : 0 < m') :
    (finite s m e hm).compare (finite s' m' e' hm') =
      some (compare (toLex (s.apply 1, toLex (s.apply e, s.apply m)))
        (toLex (s'.apply 1, toLex (s'.apply e', s'.apply m')))) := by
  cases s <;> cases s'
  · change some ((compare e e').then (compare m m')).swap =
      some ((compare (-1 : ℤ) (-1)).then ((compare (-e) (-e')).then (compare (-m : ℤ) (-m'))))
    rw [compare_neg_neg, compare_neg_neg, compare_neg_neg, compare_natCast, Ordering.swap_then]
    rfl
  · rfl
  · rfl
  · change some ((compare e e').then (compare m m')) =
      some ((compare (1 : ℤ) 1).then ((compare e e').then (compare (m : ℤ) m')))
    rw [compare_natCast]
    rfl

theorem compare_eq {x y : UnpackedFloat} {p q : ℤ ×ₗ ℤ ×ₗ ℤ} (hx : place? x = some p)
    (hy : place? y = some q) : x.compare y = some (compare p q) := by
  cases x with
  | notANumber => cases hx
  | infinity s =>
    cases s <;> cases hx <;> cases y with
    | notANumber => cases hy
    | infinity s' => cases s' <;> cases hy <;> rfl
    | zero s' => cases hy; rfl
    | finite s' m' e' h' => cases s' <;> cases hy <;> rfl
  | zero s =>
    cases hx
    cases y with
    | notANumber => cases hy
    | infinity s' => cases s' <;> cases hy <;> rfl
    | zero s' => cases hy; rfl
    | finite s' m' e' h' => cases s' <;> cases hy <;> rfl
  | finite s m e h =>
    cases hx
    cases y with
    | notANumber => cases hy
    | infinity s' => cases s <;> cases s' <;> cases hy <;> rfl
    | zero s' => cases s <;> cases hy <;> rfl
    | finite s' m' e' h' =>
      cases hy
      exact compare_finite s s' h h'

def At (x : Float) (p : ℤ ×ₗ ℤ ×ₗ ℤ) : Prop := place? x.toModel.unpack = some p

section

variable {x y : Float} {p q : ℤ ×ₗ ℤ ×ₗ ℤ}

theorem exists_at (h : x.isNaN = false) : ∃ p, At x p := by
  have hnan : x.toModel.unpack.isNaN = false := h
  unfold At
  cases hx : x.toModel.unpack with
  | notANumber =>
    rw [hx] at hnan
    cases hnan
  | infinity s => exact ⟨_, rfl⟩
  | zero s => exact ⟨_, rfl⟩
  | finite s m e hm => exact ⟨_, rfl⟩

theorem beq_iff_compare :
    (x == y) = true ↔ x.toModel.unpack.compare y.toModel.unpack = some .eq :=
  beq_iff_eq (a := x.toModel.unpack.compare y.toModel.unpack)

theorem At.lt_iff (hx : At x p) (hy : At y q) : x < y ↔ p < q := by
  have hcompare : x < y ↔ x.toModel.unpack.compare y.toModel.unpack = some .lt :=
    ⟨compare_of_lt, fun h => decide_eq_true (beq_iff_eq.2 h)⟩
  rw [hcompare, compare_eq hx hy, Option.some.injEq, compare_lt_iff_lt]

theorem At.beq_iff (hx : At x p) (hy : At y q) : (x == y) = true ↔ p = q := by
  rw [beq_iff_compare, compare_eq hx hy, Option.some.injEq, compare_eq_iff_eq]

theorem At.of_beq (hx : At x p) (h : (x == y) = true) : At y p := by
  have hnan : y.isNaN = false := by
    rw [beq_iff_compare] at h
    change y.toModel.unpack.isNaN = false
    cases hy : y.toModel.unpack with
    | notANumber =>
      rw [hy] at h
      cases hx : x.toModel.unpack <;> rw [hx] at h <;> cases h
    | infinity s => rfl
    | zero s => rfl
    | finite s m e hm => rfl
  obtain ⟨q, hq⟩ := exists_at hnan
  rwa [(hx.beq_iff hq).1 h]

theorem Denotes.exists_at {a : ℚ} (h : Denotes x a) : ∃ p, At x p := by
  cases h with
  | @zero s h => exact ⟨_, congrArg place? h⟩
  | finite h =>
    obtain ⟨q, t, hq, hx, -, -⟩ := h
    exact ⟨_, congrArg place? hx⟩

theorem Denotes.unique {a b : ℚ} (hx : Denotes x a) (hy : Denotes y b) (hp : At x p)
    (hp' : At y p) : a = b := by
  unfold At at hp hp'
  cases hx with
  | zero hx =>
    rw [hx] at hp
    cases hp
    cases hy with
    | zero hy => rfl
    | @finite s w hy =>
      obtain ⟨q, t, hq, hy, -, -⟩ := hy
      rw [hy] at hp'
      cases s <;> cases hp'
  | @finite s v hx =>
    obtain ⟨q, t, hq, hx, -, rfl⟩ := hx
    rw [hx] at hp
    cases hp
    cases hy with
    | zero hy =>
      rw [hy] at hp'
      cases s <;> cases hp'
    | @finite s' w hy =>
      obtain ⟨q', t', hq', hy, -, rfl⟩ := hy
      rw [hy] at hp'
      have hsame : s' = s ∧ t' = t ∧ q' = q := by
        cases s <;> cases s' <;> simp [place?, Sign.apply] at hp' ⊢ <;> omega
      obtain ⟨rfl, rfl, rfl⟩ := hsame
      rfl

end

namespace NearestEven

theorem mono {x x' : ℚ} {r r' : ℕ} (h : NearestEven x r) (h' : NearestEven x' r') (hx : x ≤ x') :
    r ≤ r' := by
  by_contra hlt
  have hle : (r' : ℚ) + 1 ≤ r := by exact_mod_cast Nat.not_le.1 hlt
  have hlow := h.sub_half_le
  have hhigh := h'.le_add_half
  -- both are halfway between two neighbours, and of these only one is even
  have hr : (r : ℚ) = r' + 1 := by linarith
  have hsucc : r = r' + 1 := by exact_mod_cast hr
  have heven := h.even_of_tie (.inr (by linarith))
  have heven' := h'.even_of_tie (.inl (by linarith))
  rw [hsucc, Nat.even_add_one] at heven
  exact heven heven'

end NearestEven

namespace Rounds

variable {v v' w w' : ℚ}

theorem mono (h : Rounds v w) (h' : Rounds v' w') (hv : v ≤ v') : w ≤ w' := by
  obtain ⟨t, r, hr, rfl⟩ := h
  obtain ⟨t', r', hr', rfl⟩ := h'
  have hlow : (2 ^ 52 : ℚ) ≤ r' := by exact_mod_cast hr'.le_mantissa
  rcases lt_trichotomy t t' with htt | rfl | htt
  · exact (mul_zpow_le_of_lt hr.mantissa_le htt).trans (by gcongr)
  · have hrr : (r : ℚ) ≤ r' := by
      exact_mod_cast hr.nearest.mono hr'.nearest (by gcongr)
    gcongr
  · -- the smaller number would lie above the larger
    have hgap := mul_zpow_le_of_lt (k := 2 ^ 53) le_rfl htt
    push_cast at hgap
    linarith [hr.le, hr'.lt]

theorem pos (h : Rounds v w) : 0 < w := by
  obtain ⟨t, r, hr, rfl⟩ := h
  have hlow : (2 ^ 52 : ℚ) ≤ r := by exact_mod_cast hr.le_mantissa
  positivity

end Rounds

inductive Converts : ℤ → ℚ → Prop
  | zero : Converts 0 0
  | pos {n : ℕ} {w : ℚ} (hn : 0 < n) (h : Rounds n w) : Converts n w
  | neg {n : ℕ} {w : ℚ} (hn : 0 < n) (h : Rounds n w) : Converts (-n) (-w)

theorem exists_converts {b : ℤ} (hb : b.natAbs ≤ 2 ^ 63) :
    ∃ z, Denotes (Float.ofInt b) z ∧ Converts b z := by
  rcases lt_trichotomy b 0 with hneg | rfl | hpos
  · obtain ⟨n, rfl⟩ := Int.exists_eq_neg_ofNat hneg.le
    obtain ⟨w, hw, hholds⟩ := holds_ofInt .negative (n := n) (by omega) (by omega)
    exact ⟨-w, .finite hholds, .neg (by omega) hw⟩
  · exact ⟨0, .zero (s := .positive) rfl, .zero⟩
  · obtain ⟨n, rfl⟩ := Int.eq_ofNat_of_zero_le hpos.le
    obtain ⟨w, hw, hholds⟩ := holds_ofInt .positive (n := n) (by omega) (by omega)
    exact ⟨w, .finite hholds, .pos (by omega) hw⟩

namespace Converts

variable {a b : ℤ} {y z : ℚ}

theorem mono (ha : Converts a y) (hb : Converts b z) (hab : a ≤ b) : y ≤ z := by
  cases ha with
  | zero =>
    cases hb with
    | zero => rfl
    | pos hn h => exact h.pos.le
    | neg hn h => omega
  | @pos n w hn h =>
    cases hb with
    | zero => omega
    | pos hn' h' => exact h.mono h' (by exact_mod_cast hab)
    | neg hn' h' => omega
  | @neg n w hn h =>
    have hw := h.pos
    cases hb with
    | zero => linarith
    | pos hn' h' => linarith [h'.pos]
    | neg hn' h' => exact neg_le_neg (h'.mono h (by exact_mod_cast neg_le_neg_iff.1 hab))

theorem eq_of_short (h : Converts b z) (hb : b.natAbs ≤ 2 ^ 53) : z = b := by
  have hvalue (n : ℕ) : (n : ℚ) = n * 2 ^ (0 : ℤ) := by rw [zpow_zero, mul_one]
  cases h with
  | zero => rfl
  | @pos n w hn h =>
    rw [h.eq_of_short (by omega) (hvalue n), Int.cast_natCast]
  | @neg n w hn h =>
    rw [h.eq_of_short (by omega) (hvalue n), Int.cast_neg, Int.cast_natCast]

end Converts

end Binary64

namespace Number

open Binary64

def IsOrdered : Number → Prop
  | int _ => True
  | float x => x.isNaN = false

instance : DecidablePred IsOrdered
  | int _ => inferInstanceAs (Decidable True)
  | float x => inferInstanceAs (Decidable (x.isNaN = false))

/-- Two integers become the same number in floating point, and that number stands between them,
although the first is greater than the last. -/
inductive Merges : Number → Number → Number → Prop
  | intro {m n : Int64} {x : Float} (hlt : n.toInt < m.toInt)
      (hm : (Float.ofInt m.toInt == x) = true) (hn : (Float.ofInt n.toInt == x) = true) :
      Merges (int m) (float x) (int n)

theorem natAbs_toInt_le (n : Int64) : n.toInt.natAbs ≤ 2 ^ 63 := by
  have := n.le_toInt
  have := n.toInt_lt
  omega

theorem exists_place {a : Number} (h : a.IsOrdered) : ∃ p, At a.toFloat p := by
  cases a with
  | int n =>
    obtain ⟨z, hz, -⟩ := exists_converts (natAbs_toInt_le n)
    exact hz.exists_at
  | float x => exact exists_at h

def Mixed (a b : Number) : Prop := ∀ m n, ¬ (a = int m ∧ b = int n)

section

variable {a b c : Number} {m n : Int64} {p q r : ℤ ×ₗ ℤ ×ₗ ℤ}

theorem Mixed.compare?_eq (h : Mixed a b) (ha : At a.toFloat p) (hb : At b.toFloat q) :
    a.compare? b = some (compare p q) := by
  unfold compare?
  split
  · exact absurd ⟨rfl, rfl⟩ (h _ _)
  · dsimp only
    simp only [ha.lt_iff hb, ha.beq_iff hb, hb.lt_iff ha]
    rcases lt_trichotomy p q with hlt | rfl | hgt
    · rw [if_pos hlt, compare_lt_iff_lt.2 hlt]
    · rw [if_neg (lt_irrefl p), if_pos rfl, compare_eq_iff_eq.2 rfl]
    · rw [if_neg hgt.not_gt, if_neg hgt.ne', if_pos hgt, compare_gt_iff_gt.2 hgt]

theorem exists_compare? (ha : a.IsOrdered) (hb : b.IsOrdered) :
    ∃ o, a.compare? b = some o ∧ b.compare? a = some o.swap := by
  by_cases h : Mixed a b
  · obtain ⟨p, hp⟩ := exists_place ha
    obtain ⟨q, hq⟩ := exists_place hb
    refine ⟨compare p q, h.compare?_eq hp hq, ?_⟩
    rw [Mixed.compare?_eq (fun m n hmn => h n m hmn.symm) hq hp, ← Std.OrientedOrd.eq_swap]
  · simp only [Mixed, not_forall, not_not] at h
    obtain ⟨m, n, rfl, rfl⟩ := h
    refine ⟨compare m.toInt n.toInt, rfl, ?_⟩
    rw [← Std.OrientedOrd.eq_swap]
    rfl

theorem trichotomy (ha : a.IsOrdered) (hb : b.IsOrdered) :
    (a.lt b ∧ ¬ a.eq b ∧ ¬ b.lt a) ∨ (¬ a.lt b ∧ a.eq b ∧ ¬ b.lt a) ∨
      (¬ a.lt b ∧ ¬ a.eq b ∧ b.lt a) := by
  obtain ⟨o, hab, hba⟩ := exists_compare? ha hb
  simp only [lt, eq, hab, hba]
  cases o <;> decide

theorem eq_iff_le_le (ha : a.IsOrdered) (hb : b.IsOrdered) : a.eq b ↔ a.le b ∧ b.le a := by
  obtain ⟨o, hab, hba⟩ := exists_compare? ha hb
  simp only [le, lt, eq, hab, hba]
  cases o <;> decide

theorem le_int_int : (int m).le (int n) ↔ m.toInt ≤ n.toInt := by
  simp only [le, lt, eq, compare?, Bool.or_eq_true, beq_iff_eq, Option.some.injEq,
    compare_lt_iff_lt, compare_eq_iff_eq]
  exact le_iff_lt_or_eq.symm

theorem Mixed.le_iff (h : Mixed a b) (ha : At a.toFloat p) (hb : At b.toFloat q) :
    a.le b ↔ p ≤ q := by
  simp only [le, lt, eq, h.compare?_eq ha hb, Bool.or_eq_true, beq_iff_eq, Option.some.injEq,
    compare_lt_iff_lt, compare_eq_iff_eq]
  exact le_iff_lt_or_eq.symm

theorem place_mono (hm : At (int m).toFloat p) (hn : At (int n).toFloat q)
    (h : m.toInt ≤ n.toInt) : p ≤ q := by
  by_contra hlt
  obtain ⟨y, hy, hmy⟩ := exists_converts (natAbs_toInt_le m)
  obtain ⟨z, hz, hnz⟩ := exists_converts (natAbs_toInt_le n)
  have hzy : z < y := hz.lt_of_lt hy ((hn.lt_iff hm).2 (not_le.1 hlt))
  exact absurd (hmy.mono hnz h) (not_le.2 hzy)

theorem place_le_of_le (ha : At a.toFloat p) (hb : At b.toFloat q) (h : a.le b) : p ≤ q := by
  by_cases hab : Mixed a b
  · exact (hab.le_iff ha hb).1 h
  · simp only [Mixed, not_forall, not_not] at hab
    obtain ⟨m, n, rfl, rfl⟩ := hab
    exact place_mono ha hb (le_int_int.1 h)

theorem le_trans_iff (ha : a.IsOrdered) (hb : b.IsOrdered) (hc : c.IsOrdered) (hab : a.le b)
    (hbc : b.le c) : a.le c ↔ ¬ Merges a b c := by
  obtain ⟨p, hp⟩ := exists_place ha
  obtain ⟨q, hq⟩ := exists_place hb
  obtain ⟨r, hr⟩ := exists_place hc
  have hpq := place_le_of_le hp hq hab
  have hqr := place_le_of_le hq hr hbc
  by_cases hac : Mixed a c
  · rw [hac.le_iff hp hr]
    refine iff_of_true (hpq.trans hqr) ?_
    rintro ⟨-, -, -⟩
    exact hac _ _ ⟨rfl, rfl⟩
  · simp only [Mixed, not_forall, not_not] at hac
    obtain ⟨m, n, rfl, rfl⟩ := hac
    rw [le_int_int]
    cases b with
    | int k =>
      exact iff_of_true ((le_int_int.1 hab).trans (le_int_int.1 hbc)) nofun
    | float x =>
      constructor
      · rintro hle ⟨hlt, -, -⟩
        exact absurd hle (not_le.2 hlt)
      · intro hmerges
        by_contra hlt
        -- the places are the same, for those of the integers cannot be out of order
        have hrp := place_mono hr hp (not_le.1 hlt).le
        obtain rfl : p = q := le_antisymm hpq (hqr.trans hrp)
        obtain rfl : r = p := le_antisymm hrp hqr
        exact hmerges (.intro (not_le.1 hlt) ((hp.beq_iff hq).2 rfl) ((hr.beq_iff hq).2 rfl))

theorem Merges.beyond (h : Merges (int m) b (int n)) :
    2 ^ 53 < m.toInt.natAbs ∨ 2 ^ 53 < n.toInt.natAbs := by
  cases h with
  | @intro _ _ x hlt hm hn =>
    by_contra hshort
    rw [not_or, not_lt, not_lt] at hshort
    obtain ⟨y, hy, hmy⟩ := exists_converts (natAbs_toInt_le m)
    obtain ⟨z, hz, hnz⟩ := exists_converts (natAbs_toInt_le n)
    obtain ⟨p, hp⟩ := hy.exists_at
    obtain ⟨q, hq⟩ := hz.exists_at
    -- both have the place of the number between them, and hence one value
    have hpq : p = q := (hp.beq_iff (hq.of_beq hn)).1 hm
    have hyz : y = z := hy.unique hz hp (hpq ▸ hq)
    rw [hmy.eq_of_short hshort.1, hnz.eq_of_short hshort.2, Int.cast_inj] at hyz
    exact absurd hyz hlt.ne'

end

/-- Numbers other than not-a-number are ordered in exactly one way. The order is transitive, and so
is equality, unless two different integers are compared through a number that both become in
floating point; then one of them has more than 53 bits. -/
theorem order_exact (a b c : Number) (ha : a.IsOrdered) (hb : b.IsOrdered) (hc : c.IsOrdered) :
    ((a.lt b ∧ ¬ a.eq b ∧ ¬ b.lt a) ∨ (¬ a.lt b ∧ a.eq b ∧ ¬ b.lt a) ∨
        (¬ a.lt b ∧ ¬ a.eq b ∧ b.lt a)) ∧
      (a.le b → b.le c → (a.le c ↔ ¬ Merges a b c)) ∧
      (a.eq b → b.eq c → (a.eq c ↔ ¬ Merges a b c ∧ ¬ Merges c b a)) ∧
      ∀ m x n, Merges (int m) (float x) (int n) →
        2 ^ 53 < m.toInt.natAbs ∨ 2 ^ 53 < n.toInt.natAbs := by
  refine ⟨trichotomy ha hb, le_trans_iff ha hb hc, fun hab hbc => ?_, fun m x n => Merges.beyond⟩
  rw [eq_iff_le_le ha hb] at hab
  rw [eq_iff_le_le hb hc] at hbc
  rw [eq_iff_le_le ha hc, le_trans_iff ha hb hc hab.1 hbc.1, le_trans_iff hc hb ha hbc.2 hab.2]

theorem order_exact_between :
    let x : Float := .ofBits 0x4004000000000000
    IsOrdered (float x) ∧ (int 2).le (float x) ∧ (float x).le (int 3) ∧ (int 2).le (int 3) ∧
      ¬ Merges (int 2) (float x) (int 3) := by
  intro x
  have hx : IsOrdered (float x) := by decide +kernel
  have hlow : (int 2).le (float x) := by decide +kernel
  have hhigh : (float x).le (int 3) := by decide +kernel
  obtain ⟨-, hle, -, hbeyond⟩ := order_exact (int 2) (float x) (int 3) trivial hx trivial
  have hmerges : ¬ Merges (int 2) (float x) (int 3) :=
    fun h => absurd (hbeyond 2 x 3 h) (by decide)
  exact ⟨hx, hlow, hhigh, (hle hlow hhigh).2 hmerges, hmerges⟩

theorem order_merges :
    let x : Float := .ofBits 0x4340000000000000
    let a : Number := int 9007199254740993
    let c : Number := int 9007199254740992
    IsOrdered (float x) ∧ (a.le (float x) ∧ (float x).le c ∧ ¬ a.le c) ∧
      (a.eq (float x) ∧ (float x).eq c ∧ ¬ a.eq c) := by
  dsimp only
  decide +kernel

end Number

end ArrowScript
