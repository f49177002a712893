import Mathlib
import ArrowScript.Proofs.Progression

/-! Operators on strings and functions. A string can be put behind another and be copied, and all
else is refused, on the span of the whole expression and with the machine as the operands left it.
Two signs slip through: `+` gives back whatever stands behind it, and `-`, which multiplies by -1,
leaves nothing of a string. -/

namespace ArrowScript

inductive Operator where
  | binary (op : BinaryOp)
  | unary (op : UnaryOp)

namespace Operator

/-- The operations that strings have. A negative number of copies counts as none. -/
inductive Permits : Operator → List Value → String → Prop
  | append (s t : String) : Permits (binary .add) [.text s, .text t] (s ++ t)
  | copies (s : String) (n : Int64) (h : s.utf8ByteSize * n.toInt.toNat ≤ Value.maxTextBytes) :
      Permits (binary .mul) [.text s, .number (.int n)]
        (String.join (List.replicate n.toInt.toNat s))

inductive Gives (op : Operator) (vs : List Value) : Option Value → Prop
  | permitted {t : String} (h : op.Permits vs t) : Gives op vs (some (.text t))
  | refused (h : ∀ t, ¬ op.Permits vs t) : Gives op vs none

/-- The signs that slip through, with the value that they have. -/
inductive SlipsThrough : Operator → List Value → Value → Prop
  | plus (v : Value) : SlipsThrough (unary .plus) [v] v
  | neg (s : String) : SlipsThrough (unary .neg) [.text s] (.text "")

variable {op : Operator} {vs : List Value}

theorem Permits.unique {s t : String} (h : op.Permits vs s) (h' : op.Permits vs t) : s = t := by
  cases h <;> cases h' <;> rfl

theorem Gives.unique {v w : Option Value} (h : op.Gives vs v) (h' : op.Gives vs w) : v = w := by
  cases h with
  | permitted h =>
    cases h' with
    | permitted h' => rw [h.unique h']
    | refused h' => exact absurd h (h' _)
  | refused h =>
    cases h' with
    | permitted h' => exact absurd h' (h _)
    | refused h' => rfl

theorem gives_unary {op : UnaryOp} {v : Option Value} (h : (unary op).Gives vs v) : v = none :=
  h.unique (.refused nofun)

theorem SlipsThrough.exists_unary {v : Value} (h : op.SlipsThrough vs v) : ∃ u, op = unary u := by
  cases h <;> exact ⟨_, rfl⟩

end Operator

namespace Value

open Operator (Permits Gives SlipsThrough)

theorem appendCopies_eq (s acc : String) (n : ℕ) :
    appendCopies s acc n = acc ++ String.join (List.replicate n s) := by
  induction n generalizing acc with
  | zero => simp [appendCopies]
  | succ n ih => rw [appendCopies, ih, List.replicate_succ, String.join_cons, String.append_assoc]

theorem join_replicate_empty (n : ℕ) : String.join (List.replicate n "") = "" := by
  induction n with
  | zero => rfl
  | succ n ih => rw [List.replicate_succ, String.join_cons, ih, String.append_empty]

theorem repeatText?_eq (s : String) (n : ℤ) :
    repeatText? s n = if s.utf8ByteSize * n.toNat ≤ maxTextBytes then
      some (String.join (List.replicate n.toNat s)) else none := by
  have hcopies : (if s = "" then "" else appendCopies s "" n.toNat) =
      String.join (List.replicate n.toNat s) := by
    split_ifs with hs
    · rw [hs, join_replicate_empty]
    · rw [appendCopies_eq, String.empty_append]
  rw [repeatText?, hcopies]

theorem binary_text_int (op : BinaryOp) (s : String) (n : Int64) :
    ∃ v, Gives (.binary op) [text s, number (.int n)] v ∧
      binary op (text s) (number (.int n)) = v.elim (.error .illegal) .ok := by
  by_cases hop : op = .mul
  · subst hop
    rw [binary, if_pos rfl, repeatText?_eq]
    split_ifs with hsize
    · exact ⟨_, .permitted (.copies s n hsize), rfl⟩
    · refine ⟨none, .refused ?_, rfl⟩
      rintro t ⟨⟩
      exact hsize ‹_›
  · rw [binary, if_neg hop]
    refine ⟨none, .refused ?_, rfl⟩
    rintro t ⟨⟩
    exact hop rfl

theorem binary_gives (op : BinaryOp) {a b : Value} (h : a.number? = none ∨ b.number? = none) :
    ∃ v, Gives (.binary op) [a, b] v ∧ binary op a b = v.elim (.error .illegal) .ok := by
  match a, b with
  | number m, number n => rcases h with h | h <;> cases h
  | text s, text t =>
    by_cases hop : op = .add
    · subst hop
      exact ⟨_, .permitted (.append s t), rfl⟩
    · rw [binary, if_neg hop]
      refine ⟨none, .refused ?_, rfl⟩
      rintro t ⟨⟩
      exact hop rfl
  | text s, number (.int n) => exact binary_text_int op s n
  | text s, number (.float x) => exact ⟨none, .refused nofun, rfl⟩
  | text s, function f => exact ⟨none, .refused nofun, rfl⟩
  | number m, text t => exact ⟨none, .refused nofun, rfl⟩
  | number m, function g => exact ⟨none, .refused nofun, rfl⟩
  | function f, b => exact ⟨none, .refused nofun, rfl⟩

theorem unary_gives (op : UnaryOp) {a : Value} (h : a.number? = none) :
    (∃ w, SlipsThrough (.unary op) [a] w ∧ unary op a = .ok w) ∨
      (∀ w, ¬ SlipsThrough (.unary op) [a] w) ∧ unary op a = .error .illegal := by
  match op, a with
  | .plus, v => exact .inl ⟨v, .plus v, rfl⟩
  | .neg, number n => cases h
  | .neg, text s =>
    refine .inl ⟨_, .neg s, ?_⟩
    have hnone : (-1 : Int64).toInt.toNat = 0 := by decide
    rw [unary, binary, if_pos rfl, repeatText?_eq, hnone, Nat.mul_zero, if_pos (Nat.zero_le _)]
    rfl
  | .neg, function f => exact .inr ⟨nofun, rfl⟩
  | .not, number n => cases h
  | .not, text s => exact .inr ⟨nofun, rfl⟩
  | .not, function f => exact .inr ⟨nofun, rfl⟩

end Value

inductive Operands (keep : Retention) (frame : Frame) (m : Machine) :
    SourceExpr → Operator → List Value → Machine → Prop
  | binary {s op l r a b m₁ m₂} (hl : Settles keep l frame m (.ok (some a) m₁))
      (hr : Settles keep r frame m₁ (.ok (some b) m₂)) :
      Operands keep frame m (.binary s op l r) (.binary op) [a.value, b.value] m₂
  | unary {s op e a m₁} (he : Settles keep e frame m (.ok (some a) m₁)) :
      Operands keep frame m (.unary s op e) (.unary op) [a.value] m₁

namespace Eval

def ending (s : Span) (frame : Frame) (m : Machine) :
    Option Value → EStateM.Result Halt Machine (Option Traced)
  | some v => .ok (some (.stamp v s frame)) m
  | none => .error (.failed (.ofFailure .illegalOperation s frame)) m

theorem ending_ne_exhausted (s : Span) (frame : Frame) (m m' : Machine) (v : Option Value) :
    ending s frame m v ≠ .error .exhausted m' := by
  cases v <;> nofun

theorem ending_injective (s : Span) (frame : Frame) (m : Machine) :
    Function.Injective (ending s frame m) := by
  intro v w h
  cases v <;> cases w <;> cases h <;> rfl

end Eval

section

variable {keep : Retention} {frame : Frame} {m m₁ m₂ : Machine} {a b : Traced}

theorem Settles.demand_eq {e : SourceExpr} (h : Settles keep e frame m (.ok (some a) m₁)) :
    ∃ bound, ∀ fuel ≥ bound, Eval.demand (eval keep fuel) e frame m = .ok a m₁ := by
  obtain ⟨bound, hbound⟩ := h.eventually
  exact ⟨bound, fun fuel hfuel => Eval.bind_ok (hbound fuel hfuel)⟩

theorem settles_iff {e : SourceExpr} {r r' : EStateM.Result Halt Machine (Option Traced)}
    (h : ∃ bound, ∀ fuel ≥ bound, eval keep (fuel + 1) e frame m = r)
    (hr : ∀ m', r ≠ .error .exhausted m') : Settles keep e frame m r' ↔ r' = r := by
  obtain ⟨bound, hbound⟩ := h
  constructor
  · intro hsettles
    obtain ⟨bound', hbound'⟩ := hsettles.eventually
    rw [← hbound' (max bound bound' + 1) (by omega), hbound _ (le_max_left _ _)]
  · rintro rfl
    exact ⟨⟨bound + 1, hbound bound le_rfl⟩, hr⟩

theorem settles_binary {s : Span} {op : BinaryOp} {l r : SourceExpr} {v : Option Value}
    (hl : Settles keep l frame m (.ok (some a) m₁))
    (hr : Settles keep r frame m₁ (.ok (some b) m₂))
    (hv : Value.binary op a.value b.value = v.elim (.error .illegal) .ok)
    {r' : EStateM.Result Halt Machine (Option Traced)} :
    Settles keep (.binary s op l r) frame m r' ↔ r' = Eval.ending s frame m₂ v := by
  obtain ⟨f₁, hf₁⟩ := hl.demand_eq
  obtain ⟨f₂, hf₂⟩ := hr.demand_eq
  refine settles_iff ⟨max f₁ f₂, fun fuel hfuel => ?_⟩ (Eval.ending_ne_exhausted s frame m₂ · v)
  refine (Eval.bind_ok (hf₁ fuel (by omega))).trans ?_
  refine (Eval.bind_ok (hf₂ fuel (by omega))).trans ?_
  rw [hv]
  cases v <;> rfl

theorem settles_unary {s : Span} {op : UnaryOp} {e : SourceExpr} {v : Option Value}
    (he : Settles keep e frame m (.ok (some a) m₁))
    (hv : Value.unary op a.value = v.elim (.error .illegal) .ok)
    {r' : EStateM.Result Halt Machine (Option Traced)} :
    Settles keep (.unary s op e) frame m r' ↔ r' = Eval.ending s frame m₁ v := by
  obtain ⟨f₁, hf₁⟩ := he.demand_eq
  refine settles_iff ⟨f₁, fun fuel hfuel => ?_⟩ (Eval.ending_ne_exhausted s frame m₁ · v)
  refine (Eval.bind_ok (hf₁ fuel hfuel)).trans ?_
  rw [hv]
  cases v <;> rfl

theorem Operands.ending {e : SourceExpr} {op : Operator} {vs : List Value} {m' : Machine}
    (h : Operands keep frame m e op vs m') (hvs : ∃ v ∈ vs, v.number? = none) :
    ∃ v, (∀ r, Settles keep e frame m r ↔ r = Eval.ending e.ann frame m' v) ∧
      ((op.Gives vs v ∧ ∀ w, ¬ op.SlipsThrough vs w) ∨ ∃ w, v = some w ∧ op.SlipsThrough vs w) := by
  cases h with
  | @binary s op l r a b m₁ m₂ hl hr =>
    have hab : a.value.number? = none ∨ b.value.number? = none := by simpa using hvs
    obtain ⟨v, hgives, hv⟩ := Value.binary_gives op hab
    exact ⟨v, fun _ => settles_binary hl hr hv, .inl ⟨hgives, nofun⟩⟩
  | @unary s op e a m₁ he =>
    have ha : a.value.number? = none := by simpa using hvs
    rcases Value.unary_gives op ha with ⟨w, hslips, hw⟩ | ⟨hslips, hillegal⟩
    · exact ⟨some w, fun _ => settles_unary he hw, .inr ⟨w, rfl, hslips⟩⟩
    · exact ⟨none, fun _ => settles_unary he hillegal, .inl ⟨.refused nofun, hslips⟩⟩

/-- Operators on strings and functions follow the rule, whatever expressions the operands are,
except for the signs that slip through, which have the value that slips through. -/
theorem operators_exact {e : SourceExpr} {op : Operator} {vs : List Value} {m' : Machine}
    (h : Operands keep frame m e op vs m') (hvs : ∃ v ∈ vs, v.number? = none) :
    ((∀ r, Settles keep e frame m r ↔
        ∃ v, op.Gives vs v ∧ r = Eval.ending e.ann frame m' v) ↔ ∀ w, ¬ op.SlipsThrough vs w) ∧
      ∀ w, op.SlipsThrough vs w →
        ∀ r, Settles keep e frame m r ↔ r = Eval.ending e.ann frame m' (some w) := by
  obtain ⟨v, hsettles, ⟨hgives, hnone⟩ | ⟨w, rfl, hslips⟩⟩ := h.ending hvs
  · refine ⟨⟨fun _ => hnone, fun _ r => ?_⟩, fun w hw => absurd hw (hnone w)⟩
    rw [hsettles]
    constructor
    · intro hr
      exact ⟨v, hgives, hr⟩
    · rintro ⟨v', hgives', hr⟩
      rw [hr, hgives'.unique hgives]
  · refine ⟨⟨fun hrule => ?_, fun hnone => absurd hslips (hnone w)⟩, fun w' hw' => ?_⟩
    · -- the rule has nothing for an operator with one operand
      obtain ⟨v, hgives, hv⟩ := (hrule _).1 ((hsettles _).2 rfl)
      obtain ⟨u, rfl⟩ := hslips.exists_unary
      rw [Operator.gives_unary hgives] at hv
      cases Eval.ending_injective _ _ _ hv
    · obtain rfl : w = w' := by cases hslips <;> cases hw' <;> rfl
      exact hsettles

end

theorem operators_exact_copies :
    let s : Span := .empty (.start ⟨"a", ""⟩)
    let m : Machine := ⟨Store.empty.addGlobals, 0, []⟩
    let copies : SourceExpr := .binary s .mul (.text s "ab") (.number s (.int 3))
    let less : SourceExpr := .binary s .sub copies (.text s "ab")
    Operands .escaping (.program 0) m copies (.binary .mul) [.text "ab", .number (.int 3)] m ∧
      Operands .escaping (.program 0) m less (.binary .sub) [.text "ababab", .text "ab"] m ∧
      Settles .escaping copies (.program 0) m
        (.ok (some (.stamp (.text "ababab") s (.program 0))) m) ∧
      Settles .escaping less (.program 0) m
        (.error (.failed (.ofFailure .illegalOperation s (.program 0))) m) := by
  intro s m copies less
  have htext (t : String) : Settles .escaping (.text s t) (.program 0) m
      (.ok (some (.stamp (.text t) s (.program 0))) m) := ⟨⟨1, rfl⟩, nofun⟩
  have hthree : Settles .escaping (.number s (.int 3)) (.program 0) m
      (.ok (some (.stamp (.number (.int 3)) s (.program 0))) m) := ⟨⟨1, rfl⟩, nofun⟩
  have hcopies : Operands .escaping (.program 0) m copies (.binary .mul)
      [.text "ab", .number (.int 3)] m := .binary (htext "ab") hthree
  have hpermits : Operator.Permits (.binary .mul) [.text "ab", .number (.int 3)] "ababab" :=
    .copies "ab" 3 (by decide +kernel)
  have hvalue := ((operators_exact hcopies ⟨_, .head _, rfl⟩).1.2 nofun _).2
    ⟨_, .permitted hpermits, rfl⟩
  have hless : Operands .escaping (.program 0) m less (.binary .sub)
      [.text "ababab", .text "ab"] m := .binary hvalue (htext "ab")
  exact ⟨hcopies, hless, hvalue,
    ((operators_exact hless ⟨_, .head _, rfl⟩).1.2 nofun _).2 ⟨_, .refused nofun, rfl⟩⟩

theorem signs_not_refused :
    let s : Span := .empty (.start ⟨"a", ""⟩)
    let m : Machine := ⟨Store.empty.addGlobals, 0, []⟩
    let signed (op : UnaryOp) : SourceExpr := .unary s op (.text s "ab")
    (∀ op, Operands .escaping (.program 0) m (signed op) (.unary op) [.text "ab"] m ∧
        ∀ v, (Operator.unary op).Gives [.text "ab"] v → v = none) ∧
      Settles .escaping (signed .plus) (.program 0) m
        (.ok (some (.stamp (.text "ab") s (.program 0))) m) ∧
      Settles .escaping (signed .neg) (.program 0) m
        (.ok (some (.stamp (.text "") s (.program 0))) m) := by
  intro s m signed
  have htext : Settles .escaping (.text s "ab") (.program 0) m
      (.ok (some (.stamp (.text "ab") s (.program 0))) m) := ⟨⟨1, rfl⟩, nofun⟩
  exact ⟨fun op => ⟨.unary htext, fun v => Operator.gives_unary⟩,
    ⟨⟨2, rfl⟩, nofun⟩, ⟨⟨2, rfl⟩, nofun⟩⟩

end ArrowScript
