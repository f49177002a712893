import Mathlib
import ArrowScript.Eval

/-! The bound on the depth of evaluation. It decides whether an evaluation ends, and never how: what
ends under one bound ends in the same way under every larger one. -/

namespace ArrowScript

namespace Eval

variable {α β : Type}

def Within (x y : Action α) : Prop :=
  ∀ m, (∃ m', x m = .error .exhausted m') ∨ x m = y m

namespace Within

variable {x y : Action α}

theorem refl (x : Action α) : Within x x := fun _ => .inr rfl

theorem exhausted (y : Action α) : Within (throw .exhausted) y := fun m => .inl ⟨m, rfl⟩

theorem bind {f g : α → Action β} (hx : Within x y) (hf : ∀ a, Within (f a) (g a)) :
    Within (x >>= f) (y >>= g) := by
  intro m
  change (∃ m', EStateM.bind x f m = _) ∨ EStateM.bind x f m = EStateM.bind y g m
  unfold EStateM.bind
  rcases hx m with ⟨m', hm'⟩ | heq
  · rw [hm']
    exact .inl ⟨m', rfl⟩
  · rw [← heq]
    cases x m with
    | ok a m' => exact hf a m'
    | error h m' => exact .inr rfl

end Within

end Eval

def Evaluator.Within (ev ev' : Evaluator) : Prop :=
  ∀ e frame, Eval.Within (ev e frame) (ev' e frame)

namespace Eval

variable {ev ev' : Evaluator} {frame : Frame} {fuel fuel' : Nat}

theorem demand_within (hev : ev.Within ev') (e : SourceExpr) :
    Within (demand ev e frame) (demand ev' e frame) :=
  (hev e frame).bind fun _ => .refl _

theorem demandNumber_within (hev : ev.Within ev') (e : SourceExpr) :
    Within (demandNumber ev e frame) (demandNumber ev' e frame) :=
  (demand_within hev e).bind fun _ => .refl _

theorem demandAll_within (hev : ev.Within ev') (es : List SourceExpr) :
    Within (demandAll ev frame es) (demandAll ev' frame es) := by
  induction es with
  | nil => exact .refl _
  | cons e es ih => exact (demand_within hev e).bind fun v => ih.bind fun vs => .refl _

theorem arms_within (hev : ev.Within ev') (otherwise : Option SourceExpr)
    (cs : List (SourceExpr × SourceExpr)) :
    Within (arms ev otherwise frame cs) (arms ev' otherwise frame cs) := by
  induction cs with
  | nil =>
    cases otherwise with
    | none => exact .refl _
    | some e => exact hev e frame
  | cons c cs ih =>
    refine (demand_within hev c.1).bind fun v => ?_
    split
    · exact hev c.2 frame
    · exact ih

theorem forRounds_within (hev : ev.Within ev') (s : Span) (x : String) (step bound : Number)
    (body : SourceExpr) (hfuel : fuel ≤ fuel') (index : Number) (rounds : Nat) :
    Within (forRounds ev s x step bound body frame fuel index rounds)
      (forRounds ev' s x step bound body frame fuel' index rounds) := by
  induction fuel generalizing fuel' index rounds with
  | zero => exact .exhausted _
  | succ fuel ih =>
    obtain ⟨n, rfl⟩ : ∃ n, fuel' = n + 1 := Nat.exists_eq_add_one.2 (by omega)
    unfold forRounds
    split
    · refine (Within.refl _).bind fun _ => (hev body frame).bind fun _ => ?_
      exact ih (by omega) _ _
    · exact .refl _

theorem stepOf_within (hev : ev.Within ev') (step : Option SourceExpr) :
    Within (stepOf ev frame step) (stepOf ev' frame step) := by
  cases step with
  | none => exact .refl _
  | some e => exact demandNumber_within hev e

theorem forRange_within (hev : ev.Within ev') (hfuel : fuel ≤ fuel') (s : Span) (x : String)
    (first bound : SourceExpr) (step : Option SourceExpr) (body : SourceExpr) :
    Within (forRange fuel ev s x first bound step body frame)
      (forRange fuel' ev' s x first bound step body frame) := by
  refine (demandNumber_within hev first).bind fun i => ?_
  refine (demandNumber_within hev bound).bind fun n => ?_
  refine (stepOf_within hev step).bind fun d => ?_
  exact (forRounds_within hev s x d n body hfuel i 0).bind fun _ => .refl _

theorem whileRounds_within (hev : ev.Within ev') (test body : SourceExpr) (hfuel : fuel ≤ fuel')
    (rounds : Nat) :
    Within (whileRounds ev test body frame fuel rounds)
      (whileRounds ev' test body frame fuel' rounds) := by
  induction fuel generalizing fuel' rounds with
  | zero => exact .exhausted _
  | succ fuel ih =>
    obtain ⟨n, rfl⟩ : ∃ n, fuel' = n + 1 := Nat.exists_eq_add_one.2 (by omega)
    refine (demand_within hev test).bind fun v => ?_
    split
    · exact (hev body frame).bind fun _ => ih (by omega) _
    · exact .refl _

theorem inFrame_within (hev : ev.Within ev') (keep : Retention) (body : SourceExpr) :
    Within (inFrame keep ev body frame) (inFrame keep ev' body frame) := by
  intro m
  unfold inFrame
  rcases hev body frame m with ⟨m', hm'⟩ | heq
  · rw [hm']
    exact .inl ⟨_, rfl⟩
  · rw [heq]
    exact .inr rfl

theorem apply_within (hev : ev.Within ev') (keep : Retention) (s : Span) (callee : Value)
    (args : List Traced) :
    Within (apply keep ev s callee args frame) (apply keep ev' s callee args frame) := by
  unfold apply
  cases callee.function? with
  | none => exact .refl _
  | some f =>
    dsimp only
    split_ifs
    · exact .refl _
    · exact .refl _
    · refine (Within.refl _).bind fun t => (Within.refl _).bind fun _ => ?_
      exact (Within.refl _).bind fun _ => inFrame_within hev keep f.body

theorem node_within (keep : Retention) (hev : ev.Within ev') (hfuel : fuel ≤ fuel') :
    (node keep fuel ev).Within (node keep fuel' ev') := by
  intro e frame
  cases e with
  | number s n => exact .refl _
  | text s t => exact .refl _
  | name s x => exact .refl _
  | binary s op l r =>
    exact (demand_within hev l).bind fun _ => (demand_within hev r).bind fun _ => .refl _
  | unary s op e => exact (demand_within hev e).bind fun _ => .refl _
  | assign s x e => exact (demand_within hev e).bind fun _ => .refl _
  | cond s test body elifs otherwise => exact arms_within hev otherwise _
  | forRange s x first bound step body => exact forRange_within hev hfuel s x first bound step body
  | whileLoop s test body => exact (whileRounds_within hev test body hfuel 0).bind fun _ => .refl _
  | function s name? params body => exact .refl _
  | call s callee args =>
    refine (demand_within hev callee).bind fun f => (demandAll_within hev args).bind fun vs => ?_
    exact apply_within hev keep s f.value vs

end Eval

theorem eval_within (keep : Retention) {fuel fuel' : Nat} (hfuel : fuel ≤ fuel') :
    (eval keep fuel).Within (eval keep fuel') := by
  induction fuel generalizing fuel' with
  | zero => exact fun _ _ => .exhausted _
  | succ fuel ih =>
    obtain ⟨n, rfl⟩ : ∃ n, fuel' = n + 1 := Nat.exists_eq_add_one.2 (by omega)
    exact Eval.node_within keep (ih (by omega)) (by omega)

def Settles (keep : Retention) (e : SourceExpr) (frame : Frame) (m : Machine)
    (r : EStateM.Result Halt Machine (Option Traced)) : Prop :=
  (∃ fuel, eval keep fuel e frame m = r) ∧ ∀ m', r ≠ .error .exhausted m'

namespace Settles

variable {keep : Retention} {e : SourceExpr} {frame : Frame} {m : Machine}
  {r r' : EStateM.Result Halt Machine (Option Traced)}

theorem eventually (h : Settles keep e frame m r) :
    ∃ bound, ∀ fuel ≥ bound, eval keep fuel e frame m = r := by
  obtain ⟨⟨bound, hbound⟩, hends⟩ := h
  refine ⟨bound, fun fuel hfuel => ?_⟩
  rcases eval_within keep hfuel e frame m with ⟨m', hm'⟩ | heq
  · exact absurd (hbound.symm.trans hm') (hends m')
  · exact heq.symm.trans hbound

end Settles

end ArrowScript
