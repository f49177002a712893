import Mathlib
import ArrowScript.Proofs.Isolation
import ArrowScript.Proofs.Nodes
import ArrowScript.Session

/-! Tracebacks tell the truth. An evaluation that fails does so at one of the nodes it evaluates,
or because an evaluation that it waits for failed: that of one of its parts, or that of the body
of a function that it calls. Followed down to the node that failed, these are the calls that were
active, and the traceback lists them. -/

namespace ArrowScript

namespace Frame

def sites : Frame → List Position
  | program _ => []
  | call _ site caller _ => caller.sites ++ [site]

def labels : Frame → List String
  | program _ => [programLabel]
  | call function _ caller _ => caller.labels ++ [function]

theorem length_sites (f : Frame) : f.sites.length + 1 = f.labels.length := by
  induction f with
  | program _ => rfl
  | call _ _ _ _ ih => simp [sites, labels, ih]

theorem depth_eq (f : Frame) : f.depth = f.labels.length := by
  induction f with
  | program _ => rfl
  | call _ _ _ _ ih => simp [depth, labels, ih]

theorem traceback_eq (f : Frame) (p : Position) :
    f.traceback p = List.zipWith TraceLine.ofPosition (f.sites ++ [p]) f.labels := by
  induction f generalizing p with
  | program _ => rfl
  | call function site caller _ ih =>
    have hlen : (caller.sites ++ [site]).length = caller.labels.length := by
      simpa using caller.length_sites
    rw [traceback, sites, labels, List.zipWith_append hlen, ih site]
    rfl

end Frame

structure Evaluation where
  fuel : Nat
  expr : SourceExpr
  frame : Frame
  machine : Machine

namespace Evaluation

def outcome (keep : Retention) (t : Evaluation) : EStateM.Result Halt Machine (Option Traced) :=
  eval keep t.fuel t.expr t.frame t.machine

def Fails (keep : Retention) (t : Evaluation) (d : Diagnostic) : Prop :=
  ∃ m, t.outcome keep = .error (.failed d) m

/-- `t` waits for `u` to end: if `u` alone ended otherwise, so would `t`. -/
def Awaits (keep : Retention) (t u : Evaluation) : Prop :=
  t.fuel = u.fuel + 1 ∧ ∃ ev : Evaluator,
    (∀ e f m, ¬ (e = u.expr ∧ f = u.frame ∧ m = u.machine) → ev e f m = eval keep u.fuel e f m) ∧
    Eval.node keep u.fuel ev t.expr t.frame t.machine ≠ t.outcome keep

structure Invokes (keep : Retention) (t : Evaluation) (c : SourceExpr) (f : Function)
    (u : Evaluation) : Prop where
  callee : ∃ o m, eval keep u.fuel c t.frame t.machine = .ok (some ⟨.function f, o⟩) m
  body : u.expr = f.body
  awaits : t.Awaits keep u

end Evaluation

structure ActiveCall where
  span : Span
  callee : SourceExpr
  args : List SourceExpr
  function : Function

namespace ActiveCall

def node (c : ActiveCall) : SourceExpr := .call c.span c.callee c.args

end ActiveCall

/-- `Active keep d t calls`: from the evaluation `t` down, the calls that wait for one another when
`d` is raised are `calls`, the outermost first, and a node of the body invoked last has the span of
`d`. Each call occurs, outside the bodies of functions, in the body that the one before invoked. -/
inductive Active (keep : Retention) (d : Diagnostic) : Evaluation → List ActiveCall → Prop
  | raised {t : Evaluation} {e : SourceExpr} (he : t.expr.Holds e) (hd : d.span = e.ann) :
      Active keep d t []
  | call {t u v : Evaluation} {c : ActiveCall} {calls : List ActiveCall}
      (hc : t.expr.Holds c.node) (hu : Relation.ReflTransGen (Evaluation.Awaits keep) t u)
      (hframe : u.frame = t.frame) (hnode : u.expr = c.node)
      (hv : u.Invokes keep c.callee c.function v) (hd : v.Fails keep d)
      (h : Active keep d v calls) :
      Active keep d t (c :: calls)

namespace Eval

variable {α β : Type}

def Spares (ev ev' : Evaluator) : Prop :=
  ∀ e f m, (∀ d m', ev e f m ≠ .error (.failed d) m') → ev' e f m = ev e f m

/-- What an action does from `m` with the evaluator `ev`. If it succeeds, no failure of `ev` was
met, and it does the same with any evaluator that spares the rest. If it fails, it either raised
`d` with `P d` itself, or it asked `ev` about an `e` in a frame `f` with `Q e f`, which failed, and
everything hung on that. -/
structure Accounted (ev : Evaluator) (P : Diagnostic → Prop) (Q : SourceExpr → Frame → Prop)
    (x : Evaluator → Action α) (m : Machine) : Prop where
  ok : ∀ {a m'}, x ev m = .ok a m' → ∀ {ev'}, Spares ev ev' → x ev' m = .ok a m'
  failed : ∀ {d m'}, x ev m = .error (.failed d) m' → P d ∨
    ∃ e f m₁ m₂, Q e f ∧ ev e f m₁ = .error (.failed d) m₂ ∧
      ∀ {ev'}, Spares ev ev' → ev' e f m₁ = .error .exhausted m₁ →
        ∃ m₃, x ev' m = .error .exhausted m₃

namespace Accounted

variable {ev : Evaluator} {P : Diagnostic → Prop} {Q : SourceExpr → Frame → Prop}
  {x : Evaluator → Action α} {m : Machine}

theorem of_const {y : Action α} (h : ∀ {d m'}, y m = .error (.failed d) m' → P d) :
    Accounted ev P Q (fun _ => y) m where
  ok hy _ _ := hy
  failed hy := .inl (h hy)

theorem pure (a : α) : Accounted ev P Q (fun _ => (pure a : Action α)) m :=
  of_const fun h => by cases h

theorem fail {f : Failure} {s : Span} {frame : Frame} (h : P (.ofFailure f s frame)) :
    Accounted ev P Q (fun _ => (Eval.fail f s frame : Action α)) m :=
  of_const fun h' => by cases h'; exact h

theorem exhausted : Accounted ev P Q (fun _ => (throw .exhausted : Action α)) m :=
  of_const fun h => by cases h

theorem define (t : TableId) (y : String) (v : Traced) :
    Accounted ev P Q (fun _ => Eval.define t y v) m :=
  of_const fun h => by cases h

theorem note (e : Event) : Accounted ev P Q (fun _ => Eval.note e) m :=
  of_const fun h => by cases h

theorem ask {e : SourceExpr} {f : Frame} (h : Q e f) :
    Accounted ev P Q (fun ev => ev e f) m where
  ok {a m'} hx ev' hev := by
    rw [hev e f m (fun d m'' hd => by cases hx.symm.trans hd), hx]
  failed {d m'} hx := .inr ⟨e, f, m, m', h, hx, fun _ he => ⟨m, he⟩⟩

theorem bind {y : α → Evaluator → Action β} (hx : Accounted ev P Q x m)
    (hy : ∀ a m', x ev m = .ok a m' → Accounted ev P Q (y a) m') :
    Accounted ev P Q (fun ev => x ev >>= fun a => y a ev) m := by
  have hbind (ev : Evaluator) : (x ev >>= fun a => y a ev) m =
      EStateM.bind (x ev) (fun a => y a ev) m := rfl
  cases hr : x ev m with
  | ok a m₁ =>
    -- `x` met no failure, so with another evaluator it also gets as far as `y`
    have hok {ev' : Evaluator} (h : x ev' m = .ok a m₁) :
        (x ev' >>= fun a => y a ev') m = y a ev' m₁ := by
      rw [hbind, EStateM.bind, h]
    refine ⟨fun h ev' hev => ?_, fun h => ?_⟩
    · rw [hok hr] at h
      rw [hok (hx.ok hr hev)]
      exact (hy a m₁ hr).ok h hev
    · rw [hok hr] at h
      refine ((hy a m₁ hr).failed h).imp_right ?_
      rintro ⟨e, f, m₂, m₃, hq, he, hstop⟩
      refine ⟨e, f, m₂, m₃, hq, he, fun hev hev' => ?_⟩
      rw [hok (hx.ok hr hev)]
      exact hstop hev hev'
  | error z m₁ =>
    have herr {ev' : Evaluator} {z' m'} (h : x ev' m = .error z' m') :
        (x ev' >>= fun a => y a ev') m = .error z' m' := by
      rw [hbind, EStateM.bind, h]
    refine ⟨fun h => ?_, fun h => ?_⟩
    · rw [herr hr] at h
      cases h
    · rw [herr hr] at h
      cases h
      refine (hx.failed hr).imp_right ?_
      rintro ⟨e, f, m₂, m₃, hq, he, hstop⟩
      refine ⟨e, f, m₂, m₃, hq, he, fun hev hev' => ?_⟩
      obtain ⟨m', hm'⟩ := hstop hev hev'
      exact ⟨m', herr hm'⟩

end Accounted

section Constructs

variable {ev : Evaluator} {P : Diagnostic → Prop} {Q : SourceExpr → Frame → Prop}
  {frame : Frame} {e : SourceExpr} {m : Machine}

def Covered (P : Diagnostic → Prop) (Q : SourceExpr → Frame → Prop) (frame : Frame)
    (e : SourceExpr) : Prop := Q e frame ∧ ∀ x, P (.ofFailure x e.ann frame)

theorem demand_accounted (he : Covered P Q frame e) :
    Accounted ev P Q (fun ev => demand ev e frame) m := by
  refine (Accounted.ask he.1).bind fun v m' _ => ?_
  cases v with
  | some v => exact .pure v
  | none => exact .fail (he.2 _)

theorem demandNumber_accounted (he : Covered P Q frame e) :
    Accounted ev P Q (fun ev => demandNumber ev e frame) m := by
  refine (demand_accounted he).bind fun v m' _ => ?_
  cases v.value.number? with
  | some n => exact .pure n
  | none => exact .fail (he.2 _)

theorem demandAll_accounted {es : List SourceExpr} (hes : ∀ e ∈ es, Covered P Q frame e) :
    Accounted ev P Q (fun ev => demandAll ev frame es) m := by
  induction es generalizing m with
  | nil => exact .pure []
  | cons e es ih =>
    rw [List.forall_mem_cons] at hes
    refine (demand_accounted hes.1).bind fun v m₁ _ => ?_
    exact (ih hes.2).bind fun vs m₂ _ => .pure (v :: vs)

theorem name_accounted {s : Span} {x : String} (hs : P (.ofFailure (.undefined x) s frame)) :
    Accounted ev P Q (fun _ => name s x frame) m := by
  refine .of_const fun {d m'} h => ?_
  rw [name_apply] at h
  split at h
  · cases h
  · cases h
    exact hs

theorem binary_accounted {s : Span} {l r : SourceExpr} (op : BinaryOp)
    (hl : Covered P Q frame l) (hr : Covered P Q frame r) (hs : ∀ x, P (.ofFailure x s frame)) :
    Accounted ev P Q (fun ev => binary ev s op l r frame) m := by
  refine (demand_accounted hl).bind fun a m₁ _ => (demand_accounted hr).bind fun b m₂ _ => ?_
  cases Value.binary op a.value b.value with
  | ok v => exact .pure _
  | error z =>
    cases z with
    | divisionByZero => exact .fail (hr.2 _)
    | illegal => exact .fail (hs _)

theorem unary_accounted {s : Span} (op : UnaryOp) (he : Covered P Q frame e)
    (hs : ∀ x, P (.ofFailure x s frame)) :
    Accounted ev P Q (fun ev => unary ev s op e frame) m := by
  refine (demand_accounted he).bind fun a m₁ _ => ?_
  cases Value.unary op a.value with
  | ok v => exact .pure _
  | error z => exact .fail (hs _)

theorem assign_accounted (x : String) (he : Covered P Q frame e) :
    Accounted ev P Q (fun ev => assign ev x e frame) m :=
  (demand_accounted he).bind fun v _ _ => (Accounted.define _ x v).bind fun _ _ _ => .pure _

theorem arms_accounted {other : Option SourceExpr} {cs : List (SourceExpr × SourceExpr)}
    (ho : ∀ e ∈ other, Covered P Q frame e)
    (hcs : ∀ c ∈ cs, Covered P Q frame c.1 ∧ Covered P Q frame c.2) :
    Accounted ev P Q (fun ev => arms ev other frame cs) m := by
  induction cs generalizing m with
  | nil =>
    cases other with
    | none => exact .pure none
    | some e => exact .ask (ho e rfl).1
  | cons c cs ih =>
    rw [List.forall_mem_cons] at hcs
    refine (demand_accounted hcs.1.1).bind fun v m₁ _ => ?_
    by_cases hv : v.value.isTrue
    · simpa only [hv, if_true] using Accounted.ask hcs.1.2.1
    · simpa only [hv, Bool.false_eq_true, if_false] using ih hcs.2

theorem forRounds_accounted {s : Span} {x : String} {step bound : Number} (he : Q e frame)
    (fuel : Nat) (index : Number) (rounds : Nat) :
    Accounted ev P Q (fun ev => forRounds ev s x step bound e frame fuel index rounds) m := by
  induction fuel generalizing index rounds m with
  | zero => exact .exhausted
  | succ fuel ih =>
    unfold forRounds
    by_cases h : inRange step bound index
    · simp only [h, if_true]
      exact (Accounted.define _ x _).bind fun _ _ _ => (Accounted.ask he).bind fun _ _ _ => ih _ _
    · simp only [h, Bool.false_eq_true, if_false]
      exact .pure _

theorem stepOf_accounted {step : Option SourceExpr} (hs : ∀ e ∈ step, Covered P Q frame e) :
    Accounted ev P Q (fun ev => stepOf ev frame step) m := by
  cases step with
  | none => exact .pure _
  | some e => exact demandNumber_accounted (hs e rfl)

theorem whileRounds_accounted {test body : SourceExpr} (ht : Covered P Q frame test)
    (hb : Q body frame) (fuel rounds : Nat) :
    Accounted ev P Q (fun ev => whileRounds ev test body frame fuel rounds) m := by
  induction fuel generalizing rounds m with
  | zero => exact .exhausted
  | succ fuel ih =>
    refine (demand_accounted ht).bind fun v m₁ _ => ?_
    by_cases hv : v.value.isTrue
    · simp only [hv, if_true]
      exact (Accounted.ask hb).bind fun _ _ _ => ih _
    · simp only [hv, Bool.false_eq_true, if_false]
      exact .pure _

theorem function_accounted (s : Span) (name? : Option String) (params : List String)
    (body : SourceExpr) :
    Accounted ev P Q (fun _ => function s name? params body frame) m := by
  refine .of_const fun {d m'} h => ?_
  cases name? <;> cases h

theorem inFrame_accounted (keep : Retention) (he : Q e frame) :
    Accounted ev P Q (fun ev => inFrame keep ev e frame) m := by
  have hask : Accounted ev P Q (fun ev => ev e frame) m := .ask he
  refine ⟨fun h ev' hev => ?_, fun h => ?_⟩
  · simp only [inFrame] at h ⊢
    cases hr : ev e frame m with
    | ok v m₁ =>
      rw [hr] at h
      rw [hask.ok hr hev]
      exact h
    | error z m₁ =>
      rw [hr] at h
      cases h
  · simp only [inFrame] at h
    cases hr : ev e frame m with
    | ok v m₁ =>
      rw [hr] at h
      cases h
    | error z m₁ =>
      rw [hr] at h
      cases h
      refine .inr ⟨e, frame, m, m₁, he, hr, fun _ hev' => ?_⟩
      exact ⟨release keep frame.label frame.table none m, by simp only [inFrame, hev']⟩

theorem enter_accounted {keep : Retention} {s : Span} {f : Function} (args : List Traced)
    (hf : ∀ t, Q f.body (.call f.name s.start frame t)) :
    Accounted ev P Q (fun ev => enter keep ev s f args frame) m := by
  have hopen : Accounted ev P Q (fun _ => openTable f.table) m := .of_const fun h => by cases h
  refine hopen.bind fun t m₁ _ => (Accounted.note _).bind fun _ m₂ _ => ?_
  have hbind : Accounted ev P Q
      (fun _ => bindAll (.call f.name s.start frame t) f.params args) m₂ := by
    refine .of_const fun {d m'} h => ?_
    obtain ⟨σ, hσ⟩ := bindAll_apply (.call f.name s.start frame t) f.params args m₂
    cases hσ.symm.trans h
  exact hbind.bind fun _ _ _ => inFrame_accounted keep (hf t)

theorem apply_accounted {keep : Retention} {s : Span} {callee : Value} (args : List Traced)
    (hs : ∀ x, P (.ofFailure x s frame))
    (hf : ∀ f t, callee = .function f → Q f.body (.call f.name s.start frame t)) :
    Accounted ev P Q (fun ev => apply keep ev s callee args frame) m := by
  unfold apply
  cases hc : callee.function? with
  | none => exact .fail (hs _)
  | some f =>
    have hcallee : callee = .function f := by
      cases callee <;> cases hc
      rfl
    dsimp only
    split_ifs
    · exact .fail (hs _)
    · exact .fail (hs _)
    · exact enter_accounted args fun t => hf f t hcallee

def Asked (ev : Evaluator) (e : SourceExpr) (frame : Frame) (m : Machine) (e' : SourceExpr)
    (frame' : Frame) : Prop :=
  e' ∈ e.parts ∧ frame' = frame ∨
    ∃ s c args f o m' t, e = .call s c args ∧ ev c frame m = .ok (some ⟨.function f, o⟩) m' ∧
      e' = f.body ∧ frame' = .call f.name s.start frame t

theorem call_accounted (keep : Retention) (s : Span) (c : SourceExpr) (args : List SourceExpr)
    (hc : Covered P Q frame c) (hargs : ∀ e ∈ args, Covered P Q frame e)
    (hs : ∀ x, P (.ofFailure x s frame))
    (hf : ∀ f o m' t, ev c frame m = .ok (some ⟨.function f, o⟩) m' →
      Q f.body (.call f.name s.start frame t)) :
    Accounted ev P Q (fun ev => call keep ev s c args frame) m := by
  refine (demand_accounted hc).bind fun v m₁ hv =>
    (demandAll_accounted hargs).bind fun vs m₂ _ => ?_
  -- a callee that was demanded successfully is what evaluating it gave
  have hcallee : ev c frame m = .ok (some v) m₁ := by
    change EStateM.bind (ev c frame) _ m = _ at hv
    unfold EStateM.bind at hv
    cases hr : ev c frame m with
    | error z m' =>
      rw [hr] at hv
      cases hv
    | ok w m' =>
      rw [hr] at hv
      cases w <;> cases hv
      rfl
  refine apply_accounted vs hs fun f t hfun => hf f v.origin? m₁ t ?_
  rw [hcallee, ← hfun]

theorem node_accounted (keep : Retention) (fuel : Nat) (e : SourceExpr) (frame : Frame)
    (m : Machine) :
    Accounted ev (fun d => ∃ x, ∃ e' ∈ e :: e.parts, d = .ofFailure x e'.ann frame)
      (Asked ev e frame m) (fun ev => node keep fuel ev e frame) m := by
  generalize hP : (fun d => ∃ x, ∃ e' ∈ e :: e.parts, d = Diagnostic.ofFailure x e'.ann frame) = P
  have hs : ∀ x, P (.ofFailure x e.ann frame) := by
    rw [← hP]
    exact fun x => ⟨x, e, List.mem_cons_self, rfl⟩
  have hpart : ∀ e' ∈ e.parts, Covered P (Asked ev e frame m) frame e' := by
    intro e' he'
    refine ⟨.inl ⟨he', rfl⟩, ?_⟩
    rw [← hP]
    exact fun x => ⟨x, e', List.mem_cons_of_mem _ he', rfl⟩
  cases e with
  | number s n => exact .pure _
  | text s x => exact .pure _
  | name s x => exact name_accounted (hs _)
  | binary s op l r =>
    exact binary_accounted op (hpart l (by simp [Expr.parts])) (hpart r (by simp [Expr.parts])) hs
  | unary s op e => exact unary_accounted op (hpart e (by simp [Expr.parts])) hs
  | assign s x e => exact assign_accounted x (hpart e (by simp [Expr.parts]))
  | cond s t b cs other =>
    obtain ⟨harms, hother⟩ := Expr.forall_parts_cond hpart
    exact arms_accounted hother harms
  | forRange s x i j step b =>
    obtain ⟨hi, hj, hstep, hb⟩ := Expr.forall_parts_forRange hpart
    exact (demandNumber_accounted hi).bind fun _ _ _ => (demandNumber_accounted hj).bind fun _ _ _ =>
      (stepOf_accounted hstep).bind fun _ _ _ =>
      (forRounds_accounted hb.1 fuel _ _).bind fun _ _ _ =>
      (Accounted.note _).bind fun _ _ _ => .pure _
  | whileLoop s t b =>
    exact (whileRounds_accounted (hpart t (by simp [Expr.parts]))
      (hpart b (by simp [Expr.parts])).1 fuel 0).bind fun _ _ _ =>
      (Accounted.note _).bind fun _ _ _ => .pure _
  | function s n ps b => exact function_accounted s n ps b
  | call s c es =>
    exact call_accounted keep s c es (hpart c (by simp [Expr.parts]))
      (fun e he => hpart e (by simp [Expr.parts, he])) hs
      fun f o m' t h => .inr ⟨s, c, es, f, o, m', t, rfl, h, rfl, rfl⟩

end Constructs

end Eval

namespace Evaluation

variable {keep : Retention} {t u : Evaluation} {d : Diagnostic}

theorem awaits_of_stop (hfuel : t.fuel = u.fuel + 1) (ht : t.Fails keep d) (hu : u.Fails keep d)
    (h : ∀ {ev' : Evaluator}, Eval.Spares (eval keep u.fuel) ev' →
      ev' u.expr u.frame u.machine = .error .exhausted u.machine →
      ∃ m', Eval.node keep u.fuel ev' t.expr t.frame t.machine = .error .exhausted m') :
    t.Awaits keep u := by
  classical
  obtain ⟨m, hm⟩ := ht
  obtain ⟨m', hm'⟩ := hu
  -- everything is evaluated as before, except that `u` does not come to an end
  let ev' : Evaluator := fun e f m =>
    if e = u.expr ∧ f = u.frame ∧ m = u.machine then .error .exhausted m
    else eval keep u.fuel e f m
  have hspares : Eval.Spares (eval keep u.fuel) ev' := by
    intro e f m hne
    refine if_neg ?_
    rintro ⟨rfl, rfl, rfl⟩
    exact hne d m' hm'
  refine ⟨hfuel, ev', fun e f m hne => if_neg hne, ?_⟩
  obtain ⟨m₃, hm₃⟩ := h hspares (if_pos ⟨rfl, rfl, rfl⟩)
  rw [hm₃, hm]
  simp

theorem Fails.cases (h : t.Fails keep d) :
    (∃ x, ∃ e ∈ t.expr :: t.expr.parts, d = .ofFailure x e.ann t.frame) ∨
    ∃ u : Evaluation, u.Fails keep d ∧ t.Awaits keep u ∧
      (u.expr ∈ t.expr.parts ∧ u.frame = t.frame ∨
        ∃ (c : ActiveCall) (table : TableId), t.expr = c.node ∧
          t.Invokes keep c.callee c.function u ∧
          u.frame = .call c.function.name c.span.start t.frame table) := by
  obtain ⟨fuel, e, frame, m⟩ := t
  obtain ⟨m', hm'⟩ := h
  cases fuel with
  | zero => cases hm'
  | succ fuel =>
    rcases (Eval.node_accounted keep fuel e frame m).failed hm' with
      hx | ⟨e', frame', m₁, m₂, hq, hfail, hstop⟩
    · exact .inl hx
    · have hawaits := awaits_of_stop (t := ⟨fuel + 1, e, frame, m⟩)
        (u := ⟨fuel, e', frame', m₁⟩) rfl ⟨m', hm'⟩ ⟨m₂, hfail⟩ hstop
      refine .inr ⟨⟨fuel, e', frame', m₁⟩, ⟨m₂, hfail⟩, hawaits, hq.imp_right ?_⟩
      rintro ⟨s, c, args, f, o, m₃, table, rfl, hc, rfl, rfl⟩
      exact ⟨⟨s, c, args, f⟩, table, rfl, ⟨⟨o, m₃, hc⟩, rfl, hawaits⟩, rfl⟩

end Evaluation

namespace Active

variable {keep : Retention} {t u : Evaluation} {d : Diagnostic} {calls : List ActiveCall}

theorem of_part (hpart : u.expr ∈ t.expr.parts) (hframe : u.frame = t.frame)
    (ht : t.Awaits keep u) (h : Active keep d u calls) : Active keep d t calls := by
  cases h with
  | raised he hd => exact .raised (.head hpart he) hd
  | call hc hu hf hnode hv hd h =>
    exact .call (.head hpart hc) (.head ht hu) (hf.trans hframe) hnode hv hd h

end Active

theorem Evaluation.exists_active {keep : Retention} {d : Diagnostic} (fuel : Nat)
    {t : Evaluation} (ht : t.fuel = fuel) (h : t.Fails keep d) :
    ∃ calls frame, Active keep d t calls ∧ d.frame? = some frame ∧
      frame.sites = t.frame.sites ++ calls.map (·.span.start) ∧
      frame.labels = t.frame.labels ++ calls.map (·.function.name) := by
  -- the failure is followed down, from each evaluation to the one it waits for
  induction fuel using Nat.strong_induction_on generalizing t with
  | _ fuel ih =>
    rcases h.cases with ⟨x, e, he, rfl⟩ | ⟨u, hu, hawaits, hcase⟩
    · refine ⟨[], t.frame, .raised ?_ rfl, rfl, by simp, by simp⟩
      rcases List.mem_cons.mp he with rfl | he
      · exact .refl
      · exact .single he
    · have hlt : u.fuel < fuel := by
        have := hawaits.1
        omega
      obtain ⟨calls, frame, hactive, hd, hsites, hlabels⟩ := ih u.fuel hlt rfl hu
      rcases hcase with ⟨hpart, hframe⟩ | ⟨c, table, hnode, hinvokes, hframe⟩
      · rw [hframe] at hsites hlabels
        exact ⟨calls, frame, hactive.of_part hpart hframe hawaits, hd, hsites, hlabels⟩
      · -- the frame of the body has one site and one label more than that of the call
        refine ⟨c :: calls, frame, .call (hnode ▸ .refl) .refl rfl hnode hinvokes hu hactive, hd,
          ?_, ?_⟩
        · rw [hsites, hframe]
          simp [Frame.sites]
        · rw [hlabels, hframe]
          simp [Frame.labels]

/-- A program that fails has a chain of active calls that leads to the node that failed, and the
traceback has a line for the program and one for each call, the outermost first. A line has the
label of the program or of the function that runs, and tells where that calls the next one; the
last line tells where the failure is. -/
theorem eval_traceback (keep : Retention) (fuel : Nat) (e : SourceExpr) (table : TableId)
    (m m' : Machine) (d : Diagnostic)
    (h : eval keep fuel e (.program table) m = .error (.failed d) m') :
    ∃ calls : List ActiveCall, Active keep d ⟨fuel, e, .program table, m⟩ calls ∧
      (∃ frame, d.frame? = some frame ∧ frame.depth = calls.length + 1) ∧
      d.traceback.length = calls.length + 1 ∧
      d.traceback = List.zipWith (fun p label => ⟨p.source.name, p.line + 1, label⟩)
        (calls.map (·.span.start) ++ [d.span.start])
        ("<program>" :: calls.map (·.function.name)) := by
  obtain ⟨calls, frame, hactive, hd, hsites, hlabels⟩ :=
    Evaluation.exists_active fuel (t := ⟨fuel, e, .program table, m⟩) rfl ⟨m', h⟩
  have hdepth : frame.depth = calls.length + 1 := by
    rw [frame.depth_eq, hlabels]
    simp [Frame.labels]
  have htrace : d.traceback = frame.traceback d.span.start := by
    rw [Diagnostic.traceback, hd]
  refine ⟨calls, hactive, ⟨frame, hd, hdepth⟩, ?_, ?_⟩
  · rw [htrace, Frame.length_traceback, hdepth]
  · rw [htrace, frame.traceback_eq, hsites, hlabels]
    rfl

def Eval.traceback? : EStateM.Result Halt Machine (Option Traced) → Option (List TraceLine)
  | .error (.failed d) _ => some d.traceback
  | _ => none

theorem eval_traceback_of_session :
    let s₁ := (Session.start.runWith .escaping 20 ⟨"a", "fn inner(n) -> n + missing"⟩).session
    let s₂ := (s₁.runWith .escaping 20 ⟨"b", "\nfn outer(k) -> inner(k) * 2"⟩).session
    let here : Span := .empty (.start ⟨"c", "outer(1)"⟩)
    let e : SourceExpr := .call here (.name here "outer") [.number here (.int 1)]
    let m : Machine := ⟨s₂.store, s₂.functions, []⟩
    ∃ d m' calls, eval .escaping 20 e (.program 0) m = .error (.failed d) m' ∧
      Active .escaping d ⟨20, e, .program 0, m⟩ calls ∧
      d.traceback = [⟨"c", 1, "<program>"⟩, ⟨"b", 2, "outer"⟩, ⟨"a", 1, "inner"⟩] ∧
      calls.length = 2 := by
  intro s₁ s₂ here e m
  have htrace : Eval.traceback? (eval .escaping 20 e (.program 0) m) =
      some [⟨"c", 1, "<program>"⟩, ⟨"b", 2, "outer"⟩, ⟨"a", 1, "inner"⟩] := by decide +kernel
  generalize hr : eval .escaping 20 e (.program 0) m = r at htrace
  match r with
  | .error (.failed d) m' =>
    obtain ⟨calls, hactive, -, hlen, -⟩ := eval_traceback .escaping 20 e 0 m m' d hr
    have hlines : d.traceback =
        [⟨"c", 1, "<program>"⟩, ⟨"b", 2, "outer"⟩, ⟨"a", 1, "inner"⟩] := Option.some.inj htrace
    rw [hlines] at hlen
    exact ⟨d, m', calls, rfl, hactive, hlines, (Nat.succ.inj hlen).symm⟩

end ArrowScript
