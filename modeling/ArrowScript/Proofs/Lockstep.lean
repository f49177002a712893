import Mathlib
import ArrowScript.Proofs.Isolation
import ArrowScript.Proofs.Nodes

/-! Two evaluations side by side. A `Simulation` says which machines, frames and values of two
evaluations correspond, in worlds that grow while the evaluations go on, and that each single
step of evaluation keeps the correspondence. Everything but the end of a call is then kept in step
once and for all, for any two evaluators that agree on the parts of an expression. -/

namespace ArrowScript

inductive Value.Related (R : Function → Function → Prop) : Value → Value → Prop where
  | number (n : Number) : Related R (.number n) (.number n)
  | text (s : String) : Related R (.text s) (.text s)
  | function {f f' : Function} (h : R f f') : Related R (.function f) (.function f')

namespace Value

theorem function?_of_binary {op : BinaryOp} {a b v : Value} (h : binary op a b = .ok v) :
    v.function? = none := by
  unfold binary at h
  split at h
  · rename_i m n
    cases op <;> simp only [numberBinary, Except.ok.injEq] at h <;> try (subst h; rfl)
    cases hd : m.div? n <;> simp only [hd, Option.elim, reduceCtorEq, Function.comp_apply,
      Except.ok.injEq] at h
    subst h
    rfl
  · split at h
    · cases h
      rfl
    · cases h
  · split at h
    · rename_i s n _
      cases hr : repeatText? s n.toInt <;> simp only [hr, Option.elim, reduceCtorEq,
        Function.comp_apply, Except.ok.injEq] at h
      subst h
      rfl
    · cases h
  · cases h

namespace Related

variable {R : Function → Function → Prop} {a a' b b' : Value}

theorem imp {R' : Function → Function → Prop}
    (hR : ∀ {f f'}, a = .function f → R f f' → R' f f') (h : Related R a a') :
    Related R' a a' := by
  cases h with
  | number n => exact .number n
  | text s => exact .text s
  | function h => exact .function (hR rfl h)

theorem isTrue_eq (h : Related R a a') : a.isTrue = a'.isTrue := by
  cases h <;> rfl

theorem number?_eq (h : Related R a a') : a.number? = a'.number? := by
  cases h <;> rfl

theorem function? (h : Related R a a') : Option.Rel R a.function? a'.function? := by
  cases h with
  | number n => exact .none
  | text s => exact .none
  | function h => exact .some h

theorem refl_of_function? (h : a.function? = none) : Related R a a := by
  cases a with
  | number n => exact .number n
  | text s => exact .text s
  | function f => cases h

theorem binary (op : BinaryOp) (ha : Related R a a') (hb : Related R b b') :
    Value.binary op a b = Value.binary op a' b' := by
  -- operators do not look into functions
  cases ha with
  | function h => rfl
  | number n => cases hb <;> rfl
  | text s => cases hb <;> rfl

theorem of_binary {op : BinaryOp} {v : Value} (h : Value.binary op a b = .ok v) : Related R v v :=
  refl_of_function? (function?_of_binary h)

theorem unary (op : UnaryOp) (ha : Related R a a') :
    (∃ e, Value.unary op a = .error e ∧ Value.unary op a' = .error e) ∨
      ∃ v v', Value.unary op a = .ok v ∧ Value.unary op a' = .ok v' ∧ Related R v v' := by
  cases op with
  | plus => exact .inr ⟨a, a', rfl, rfl, ha⟩
  | neg =>
    have h := binary .mul ha (.number (R := R) (.int (-1)))
    simp only [Value.unary, ← h]
    cases hv : Value.binary .mul a (.number (.int (-1))) with
    | error e => exact .inl ⟨e, rfl, rfl⟩
    | ok v => exact .inr ⟨v, v, rfl, rfl, of_binary hv⟩
  | not =>
    cases ha with
    | number n => exact .inr ⟨_, _, rfl, rfl, .number _⟩
    | text s => exact .inl ⟨_, rfl, rfl⟩
    | function h => exact .inl ⟨_, rfl, rfl⟩

end Related

end Value

structure Simulation where
  -- what corresponds to what so far
  World : Type
  le : World → World → Prop
  Label : Type
  -- the part of a span that the two evaluations share
  view : Span → Label
  -- the expressions that may be evaluated
  admits : SourceExpr → Prop
  -- the spans that may be reported
  allows : Span → Prop
  -- whether expressions may be without a value
  valueless : Prop
  frames : World → Frame → Frame → Prop
  functions : World → Function → Function → Prop
  traced : World → Traced → Traced → Prop
  machines : World → Machine → Machine → Prop
  diagnostics : Diagnostic → Diagnostic → Prop
  -- machines in which the second evaluation may have stopped early
  stopped : Machine → Prop
  -- what the two evaluations may note at the same time
  events : Event → Event → Prop
  le_refl : ∀ w, le w w
  le_trans : ∀ {w₁ w₂ w₃}, le w₁ w₂ → le w₂ w₃ → le w₁ w₃
  frames_mono : ∀ {w w' f f'}, le w w' → frames w f f' → frames w' f f'
  traced_mono : ∀ {w w' v v'}, le w w' → traced w v v' → traced w' v v'
  name_eq : ∀ {w f f'}, functions w f f' → f.name = f'.name
  params_eq : ∀ {w f f'}, functions w f f' → f.params = f'.params
  body_eq : ∀ {w f f'}, functions w f f' → f.body.map view = f'.body.map view
  admits_body : ∀ {w f f'}, functions w f f' → admits f.body
  admits_child : ∀ {e c}, admits e → c ∈ e.children → admits c
  allows_ann : ∀ {e}, admits e → allows e.ann
  lacking : ∀ {e}, admits e → e.Lacking → valueless
  value : ∀ {w v v'}, traced w v v' → Value.Related (functions w) v.value v'.value
  stamp : ∀ {w v v' s s' f f'}, Value.Related (functions w) v v' → view s = view s' → allows s →
    frames w f f' → traced w (.stamp v s f) (.stamp v' s' f')
  moveTo : ∀ {w v v' f f'}, traced w v v' → frames w f f' → traced w (v.moveTo f) (v'.moveTo f')
  fail : ∀ {w s s' f f'} (x : Failure), view s = view s' → allows s →
    (x.kind = .noValue → valueless) → frames w f f' →
    diagnostics (.ofFailure x s f) (.ofFailure x s' f')
  lookup : ∀ {w m m' f f' s x}, admits (.name s x) → machines w m m' → frames w f f' →
    Option.Rel (traced w) (m.store.lookup? f.table x) (m'.store.lookup? f'.table x)
  define : ∀ {w m m' f f' v v'} (x : String), machines w m m' → frames w f f' → traced w v v' →
    machines w { m with store := m.store.define f.table x v }
      { m' with store := m'.store.define f'.table x v' }
  events_refl : ∀ e, events e e
  events_calling : ∀ {w g g' f f'}, functions w g g' → frames w f f' →
    events (.calling g.name (f.depth + 1)) (.calling g'.name (f'.depth + 1))
  note : ∀ {w m m' e e'}, events e e' → machines w m m' →
    machines w { m with log := e :: m.log } { m' with log := e' :: m'.log }
  make : ∀ {w m m' f f'} {b b' : SourceExpr} (name : String) (params : List String),
    machines w m m' → frames w f f' → b.map view = b'.map view → admits b →
    ∃ w', le w w' ∧
      machines w' { m with functions := m.functions + 1 }
        { m' with functions := m'.functions + 1 } ∧
      functions w' ⟨m.functions, name, params, b, f.table⟩
        ⟨m'.functions, name, params, b', f'.table⟩
  openTable : ∀ {w m m' f f' c c' s s'}, machines w m m' → functions w f f' → frames w c c' →
    view s = view s' → allows s →
    ∃ w', le w w' ∧
      machines w' { m with store := m.store.addWithin f.table }
        { m' with store := m'.store.addWithin f'.table } ∧
      frames w' (.call f.name s.start c m.store.next) (.call f'.name s'.start c' m'.store.next)

namespace Simulation

variable {S : Simulation} {α β γ δ : Type}

inductive Matches (S : Simulation) (w : S.World) (Q : S.World → α → β → Prop) :
    EStateM.Result Halt Machine α → EStateM.Result Halt Machine β → Prop where
  | ok {w' a b m m'} (hw : S.le w w') (hm : S.machines w' m m') (hq : Q w' a b) :
      Matches S w Q (.ok a m) (.ok b m')
  | failed {w' d d' m m'} (hw : S.le w w') (hm : S.machines w' m m')
      (hd : S.diagnostics d d') : Matches S w Q (.error (.failed d) m) (.error (.failed d') m')
  | exhausted {w' m m'} (hw : S.le w w') (hm : S.machines w' m m') :
      Matches S w Q (.error .exhausted m) (.error .exhausted m')
  | stopped {r m'} (h : S.stopped m') : Matches S w Q r (.error .exhausted m')

/-- Two actions that, from corresponding machines, end in corresponding ways. -/
def Lockstep (S : Simulation) (w : S.World) (Q : S.World → α → β → Prop) (x : Action α)
    (y : Action β) : Prop := ∀ m m', S.machines w m m' → S.Matches w Q (x m) (y m')

structure Made (S : Simulation) (w : S.World) (v v' : Traced) : Prop where
  traced : S.traced w v v'
  origin : v.origin?.isSome

inductive Results (S : Simulation) (w : S.World) : Option Traced → Option Traced → Prop where
  | some {v v'} (h : S.Made w v v') : Results S w (some v) (some v')
  | none (h : S.valueless) : Results S w none none

structure Marks (S : Simulation) (s s' : Span) : Prop where
  view_eq : S.view s = S.view s'
  allows : S.allows s

structure Alike (S : Simulation) (e e' : SourceExpr) : Prop where
  view_eq : e.map S.view = e'.map S.view
  admits : S.admits e

def Simulates (S : Simulation) (ev ev' : Evaluator) : Prop :=
  ∀ {w e e' f f'}, S.Alike e e' → S.frames w f f' → S.Lockstep w S.Results (ev e f) (ev' e' f')

namespace Alike

variable {e e' : SourceExpr}

theorem marks (h : S.Alike e e') : S.Marks e.ann e'.ann := by
  refine ⟨?_, S.allows_ann h.admits⟩
  rw [← Expr.ann_map S.view e, ← Expr.ann_map S.view e', h.view_eq]

theorem list {es es' : List SourceExpr}
    (h : es.map (Expr.map S.view) = es'.map (Expr.map S.view)) (hes : ∀ e ∈ es, S.admits e) :
    List.Forall₂ S.Alike es es' := by
  induction es generalizing es' with
  | nil =>
    cases es' with
    | nil => exact .nil
    | cons e' es' => cases h
  | cons e es ih =>
    cases es' with
    | nil => cases h
    | cons e' es' =>
      obtain ⟨he, h⟩ := List.cons.inj h
      rw [List.forall_mem_cons] at hes
      exact .cons ⟨he, hes.1⟩ (ih h hes.2)

theorem option {o o' : Option SourceExpr}
    (h : o.map (Expr.map S.view) = o'.map (Expr.map S.view)) (ho : ∀ e ∈ o, S.admits e) :
    Option.Rel S.Alike o o' := by
  cases o <;> cases o' <;> simp only [Option.map_none, Option.map_some, reduceCtorEq,
    Option.some.injEq] at h
  · exact .none
  · exact .some ⟨h, ho _ rfl⟩

theorem arms {cs cs' : List (SourceExpr × SourceExpr)}
    (h : cs.map (fun c => (c.1.map S.view, c.2.map S.view)) =
      cs'.map (fun c => (c.1.map S.view, c.2.map S.view)))
    (hcs : ∀ c ∈ cs, S.admits c.1 ∧ S.admits c.2) :
    List.Forall₂ (fun c c' => S.Alike c.1 c'.1 ∧ S.Alike c.2 c'.2) cs cs' := by
  induction cs generalizing cs' with
  | nil =>
    cases cs' with
    | nil => exact .nil
    | cons c' cs' => cases h
  | cons c cs ih =>
    cases cs' with
    | nil => cases h
    | cons c' cs' =>
      simp only [List.map_cons, List.cons.injEq, Prod.mk.injEq] at h
      rw [List.forall_mem_cons] at hcs
      exact .cons ⟨⟨h.1.1, hcs.1.1⟩, h.1.2, hcs.1.2⟩ (ih h.2 hcs.2)

end Alike

theorem Made.mono {w w' : S.World} {v v' : Traced} (hw : S.le w w') (h : S.Made w v v') :
    S.Made w' v v' := ⟨S.traced_mono hw h.traced, h.origin⟩

theorem Made.stamp {w : S.World} {v v' : Value} {s s' : Span} {f f' : Frame}
    (hv : Value.Related (S.functions w) v v') (hs : S.Marks s s') (hf : S.frames w f f') :
    S.Made w (.stamp v s f) (.stamp v' s' f') := ⟨S.stamp hv hs.view_eq hs.allows hf, rfl⟩

theorem Results.rel {w : S.World} {a b : Option Traced} (h : S.Results w a b) :
    Option.Rel (S.traced w) a b := by
  cases h with
  | some h => exact .some h.traced
  | none => exact .none

theorem Matches.mono {w w' : S.World} {Q : S.World → α → β → Prop} {r r'} (hw : S.le w w')
    (h : S.Matches w' Q r r') : S.Matches w Q r r' := by
  cases h with
  | ok hw' hm hq => exact .ok (S.le_trans hw hw') hm hq
  | failed hw' hm hd => exact .failed (S.le_trans hw hw') hm hd
  | exhausted hw' hm => exact .exhausted (S.le_trans hw hw') hm
  | stopped h => exact .stopped h

namespace Lockstep

variable {w : S.World} {Q : S.World → α → β → Prop} {Q' : S.World → γ → δ → Prop}
  {x : Action α} {y : Action β}

theorem pure {a : α} {b : β} (h : Q w a b) : S.Lockstep w Q (pure a) (pure b) :=
  fun _ _ hm => .ok (S.le_refl w) hm h

theorem fail {s s' : Span} {f f' : Frame} {x : Failure} (hs : S.Marks s s')
    (hx : x.kind = .noValue → S.valueless) (hf : S.frames w f f') :
    S.Lockstep w Q (Eval.fail x s f) (Eval.fail x s' f') :=
  fun _ _ hm => .failed (S.le_refl w) hm (S.fail x hs.view_eq hs.allows hx hf)

theorem exhausted : S.Lockstep w Q (throw .exhausted) (throw .exhausted) :=
  fun _ _ hm => .exhausted (S.le_refl w) hm

theorem bind {f : α → Action γ} {g : β → Action δ} (hx : S.Lockstep w Q x y)
    (hf : ∀ {w' a b}, S.le w w' → Q w' a b → S.Lockstep w' Q' (f a) (g b)) :
    S.Lockstep w Q' (x >>= f) (y >>= g) := by
  intro m m' hm
  change S.Matches w Q' (EStateM.bind x f m) (EStateM.bind y g m')
  have h := hx m m' hm
  unfold EStateM.bind
  generalize x m = r at h
  generalize y m' = r' at h
  cases h with
  | ok hw hm hq => exact (hf hw hq _ _ hm).mono hw
  | failed hw hm hd => exact .failed hw hm hd
  | exhausted hw hm => exact .exhausted hw hm
  | stopped h => exact .stopped h

theorem define {f f' : Frame} {v v' : Traced} (z : String) (hf : S.frames w f f')
    (hv : S.traced w v v') :
    S.Lockstep w (fun _ _ _ => True) (Eval.define f.table z v) (Eval.define f'.table z v') :=
  fun _ _ hm => .ok (S.le_refl w) (S.define z hm hf hv) trivial

theorem note (e : Event) : S.Lockstep w (fun _ _ _ => True) (Eval.note e) (Eval.note e) :=
  fun _ _ hm => .ok (S.le_refl w) (S.note (S.events_refl e) hm) trivial

end Lockstep

section Constructs

variable {w : S.World} {ev ev' : Evaluator} {f f' : Frame} {e e' : SourceExpr} {s s' : Span}

theorem demand (hev : S.Simulates ev ev') (he : S.Alike e e')
    (hf : S.frames w f f') :
    S.Lockstep w S.Made (Eval.demand ev e f) (Eval.demand ev' e' f') := by
  refine (hev he hf).bind fun hw h => ?_
  cases h with
  | some hv => exact .pure hv
  | none h => exact .fail he.marks (fun _ => h) (S.frames_mono hw hf)

theorem demandNumber (hev : S.Simulates ev ev') (he : S.Alike e e')
    (hf : S.frames w f f') :
    S.Lockstep w (fun _ n n' => n = n') (Eval.demandNumber ev e f)
      (Eval.demandNumber ev' e' f') := by
  refine (demand hev he hf).bind fun hw hv => ?_
  rw [← (S.value hv.traced).number?_eq]
  split
  · exact .pure rfl
  · exact .fail he.marks nofun (S.frames_mono hw hf)

theorem demandAll (hev : S.Simulates ev ev') {es es' : List SourceExpr}
    (hes : List.Forall₂ S.Alike es es') (hf : S.frames w f f') :
    S.Lockstep w (fun w => List.Forall₂ (S.traced w)) (Eval.demandAll ev f es)
      (Eval.demandAll ev' f' es') := by
  induction hes generalizing w with
  | nil => exact .pure .nil
  | cons he _ ih =>
    refine (demand hev he hf).bind fun hw hv => ?_
    refine (ih (S.frames_mono hw hf)).bind fun hw' hvs => ?_
    exact .pure (.cons (S.traced_mono hw' hv.traced) hvs)

theorem name {x : String} (hx : S.admits (.name s x)) (hs : S.Marks s s')
    (hf : S.frames w f f') :
    S.Lockstep w S.Results (Eval.name s x f) (Eval.name s' x f') := by
  intro m m' hm
  rw [Eval.name_apply, Eval.name_apply]
  have h := S.lookup hx hm hf
  cases hl : m.store.lookup? f.table x <;> cases hl' : m'.store.lookup? f'.table x <;>
    rw [hl, hl'] at h
  · exact .failed (S.le_refl w) hm (S.fail _ hs.view_eq hs.allows nofun hf)
  · cases h
  · cases h
  · cases h with
    | some hv => exact .ok (S.le_refl w) hm (.some (.stamp (S.value hv) hs hf))

theorem binary (hev : S.Simulates ev ev') (op : BinaryOp) {l l' r r' : SourceExpr}
    (hs : S.Marks s s') (hl : S.Alike l l')
    (hr : S.Alike r r') (hf : S.frames w f f') :
    S.Lockstep w S.Results (Eval.binary ev s op l r f) (Eval.binary ev' s' op l' r' f') := by
  refine (demand hev hl hf).bind fun hw ha => ?_
  refine (demand hev hr (S.frames_mono hw hf)).bind fun {w₂ b b'} hw' hb => ?_
  have hf₂ := S.frames_mono hw' (S.frames_mono hw hf)
  rw [← (S.value (S.traced_mono hw' ha.traced)).binary op (S.value hb.traced)]
  split
  · rename_i v hv
    exact .pure (.some (.stamp (.of_binary hv) hs hf₂))
  · exact .fail hr.marks nofun hf₂
  · exact .fail hs nofun hf₂

theorem unary (hev : S.Simulates ev ev') (op : UnaryOp) (hs : S.Marks s s')
    (he : S.Alike e e') (hf : S.frames w f f') :
    S.Lockstep w S.Results (Eval.unary ev s op e f) (Eval.unary ev' s' op e' f') := by
  refine (demand hev he hf).bind fun hw ha => ?_
  have hf' := S.frames_mono hw hf
  obtain ⟨x, h, h'⟩ | ⟨v, v', h, h', hv⟩ := (S.value ha.traced).unary op
  · rw [h, h']
    exact .fail hs nofun hf'
  · rw [h, h']
    exact .pure (.some (.stamp hv hs hf'))

theorem assign (hev : S.Simulates ev ev') (x : String) (he : S.Alike e e')
    (hf : S.frames w f f') :
    S.Lockstep w S.Results (Eval.assign ev x e f) (Eval.assign ev' x e' f') := by
  refine (demand hev he hf).bind fun hw hv => ?_
  refine (Lockstep.define x (S.frames_mono hw hf) hv.traced).bind fun hw' _ => ?_
  exact .pure (.some (hv.mono hw'))

theorem arms (hev : S.Simulates ev ev') {other other' : Option SourceExpr}
    (ho : Option.Rel S.Alike other other') (hlack : other = none → S.valueless) {cs cs' : List (SourceExpr × SourceExpr)}
    (hcs : List.Forall₂ (fun c c' => S.Alike c.1 c'.1 ∧ S.Alike c.2 c'.2) cs cs')
    (hf : S.frames w f f') :
    S.Lockstep w S.Results (Eval.arms ev other f cs) (Eval.arms ev' other' f' cs') := by
  induction hcs generalizing w with
  | nil =>
    cases ho with
    | none => exact .pure (.none (hlack rfl))
    | some he => exact hev he hf
  | cons hc _ ih =>
    refine (demand hev hc.1 hf).bind fun hw hv => ?_
    rw [← (S.value hv.traced).isTrue_eq]
    split
    · exact hev hc.2 (S.frames_mono hw hf)
    · exact ih (S.frames_mono hw hf)

theorem forRounds (hev : S.Simulates ev ev') (x : String) (step bound : Number)
    {b b' : SourceExpr} (hs : S.Marks s s') (hb : S.Alike b b')
    (hf : S.frames w f f') (fuel : Nat) (index : Number) (rounds : Nat) :
    S.Lockstep w (fun _ n n' => n = n') (Eval.forRounds ev s x step bound b f fuel index rounds)
      (Eval.forRounds ev' s' x step bound b' f' fuel index rounds) := by
  induction fuel generalizing w index rounds with
  | zero => exact .exhausted
  | succ fuel ih =>
    unfold Eval.forRounds
    split
    · refine (Lockstep.define x hf (Made.stamp (.number index) hs hf).traced).bind fun hw _ => ?_
      refine (hev hb (S.frames_mono hw hf)).bind fun hw' _ => ?_
      exact ih (S.frames_mono hw' (S.frames_mono hw hf)) _ _
    · exact .pure rfl

theorem stepOf (hev : S.Simulates ev ev') {step step' : Option SourceExpr}
    (h : Option.Rel S.Alike step step') (hf : S.frames w f f') :
    S.Lockstep w (fun _ n n' => n = n') (Eval.stepOf ev f step) (Eval.stepOf ev' f' step') := by
  cases h with
  | none => exact .pure rfl
  | some he => exact demandNumber hev he hf

theorem forRange (hev : S.Simulates ev ev') (fuel : Nat) (x : String)
    {i i' j j' b b' : SourceExpr} {step step' : Option SourceExpr} (hs : S.Marks s s')
    (hi : S.Alike i i') (hj : S.Alike j j')
    (hstep : Option.Rel S.Alike step step')
    (hb : S.Alike b b') (hlack : S.valueless) (hf : S.frames w f f') :
    S.Lockstep w S.Results (Eval.forRange fuel ev s x i j step b f)
      (Eval.forRange fuel ev' s' x i' j' step' b' f') := by
  refine (demandNumber hev hi hf).bind fun hw₁ hn₁ => ?_
  have hf₁ := S.frames_mono hw₁ hf
  refine (demandNumber hev hj hf₁).bind fun hw₂ hn₂ => ?_
  have hf₂ := S.frames_mono hw₂ hf₁
  refine (stepOf hev hstep hf₂).bind fun hw₃ hn₃ => ?_
  have hf₃ := S.frames_mono hw₃ hf₂
  rw [hn₁, hn₂, hn₃]
  refine (forRounds hev x _ _ hs hb hf₃ fuel _ 0).bind fun _ hrounds => ?_
  rw [hrounds]
  exact (Lockstep.note _).bind fun _ _ => .pure (.none hlack)

theorem whileRounds (hev : S.Simulates ev ev') {t t' b b' : SourceExpr}
    (ht : S.Alike t t') (hb : S.Alike b b')
    (hf : S.frames w f f') (fuel rounds : Nat) :
    S.Lockstep w (fun _ n n' => n = n') (Eval.whileRounds ev t b f fuel rounds)
      (Eval.whileRounds ev' t' b' f' fuel rounds) := by
  induction fuel generalizing w rounds with
  | zero => exact .exhausted
  | succ fuel ih =>
    refine (demand hev ht hf).bind fun hw hv => ?_
    rw [← (S.value hv.traced).isTrue_eq]
    split
    · refine (hev hb (S.frames_mono hw hf)).bind fun hw' _ => ?_
      exact ih (S.frames_mono hw' (S.frames_mono hw hf)) _
    · exact .pure rfl

theorem whileLoop (hev : S.Simulates ev ev') (fuel : Nat) {t t' b b' : SourceExpr}
    (ht : S.Alike t t') (hb : S.Alike b b') (hlack : S.valueless) (hf : S.frames w f f') :
    S.Lockstep w S.Results (Eval.whileLoop fuel ev t b f) (Eval.whileLoop fuel ev' t' b' f') := by
  refine (whileRounds hev ht hb hf fuel 0).bind fun _ hrounds => ?_
  rw [hrounds]
  exact (Lockstep.note _).bind fun _ _ => .pure (.none hlack)

theorem function (name? : Option String) (params : List String) {b b' : SourceExpr}
    (hs : S.Marks s s') (hb : S.Alike b b') (hf : S.frames w f f') :
    S.Lockstep w S.Results (Eval.function s name? params b f)
      (Eval.function s' name? params b' f') := by
  intro m m' hm
  obtain ⟨w', hw, hm', hfun⟩ :=
    S.make (name?.getD Function.anonymous) params hm hf hb.view_eq hb.admits
  have hf' := S.frames_mono hw hf
  have hv := Made.stamp (.function hfun) hs hf'
  refine Matches.mono hw ?_
  cases name? with
  | none => exact .ok (S.le_refl w') hm' (.some hv)
  | some x => exact .ok (S.le_refl w') (S.define x hm' hf' hv.traced) (.some hv)

theorem bindAll (ps : List String) {vs vs' : List Traced} (hf : S.frames w f f')
    (hvs : List.Forall₂ (S.traced w) vs vs') :
    S.Lockstep w (fun _ _ _ => True) (Eval.bindAll f ps vs) (Eval.bindAll f' ps vs') := by
  induction ps generalizing vs vs' w with
  | nil => exact .pure trivial
  | cons p ps ih =>
    cases hvs with
    | nil => exact .pure trivial
    | cons hv hvs =>
      refine (Lockstep.define p hf (S.moveTo hv hf)).bind fun hw _ => ?_
      exact ih (S.frames_mono hw hf) (hvs.imp fun _ _ => S.traced_mono hw)

theorem enter_eq (keep keep' : Retention) (ev ev' : Evaluator) {g g' : Function}
    {vs vs' : List Traced} {m m' : Machine} (hs : S.Marks s s')
    (hg : S.functions w g g') (hvs : List.Forall₂ (S.traced w) vs vs') (hf : S.frames w f f')
    (hm : S.machines w m m') :
    ∃ w₁ m₁ m₁', S.le w w₁ ∧ S.machines w₁ m₁ m₁' ∧
      S.frames w₁ (Eval.callFrame s g f m) (Eval.callFrame s' g' f' m') ∧
      Eval.enter keep ev s g vs f m =
        Eval.inFrame keep ev g.body (Eval.callFrame s g f m) m₁ ∧
      Eval.enter keep' ev' s' g' vs' f' m' =
        Eval.inFrame keep' ev' g'.body (Eval.callFrame s' g' f' m') m₁' ∧
      (m.store.addWithin g.table).Evolves m.store.next g.params m₁.store ∧
      (m'.store.addWithin g'.table).Evolves m'.store.next g'.params m₁'.store := by
  obtain ⟨w₁, hw₁, hm₁, hf₁⟩ := S.openTable hm hg hf hs.view_eq hs.allows
  obtain ⟨m₁, hb, he, hev⟩ := @Eval.enter_eq ev keep s g vs f m
  obtain ⟨m₁', hb', he', hev'⟩ := @Eval.enter_eq ev' keep' s' g' vs' f' m'
  have hvs₁ := hvs.imp fun _ _ => S.traced_mono hw₁
  have hargs := bindAll g.params hf₁ hvs₁ _ _ (S.note (S.events_calling hg hf) hm₁)
  rw [S.params_eq hg] at hargs hb
  change S.Matches w₁ _ (Eval.bindAll (Eval.callFrame s g f m) g'.params vs (Eval.entered g f m))
    (Eval.bindAll (Eval.callFrame s' g' f' m') g'.params vs' (Eval.entered g' f' m')) at hargs
  rw [hb, hb'] at hargs
  cases hargs with
  | ok hw₂ hm₂ _ =>
    exact ⟨_, m₁, m₁', S.le_trans hw₁ hw₂, hm₂, S.frames_mono hw₂ hf₁, he, he', hev, hev'⟩

theorem apply {keep keep' : Retention} {v v' : Value} {vs vs' : List Traced}
    (henter : ∀ {g g'}, S.functions w g g' →
      S.Lockstep w S.Results (Eval.enter keep ev s g vs f) (Eval.enter keep' ev' s' g' vs' f'))
    (hs : S.Marks s s') (hv : Value.Related (S.functions w) v v')
    (hvs : vs.length = vs'.length) (hf : S.frames w f f') :
    S.Lockstep w S.Results (Eval.apply keep ev s v vs f) (Eval.apply keep' ev' s' v' vs' f') := by
  have h := hv.function?
  unfold Eval.apply
  cases hg : v.function? <;> cases hg' : v'.function? <;> rw [hg, hg'] at h
  · exact .fail hs nofun hf
  · cases h
  · cases h
  · cases h with
    | some h =>
      dsimp only
      rw [S.name_eq h, S.params_eq h, hvs]
      split_ifs
      · exact .fail hs nofun hf
      · exact .fail hs nofun hf
      · exact henter h

theorem call {keep keep' : Retention} {inner inner' : Evaluator} (hev : S.Simulates ev ev')
    {c c' : SourceExpr} {es es' : List SourceExpr}
    (henter : ∀ {w g g' vs vs' f f'}, S.functions w g g' → List.Forall₂ (S.traced w) vs vs' →
      S.frames w f f' → S.Lockstep w S.Results (Eval.enter keep inner s g vs f)
        (Eval.enter keep' inner' s' g' vs' f'))
    (hs : S.Marks s s') (hc : S.Alike c c') (hes : List.Forall₂ S.Alike es es')
    (hf : S.frames w f f') :
    S.Lockstep w S.Results
      (do
        let g ← Eval.demand ev c f
        let vs ← Eval.demandAll ev f es
        Eval.apply keep inner s g.value vs f)
      (do
        let g ← Eval.demand ev' c' f'
        let vs ← Eval.demandAll ev' f' es'
        Eval.apply keep' inner' s' g.value vs f') := by
  -- what remains to be shown of two evaluators is that they end their calls alike
  refine (demand hev hc hf).bind fun hw₁ hg => ?_
  have hf₁ := S.frames_mono hw₁ hf
  refine (demandAll hev hes hf₁).bind fun hw₂ hvs => ?_
  have hf₂ := S.frames_mono hw₂ hf₁
  exact apply (fun h => henter h hvs hf₂) hs (S.value (S.traced_mono hw₂ hg.traced)) hvs.length_eq hf₂

theorem nodeVia {keep keep' : Retention} {inner inner' : Evaluator} (hev : S.Simulates ev ev')
    (henter : ∀ {w s s' g g' vs vs' f f'}, S.Marks s s' → S.functions w g g' →
      List.Forall₂ (S.traced w) vs vs' → S.frames w f f' →
      S.Lockstep w S.Results (Eval.enter keep inner s g vs f)
        (Eval.enter keep' inner' s' g' vs' f')) (fuel : Nat) :
    S.Simulates (Eval.nodeVia keep fuel ev inner) (Eval.nodeVia keep' fuel ev' inner') := by
  intro w e e' f f' he hf
  obtain ⟨he, hadmits⟩ := he
  have hallows := S.allows_ann hadmits
  have hchild : ∀ c ∈ e.parts, S.admits c :=
    fun c hc => S.admits_child hadmits (e.parts_subset_children hc)
  cases e with
  | number s n =>
    cases e' <;> simp only [Expr.map, reduceCtorEq, Expr.number.injEq] at he
    obtain ⟨hs, rfl⟩ := he
    exact .pure (.some (.stamp (.number n) ⟨hs, hallows⟩ hf))
  | text s x =>
    cases e' <;> simp only [Expr.map, reduceCtorEq, Expr.text.injEq] at he
    obtain ⟨hs, rfl⟩ := he
    exact .pure (.some (.stamp (.text x) ⟨hs, hallows⟩ hf))
  | name s x =>
    cases e' <;> simp only [Expr.map, reduceCtorEq, Expr.name.injEq] at he
    obtain ⟨hs, rfl⟩ := he
    exact name hadmits ⟨hs, hallows⟩ hf
  | binary s op l r =>
    cases e' <;> simp only [Expr.map, reduceCtorEq, Expr.binary.injEq] at he
    obtain ⟨hs, rfl, hl, hr⟩ := he
    exact binary hev op ⟨hs, hallows⟩ ⟨hl, hchild l (by simp [Expr.parts])⟩
      ⟨hr, hchild r (by simp [Expr.parts])⟩ hf
  | unary s op e =>
    cases e' <;> simp only [Expr.map, reduceCtorEq, Expr.unary.injEq] at he
    obtain ⟨hs, rfl, he⟩ := he
    exact unary hev op ⟨hs, hallows⟩ ⟨he, hchild e (by simp [Expr.parts])⟩ hf
  | assign s x e =>
    cases e' <;> simp only [Expr.map, reduceCtorEq, Expr.assign.injEq] at he
    obtain ⟨hs, rfl, he⟩ := he
    exact assign hev x ⟨he, hchild e (by simp [Expr.parts])⟩ hf
  | cond s t b cs other =>
    cases e' <;> simp only [Expr.map, Expr.mapArms_eq, Expr.mapOption_eq, reduceCtorEq,
      Expr.cond.injEq] at he
    obtain ⟨hs, ht, hb, hcs, ho⟩ := he
    obtain ⟨harms, hother⟩ := Expr.forall_parts_cond hchild
    have hlack : other = none → S.valueless := by
      rintro rfl
      exact S.lacking hadmits trivial
    exact arms hev (Alike.option ho hother) hlack
      (Alike.arms (by simp only [List.map_cons, ht, hb, hcs]) harms) hf
  | forRange s x i j step b =>
    cases e' <;> simp only [Expr.map, Expr.mapOption_eq, reduceCtorEq,
      Expr.forRange.injEq] at he
    obtain ⟨hs, rfl, hi, hj, hstep, hb⟩ := he
    obtain ⟨ai, aj, astep, ab⟩ := Expr.forall_parts_forRange hchild
    exact forRange hev fuel x ⟨hs, hallows⟩ ⟨hi, ai⟩ ⟨hj, aj⟩ (Alike.option hstep astep) ⟨hb, ab⟩
      (S.lacking hadmits trivial) hf
  | whileLoop s t b =>
    cases e' <;> simp only [Expr.map, reduceCtorEq, Expr.whileLoop.injEq] at he
    obtain ⟨hs, ht, hb⟩ := he
    exact whileLoop hev fuel ⟨ht, hchild t (by simp [Expr.parts])⟩
      ⟨hb, hchild b (by simp [Expr.parts])⟩ (S.lacking hadmits trivial) hf
  | function s n ps b =>
    cases e' <;> simp only [Expr.map, reduceCtorEq, Expr.function.injEq] at he
    obtain ⟨hs, rfl, rfl, hb⟩ := he
    exact function n ps ⟨hs, hallows⟩ ⟨hb, S.admits_child hadmits (by simp [Expr.children])⟩ hf
  | call s c es =>
    cases e' <;> simp only [Expr.map, Expr.mapList_eq, reduceCtorEq, Expr.call.injEq] at he
    obtain ⟨hs, hc, hes⟩ := he
    exact call hev (henter ⟨hs, hallows⟩) ⟨hs, hallows⟩ ⟨hc, hchild c (by simp [Expr.parts])⟩
      (Alike.list hes fun e he => hchild e (by simp [Expr.parts, he])) hf

theorem evalNode (keep : Retention) (hstopped : ∀ m, ¬ S.stopped m)
    (hrelease : ∀ {w f f' m m' v v'}, S.machines w m m' → S.frames w f f' →
      Option.Rel (S.traced w) v v' → S.machines w (Eval.release keep f.label f.table v m)
        (Eval.release keep f'.label f'.table v' m'))
    (hev : S.Simulates ev ev') (fuel : Nat) :
    S.Simulates (Eval.node keep fuel ev) (Eval.node keep fuel ev') := by
  rw [← Eval.nodeVia_self, ← Eval.nodeVia_self]
  -- only calls remain, whose bodies are evaluated like parts
  refine nodeVia hev ?_ fuel
  intro w s s' g g' vs vs' f f' hs hg hvs hf m m' hm
  obtain ⟨w₁, m₁, m₁', hw₁, hm₁, hf₁, he, he', -, -⟩ := enter_eq keep keep ev ev' hs hg hvs hf hm
  have hbody := hev ⟨S.body_eq hg, S.admits_body hg⟩ hf₁ m₁ m₁' hm₁
  rw [he, he']
  unfold Eval.inFrame
  generalize ev g.body _ m₁ = r at hbody
  generalize ev' g'.body _ m₁' = r' at hbody
  cases hbody with
  | ok hw hm hq =>
    exact .ok (S.le_trans hw₁ hw) (hrelease hm (S.frames_mono hw hf₁) hq.rel) hq
  | failed hw hm hd =>
    exact .failed (S.le_trans hw₁ hw) (hrelease hm (S.frames_mono hw hf₁) .none) hd
  | exhausted hw hm =>
    exact .exhausted (S.le_trans hw₁ hw) (hrelease hm (S.frames_mono hw hf₁) .none)
  | stopped h => exact absurd h (hstopped _)

end Constructs

theorem simulates_eval (keep : Retention) (hstopped : ∀ m, ¬ S.stopped m)
    (hrelease : ∀ {w f f' m m' v v'}, S.machines w m m' → S.frames w f f' →
      Option.Rel (S.traced w) v v' → S.machines w (Eval.release keep f.label f.table v m)
        (Eval.release keep f'.label f'.table v' m'))
    (fuel : Nat) : S.Simulates (eval keep fuel) (eval keep fuel) := by
  induction fuel with
  | zero => exact fun _ _ => .exhausted
  | succ fuel ih => exact evalNode keep hstopped hrelease ih fuel

end Simulation

end ArrowScript
