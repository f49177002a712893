import Mathlib
import ArrowScript.Eval
import ArrowScript.Proofs.Store

/-! Scope isolation. An evaluation works in one table, the one of its frame, and of that table it
changes the bindings of the names that the expression itself defines. Calls work in tables that
they make, so the tables that there were before are left alone however deep the calls go. -/

namespace ArrowScript

namespace Expr

variable {α : Type}

mutual

/-- The names that a tree defines where it stands: those of definitions, loops and named functions
outside the bodies of functions. -/
def targets : Expr α → List String
  | number .. | text .. | name .. => []
  | binary _ _ l r => targets l ++ targets r
  | unary _ _ e => targets e
  | assign _ x e => x :: targets e
  | cond _ t b arms other => targets t ++ targets b ++ targetsArms arms ++ targetsOption other
  | forRange _ x i j step b => x :: targets i ++ targets j ++ targetsOption step ++ targets b
  | whileLoop _ t b => targets t ++ targets b
  | function _ n _ _ => n.toList
  | call _ c es => targets c ++ targetsList es

def targetsArms : List (Expr α × Expr α) → List String
  | [] => []
  | (t, b) :: arms => targets t ++ targets b ++ targetsArms arms

def targetsOption : Option (Expr α) → List String
  | none => []
  | some e => targets e

def targetsList : List (Expr α) → List String
  | [] => []
  | e :: es => targets e ++ targetsList es

end

end Expr

namespace Store

structure Evolves (t : TableId) (xs : List String) (s s' : Store) : Prop where
  next_le : s.next ≤ s'.next
  outer_eq : ∀ u < s.next, s'.outer u = s.outer u
  bindings_eq : ∀ u < s.next, u ≠ t → s'.bindings u = s.bindings u
  local_eq : t < s.next → ∀ x ∉ xs, s'.local? t x = s.local? t x
  names_le : t < s.next → (s.bindings t).names <+: (s'.bindings t).names

namespace Evolves

variable {t : TableId} {xs ys : List String} {s s' s'' : Store}

theorem refl (t : TableId) (xs : List String) (s : Store) : Evolves t xs s s where
  next_le := le_rfl
  outer_eq _ _ := rfl
  bindings_eq _ _ _ := rfl
  local_eq _ _ _ := rfl
  names_le _ := List.prefix_rfl

theorem trans (h : Evolves t xs s s') (h' : Evolves t xs s' s'') : Evolves t xs s s'' where
  next_le := h.next_le.trans h'.next_le
  outer_eq u hu := (h'.outer_eq u (hu.trans_le h.next_le)).trans (h.outer_eq u hu)
  bindings_eq u hu hne :=
    (h'.bindings_eq u (hu.trans_le h.next_le) hne).trans (h.bindings_eq u hu hne)
  local_eq ht x hx :=
    (h'.local_eq (ht.trans_le h.next_le) x hx).trans (h.local_eq ht x hx)
  names_le ht := (h.names_le ht).trans (h'.names_le (ht.trans_le h.next_le))

theorem mono (h : Evolves t xs s s') (hxs : xs ⊆ ys) : Evolves t ys s s' where
  next_le := h.next_le
  outer_eq := h.outer_eq
  bindings_eq := h.bindings_eq
  local_eq ht x hx := h.local_eq ht x (fun hx' => hx (hxs hx'))
  names_le := h.names_le

theorem define {x : String} (hx : x ∈ xs) (v : Traced) : Evolves t xs s (s.define t x v) where
  next_le := by simp [Store.define]
  outer_eq u _ := by simp [Store.define]
  bindings_eq u _ hne := bindings_update_of_ne _ hne
  local_eq ht y hy := by
    have hne : x ≠ y := fun h => hy (h ▸ hx)
    simp only [local?, Store.define, bindings_update_self _ ht, Bindings.find?_insert, if_neg hne]
  names_le ht := by
    simp only [Store.define, bindings_update_self _ ht]
    exact Bindings.names_prefix_insert x v _

theorem of_inner {u : TableId} (hu : u = s.next) (f : TableId)
    (h : Evolves u xs (s.addWithin f) s') : Evolves t [] s s' := by
  have hlt : ∀ w, w < s.next → w < (s.addWithin f).next := by
    intro w hw
    rw [next_addWithin]
    exact Nat.lt_succ_of_lt hw
  have hne : ∀ w, w < s.next → w ≠ u := fun w hw => hu ▸ hw.ne
  have hb : ∀ w, w < s.next → s'.bindings w = s.bindings w := by
    intro w hw
    rw [h.bindings_eq w (hlt w hw) (hne w hw), bindings_addWithin]
  have hle : s.next ≤ s'.next := by
    have := h.next_le
    rw [next_addWithin] at this
    exact Nat.le_of_succ_le this
  refine ⟨hle, ?_, fun w hw _ => hb w hw, ?_, ?_⟩
  · intro w hw
    rw [h.outer_eq w (hlt w hw), outer_addWithin_of_ne hw.ne]
  · intro ht x _
    rw [local?, local?, hb t ht]
  · intro ht
    rw [hb t ht]

theorem clear_inner {u : TableId} (hu : s.next ≤ u) (h : Evolves t xs s s') :
    Evolves t xs s (s'.clear u) where
  next_le := by simpa [clear] using h.next_le
  outer_eq w hw := by simpa [clear] using h.outer_eq w hw
  bindings_eq w hw hne := by
    have hwu : w ≠ u := (hw.trans_le hu).ne
    rw [clear, bindings_update_of_ne _ hwu]
    exact h.bindings_eq w hw hne
  local_eq ht x hx := by
    rw [local?, clear, bindings_update_of_ne _ (ht.trans_le hu).ne]
    exact h.local_eq ht x hx
  names_le ht := by
    rw [clear, bindings_update_of_ne _ (ht.trans_le hu).ne]
    exact h.names_le ht

end Evolves

end Store

namespace Eval

variable {α β : Type}

def final : EStateM.Result Halt Machine α → Machine
  | .ok _ m => m
  | .error _ m => m

def Confined (t : TableId) (xs : List String) (x : Action α) : Prop :=
  ∀ m : Machine, m.store.Evolves t xs (final (x m)).store

namespace Confined

variable {t : TableId} {xs ys : List String} {x : Action α}

theorem mono (h : Confined t xs x) (hxs : xs ⊆ ys) : Confined t ys x := fun m => (h m).mono hxs

theorem of_store_eq (h : ∀ m, (final (x m)).store = m.store) : Confined t xs x := by
  intro m
  rw [h m]
  exact .refl t xs _

theorem pure (a : α) : Confined t xs (pure a : Action α) := of_store_eq fun _ => rfl

theorem throw (h : Halt) : Confined t xs (throw h : Action α) := of_store_eq fun _ => rfl

theorem fail {f : Failure} {s : Span} {frame : Frame} :
    Confined t xs (Eval.fail f s frame : Action α) := throw _

theorem note (e : Event) : Confined t xs (Eval.note e) := of_store_eq fun _ => rfl

theorem define {y : String} (hy : y ∈ xs) (v : Traced) : Confined t xs (Eval.define t y v) :=
  fun _ => .define hy v

theorem bind {f : α → Action β} (hx : Confined t xs x) (hf : ∀ a, Confined t xs (f a)) :
    Confined t xs (x >>= f) := by
  intro m
  have h := hx m
  change m.store.Evolves t xs (final (EStateM.bind x f m)).store
  unfold EStateM.bind
  cases hxm : x m with
  | ok a m' =>
    rw [hxm] at h
    exact h.trans (hf a m')
  | error e m' =>
    rw [hxm] at h
    exact h

end Confined

end Eval

def Evaluator.Confined (ev : Evaluator) : Prop :=
  ∀ e frame, Eval.Confined frame.table e.targets (ev e frame)

namespace Eval

variable {ev : Evaluator} {frame : Frame} {xs : List String}

theorem demand_confined {e : SourceExpr} (h : Confined frame.table xs (ev e frame)) :
    Confined frame.table xs (demand ev e frame) := by
  refine h.bind fun v => ?_
  cases v with
  | some v => exact .pure v
  | none => exact .fail

theorem demandNumber_confined {e : SourceExpr} (h : Confined frame.table xs (ev e frame)) :
    Confined frame.table xs (demandNumber ev e frame) := by
  refine (demand_confined h).bind fun v => ?_
  cases v.value.number? with
  | some n => exact .pure n
  | none => exact .fail

theorem demandAll_confined (hev : ev.Confined) (es : List SourceExpr) :
    Confined frame.table (Expr.targetsList es) (demandAll ev frame es) := by
  induction es with
  | nil => exact .pure []
  | cons e es ih =>
    have he := (hev e frame).mono (List.subset_append_left _ (Expr.targetsList es))
    have hes := ih.mono (List.subset_append_right e.targets _)
    exact (demand_confined he).bind fun v => hes.bind fun vs => .pure _

theorem name_apply (s : Span) (x : String) (m : Machine) :
    name s x frame m = match m.store.lookup? frame.table x with
      | some v => .ok (some (.stamp v.value s frame)) m
      | none => .error (.failed (.ofFailure (.undefined x) s frame)) m := by
  change (match m.store.lookup? frame.table x with
    | some v => (return some (.stamp v.value s frame) : Action (Option Traced))
    | none => fail (.undefined x) s frame) m = _
  cases m.store.lookup? frame.table x <;> rfl

theorem name_confined (s : Span) (x : String) : Confined frame.table xs (name s x frame) := by
  apply Confined.of_store_eq
  intro m
  rw [name_apply]
  cases m.store.lookup? frame.table x <;> rfl

theorem binary_confined (s : Span) (op : BinaryOp) {l r : SourceExpr}
    (hl : Confined frame.table xs (ev l frame)) (hr : Confined frame.table xs (ev r frame)) :
    Confined frame.table xs (binary ev s op l r frame) := by
  refine (demand_confined hl).bind fun a => (demand_confined hr).bind fun b => ?_
  cases Value.binary op a.value b.value with
  | ok v => exact .pure _
  | error e => cases e <;> exact .fail

theorem unary_confined (s : Span) (op : UnaryOp) {e : SourceExpr}
    (he : Confined frame.table xs (ev e frame)) :
    Confined frame.table xs (unary ev s op e frame) := by
  refine (demand_confined he).bind fun a => ?_
  cases Value.unary op a.value with
  | ok v => exact .pure _
  | error e => exact .fail

theorem assign_confined {x : String} {e : SourceExpr} (hx : x ∈ xs)
    (he : Confined frame.table xs (ev e frame)) :
    Confined frame.table xs (assign ev x e frame) :=
  (demand_confined he).bind fun v => (Confined.define hx v).bind fun _ => .pure _

theorem arms_confined (hev : ev.Confined) (otherwise : Option SourceExpr)
    (cs : List (SourceExpr × SourceExpr)) :
    Confined frame.table (Expr.targetsArms cs ++ Expr.targetsOption otherwise)
      (arms ev otherwise frame cs) := by
  induction cs with
  | nil =>
    cases otherwise with
    | none => exact .pure none
    | some e => exact hev e frame
  | cons c cs ih =>
    obtain ⟨test, body⟩ := c
    have ht : Confined frame.table
        (Expr.targetsArms ((test, body) :: cs) ++ Expr.targetsOption otherwise) (ev test frame) :=
      (hev test frame).mono (by intro x hx; simp [Expr.targetsArms, hx])
    have hb : Confined frame.table
        (Expr.targetsArms ((test, body) :: cs) ++ Expr.targetsOption otherwise) (ev body frame) :=
      (hev body frame).mono (by intro x hx; simp [Expr.targetsArms, hx])
    have hr : Confined frame.table
        (Expr.targetsArms ((test, body) :: cs) ++ Expr.targetsOption otherwise)
        (arms ev otherwise frame cs) :=
      ih.mono (by intro x hx; simp only [List.mem_append] at hx; simp [Expr.targetsArms]; tauto)
    refine (demand_confined ht).bind fun v => ?_
    by_cases hv : v.value.isTrue
    · rw [if_pos hv]
      exact hb
    · rw [if_neg hv]
      exact hr

theorem forRounds_confined (s : Span) {x : String} (step bound : Number) {body : SourceExpr}
    (hx : x ∈ xs) (hb : Confined frame.table xs (ev body frame)) (fuel : Nat) (index : Number)
    (rounds : Nat) :
    Confined frame.table xs (forRounds ev s x step bound body frame fuel index rounds) := by
  induction fuel generalizing index rounds with
  | zero => exact .throw _
  | succ fuel ih =>
    unfold forRounds
    by_cases h : inRange step bound index
    · rw [if_pos h]
      exact (Confined.define hx _).bind fun _ => hb.bind fun _ => ih _ _
    · rw [if_neg h]
      exact .pure _

theorem stepOf_confined {step : Option SourceExpr}
    (h : ∀ e ∈ step, Confined frame.table xs (ev e frame)) :
    Confined frame.table xs (stepOf ev frame step) := by
  cases step with
  | none => exact .pure _
  | some e => exact demandNumber_confined (h e rfl)

theorem whileRounds_confined {test body : SourceExpr}
    (ht : Confined frame.table xs (ev test frame)) (hb : Confined frame.table xs (ev body frame))
    (fuel rounds : Nat) :
    Confined frame.table xs (whileRounds ev test body frame fuel rounds) := by
  induction fuel generalizing rounds with
  | zero => exact .throw _
  | succ fuel ih =>
    refine (demand_confined ht).bind fun v => ?_
    by_cases hv : v.value.isTrue
    · rw [if_pos hv]
      exact hb.bind fun _ => ih _
    · rw [if_neg hv]
      exact .pure _

theorem function_confined (s : Span) (name? : Option String) (params : List String)
    (body : SourceExpr) :
    Confined frame.table name?.toList (function s name? params body frame) := by
  have hs : Confined frame.table name?.toList nextSerial := .of_store_eq fun _ => rfl
  refine hs.bind fun serial => Confined.bind ?_ fun _ => .pure _
  cases name? with
  | none => exact .pure _
  | some x => exact .define (by simp) _

theorem bindAll_confined (frame : Frame) (ps : List String) (vs : List Traced) :
    Confined frame.table ps (bindAll frame ps vs) := by
  induction ps generalizing vs with
  | nil => exact .pure _
  | cons p ps ih =>
    cases vs with
    | nil => exact .pure _
    | cons v vs =>
      have hp : Confined frame.table (p :: ps) (define frame.table p (v.moveTo frame)) :=
        .define List.mem_cons_self _
      exact hp.bind fun _ => (ih vs).mono (List.subset_cons_self p ps)

theorem bindAll_apply (frame : Frame) (ps : List String) (vs : List Traced) (m : Machine) :
    ∃ s, bindAll frame ps vs m = .ok () { m with store := s } := by
  induction ps generalizing vs m with
  | nil => exact ⟨m.store, rfl⟩
  | cons p ps ih =>
    cases vs with
    | nil => exact ⟨m.store, rfl⟩
    | cons v vs =>
      exact ih vs { m with store := m.store.define frame.table p (v.moveTo frame) }

theorem release_evolves (keep : Retention) (label : String) {t u : TableId}
    (result : Option Traced) {s : Store} {m : Machine} (hu : s.next ≤ u)
    (h : s.Evolves t xs m.store) : s.Evolves t xs (release keep label u result m).store := by
  cases keep with
  | all => exact h
  | escaping =>
    unfold release
    by_cases he : escapes m.store u result
    · simpa only [if_pos he] using h
    · simpa only [if_neg he] using h.clear_inner hu

theorem final_inFrame (keep : Retention) (body : SourceExpr) (m : Machine) :
    ∃ result, final (inFrame keep ev body frame m) =
      release keep frame.label frame.table result (final (ev body frame m)) := by
  unfold inFrame
  cases ev body frame m with
  | ok v m' => exact ⟨v, rfl⟩
  | error h m' => exact ⟨none, rfl⟩

def callFrame (s : Span) (f : Function) (caller : Frame) (m : Machine) : Frame :=
  .call f.name s.start caller m.store.next

def entered (f : Function) (caller : Frame) (m : Machine) : Machine :=
  { m with
    store := m.store.addWithin f.table
    log := .calling f.name (caller.depth + 1) :: m.log }

theorem enter_eq (keep : Retention) (s : Span) (f : Function) (args : List Traced)
    (caller : Frame) (m : Machine) :
    ∃ m₁, bindAll (callFrame s f caller m) f.params args (entered f caller m) = .ok () m₁ ∧
      enter keep ev s f args caller m = inFrame keep ev f.body (callFrame s f caller m) m₁ ∧
      (m.store.addWithin f.table).Evolves m.store.next f.params m₁.store := by
  obtain ⟨σ, hσ⟩ := bindAll_apply (callFrame s f caller m) f.params args (entered f caller m)
  have hin := bindAll_confined (callFrame s f caller m) f.params args (entered f caller m)
  rw [hσ] at hin
  refine ⟨_, hσ, ?_, hin⟩
  change EStateM.bind (bindAll (callFrame s f caller m) f.params args)
    (fun _ => inFrame keep ev f.body (callFrame s f caller m)) (entered f caller m) = _
  rw [EStateM.bind, hσ]

theorem enter_confined (hev : ev.Confined) (keep : Retention) (s : Span) (f : Function)
    (args : List Traced) (caller : Frame) (t : TableId) :
    Confined t [] (enter keep ev s f args caller) := by
  intro m
  obtain ⟨m₁, _, henter, hargs⟩ := @enter_eq ev keep s f args caller m
  obtain ⟨result, hfinal⟩ := @final_inFrame ev (callFrame s f caller m) keep f.body m₁
  -- Parameters and body work in the table of the call alone, and the store before the call does
  -- not have that table.
  have hbody := hev f.body (callFrame s f caller m) m₁
  have hin := (hargs.mono (List.subset_append_left _ f.body.targets)).trans
    (hbody.mono (List.subset_append_right f.params _))
  rw [henter, hfinal]
  exact release_evolves keep _ result le_rfl (.of_inner rfl f.table hin)

theorem apply_confined (hev : ev.Confined) (keep : Retention) (s : Span) (callee : Value)
    (args : List Traced) (caller : Frame) (t : TableId) :
    Confined t [] (apply keep ev s callee args caller) := by
  unfold apply
  cases callee.function? with
  | none => exact .fail
  | some f =>
    dsimp only
    split_ifs
    · exact .fail
    · exact .fail
    · exact enter_confined hev keep s f args caller t

def nodeVia (keep : Retention) (fuel : Nat) (ev inner : Evaluator) : Evaluator
  | .call s callee args, frame => do
    let f ← demand ev callee frame
    let vs ← demandAll ev frame args
    apply keep inner s f.value vs frame
  | e, frame => node keep fuel ev e frame

theorem nodeVia_self (keep : Retention) (fuel : Nat) (ev : Evaluator) :
    nodeVia keep fuel ev ev = node keep fuel ev := by
  funext e frame
  cases e <;> rfl

theorem nodeVia_confined {inner : Evaluator} (hev : ev.Confined) (hinner : inner.Confined)
    (keep : Retention) (fuel : Nat) : Evaluator.Confined (nodeVia keep fuel ev inner) := by
  intro e frame
  have part {xs : List String} (e : SourceExpr) (h : e.targets ⊆ xs) :
      Confined frame.table xs (ev e frame) := (hev e frame).mono h
  cases e with
  | number s n => exact .pure _
  | text s x => exact .pure _
  | name s x => exact name_confined s x
  | binary s op l r =>
    exact binary_confined s op (part l (List.subset_append_left ..))
      (part r (List.subset_append_right ..))
  | unary s op e => exact unary_confined s op (hev e frame)
  | assign s x e =>
    exact assign_confined List.mem_cons_self (part e (List.subset_cons_self ..))
  | cond s t b cs other =>
    exact (arms_confined hev other ((t, b) :: cs)).mono (by simp [Expr.targets, Expr.targetsArms])
  | forRange s x i j step b =>
    have hstep : ∀ e ∈ step, Confined frame.table (Expr.forRange s x i j step b).targets
        (ev e frame) := by
      intro e he
      rw [Option.mem_def.mp he]
      exact part e (by intro y hy; simp [Expr.targets, Expr.targetsOption, hy])
    exact (demandNumber_confined (part i (by intro y hy; simp [Expr.targets, hy]))).bind fun _ =>
      (demandNumber_confined (part j (by intro y hy; simp [Expr.targets, hy]))).bind fun _ =>
      (stepOf_confined hstep).bind fun _ =>
      (forRounds_confined s _ _ (by simp [Expr.targets])
        (part b (by intro y hy; simp [Expr.targets, hy])) fuel _ _).bind fun _ =>
      (Confined.note _).bind fun _ => .pure _
  | whileLoop s t b =>
    exact (whileRounds_confined (part t (List.subset_append_left ..))
      (part b (List.subset_append_right ..)) fuel 0).bind fun _ =>
      (Confined.note _).bind fun _ => .pure _
  | function s n ps b => exact function_confined s n ps b
  | call s c es =>
    exact (demand_confined (part c (List.subset_append_left ..))).bind fun _ =>
      ((demandAll_confined hev es).mono (List.subset_append_right ..)).bind fun _ =>
      (apply_confined hinner keep s _ _ frame frame.table).mono (List.nil_subset _)

end Eval

theorem eval_confined (keep : Retention) (fuel : Nat) : (eval keep fuel).Confined := by
  induction fuel with
  | zero => exact fun _ _ => .throw _
  | succ fuel ih =>
    rw [eval, ← Eval.nodeVia_self]
    exact Eval.nodeVia_confined ih ih keep fuel

/-- When an evaluation ends, in whichever way, every table that there was and that is not the one
of its frame has the bindings it had, in their order. In the table of its frame only names that the
expression defines have another binding than before, and the names that were bound come first, in
their order. -/
theorem eval_isolated (keep : Retention) (fuel : Nat) (e : SourceExpr) (frame : Frame)
    (m : Machine) (h : frame.table < m.store.next) :
    let m' := Eval.final (eval keep fuel e frame m)
    (∀ t < m.store.next, t ≠ frame.table → m'.store.bindings t = m.store.bindings t) ∧
    (∀ x ∉ e.targets, m'.store.local? frame.table x = m.store.local? frame.table x) ∧
    (m.store.bindings frame.table).names <+: (m'.store.bindings frame.table).names := by
  have hm := eval_confined keep fuel e frame m
  exact ⟨hm.bindings_eq, hm.local_eq h, hm.names_le h⟩

theorem eval_isolated_call :
    let s : Span := .empty (.start ⟨"a", ""⟩)
    let e : SourceExpr :=
      .call s (.function s none ["x"] (.assign s "true" (.name s "x"))) [.name s "nil"]
    let m : Machine := ⟨Store.empty.addGlobals, 0, []⟩
    let m' := Eval.final (eval .escaping 5 e (.program 0) m)
    0 < m.store.next ∧ "true" ∉ e.targets ∧
      m'.store.local? 0 "true" = m.store.local? 0 "true" := by
  intro s e m m'
  have hm : 0 < m.store.next := by decide
  have he : "true" ∉ e.targets := by decide
  exact ⟨hm, he, (eval_isolated .escaping 5 e (.program 0) m hm).2.1 "true" he⟩

end ArrowScript
