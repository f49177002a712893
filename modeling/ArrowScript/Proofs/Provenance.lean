import Mathlib
import ArrowScript.Proofs.Lockstep
import ArrowScript.Proofs.Traceback

/-! Where things come from. What evaluation produces, stores and reports is made of the nodes that
it evaluates: bodies of functions are nodes, values and diagnostics carry spans of nodes, and calls
are made from where nodes start. So what holds of the nodes of the programs holds of everything that
turns up while they run, in every single evaluation that takes part. -/

namespace ArrowScript

/-- Which nodes and spans may turn up, and whether a value may be missing. -/
structure Provenance where
  node : SourceExpr → Prop
  span : Span → Prop
  valueless : Prop
  ann : ∀ {e}, node e → span e.ann
  child : ∀ {e c}, node e → c ∈ e.children → node c
  lacking : ∀ {e}, node e → e.Lacking → valueless

def Frame.Stems (S : Provenance) (f : Frame) : Prop := ∀ p ∈ f.sites, ∃ s, S.span s ∧ s.start = p

def Value.Stems (S : Provenance) (v : Value) : Prop := ∀ f, v = .function f → S.node f.body

structure Traced.Stems (S : Provenance) (v : Traced) : Prop where
  value : v.value.Stems S
  span : ∀ o ∈ v.origin?, S.span o.span
  frame : ∀ o ∈ v.origin?, o.frame.Stems S

structure Diagnostic.Stems (S : Provenance) (d : Diagnostic) : Prop where
  span : S.span d.span
  frame : ∀ f ∈ d.frame?, f.Stems S
  valueless : d.kind = .runtime .noValue → S.valueless

def Store.Stems (S : Provenance) (s : Store) : Prop :=
  ∀ t x v, (x, v) ∈ s.bindings t → v.Stems S

section Parts

variable {S : Provenance} {f : Frame} {v : Value} {w : Traced} {s : Span} {σ : Store}

theorem Frame.Stems.call (hf : f.Stems S) (hs : S.span s) (label : String) (t : TableId) :
    (Frame.call label s.start f t).Stems S := by
  intro p hp
  rcases List.mem_append.1 hp with hp | hp
  · exact hf p hp
  · exact ⟨s, hs, (List.mem_singleton.1 hp).symm⟩

theorem Value.Stems.of_function? (h : v.function? = none) : v.Stems S := by
  rintro f rfl
  cases h

theorem Traced.Stems.stamp (hv : v.Stems S) (hs : S.span s) (hf : f.Stems S) :
    (Traced.stamp v s f).Stems S where
  value := hv
  span := by
    rintro _ ⟨⟩
    exact hs
  frame := by
    rintro _ ⟨⟩
    exact hf

theorem Traced.Stems.moveTo (hw : w.Stems S) (hf : f.Stems S) : (w.moveTo f).Stems S := by
  refine ⟨hw.value, fun o ho => ?_, fun o ho => ?_⟩
  · obtain ⟨o', ho', rfl⟩ := Option.mem_map.1 ho
    exact hw.span o' ho'
  · obtain ⟨o', ho', rfl⟩ := Option.mem_map.1 ho
    exact hf

theorem Store.Stems.lookup? {t : TableId} {x : String} (hσ : σ.Stems S)
    (h : σ.lookup? t x = some w) : w.Stems S := by
  obtain ⟨u, -, hu⟩ := List.exists_of_findSome?_eq_some h
  exact hσ u x w (Bindings.mem_of_find? hu)

theorem Store.Stems.update {t : TableId} {g : Bindings → Bindings} (hσ : σ.Stems S)
    (hg : ∀ x v, (x, v) ∈ g (σ.bindings t) → v.Stems S) : (σ.update t g).Stems S := by
  intro u x v hv
  by_cases hu : u = t
  · subst hu
    by_cases hlt : u < σ.next
    · rw [bindings_update_self g hlt] at hv
      exact hg x v hv
    · rw [bindings_eq_nil_of_next_le (by simpa using hlt)] at hv
      cases hv
  · rw [bindings_update_of_ne g hu] at hv
    exact hσ u x v hv

theorem Store.Stems.define {t : TableId} {x : String} (hσ : σ.Stems S) (hw : w.Stems S) :
    (σ.define t x w).Stems S := by
  refine hσ.update fun y v hv => ?_
  rcases Bindings.mem_insert hv with rfl | hv
  · exact hw
  · exact hσ t y v hv

theorem Store.Stems.addWithin (hσ : σ.Stems S) (t : TableId) : (σ.addWithin t).Stems S := by
  intro u x v hv
  rw [bindings_addWithin] at hv
  exact hσ u x v hv

theorem Store.Stems.release {m : Machine} (hm : m.store.Stems S) (keep : Retention)
    (label : String) (t : TableId) (result : Option Traced) :
    (Eval.release keep label t result m).store.Stems S := by
  cases keep with
  | all => exact hm
  | escaping =>
    unfold Eval.release
    by_cases he : Eval.escapes m.store t result
    · simpa only [if_pos he] using hm
    · simp only [if_neg he]
      exact hm.update (by simp)

end Parts

namespace Provenance

variable {S : Provenance}

def simulation (S : Provenance) : Simulation where
  World := Unit
  le _ _ := True
  Label := Span
  view := id
  admits := S.node
  allows := S.span
  valueless := S.valueless
  frames _ f f' := f = f' ∧ f.Stems S
  functions _ f f' := f = f' ∧ S.node f.body
  traced _ v v' := v = v' ∧ v.Stems S
  machines _ m m' := m = m' ∧ m.store.Stems S
  diagnostics d d' := d = d' ∧ d.Stems S
  stopped _ := False
  events := Eq
  le_refl _ := trivial
  le_trans _ _ := trivial
  frames_mono _ h := h
  traced_mono _ h := h
  name_eq h := h.1 ▸ rfl
  params_eq h := h.1 ▸ rfl
  body_eq h := h.1 ▸ rfl
  admits_body h := h.2
  admits_child := S.child
  allows_ann := S.ann
  lacking := S.lacking
  value {w v v'} h := by
    obtain ⟨rfl, hv⟩ := h
    cases hval : v.value with
    | number n => exact .number n
    | text x => exact .text x
    | function f => exact .function ⟨rfl, hv.value f hval⟩
  stamp {w v v' s s' f f'} hv hs hspan hf := by
    obtain ⟨rfl, hf⟩ := hf
    obtain rfl : s = s' := hs
    have hvalue : v = v' ∧ v.Stems S := by
      cases hv with
      | number n => exact ⟨rfl, .of_function? rfl⟩
      | text x => exact ⟨rfl, .of_function? rfl⟩
      | function h =>
        obtain ⟨rfl, hnode⟩ := h
        refine ⟨rfl, ?_⟩
        rintro _ ⟨⟩
        exact hnode
    obtain ⟨rfl, hstems⟩ := hvalue
    exact ⟨rfl, .stamp hstems hspan hf⟩
  moveTo hv hf := by
    obtain ⟨rfl, hf⟩ := hf
    obtain ⟨rfl, hv⟩ := hv
    exact ⟨rfl, hv.moveTo hf⟩
  fail {w s s' f f'} x hs hspan hx hf := by
    obtain ⟨rfl, hf⟩ := hf
    obtain rfl : s = s' := hs
    refine ⟨rfl, hspan, ?_, fun h => hx (DiagnosticKind.runtime.inj h)⟩
    rintro _ ⟨⟩
    exact hf
  lookup {w m m' f f' s x} _ hm hf := by
    obtain ⟨rfl, hm⟩ := hm
    obtain ⟨rfl, hf⟩ := hf
    cases hv : m.store.lookup? f.table x with
    | none => exact .none
    | some v => exact .some ⟨rfl, hm.lookup? hv⟩
  define x hm hf hv := by
    obtain ⟨rfl, hm⟩ := hm
    obtain ⟨rfl, hf⟩ := hf
    obtain ⟨rfl, hv⟩ := hv
    exact ⟨rfl, hm.define hv⟩
  events_refl _ := rfl
  events_calling hg hf := by rw [hg.1, hf.1]
  note he hm := by
    obtain ⟨rfl, hm⟩ := hm
    rw [he]
    exact ⟨rfl, hm⟩
  make _ _ hm hf hb hnode := by
    obtain ⟨rfl, hm⟩ := hm
    obtain ⟨rfl, hf⟩ := hf
    rw [Expr.map_id, Expr.map_id] at hb
    obtain rfl := hb
    exact ⟨(), trivial, ⟨rfl, hm⟩, rfl, hnode⟩
  openTable {w m m' g g' c c' s s'} hm hg hc hs hspan := by
    obtain ⟨rfl, hm⟩ := hm
    obtain ⟨rfl, -⟩ := hg
    obtain ⟨rfl, hc⟩ := hc
    obtain rfl : s = s' := hs
    exact ⟨(), trivial, ⟨rfl, hm.addWithin _⟩, rfl, hc.call hspan _ _⟩

inductive Ends (S : Provenance) : EStateM.Result Halt Machine (Option Traced) → Prop
  | value {v m} (hv : v.Stems S) (ho : v.origin?.isSome) (hm : m.store.Stems S) :
      Ends S (.ok (some v) m)
  | nothing {m} (h : S.valueless) (hm : m.store.Stems S) : Ends S (.ok none m)
  | failed {d m} (hd : d.Stems S) (hm : m.store.Stems S) : Ends S (.error (.failed d) m)
  | exhausted {m} (hm : m.store.Stems S) : Ends S (.error .exhausted m)

theorem of_matches {w : S.simulation.World} {r r' : EStateM.Result Halt Machine (Option Traced)}
    (h : S.simulation.Matches w S.simulation.Results r r') : r = r' ∧ S.Ends r := by
  cases h with
  | ok _ hm hq =>
    obtain ⟨rfl, hm⟩ := hm
    cases hq with
    | none h => exact ⟨rfl, .nothing h hm⟩
    | some hv =>
      obtain ⟨⟨rfl, hv⟩, ho⟩ := hv
      exact ⟨rfl, .value hv ho hm⟩
  | failed _ hm hd =>
    obtain ⟨rfl, hm⟩ := hm
    obtain ⟨rfl, hd⟩ := hd
    exact ⟨rfl, .failed hd hm⟩
  | exhausted _ hm =>
    obtain ⟨rfl, hm⟩ := hm
    exact ⟨rfl, .exhausted hm⟩
  | stopped h => exact h.elim

theorem evalNode (keep : Retention) {ev : Evaluator} (fuel : Nat)
    (hev : S.simulation.Simulates (eval keep fuel) ev) :
    S.simulation.Simulates (Eval.node keep fuel (eval keep fuel)) (Eval.node keep fuel ev) := by
  refine Simulation.evalNode keep (fun _ => id) ?_ hev fuel
  intro w f f' m m' v v' hm hf hv
  obtain ⟨rfl, hm⟩ := hm
  obtain ⟨rfl, -⟩ := hf
  obtain rfl : v = v' := by
    cases hv with
    | none => rfl
    | some h => exact congrArg some h.1
  exact ⟨rfl, hm.release keep _ _ _⟩

theorem simulates_eval (S : Provenance) (keep : Retention) (fuel : Nat) :
    S.simulation.Simulates (eval keep fuel) (eval keep fuel) := by
  induction fuel with
  | zero => exact fun _ _ => .exhausted
  | succ fuel ih => exact evalNode keep fuel ih

end Provenance

namespace Evaluation

variable {S : Provenance} {keep : Retention} {t u : Evaluation}

structure Stems (S : Provenance) (t : Evaluation) : Prop where
  node : S.node t.expr
  frame : t.frame.Stems S
  store : t.machine.store.Stems S

theorem Stems.outcome (h : t.Stems S) (keep : Retention) : S.Ends (t.outcome keep) := by
  have hrun := S.simulates_eval keep t.fuel (w := ()) ⟨rfl, h.node⟩ ⟨rfl, h.frame⟩
    t.machine t.machine ⟨rfl, h.store⟩
  exact (Provenance.of_matches hrun).2

/-- An evaluation that stems from `S` never waits for one that does not: it would not notice
another outcome of that one. -/
theorem Stems.awaits (ht : t.Stems S) (h : t.Awaits keep u) : u.Stems S := by
  obtain ⟨hfuel, ev, hev, hne⟩ := h
  by_contra hu
  -- `ev` differs from the evaluator at `u` only, and `u` is not met
  have hagree : S.simulation.Simulates (eval keep u.fuel) ev := by
    intro w e e' f f' he hf m m' hm
    have hexpr : e.map id = e'.map id := he.view_eq
    rw [Expr.map_id, Expr.map_id] at hexpr
    subst hexpr
    obtain ⟨rfl, hframe⟩ := hf
    obtain ⟨rfl, hstore⟩ := hm
    have hother : ¬ (e = u.expr ∧ f = u.frame ∧ m = u.machine) := by
      rintro ⟨rfl, rfl, rfl⟩
      exact hu ⟨he.admits, hframe, hstore⟩
    rw [hev e f m hother]
    exact S.simulates_eval keep u.fuel he ⟨rfl, hframe⟩ m m ⟨rfl, hstore⟩
  have hnode := Provenance.evalNode keep u.fuel hagree (w := ()) ⟨rfl, ht.node⟩ ⟨rfl, ht.frame⟩
    t.machine t.machine ⟨rfl, ht.store⟩
  refine hne ?_
  rw [Evaluation.outcome, hfuel]
  exact (Provenance.of_matches hnode).1.symm

theorem Stems.reaches (ht : t.Stems S) (h : Relation.ReflTransGen (Awaits keep) t u) :
    u.Stems S := by
  induction h with
  | refl => exact ht
  | tail _ hawaits ih => exact ih.awaits hawaits

end Evaluation

end ArrowScript
