import Mathlib
import ArrowScript.Proofs.Release

/-! Programs in which nothing lacks a value. Only loops and conditionals without a last part end
without one. Where none of these stands in a program, nor in the functions that it can get hold of,
its evaluation never comes to a missing value, and it makes no function of another kind. The tables
that can be reached from where evaluation takes place are the worlds of a simulation of evaluation
by itself: they grow by those of the calls, and nothing in them leads out. -/

namespace ArrowScript

namespace Expr

variable {α : Type} {e c : Expr α}

/-- The expression has no loops, and all its conditionals have a last part, in the bodies of
functions too. -/
def Full (e : Expr α) : Prop := ∀ n, e.Contains n → ¬ n.Lacking

theorem Full.child (h : e.Full) (hc : c ∈ e.children) : c.Full := fun n hn => h n (.head hc hn)

theorem Full.node (h : ¬ e.Lacking) (hc : ∀ c ∈ e.children, c.Full) : e.Full :=
  forall_contains h hc

end Expr

/-- Every function that can be reached from the tables of `R` has a full body. -/
def Store.FullFrom (s : Store) (R : Set TableId) : Prop :=
  ∀ ⦃t u x v f⦄, t ∈ R → s.Reaches t u → (x, v) ∈ s.bindings u → v.value = .function f →
    f.body.Full

structure Function.FullIn (L : Set TableId) (f : Function) : Prop where
  body : f.body.Full
  table : f.table ∈ L

def Traced.FullIn (L : Set TableId) (v : Traced) : Prop := ∀ f, v.value = .function f → f.FullIn L

structure Store.FullIn (L : Set TableId) (s : Store) : Prop where
  outer : ∀ {t u}, t ∈ L → u ∈ s.outer t → u ∈ L
  bound : ∀ {t x v}, t ∈ L → (x, v) ∈ s.bindings t → v.FullIn L

section Live

variable {L L' R : Set TableId} {s : Store} {t : TableId} {v : Traced}

theorem Traced.FullIn.mono (h : v.FullIn L) (hL : L ⊆ L') : v.FullIn L' :=
  fun f hf => ⟨(h f hf).body, hL (h f hf).table⟩

namespace Store.FullIn

theorem reaches {u : TableId} (h : s.FullIn L) (ht : t ∈ L) (hr : s.Reaches t u) : u ∈ L := by
  induction hr with
  | refl => exact ht
  | tail _ hl ih =>
    rcases hl with hu | ⟨x, v, f, hv, hf, rfl⟩
    · exact h.outer ih hu
    · exact (h.bound ih hv f hf).table

theorem fullFrom (h : s.FullIn L) (hR : R ⊆ L) : s.FullFrom R :=
  fun _ _ _ _ _ ht hr hv hf => (h.bound (h.reaches (hR ht) hr) hv _ hf).body

theorem of_fullFrom (h : s.FullFrom R) : s.FullIn {u | ∃ t ∈ R, s.Reaches t u} where
  outer := by
    rintro u u' ⟨t, ht, hr⟩ hu
    exact ⟨t, ht, hr.tail (.inl hu)⟩
  bound := by
    rintro u x v ⟨t, ht, hr⟩ hv f hf
    exact ⟨h ht hr hv hf, t, ht, hr.tail (.inr ⟨x, v, f, hv, hf, rfl⟩)⟩

theorem chain (h : s.FullIn L) (ht : t ∈ L) : ∀ u ∈ s.chain t, u ∈ L :=
  List.forall_mem_cons.2 ⟨ht, fun _ => h.outer ht⟩

theorem lookup? {x : String} (h : s.FullIn L) (ht : t ∈ L) (hv : s.lookup? t x = some v) :
    v.FullIn L := by
  obtain ⟨u, hu, hx⟩ := List.exists_of_findSome?_eq_some hv
  exact h.bound (h.chain ht u hu) (Bindings.mem_of_find? hx)

theorem update {g : Bindings → Bindings} (h : s.FullIn L)
    (hg : t ∈ L → ∀ x v, (x, v) ∈ g (s.bindings t) → v.FullIn L) : (s.update t g).FullIn L where
  outer hu hu' := h.outer hu (by simpa using hu')
  bound {u x v} hu hv := by
    by_cases hut : u = t
    · subst hut
      by_cases hlt : u < s.next
      · rw [bindings_update_self g hlt] at hv
        exact hg hu x v hv
      · rw [bindings_eq_nil_of_next_le (by simpa using hlt)] at hv
        cases hv
    · rw [bindings_update_of_ne g hut] at hv
      exact h.bound hu hv

theorem define (h : s.FullIn L) (x : String) (hv : v.FullIn L) : (s.define t x v).FullIn L := by
  refine h.update fun ht y w hw => ?_
  rcases Bindings.mem_insert hw with rfl | hw
  · exact hv
  · exact h.bound ht hw

theorem clear (h : s.FullIn L) (t : TableId) : (s.clear t).FullIn L :=
  h.update fun _ _ _ hv => nomatch hv

theorem release {m : Machine} (h : m.store.FullIn L) (keep : Retention) (label : String)
    (t : TableId) (result : Option Traced) :
    (Eval.release keep label t result m).store.FullIn L := by
  cases keep with
  | all => exact h
  | escaping =>
    unfold Eval.release
    dsimp only
    split
    · exact h
    · exact h.clear t

theorem addWithin (h : s.FullIn L) (ht : t ∈ L) : (s.addWithin t).FullIn (insert s.next L) where
  outer {u u'} hu hu' := by
    by_cases hnext : u = s.next
    · rw [hnext, outer_addWithin_next] at hu'
      exact .inr (h.chain ht u' hu')
    · rw [outer_addWithin_of_ne hnext] at hu'
      exact .inr (h.outer (hu.resolve_left hnext) hu')
  bound {u x v} hu hv := by
    rw [bindings_addWithin] at hv
    rcases hu with rfl | hu
    · rw [bindings_eq_nil_of_next_le le_rfl] at hv
      cases hv
    · exact (h.bound hu hv).mono (Set.subset_insert _ _)

end Store.FullIn

end Live

namespace Store.FullIn

def simulation : Simulation where
  World := Set TableId
  le := (· ⊆ ·)
  Label := Span
  view := id
  admits := Expr.Full
  allows _ := True
  valueless := False
  frames L f f' := f = f' ∧ f'.table ∈ L
  functions L f f' := f = f' ∧ f.FullIn L
  traced L v v' := v = v' ∧ v.FullIn L
  machines L m m' := m = m' ∧ m.store.FullIn L
  diagnostics d d' := d = d' ∧ d.kind ≠ .runtime .noValue
  stopped _ := False
  events := Eq
  le_refl := Set.Subset.refl
  le_trans := Set.Subset.trans
  frames_mono hL h := ⟨h.1, hL h.2⟩
  traced_mono hL h := ⟨h.1, h.2.mono hL⟩
  name_eq h := h.1 ▸ rfl
  params_eq h := h.1 ▸ rfl
  body_eq h := h.1 ▸ rfl
  admits_body h := h.2.body
  admits_child := Expr.Full.child
  allows_ann _ := trivial
  lacking he hlack := he _ .refl hlack
  value {L v v'} h := by
    obtain ⟨rfl, hv⟩ := h
    cases hval : v.value with
    | number n => exact .number n
    | text x => exact .text x
    | function f => exact .function ⟨rfl, hv f hval⟩
  stamp {L v v' s s' f f'} hv hs _ hf := by
    obtain ⟨rfl, -⟩ := hf
    obtain rfl : s = s' := hs
    cases hv with
    | number n => exact ⟨rfl, fun _ h => nomatch h⟩
    | text x => exact ⟨rfl, fun _ h => nomatch h⟩
    | function h =>
      obtain ⟨rfl, hfull⟩ := h
      refine ⟨rfl, ?_⟩
      rintro _ ⟨⟩
      exact hfull
  moveTo hv hf := ⟨by rw [hv.1, hf.1], hv.2⟩
  fail x hs _ hx hf := by
    obtain ⟨rfl, -⟩ := hf
    exact ⟨congrArg (Diagnostic.ofFailure x · _) hs, fun h => hx (DiagnosticKind.runtime.inj h)⟩
  lookup {L m m' f f' s x} _ hm hf := by
    obtain ⟨rfl, hm⟩ := hm
    obtain ⟨rfl, ht⟩ := hf
    cases hv : m.store.lookup? f.table x with
    | none => exact .none
    | some v => exact .some ⟨rfl, hm.lookup? ht hv⟩
  define x hm hf hv := by
    obtain ⟨rfl, hm⟩ := hm
    obtain ⟨rfl, -⟩ := hf
    obtain ⟨rfl, hv⟩ := hv
    exact ⟨rfl, hm.define x hv⟩
  events_refl _ := rfl
  events_calling hg hf := by rw [hg.1, hf.1]
  note he hm := by
    obtain ⟨rfl, hm⟩ := hm
    rw [he]
    exact ⟨rfl, hm⟩
  -- a new function belongs to the table of its frame, which is reached already
  make _ _ hm hf hb hfull := by
    obtain ⟨rfl, hm⟩ := hm
    obtain ⟨rfl, ht⟩ := hf
    rw [Expr.map_id, Expr.map_id] at hb
    obtain rfl := hb
    exact ⟨_, subset_rfl, ⟨rfl, hm⟩, rfl, hfull, ht⟩
  openTable {L m m' g g' c c' s s'} hm hg hc hs _ := by
    obtain ⟨rfl, hm⟩ := hm
    obtain ⟨rfl, hg⟩ := hg
    obtain ⟨rfl, -⟩ := hc
    obtain rfl : s = s' := hs
    exact ⟨_, Set.subset_insert _ _, ⟨rfl, hm.addWithin hg.table⟩, rfl, Set.mem_insert _ _⟩

theorem simulates_eval (keep : Retention) (fuel : Nat) :
    simulation.Simulates (eval keep fuel) (eval keep fuel) := by
  refine Simulation.simulates_eval keep (fun _ => id) ?_ fuel
  intro L f f' m m' v v' hm hf hv
  obtain ⟨rfl, hm⟩ := hm
  obtain ⟨rfl, -⟩ := hf
  obtain rfl : v = v' := by
    cases hv with
    | none => rfl
    | some h => exact congrArg some h.1
  exact ⟨rfl, hm.release keep _ _ _⟩

end Store.FullIn

/-- The outcome is a value with an origin, or a failure for another reason than a missing value,
or the bound is exhausted. All functions that the outcome gives hold of, or that can be reached
from the tables of `R`, have full bodies. -/
inductive Eval.Valued (R : Set TableId) : EStateM.Result Halt Machine (Option Traced) → Prop
  | value {v o m} (ho : v.origin? = some o)
      (hv : ∀ f, v.value = .function f → f.body.Full ∧ m.store.FullFrom {f.table})
      (hm : m.store.FullFrom R) : Valued R (.ok (some v) m)
  | failed {d m} (hd : d.kind ≠ .runtime .noValue) (hm : m.store.FullFrom R) :
      Valued R (.error (.failed d) m)
  | exhausted {m} (hm : m.store.FullFrom R) : Valued R (.error .exhausted m)

theorem Eval.Valued.of_matches {L R : Set TableId}
    {r r' : EStateM.Result Halt Machine (Option Traced)}
    (h : Store.FullIn.simulation.Matches L Store.FullIn.simulation.Results r r') (hR : R ⊆ L) :
    Eval.Valued R r := by
  cases h with
  | ok hL hm hq =>
    cases hq with
    | none h => exact h.elim
    | some hv =>
      obtain ⟨o, ho⟩ := Option.isSome_iff_exists.1 hv.origin
      refine .value ho (fun f hf => ?_) (hm.2.fullFrom (hR.trans hL))
      have hfull := hv.traced.2 f hf
      exact ⟨hfull.body, hm.2.fullFrom (Set.singleton_subset_iff.2 hfull.table)⟩
  | failed hL hm hd => exact .failed hd.2 (hm.2.fullFrom (hR.trans hL))
  | exhausted hL hm => exact .exhausted (hm.2.fullFrom (hR.trans hL))
  | stopped h => exact h.elim

/-- Full expressions have values. Let the functions that can be reached from the tables of `R`, the
table of the frame among them, have full bodies. Then evaluation never ends without a value and
never fails for want of one, and the functions that can be reached afterwards have full bodies
again. -/
theorem eval_valued (keep : Retention) (fuel : Nat) {e : SourceExpr} {frame : Frame} {m : Machine}
    {R : Set TableId} (he : e.Full) (hframe : frame.table ∈ R) (hm : m.store.FullFrom R) :
    Eval.Valued R (eval keep fuel e frame m) := by
  -- evaluation starts in the world of all tables that can be reached
  have hR : R ⊆ {u | ∃ t ∈ R, m.store.Reaches t u} := fun t ht => ⟨t, ht, .refl⟩
  have hrun := Store.FullIn.simulates_eval keep fuel ⟨rfl, he⟩ ⟨rfl, hR hframe⟩ m m
    ⟨rfl, .of_fullFrom hm⟩
  exact .of_matches hrun hR

theorem eval_valued_call :
    let s : Span := .empty (.start ⟨"a", ""⟩)
    let inner : SourceExpr := .function s none [] (.name s "x")
    let body : SourceExpr := .cond s (.name s "x") (.name s "x") [] (some inner)
    let e : SourceExpr := .call s (.name s "f") [.number s (.int 0)]
    let f : Traced := .plain (.function ⟨0, "f", ["x"], body, 0⟩)
    let m : Machine := ⟨Store.empty.addGlobals.define 0 "f" f, 1, []⟩
    e.Full ∧ m.store.FullFrom {0} ∧
      ∃ g o m', eval .escaping 5 e (.program 0) m = .ok (some ⟨.function g, some o⟩) m' ∧
        g.body.Full ∧ m'.store.FullFrom {g.table} ∧ m'.store.FullFrom {0} := by
  intro s inner body e f m
  have hname (x : String) : (Expr.name s x).Full := .node id nofun
  have hinner : inner.Full := .node id (List.forall_mem_singleton.2 (hname "x"))
  have hbody : body.Full := .node id (List.forall_mem_cons.2
    ⟨hname "x", List.forall_mem_cons.2 ⟨hname "x", List.forall_mem_singleton.2 hinner⟩⟩)
  have he : e.Full := .node id (List.forall_mem_cons.2
    ⟨hname "f", List.forall_mem_singleton.2 (.node id nofun)⟩)
  have hfull : f.FullIn {0} := by
    rintro _ ⟨⟩
    exact ⟨hbody, rfl⟩
  have hglobals : Store.empty.addGlobals.FullIn {0} := by
    refine ⟨?_, ?_⟩
    · rintro t u rfl hu
      cases hu
    · rintro t x v rfl hv g hg
      have hb : Store.empty.addGlobals.bindings 0 =
          Store.predefined.map fun p => (p.1, .plain p.2) := rfl
      rw [hb] at hv
      simp only [Store.predefined, List.map_cons, List.map_nil, List.mem_cons, Prod.mk.injEq,
        List.not_mem_nil, or_false] at hv
      rcases hv with ⟨-, rfl⟩ | ⟨-, rfl⟩ | ⟨-, rfl⟩ <;> cases hg
  have hm : m.store.FullFrom {0} := (hglobals.define "f" hfull).fullFrom subset_rfl
  have h : Eval.Valued {0} (eval .escaping 5 e (.program 0) m) :=
    eval_valued .escaping 5 he (Set.mem_singleton 0) hm
  have hrun : ∃ g o m', eval .escaping 5 e (.program 0) m = .ok (some ⟨.function g, some o⟩) m' :=
    ⟨_, _, _, rfl⟩
  obtain ⟨g, o, m', hrun⟩ := hrun
  rw [hrun] at h
  cases h with
  | value _ hv hR => exact ⟨he, hm, g, o, m', hrun, (hv g rfl).1, (hv g rfl).2, hR⟩

end ArrowScript
