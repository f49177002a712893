import Mathlib
import ArrowScript.Proofs.Renaming

/-! Names that do not occur have no say. What an evaluation can look up are the names of its
expression, and those of the functions that it gets hold of by looking such names up. Machines that
agree on these names, up to a renaming of their tables and functions, lead to outcomes that agree,
and agree on them afterwards, whatever else they have bound. -/

namespace ArrowScript

namespace Store

mutual

/-- The names that matter to an evaluation of `e` over the table `t`. -/
inductive RelevantName (s : Store) (e : SourceExpr) (t : TableId) : String → Prop
  | node {x : String} (h : e.Mentions x) : RelevantName s e t x
  | body {f : Function} {x : String} (hf : RelevantFunction s e t f) (h : f.body.Mentions x) :
      RelevantName s e t x

inductive RelevantFunction (s : Store) (e : SourceExpr) (t : TableId) : Function → Prop
  | bound {u : TableId} {x : String} {v : Traced} {f : Function} (hu : RelevantTable s e t u)
      (hx : RelevantName s e t x) (hv : s.local? u x = some v) (hf : v.value = .function f) :
      RelevantFunction s e t f

inductive RelevantTable (s : Store) (e : SourceExpr) (t : TableId) : TableId → Prop
  | here : RelevantTable s e t t
  | scope {f : Function} (hf : RelevantFunction s e t f) : RelevantTable s e t f.table
  | outer {u w : TableId} (hu : RelevantTable s e t u) (hw : w ∈ s.outer u) :
      RelevantTable s e t w

end

structure Closed (s : Store) (N : String → Prop) (L : TableId → Prop) : Prop where
  outer : ∀ {t u}, L t → u ∈ s.outer t → L u
  function : ∀ {t x v f}, L t → N x → s.local? t x = some v → v.value = .function f →
    (∀ y, f.body.Mentions y → N y) ∧ L f.table

theorem closed_relevant (s : Store) (e : SourceExpr) (t : TableId) :
    s.Closed (s.RelevantName e t) (s.RelevantTable e t) where
  outer hu hw := .outer hu hw
  function hu hx hv hf :=
    have hfun := RelevantFunction.bound hu hx hv hf
    ⟨fun _ h => .body hfun h, .scope hfun⟩

theorem Closed.of_relevantName {s : Store} {e : SourceExpr} {t : TableId} {N : String → Prop}
    {L : TableId → Prop} (h : s.Closed N L) (he : ∀ x, e.Mentions x → N x) (ht : L t) {x : String}
    (hx : s.RelevantName e t x) : N x :=
  @RelevantName.rec s e t (fun x _ => N x)
    (fun f _ => (∀ y, f.body.Mentions y → N y) ∧ L f.table) (fun u _ => L u)
    (fun hmentions => he _ hmentions) (fun _ hmentions hf => hf.1 _ hmentions)
    (fun _ _ hv hf hu hx => h.function hu hx hv hf) ht (fun _ hf => hf.2)
    (fun _ hw hu => h.outer hu hw) x hx

namespace Closed

variable {s : Store} {N : String → Prop} {L : TableId → Prop} {t : TableId}

theorem chain (h : s.Closed N L) (ht : L t) : ∀ u ∈ s.chain t, L u :=
  List.forall_mem_cons.2 ⟨ht, fun _ hu => h.outer ht hu⟩

theorem update (h : s.Closed N L) {g : Bindings → Bindings}
    (hg : ∀ {x v f}, L t → N x → (g (s.bindings t)).find? x = some v → v.value = .function f →
      (∀ y, f.body.Mentions y → N y) ∧ L f.table) : (s.update t g).Closed N L where
  outer hu hw := by
    rw [outer_update] at hw
    exact h.outer hu hw
  function {u x v f} hu hx hv hf := by
    unfold local? at hv
    by_cases hut : u = t
    · subst hut
      by_cases hlt : u < s.next
      · rw [bindings_update_self _ hlt] at hv
        exact hg hu hx hv hf
      · rw [bindings_eq_nil_of_next_le (by simpa using hlt)] at hv
        cases hv
    · rw [bindings_update_of_ne _ hut] at hv
      exact h.function hu hx hv hf

theorem define (h : s.Closed N L) (t : TableId) (x : String) {v : Traced}
    (hv : ∀ f, v.value = .function f → (∀ y, f.body.Mentions y → N y) ∧ L f.table) :
    (s.define t x v).Closed N L := by
  refine h.update fun ht hy hw hf => ?_
  rw [Bindings.find?_insert] at hw
  split at hw
  · exact hv _ (Option.some.inj hw ▸ hf)
  · exact h.function ht hy hw hf

theorem clear (h : s.Closed N L) (t : TableId) : (s.clear t).Closed N L :=
  h.update fun _ _ hw => nomatch hw

theorem addWithin (h : s.Closed N L) (ht : L t) :
    (s.addWithin t).Closed N fun u => L u ∨ u = s.next where
  outer {u w} hu hw := by
    by_cases hnext : u = s.next
    · rw [hnext, outer_addWithin_next] at hw
      exact .inl (h.chain ht w hw)
    · rw [outer_addWithin_of_ne hnext] at hw
      exact .inl (h.outer (hu.resolve_right hnext) hw)
  function {u x v f} hu hx hv hf := by
    rw [local?, bindings_addWithin] at hv
    rcases hu with hu | rfl
    · have hfun := h.function hu hx hv hf
      exact ⟨hfun.1, .inl hfun.2⟩
    · rw [bindings_eq_nil_of_next_le le_rfl] at hv
      cases hv

end Closed

end Store

/-- Machines that fit and have, in tables that stand for each other, the same values for the names
`N`, up to the renaming. Spans, frames and the order of definitions do not count. -/
structure Machine.Agrees (N : String → Prop) (ρ : Renaming) (m m' : Machine) : Prop
    extends ρ.Fits m m' where
  locals : ∀ {t u x}, ρ.tables t u → N x →
    Option.Rel (fun v v' => Value.Alike ρ v.value v'.value) (m.store.local? t x)
      (m'.store.local? u x)

namespace Machine.Agrees

variable {N : String → Prop} {ρ ρ' : Renaming} {m m' : Machine} {t u : TableId}

theorem mono_locals (h : m.Agrees N ρ m') (hρ : ρ.Le ρ') {x : String} (ht : ρ.tables t u)
    (hx : N x) : Option.Rel (fun v v' => Value.Alike ρ' v.value v'.value) (m.store.local? t x)
      (m'.store.local? u x) := by
  have hlocal := h.locals ht hx
  generalize m.store.local? t x = r at hlocal
  generalize m'.store.local? u x = r' at hlocal
  cases hlocal with
  | none => exact .none
  | some hv => exact .some (hv.mono hρ)

theorem note (h : m.Agrees N ρ m') (l l' : List Event) :
    Machine.Agrees N ρ { m with log := l } { m' with log := l' } := ⟨h.toFits.note l l', h.locals⟩

theorem update (h : m.Agrees N ρ m') {g g' : Bindings → Bindings} (ht : ρ.tables t u)
    (hg : ∀ {x}, N x → Option.Rel (fun v v' => Value.Alike ρ v.value v'.value)
      ((g (m.store.bindings t)).find? x) ((g' (m'.store.bindings u)).find? x)) :
    Machine.Agrees N ρ { m with store := m.store.update t g }
      { m' with store := m'.store.update u g' } := by
  refine ⟨h.toFits.update t u g g', fun {a b x} ha hx => ?_⟩
  unfold Store.local?
  by_cases e : a = t
  · -- a renaming is one to one, so the same table was updated on both sides
    obtain rfl : b = u := (h.eq_iff ht ha).1 e
    subst e
    rw [Store.bindings_update_self _ (h.table_lt ht).1,
      Store.bindings_update_self _ (h.table_lt ht).2]
    exact hg hx
  · have e' : b ≠ u := fun e' => e ((h.eq_iff ht ha).2 e')
    rw [Store.bindings_update_of_ne _ e, Store.bindings_update_of_ne _ e']
    exact h.locals ha hx

theorem define (h : m.Agrees N ρ m') (ht : ρ.tables t u) (x : String) {v v' : Traced}
    (hv : Value.Alike ρ v.value v'.value) :
    Machine.Agrees N ρ { m with store := m.store.define t x v }
      { m' with store := m'.store.define u x v' } := by
  refine h.update ht fun {y} hy => ?_
  rw [Bindings.find?_insert, Bindings.find?_insert]
  split
  · exact .some hv
  · exact h.locals ht hy

theorem make (h : m.Agrees N ρ m') :
    Machine.Agrees N (ρ.addFunction m.functions m'.functions)
      { m with functions := m.functions + 1 } { m' with functions := m'.functions + 1 } :=
  ⟨h.toFits.make, fun ht hx => h.mono_locals (ρ.le_addFunction _ _) ht hx⟩

theorem addWithin (h : m.Agrees N ρ m') (ht : ρ.tables t u) :
    Machine.Agrees N (ρ.addTable m.store.next m'.store.next)
      { m with store := m.store.addWithin t } { m' with store := m'.store.addWithin u } := by
  refine ⟨h.toFits.addWithin ht, ?_⟩
  rintro a b x (hab | ⟨rfl, rfl⟩) hx
  · rw [Store.local?, Store.local?, Store.bindings_addWithin, Store.bindings_addWithin]
    exact h.mono_locals (ρ.le_addTable _ _) hab hx
  · rw [Store.local?, Store.local?, Store.bindings_addWithin, Store.bindings_addWithin,
      Store.bindings_eq_nil_of_next_le le_rfl, Store.bindings_eq_nil_of_next_le le_rfl]
    exact .none

end Machine.Agrees

structure Scope where
  pairs : Renaming
  tables : TableId → Prop

namespace Scope

variable {N : String → Prop} {w w' : Scope} {m m' : Machine}

structure Le (w w' : Scope) : Prop where
  pairs : w.pairs.Le w'.pairs
  tables : ∀ {t}, w.tables t → w'.tables t

structure Functions (N : String → Prop) (w : Scope) (f f' : Function) : Prop
    extends Function.Alike w.pairs f f' where
  mentions : ∀ x, f.body.Mentions x → N x
  scope : w.tables f.table

structure Machines (N : String → Prop) (w : Scope) (m m' : Machine) : Prop where
  agrees : m.Agrees N w.pairs m'
  closed : m.store.Closed N w.tables

abbrev Values (N : String → Prop) (w : Scope) : Value → Value → Prop :=
  Value.Related (Functions N w)

theorem Functions.mono {f f' : Function} (hw : w.Le w') (h : Functions N w f f') :
    Functions N w' f f' := ⟨h.toAlike.mono hw.pairs, h.mentions, hw.tables h.scope⟩

theorem Values.alike {v v' : Value} (h : Values N w v v') : Value.Alike w.pairs v v' :=
  h.imp fun _ hf => hf.toAlike

theorem Machines.local? (h : Machines N w m m') {t u : TableId} {x : String} (hx : N x)
    (ht : w.tables t) (htu : w.pairs.tables t u) :
    Option.Rel (fun v v' => Values N w v.value v'.value) (m.store.local? t x)
      (m'.store.local? u x) := by
  have hlocal := h.agrees.locals htu hx
  cases hv : m.store.local? t x <;> cases hv' : m'.store.local? u x <;> rw [hv, hv'] at hlocal
  · exact .none
  · cases hlocal
  · cases hlocal
  · cases hlocal with
    | some hval =>
      refine .some (hval.imp fun hf halike => ?_)
      obtain ⟨hmentions, hscope⟩ := h.closed.function ht hx hv hf
      exact ⟨halike, hmentions, hscope⟩

theorem Machines.lookup? (h : Machines N w m m') {t u : TableId} {x : String} (hx : N x)
    (ht : w.tables t) (htu : w.pairs.tables t u) :
    Option.Rel (fun v v' => Values N w v.value v'.value) (m.store.lookup? t x)
      (m'.store.lookup? u x) := by
  have hchain := (List.forall₂_and_left _ _).2 ⟨h.closed.chain ht, h.agrees.chain htu⟩
  exact Store.findSome?_rel hchain fun hab => h.local? hx hab.1 hab.2

theorem Machines.define (h : Machines N w m m') {t u : TableId} (htu : w.pairs.tables t u)
    (x : String) {v v' : Traced} (hv : Values N w v.value v'.value) :
    Machines N w { m with store := m.store.define t x v }
      { m' with store := m'.store.define u x v' } := by
  refine ⟨h.agrees.define htu x hv.alike, h.closed.define t x fun f hf => ?_⟩
  generalize v'.value = value' at hv
  rw [hf] at hv
  cases hv with
  | function hfun => exact ⟨hfun.mentions, hfun.scope⟩

theorem Machines.release (h : Machines N w m m') (keep : Retention) (label label' : String)
    {t u : TableId} (htu : w.pairs.tables t u) {v v' : Option Traced}
    (hv : Option.Rel (fun v v' => Values N w v.value v'.value) v v') :
    Machines N w (Eval.release keep label t v m) (Eval.release keep label' u v' m') := by
  have halike : Option.Rel (fun v v' => Value.Alike w.pairs v.value v'.value) v v' := by
    cases hv with
    | none => exact .none
    | some hv => exact .some hv.alike
  cases keep with
  | all => exact h
  | escaping =>
    unfold Eval.release
    rw [Eval.escapes_eq h.agrees.toFits htu halike]
    dsimp only
    split
    · exact ⟨h.agrees.note _ _, h.closed⟩
    · exact ⟨h.agrees.update htu fun _ => .none, h.closed.clear t⟩

def simulation (N : String → Prop) : Simulation where
  World := Scope
  le := Le
  Label := Unit
  view _ := ()
  admits e := ∀ x, e.Mentions x → N x
  allows _ := True
  valueless := True
  frames w f f' := w.pairs.tables f.table f'.table ∧ w.tables f.table
  functions := Functions N
  traced w v v' := Values N w v.value v'.value
  machines := Machines N
  diagnostics d d' := d.kind = d'.kind ∧ d.message = d'.message
  stopped _ := False
  events _ _ := True
  le_refl w := ⟨.refl w.pairs, id⟩
  le_trans h h' := ⟨h.pairs.trans h'.pairs, h'.tables ∘ h.tables⟩
  frames_mono hw h := ⟨hw.pairs.tables h.1, hw.tables h.2⟩
  traced_mono hw h := h.imp fun _ hf => hf.mono hw
  name_eq h := h.name
  params_eq h := h.params
  body_eq h := h.body
  admits_body h := h.mentions
  admits_child h hc x hx := h x (hx.of_child hc)
  allows_ann _ := trivial
  lacking _ _ := trivial
  value h := h
  stamp h _ _ _ := h
  moveTo h _ := h
  fail _ _ _ _ _ := ⟨rfl, rfl⟩
  lookup {w m m' f f' s x} hx hm hf :=
    hm.lookup? (hx x ⟨.name s x, .refl, List.mem_cons_self⟩) hf.2 hf.1
  define x hm hf hv := hm.define hf.1 x hv
  events_refl _ := trivial
  events_calling _ _ := trivial
  note _ hm := ⟨hm.agrees.note _ _, hm.closed⟩
  make {w m m' f f' b b'} _ _ hm hf hb hadmits := by
    have hle := w.pairs.le_addFunction m.functions m'.functions
    refine ⟨⟨w.pairs.addFunction m.functions m'.functions, w.tables⟩, ⟨hle, id⟩,
      ⟨hm.agrees.make, hm.closed⟩, ⟨.inr ⟨rfl, rfl⟩, rfl, rfl, hb, hf.1⟩, hadmits, hf.2⟩
  openTable {w m m' g g' c c' s s'} hm hg _ _ _ := by
    have hle := w.pairs.le_addTable m.store.next m'.store.next
    exact ⟨⟨w.pairs.addTable m.store.next m'.store.next, fun u => w.tables u ∨ u = m.store.next⟩,
      ⟨hle, .inl⟩, ⟨hm.agrees.addWithin hg.table, hm.closed.addWithin hg.scope⟩,
      .inr ⟨rfl, rfl⟩, .inr rfl⟩

theorem eval_simulates_scope (keep : Retention) (fuel : Nat) :
    (simulation N).Simulates (eval keep fuel) (eval keep fuel) := by
  refine Simulation.simulates_eval keep (fun _ => id) ?_ fuel
  exact fun hm hf hv => hm.release keep _ _ hf.1 hv

end Scope

inductive Eval.Agrees (N : String → Prop) (ρ : Renaming) :
    EStateM.Result Halt Machine (Option Traced) →
    EStateM.Result Halt Machine (Option Traced) → Prop where
  | value {v v' m m'} (hv : Value.Alike ρ v.value v'.value) (hm : Machine.Agrees N ρ m m') :
      Agrees N ρ (.ok (some v) m) (.ok (some v') m')
  | nothing {m m'} (hm : Machine.Agrees N ρ m m') : Agrees N ρ (.ok none m) (.ok none m')
  | failed {d d' m m'} (hkind : d.kind = d'.kind) (hmessage : d.message = d'.message)
      (hm : Machine.Agrees N ρ m m') : Agrees N ρ (.error (.failed d) m) (.error (.failed d') m')
  | exhausted {m m'} (hm : Machine.Agrees N ρ m m') :
      Agrees N ρ (.error .exhausted m) (.error .exhausted m')

namespace Eval.Agrees

variable {N : String → Prop} {r r' : EStateM.Result Halt Machine (Option Traced)}

theorem of_matches {w : Scope}
    (h : (Scope.simulation N).Matches w (Scope.simulation N).Results r r') :
    ∃ ρ', w.pairs.Le ρ' ∧ Eval.Agrees N ρ' r r' := by
  cases h with
  | @ok w' a b m m' hw hm hq =>
    cases hq with
    | none => exact ⟨w'.pairs, hw.pairs, .nothing hm.agrees⟩
    | some hv => exact ⟨w'.pairs, hw.pairs, .value hv.traced.alike hm.agrees⟩
  | @failed w' d d' m m' hw hm hd => exact ⟨w'.pairs, hw.pairs, .failed hd.1 hd.2 hm.agrees⟩
  | @exhausted w' m m' hw hm => exact ⟨w'.pairs, hw.pairs, .exhausted hm.agrees⟩
  | stopped h => exact h.elim

theorem exhausted_iff {ρ : Renaming} (h : Eval.Agrees N ρ r r') :
    (∃ m, r = .error .exhausted m) ↔ ∃ m', r' = .error .exhausted m' := by
  cases h <;> simp

end Eval.Agrees

/-- Only the names that are relevant to an evaluation have a say in it. From machines that agree on
them, expressions that differ in spans at most either both come to an end or both do not, and their
outcomes agree, in machines that again agree on these names. -/
theorem eval_agrees (keep : Retention) {ρ : Renaming} {e e' : SourceExpr} {f f' : Frame}
    {m m' : Machine} (he : e.erase = e'.erase) (hf : ρ.tables f.table f'.table)
    (hm : Machine.Agrees (m.store.RelevantName e f.table) ρ m m') :
    (Eval.Ends keep e f m ↔ Eval.Ends keep e' f' m') ∧
    ∀ fuel, ∃ ρ', ρ.Le ρ' ∧ Eval.Agrees (m.store.RelevantName e f.table) ρ'
      (eval keep fuel e f m) (eval keep fuel e' f' m') := by
  -- the names are fixed from here on; the tables grow with each call
  let w : Scope := ⟨ρ, m.store.RelevantTable e f.table⟩
  have hclosed := m.store.closed_relevant e f.table
  have key (fuel : Nat) : ∃ ρ', ρ.Le ρ' ∧ Eval.Agrees (m.store.RelevantName e f.table) ρ'
      (eval keep fuel e f m) (eval keep fuel e' f' m') := by
    have halike : (Scope.simulation (m.store.RelevantName e f.table)).Alike e e' :=
      ⟨he, fun x hx => .node hx⟩
    have hframes : w.pairs.tables f.table f'.table ∧ w.tables f.table := ⟨hf, .here⟩
    exact Eval.Agrees.of_matches
      (Scope.eval_simulates_scope keep fuel halike hframes m m' ⟨hm, hclosed⟩)
  refine ⟨exists_congr fun fuel => ?_, key⟩
  obtain ⟨ρ', -, h⟩ := key fuel
  rw [← not_exists, ← not_exists, h.exhausted_iff]

theorem eval_agrees_unrelated :
    let ρ : Renaming := ⟨fun t u => t = 0 ∧ u = 0, fun a b => a = 0 ∧ b = 1⟩
    let s : Span := .empty (.start ⟨"a", ""⟩)
    let e : SourceExpr := .call s (.name s "f") [.name s "true"]
    let f (serial : Nat) : Traced :=
      .plain (.function ⟨serial, "f", ["x"], .name s "y", 0⟩)
    let y : Traced := .plain (.text "y")
    let m : Machine := ⟨((Store.empty.addGlobals.define 0 "f" (f 0)).define 0 "y" y).define 0 "z" y,
      1, []⟩
    let m' : Machine := ⟨((Store.empty.addGlobals.erase 0 "nil").define 0 "y" y).define 0 "f" (f 1),
      2, []⟩
    Machine.Agrees (m.store.RelevantName e 0) ρ m m' ∧
      ∃ ρ', ρ.Le ρ' ∧ Eval.Agrees (m.store.RelevantName e 0) ρ'
        (eval .escaping 5 e (.program 0) m) (eval .escaping 5 e (.program 0) m') := by
  intro ρ s e f y m m'
  have hnames : ∀ x, m.store.RelevantName e 0 x → x = "f" ∨ x = "true" ∨ x = "y" := by
    have hclosed : m.store.Closed (fun x => x = "f" ∨ x = "true" ∨ x = "y") (· = 0) := by
      refine ⟨?_, ?_⟩
      · rintro t u rfl hu
        cases hu
      · rintro t x v g rfl (rfl | rfl | rfl) hv hg
        · obtain rfl : f 0 = v := Option.some.inj hv
          cases hg
          exact ⟨fun y hy => .inr (.inr hy.of_name), rfl⟩
        · obtain rfl : Traced.plain (.ofBool true) = v := Option.some.inj hv
          cases hg
        · obtain rfl : y = v := Option.some.inj hv
          cases hg
    have he : ∀ x, e.Mentions x → x = "f" ∨ x = "true" ∨ x = "y" := by
      intro x hx
      rcases hx.cases with hx | ⟨c, hc, hx⟩
      · cases hx
      · rcases List.mem_cons.1 hc with rfl | hc
        · exact .inl hx.of_name
        · rw [List.mem_singleton.1 hc] at hx
          exact .inr (.inl hx.of_name)
    exact fun x hx => hclosed.of_relevantName he rfl hx
  have hm : Machine.Agrees (m.store.RelevantName e 0) ρ m m' := by
    refine ⟨⟨⟨?_, ?_⟩, ⟨?_, ?_⟩, ?_, ?_, ?_⟩, ?_⟩
    · rintro a b c ⟨rfl, rfl⟩ ⟨rfl, -⟩
      rfl
    · rintro a b c ⟨rfl, rfl⟩ ⟨-, rfl⟩
      rfl
    · rintro a b c ⟨rfl, rfl⟩ ⟨rfl, -⟩
      rfl
    · rintro a b c ⟨rfl, rfl⟩ ⟨-, rfl⟩
      rfl
    · rintro t u ⟨rfl, rfl⟩
      decide
    · rintro a b ⟨rfl, rfl⟩
      decide
    · rintro t u ⟨rfl, rfl⟩
      exact .nil
    · rintro t u x ⟨rfl, rfl⟩ hx
      rcases hnames x hx with rfl | rfl | rfl
      · exact .some (.function ⟨⟨rfl, rfl⟩, rfl, rfl, rfl, rfl, rfl⟩)
      · exact .some (.number _)
      · exact .some (.text _)
  have hf : ρ.tables (Frame.program 0).table (Frame.program 0).table := ⟨rfl, rfl⟩
  have he : e.erase = e.erase := rfl
  exact ⟨hm, (eval_agrees .escaping he hf hm).2 5⟩

end ArrowScript
