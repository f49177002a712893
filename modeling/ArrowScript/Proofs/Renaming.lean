import Mathlib
import ArrowScript.Proofs.Lockstep

/-! Positions, sources and the call stack have no say in what a program computes. Two machines are
alike under a renaming of their tables and functions when what they store differs in spans and
frames at most; evaluating expressions that differ in spans at most, in frames that work in
corresponding tables, leads from alike machines to alike outcomes. -/

namespace ArrowScript

/-- Which tables and which functions of two machines stand for each other. -/
structure Renaming where
  tables : TableId → TableId → Prop
  functions : Nat → Nat → Prop

namespace Renaming

structure Le (ρ ρ' : Renaming) : Prop where
  tables : ∀ {t u}, ρ.tables t u → ρ'.tables t u
  functions : ∀ {a b}, ρ.functions a b → ρ'.functions a b

theorem Le.refl (ρ : Renaming) : Le ρ ρ := ⟨id, id⟩

theorem Le.trans {ρ₁ ρ₂ ρ₃ : Renaming} (h : Le ρ₁ ρ₂) (h' : Le ρ₂ ρ₃) : Le ρ₁ ρ₃ :=
  ⟨h'.tables ∘ h.tables, h'.functions ∘ h.functions⟩

def addTable (ρ : Renaming) (t u : TableId) : Renaming :=
  ⟨fun a b => ρ.tables a b ∨ (a = t ∧ b = u), ρ.functions⟩

def addFunction (ρ : Renaming) (a b : Nat) : Renaming :=
  ⟨ρ.tables, fun c d => ρ.functions c d ∨ (c = a ∧ d = b)⟩

theorem le_addTable (ρ : Renaming) (t u : TableId) : ρ.Le (ρ.addTable t u) := ⟨.inl, id⟩

theorem le_addFunction (ρ : Renaming) (a b : Nat) : ρ.Le (ρ.addFunction a b) := ⟨id, .inl⟩

theorem biUnique_or_next {r : Nat → Nat → Prop} {n n' : Nat} (h : Relator.BiUnique r)
    (hlt : ∀ {a b}, r a b → a < n ∧ b < n') :
    Relator.BiUnique fun a b => r a b ∨ (a = n ∧ b = n') := by
  refine ⟨?_, ?_⟩
  · rintro a b c (hab | ⟨rfl, rfl⟩) (hcb | ⟨rfl, hb⟩)
    · exact h.1 hab hcb
    · exact absurd hb (hlt hab).2.ne
    · exact absurd rfl (hlt hcb).2.ne
    · rfl
  · rintro a b c (hab | ⟨rfl, rfl⟩) (hac | ⟨ha, rfl⟩)
    · exact h.2 hab hac
    · exact absurd ha (hlt hab).1.ne
    · exact absurd rfl (hlt hac).1.ne
    · rfl

structure Fits (ρ : Renaming) (m m' : Machine) : Prop where
  tables_unique : Relator.BiUnique ρ.tables
  functions_unique : Relator.BiUnique ρ.functions
  table_lt : ∀ {t u}, ρ.tables t u → t < m.store.next ∧ u < m'.store.next
  function_lt : ∀ {a b}, ρ.functions a b → a < m.functions ∧ b < m'.functions
  outer : ∀ {t u}, ρ.tables t u → List.Forall₂ ρ.tables (m.store.outer t) (m'.store.outer u)

namespace Fits

variable {ρ : Renaming} {m m' : Machine} {t u : TableId}

theorem chain (h : ρ.Fits m m') (ht : ρ.tables t u) :
    List.Forall₂ ρ.tables (m.store.chain t) (m'.store.chain u) := .cons ht (h.outer ht)

theorem isWithin_eq (h : ρ.Fits m m') {f f' : TableId} (hf : ρ.tables f f')
    (ht : ρ.tables t u) : m.store.isWithin f t = m'.store.isWithin f' u := by
  have hc := h.chain hf
  unfold Store.isWithin
  generalize m.store.chain f = c at hc
  generalize m'.store.chain f' = c' at hc
  induction hc with
  | nil => rfl
  | @cons a a' _ _ ha _ ih =>
    have heq : t = a ↔ u = a' :=
      ⟨fun e => h.tables_unique.2 ht (e ▸ ha), fun e => h.tables_unique.1 ht (e ▸ ha)⟩
    have hb : (t == a) = (u == a') := by
      rw [Bool.eq_iff_iff]
      simpa using heq
    simp only [List.contains_cons, ih, hb]

theorem note (h : ρ.Fits m m') (l l' : List Event) :
    ρ.Fits { m with log := l } { m' with log := l' } :=
  ⟨h.tables_unique, h.functions_unique, h.table_lt, h.function_lt, h.outer⟩

theorem update (h : ρ.Fits m m') (t u : TableId) (g g' : Bindings → Bindings) :
    ρ.Fits { m with store := m.store.update t g } { m' with store := m'.store.update u g' } where
  tables_unique := h.tables_unique
  functions_unique := h.functions_unique
  table_lt ha := by simpa using h.table_lt ha
  function_lt := h.function_lt
  outer ha := by simpa using h.outer ha

theorem eq_iff (h : ρ.Fits m m') {a b : TableId} (ht : ρ.tables t u) (ha : ρ.tables a b) :
    a = t ↔ b = u :=
  ⟨fun e => h.tables_unique.2 ha (e ▸ ht), fun e => h.tables_unique.1 ha (e ▸ ht)⟩

theorem make (h : ρ.Fits m m') :
    (ρ.addFunction m.functions m'.functions).Fits { m with functions := m.functions + 1 }
      { m' with functions := m'.functions + 1 } where
  tables_unique := h.tables_unique
  functions_unique := biUnique_or_next h.functions_unique h.function_lt
  table_lt := h.table_lt
  function_lt := by
    rintro a b (hab | ⟨rfl, rfl⟩)
    · exact ⟨Nat.lt_succ_of_lt (h.function_lt hab).1, Nat.lt_succ_of_lt (h.function_lt hab).2⟩
    · exact ⟨Nat.lt_succ_self _, Nat.lt_succ_self _⟩
  outer := h.outer

theorem addWithin (h : ρ.Fits m m') (ht : ρ.tables t u) :
    (ρ.addTable m.store.next m'.store.next).Fits { m with store := m.store.addWithin t }
      { m' with store := m'.store.addWithin u } where
  tables_unique := biUnique_or_next h.tables_unique h.table_lt
  functions_unique := h.functions_unique
  table_lt := by
    rintro a b (hab | ⟨rfl, rfl⟩)
    · simp only [Store.next_addWithin]
      exact ⟨Nat.lt_succ_of_lt (h.table_lt hab).1, Nat.lt_succ_of_lt (h.table_lt hab).2⟩
    · simp
  function_lt := h.function_lt
  outer := by
    rintro a b (hab | ⟨rfl, rfl⟩)
    · rw [Store.outer_addWithin_of_ne (h.table_lt hab).1.ne,
        Store.outer_addWithin_of_ne (h.table_lt hab).2.ne]
      exact (h.outer hab).imp fun _ _ => .inl
    · rw [Store.outer_addWithin_next, Store.outer_addWithin_next]
      exact (h.chain ht).imp fun _ _ => .inl

end Fits

end Renaming

structure Function.Alike (ρ : Renaming) (f f' : Function) : Prop where
  serial : ρ.functions f.serial f'.serial
  name : f.name = f'.name
  params : f.params = f'.params
  body : f.body.erase = f'.body.erase
  table : ρ.tables f.table f'.table

abbrev Value.Alike (ρ : Renaming) : Value → Value → Prop := Value.Related (Function.Alike ρ)

abbrev Bindings.Alike (ρ : Renaming) : Bindings → Bindings → Prop :=
  List.Forall₂ fun b b' => b.1 = b'.1 ∧ Value.Alike ρ b.2.value b'.2.value

/-- Machines whose tables, as far as the renaming goes, form the same graph. The renaming is
one-to-one, and it goes as far as anything leads that it names. -/
structure Machine.Alike (ρ : Renaming) (m m' : Machine) : Prop where
  tables_unique : Relator.BiUnique ρ.tables
  functions_unique : Relator.BiUnique ρ.functions
  table_lt : ∀ {t u}, ρ.tables t u → t < m.store.next ∧ u < m'.store.next
  function_lt : ∀ {a b}, ρ.functions a b → a < m.functions ∧ b < m'.functions
  outer : ∀ {t u}, ρ.tables t u → List.Forall₂ ρ.tables (m.store.outer t) (m'.store.outer u)
  bindings : ∀ {t u}, ρ.tables t u → Bindings.Alike ρ (m.store.bindings t) (m'.store.bindings u)

namespace Function.Alike

theorem mono {ρ ρ' : Renaming} {f f' : Function} (hρ : ρ.Le ρ') (h : Alike ρ f f') :
    Alike ρ' f f' := ⟨hρ.functions h.serial, h.name, h.params, h.body, hρ.tables h.table⟩

end Function.Alike

theorem Value.Alike.mono {ρ ρ' : Renaming} {v v' : Value} (hρ : ρ.Le ρ') (h : Value.Alike ρ v v') :
    Value.Alike ρ' v v' := h.imp fun _ h => h.mono hρ

namespace Bindings.Alike

variable {ρ ρ' : Renaming} {b b' : Bindings}

theorem mono (hρ : ρ.Le ρ') (h : Bindings.Alike ρ b b') : Bindings.Alike ρ' b b' :=
  h.imp fun _ _ hv => ⟨hv.1, Value.Alike.mono hρ hv.2⟩

theorem find? (x : String) (h : Bindings.Alike ρ b b') :
    Option.Rel (fun v v' => Value.Alike ρ v.value v'.value) (b.find? x) (b'.find? x) := by
  induction h with
  | nil => exact .none
  | cons hv _ ih =>
    simp only [Bindings.find?, ← hv.1]
    split
    · exact .some hv.2
    · exact ih

theorem insert (x : String) {v v' : Traced} (hv : Value.Alike ρ v.value v'.value)
    (h : Bindings.Alike ρ b b') : Bindings.Alike ρ (b.insert x v) (b'.insert x v') := by
  induction h with
  | nil => exact .cons ⟨rfl, hv⟩ .nil
  | cons hw h ih =>
    simp only [Bindings.insert, ← hw.1]
    split
    · exact .cons ⟨rfl, hv⟩ h
    · exact .cons ⟨rfl, hw.2⟩ ih

end Bindings.Alike

theorem Store.findSome?_rel {R : TableId → TableId → Prop} {V : Traced → Traced → Prop}
    {s s' : Store} {x : String} {c c' : List TableId} (hc : List.Forall₂ R c c')
    (hlocal : ∀ {t u}, R t u → Option.Rel V (s.local? t x) (s'.local? u x)) :
    Option.Rel V (c.findSome? fun u => s.local? u x) (c'.findSome? fun u => s'.local? u x) := by
  induction hc with
  | nil => exact .none
  | @cons a a' _ _ ha _ ih =>
    have hx := hlocal ha
    simp only [List.findSome?_cons]
    generalize s.local? a x = r at hx
    generalize s'.local? a' x = r' at hx
    cases hx with
    | none => exact ih
    | some hv => exact .some hv

namespace Machine.Alike

variable {ρ : Renaming} {m m' : Machine} {t u : TableId}

theorem fits (h : Machine.Alike ρ m m') : ρ.Fits m m' :=
  ⟨h.tables_unique, h.functions_unique, h.table_lt, h.function_lt, h.outer⟩

theorem of_fits (h : ρ.Fits m m') (hb : ∀ {t u}, ρ.tables t u →
    Bindings.Alike ρ (m.store.bindings t) (m'.store.bindings u)) : Machine.Alike ρ m m' :=
  ⟨h.tables_unique, h.functions_unique, h.table_lt, h.function_lt, h.outer, hb⟩

theorem lookup? (h : Machine.Alike ρ m m') (ht : ρ.tables t u) (x : String) :
    Option.Rel (fun v v' => Value.Alike ρ v.value v'.value) (m.store.lookup? t x)
      (m'.store.lookup? u x) :=
  Store.findSome?_rel (h.fits.chain ht) fun ha => (h.bindings ha).find? x

theorem update {g g' : Bindings → Bindings} (h : Machine.Alike ρ m m') (ht : ρ.tables t u)
    (hg : ∀ {b b'}, Bindings.Alike ρ b b' → Bindings.Alike ρ (g b) (g' b')) :
    Machine.Alike ρ { m with store := m.store.update t g }
      { m' with store := m'.store.update u g' } := by
  refine of_fits (h.fits.update t u g g') fun {a b} ha => ?_
  by_cases e : a = t
  · obtain rfl : b = u := (h.fits.eq_iff ht ha).1 e
    subst e
    rw [Store.bindings_update_self _ (h.table_lt ht).1,
      Store.bindings_update_self _ (h.table_lt ht).2]
    exact hg (h.bindings ha)
  · have e' : b ≠ u := fun e' => e ((h.fits.eq_iff ht ha).2 e')
    rw [Store.bindings_update_of_ne _ e, Store.bindings_update_of_ne _ e']
    exact h.bindings ha

theorem make (h : Machine.Alike ρ m m') :
    Machine.Alike (ρ.addFunction m.functions m'.functions)
      { m with functions := m.functions + 1 } { m' with functions := m'.functions + 1 } :=
  of_fits h.fits.make fun ht => (h.bindings ht).mono (ρ.le_addFunction _ _)

theorem addWithin (h : Machine.Alike ρ m m') (ht : ρ.tables t u) :
    Machine.Alike (ρ.addTable m.store.next m'.store.next)
      { m with store := m.store.addWithin t } { m' with store := m'.store.addWithin u } := by
  refine of_fits (h.fits.addWithin ht) ?_
  rintro a b (hab | ⟨rfl, rfl⟩)
  · simpa using (h.bindings hab).mono (ρ.le_addTable _ _)
  · simp [Store.bindings_eq_nil_of_next_le le_rfl]

end Machine.Alike

def Renaming.simulation : Simulation where
  World := Renaming
  le := Renaming.Le
  Label := Unit
  view _ := ()
  admits _ := True
  allows _ := True
  valueless := True
  frames ρ f f' := ρ.tables f.table f'.table
  functions := Function.Alike
  traced ρ v v' := Value.Alike ρ v.value v'.value
  machines := Machine.Alike
  diagnostics d d' := d.kind = d'.kind ∧ d.message = d'.message
  stopped _ := False
  events _ _ := True
  le_refl := .refl
  le_trans := .trans
  frames_mono hρ := hρ.tables
  traced_mono hρ := Value.Alike.mono hρ
  name_eq h := h.name
  params_eq h := h.params
  body_eq h := h.body
  admits_body _ := trivial
  admits_child _ _ := trivial
  allows_ann _ := trivial
  lacking _ _ := trivial
  value h := h
  stamp h _ _ _ := h
  moveTo h _ := h
  fail _ _ _ _ _ := ⟨rfl, rfl⟩
  lookup _ hm hf := hm.lookup? hf _
  define x hm hf hv := hm.update hf fun hb => hb.insert x hv
  events_refl _ := trivial
  events_calling _ _ := trivial
  note _ hm := .of_fits (hm.fits.note _ _) hm.bindings
  make _ _ hm hf hb _ :=
    ⟨_, Renaming.le_addFunction _ _ _, hm.make, .inr ⟨rfl, rfl⟩, rfl, rfl, hb, hf⟩
  openTable hm hg _ _ _ :=
    ⟨_, Renaming.le_addTable _ _ _, hm.addWithin hg.table, .inr ⟨rfl, rfl⟩⟩

namespace Eval

variable {ρ : Renaming} {m m' : Machine} {t u : TableId}

theorem escapes_eq (hm : ρ.Fits m m') (ht : ρ.tables t u) {v v' : Option Traced}
    (hv : Option.Rel (fun v v' => Value.Alike ρ v.value v'.value) v v') :
    escapes m.store t v = escapes m'.store u v' := by
  cases hv with
  | none => rfl
  | @some a a' hv =>
    have hf := Value.Related.function? hv
    simp only [escapes]
    generalize a.value.function? = g at hf
    generalize a'.value.function? = g' at hf
    cases hf with
    | none => rfl
    | some hf => exact hm.isWithin_eq hf.table ht

theorem release_alike (keep : Retention) (label label' : String) (hm : Machine.Alike ρ m m')
    (ht : ρ.tables t u) {v v' : Option Traced}
    (hv : Option.Rel (fun v v' => Value.Alike ρ v.value v'.value) v v') :
    Machine.Alike ρ (release keep label t v m) (release keep label' u v' m') := by
  cases keep with
  | all => exact hm
  | escaping =>
    unfold release
    rw [escapes_eq hm.fits ht hv]
    dsimp only
    split
    · exact .of_fits (hm.fits.note _ _) hm.bindings
    · exact hm.update ht fun _ => .nil

end Eval

theorem eval_simulates (keep : Retention) (fuel : Nat) {ρ : Renaming} {e e' : SourceExpr}
    {f f' : Frame} (he : e.erase = e'.erase) (hf : ρ.tables f.table f'.table) :
    Renaming.simulation.Lockstep ρ Renaming.simulation.Results (eval keep fuel e f)
      (eval keep fuel e' f') := by
  have hsim : Renaming.simulation.Simulates (eval keep fuel) (eval keep fuel) :=
    Simulation.simulates_eval keep (fun _ => id)
      (fun hm hf hv => Eval.release_alike keep _ _ hm hf hv) fuel
  exact hsim ⟨he, trivial⟩ hf

inductive Eval.Alike (ρ : Renaming) : EStateM.Result Halt Machine (Option Traced) →
    EStateM.Result Halt Machine (Option Traced) → Prop where
  | value {v v' m m'} (hv : Value.Alike ρ v.value v'.value) (hm : Machine.Alike ρ m m') :
      Alike ρ (.ok (some v) m) (.ok (some v') m')
  | nothing {m m'} (hm : Machine.Alike ρ m m') : Alike ρ (.ok none m) (.ok none m')
  | failed {d d' m m'} (hkind : d.kind = d'.kind) (hmessage : d.message = d'.message)
      (hm : Machine.Alike ρ m m') : Alike ρ (.error (.failed d) m) (.error (.failed d') m')
  | exhausted {m m'} (hm : Machine.Alike ρ m m') :
      Alike ρ (.error .exhausted m) (.error .exhausted m')

def Eval.Ends (keep : Retention) (e : SourceExpr) (frame : Frame) (m : Machine) : Prop :=
  ∃ fuel, ∀ m', eval keep fuel e frame m ≠ .error .exhausted m'

namespace Eval.Alike

variable {ρ : Renaming} {r r' : EStateM.Result Halt Machine (Option Traced)}

theorem of_matches (h : Renaming.simulation.Matches ρ Renaming.simulation.Results r r') :
    ∃ ρ', ρ.Le ρ' ∧ Eval.Alike ρ' r r' := by
  cases h with
  | @ok ρ' a b m m' hρ hm hq =>
    cases hq with
    | none => exact ⟨ρ', hρ, .nothing hm⟩
    | some hv => exact ⟨ρ', hρ, .value hv.traced hm⟩
  | @failed ρ' d d' m m' hρ hm hd => exact ⟨ρ', hρ, .failed hd.1 hd.2 hm⟩
  | @exhausted ρ' m m' hρ hm => exact ⟨ρ', hρ, .exhausted hm⟩
  | stopped h => exact h.elim

theorem exhausted_iff (h : Eval.Alike ρ r r') :
    (∃ m, r = .error .exhausted m) ↔ ∃ m', r' = .error .exhausted m' := by
  cases h <;> simp

end Eval.Alike

/-- What an evaluation computes depends neither on spans nor on the frame beyond its table: from
machines that are alike, expressions that differ in spans at most either both come to an end or
both do not, and they end alike, in machines that are alike again. -/
theorem eval_alike (keep : Retention) {ρ : Renaming} {e e' : SourceExpr} {f f' : Frame}
    {m m' : Machine} (he : e.erase = e'.erase) (hf : ρ.tables f.table f'.table)
    (hm : Machine.Alike ρ m m') :
    (Eval.Ends keep e f m ↔ Eval.Ends keep e' f' m') ∧
    ∀ fuel, ∃ ρ', ρ.Le ρ' ∧ Eval.Alike ρ' (eval keep fuel e f m) (eval keep fuel e' f' m') := by
  have key (fuel : Nat) :
      ∃ ρ', ρ.Le ρ' ∧ Eval.Alike ρ' (eval keep fuel e f m) (eval keep fuel e' f' m') :=
    Eval.Alike.of_matches (eval_simulates keep fuel he hf m m' hm)
  refine ⟨exists_congr fun fuel => ?_, key⟩
  obtain ⟨ρ', -, h⟩ := key fuel
  rw [← not_exists, ← not_exists, h.exhausted_iff]

theorem eval_alike_elsewhere :
    let ρ : Renaming := ⟨fun t u => t = 0 ∧ u = 1, fun _ _ => False⟩
    let s : Span := .empty (.start ⟨"a", ""⟩)
    let s' : Span := .empty (.start ⟨"b", "\n"⟩)
    let e (s : Span) : SourceExpr :=
      .call s (.function s (some "f") ["x"] (.name s "x")) [.name s "true"]
    let m : Machine := ⟨Store.empty.addGlobals, 0, []⟩
    let m' : Machine := ⟨Store.empty.addRoot.addGlobals, 0, []⟩
    (e s).erase = (e s').erase ∧ Machine.Alike ρ m m' ∧
      ∃ ρ', ρ.Le ρ' ∧ Eval.Alike ρ' (eval .escaping 5 (e s) (.program 0) m)
        (eval .escaping 5 (e s') (.call "g" s.start (.program 0) 1) m') := by
  intro ρ s s' e m m'
  have he : (e s).erase = (e s').erase := rfl
  have hm : Machine.Alike ρ m m' := by
    refine ⟨⟨?_, ?_⟩, ⟨?_, ?_⟩, ?_, ?_, ?_, ?_⟩
    · rintro a b c ⟨rfl, rfl⟩ ⟨rfl, _⟩
      rfl
    · rintro a b c ⟨rfl, rfl⟩ ⟨_, rfl⟩
      rfl
    · rintro a b c h
      exact h.elim
    · rintro a b c h
      exact h.elim
    · rintro t u ⟨rfl, rfl⟩
      decide
    · rintro a b h
      exact h.elim
    · rintro t u ⟨rfl, rfl⟩
      exact .nil
    · rintro t u ⟨rfl, rfl⟩
      exact .cons ⟨rfl, .number _⟩ (.cons ⟨rfl, .number _⟩ (.cons ⟨rfl, .number _⟩ .nil))
  have hf : ρ.tables (Frame.program 0).table (Frame.call "g" s.start (.program 0) 1).table :=
    ⟨rfl, rfl⟩
  exact ⟨he, hm, (eval_alike .escaping he hf hm).2 5⟩

end ArrowScript
