import Mathlib
import ArrowScript.Session
import ArrowScript.Proofs.Lockstep

/-! The release of the tables of finished calls. A call that ends keeps its table when it returns
a function that lies within the table, and empties it otherwise. That goes unnoticed, by a whole
session, as long as no call empties a table to which the function that it returns still leads by
another way, through the bindings of a table that some inner call has left behind. -/

namespace ArrowScript

namespace Store

def Leads (s : Store) (t u : TableId) : Prop :=
  u ∈ s.outer t ∨ ∃ x v f, (x, v) ∈ s.bindings t ∧ v.value = .function f ∧ f.table = u

def Reaches (s : Store) : TableId → TableId → Prop := Relation.ReflTransGen s.Leads

end Store

namespace Eval

/-- A call ends with a function that still leads to bindings of its table `t` but does not lie
within it, so that the table is emptied all the same. -/
def Severs (s : Store) (t : TableId) (result : Option Traced) : Prop :=
  ∃ v f, result = some v ∧ v.value = .function f ∧ s.isWithin f.table t = false ∧
    s.bindings t ≠ [] ∧ s.Reaches f.table t

noncomputable instance (s : Store) (t : TableId) (result : Option Traced) :
    Decidable (Severs s t result) :=
  match h : result with
  | none => isFalse fun ⟨_, _, h, _⟩ => nomatch h
  | some ⟨.number _, _⟩ => isFalse fun ⟨_, _, h, hf, _⟩ => by cases h; cases hf
  | some ⟨.text _, _⟩ => isFalse fun ⟨_, _, h, hf, _⟩ => by cases h; cases hf
  | some ⟨.function f, _⟩ =>
    if hin : s.isWithin f.table t then
      isFalse fun ⟨_, _, h, hf, hn, _⟩ => by cases h; cases hf; rw [hin] at hn; cases hn
    else Classical.propDecidable _

noncomputable def watching (ev : Evaluator) : Evaluator := fun body frame m =>
  match ev body frame m with
  | .ok v m' =>
    if Severs m'.store frame.table v then
      .error .exhausted { m' with log := .keeping frame.label :: m'.log }
    else .ok v m'
  | .error h m' => .error h m'

/-- Evaluation that keeps all tables, up to the first call that severs its result. -/
noncomputable def watched : Nat → Evaluator
  | 0 => fun _ _ => throw .exhausted
  | fuel + 1 => nodeVia .all fuel (watched fuel) (watching (watched fuel))

def Noted (m : Machine) : Prop := m.log.any (fun e => e matches .keeping _)

instance (m : Machine) : Decidable (Noted m) := inferInstanceAs (Decidable (_ = true))

theorem watching_confined {ev : Evaluator} (hev : ev.Confined) : (watching ev).Confined := by
  intro e frame m
  have h := hev e frame m
  unfold watching
  cases hr : ev e frame m with
  | error x m' =>
    rw [hr] at h
    exact h
  | ok v m' =>
    rw [hr] at h
    dsimp only
    split_ifs <;> exact h

theorem watched_confined (fuel : Nat) : (watched fuel).Confined := by
  induction fuel with
  | zero => exact fun _ _ => .throw _
  | succ fuel ih => exact nodeVia_confined ih (watching_confined ih) .all fuel

end Eval

/-- Two machines that have the same in the tables of `L`, which nothing in them leads out of. -/
structure Machine.Shared (L : Set TableId) (m m' : Machine) : Prop where
  functions_eq : m.functions = m'.functions
  next_eq : m.store.next = m'.store.next
  lt : ∀ {t}, t ∈ L → t < m'.store.next
  outer_eq : ∀ {t}, t ∈ L → m.store.outer t = m'.store.outer t
  bindings_eq : ∀ {t}, t ∈ L → m.store.bindings t = m'.store.bindings t
  closed : ∀ {t u}, t ∈ L → m'.store.Leads t u → u ∈ L

def Traced.Within (L : Set TableId) (v : Traced) : Prop :=
  ∀ f, v.value = .function f → f.table ∈ L

namespace Machine.Shared

variable {L L' : Set TableId} {m m' m'' : Machine} {t u : TableId}

theorem chain_subset (h : Shared L m m') (ht : t ∈ L) : ∀ u ∈ m'.store.chain t, u ∈ L := by
  intro u hu
  rcases List.mem_cons.mp hu with rfl | hu
  · exact ht
  · exact h.closed ht (.inl hu)

theorem chain_eq (h : Shared L m m') (ht : t ∈ L) : m.store.chain t = m'.store.chain t := by
  rw [Store.chain, Store.chain, h.outer_eq ht]

theorem within_of_mem (h : Shared L m m') (ht : t ∈ L) {x : String} {v : Traced}
    (hv : (x, v) ∈ m'.store.bindings t) : v.Within L :=
  fun f hf => h.closed ht (.inr ⟨x, v, f, hv, hf, rfl⟩)

theorem lookup?_eq (h : Shared L m m') (ht : t ∈ L) (x : String) :
    m.store.lookup? t x = m'.store.lookup? t x := by
  unfold Store.lookup?
  rw [h.chain_eq ht]
  have hc := h.chain_subset ht
  generalize m'.store.chain t = c at hc
  induction c with
  | nil => rfl
  | cons u c ih =>
    have hu : m.store.local? u x = m'.store.local? u x := by
      rw [Store.local?, Store.local?, h.bindings_eq (hc u List.mem_cons_self)]
    simp only [List.findSome?_cons, hu, ih fun w hw => hc w (List.mem_cons_of_mem _ hw)]

theorem lookup?_within (h : Shared L m m') (ht : t ∈ L) {x : String} {v : Traced}
    (hv : m'.store.lookup? t x = some v) : v.Within L := by
  obtain ⟨u, hu, hx⟩ := List.exists_of_findSome?_eq_some hv
  exact h.within_of_mem (h.chain_subset ht u hu) (Bindings.mem_of_find? hx)

theorem reaches (h : Shared L m m') (ht : t ∈ L) (hr : m'.store.Reaches t u) : u ∈ L := by
  induction hr with
  | refl => exact ht
  | tail _ hl ih => exact h.closed ih hl

theorem trans (h : Shared L m m'') (h' : Shared L' m' m'') : Shared (L ∩ L') m m' where
  functions_eq := h.functions_eq.trans h'.functions_eq.symm
  next_eq := h.next_eq.trans h'.next_eq.symm
  lt ht := h'.next_eq ▸ h.lt ht.1
  outer_eq ht := (h.outer_eq ht.1).trans (h'.outer_eq ht.2).symm
  bindings_eq ht := (h.bindings_eq ht.1).trans (h'.bindings_eq ht.2).symm
  closed {t u} ht hl := by
    have hl' : m''.store.Leads t u := by
      unfold Store.Leads at hl ⊢
      rwa [← h'.outer_eq ht.2, ← h'.bindings_eq ht.2]
    exact ⟨h.closed ht.1 hl', h'.closed ht.2 hl'⟩

theorem right_self (h : Shared L m m') : Shared L m' m' :=
  ⟨rfl, rfl, h.lt, fun _ => rfl, fun _ => rfl, h.closed⟩

theorem note (h : Shared L m m') (l l' : List Event) :
    Shared L { m with log := l } { m' with log := l' } :=
  ⟨h.functions_eq, h.next_eq, h.lt, h.outer_eq, h.bindings_eq, h.closed⟩

theorem define (h : Shared L m m') (ht : t ∈ L) (x : String) {v : Traced} (hv : v.Within L) :
    Shared L { m with store := m.store.define t x v }
      { m' with store := m'.store.define t x v } where
  functions_eq := h.functions_eq
  next_eq := by simpa [Store.define] using h.next_eq
  lt hu := by simpa [Store.define] using h.lt hu
  outer_eq hu := by simpa [Store.define] using h.outer_eq hu
  bindings_eq {u} hu := by
    by_cases e : u = t
    · subst e
      have hlt := h.lt hu
      simp only [Store.define, Store.bindings_update_self _ hlt,
        Store.bindings_update_self _ (h.next_eq ▸ hlt), h.bindings_eq hu]
    · simp only [Store.define, Store.bindings_update_of_ne _ e, h.bindings_eq hu]
  closed {u w} hu hl := by
    rcases hl with hl | ⟨y, z, f, hmem, hz, rfl⟩
    · simp only [Store.define, Store.outer_update] at hl
      exact h.closed hu (.inl hl)
    · by_cases e : u = t
      · subst e
        simp only [Store.define, Store.bindings_update_self _ (h.lt hu)] at hmem
        rcases Bindings.mem_insert hmem with rfl | hmem
        · exact hv f hz
        · exact h.within_of_mem hu hmem f hz
      · simp only [Store.define, Store.bindings_update_of_ne _ e] at hmem
        exact h.within_of_mem hu hmem f hz

theorem addWithin (h : Shared L m m') (ht : t ∈ L) :
    Shared (insert m'.store.next L) { m with store := m.store.addWithin t }
      { m' with store := m'.store.addWithin t } where
  functions_eq := h.functions_eq
  next_eq := by simp [h.next_eq]
  lt {u} hu := by
    rw [Store.next_addWithin]
    rcases hu with rfl | hu
    · exact Nat.lt_succ_self _
    · exact Nat.lt_succ_of_lt (h.lt hu)
  outer_eq {u} hu := by
    rcases hu with rfl | hu
    · rw [Store.outer_addWithin_next, ← h.next_eq, Store.outer_addWithin_next, h.chain_eq ht]
    · have hne := (h.lt hu).ne
      rw [Store.outer_addWithin_of_ne hne, Store.outer_addWithin_of_ne (h.next_eq ▸ hne)]
      exact h.outer_eq hu
  bindings_eq {u} hu := by
    rcases hu with rfl | hu
    · simp [Store.bindings_eq_nil_of_next_le h.next_eq.le,
        Store.bindings_eq_nil_of_next_le le_rfl]
    · simpa using h.bindings_eq hu
  closed {u w} hu hl := by
    rcases hu with rfl | hu
    · rcases hl with hl | ⟨y, z, f, hmem, hz, rfl⟩
      · rw [Store.outer_addWithin_next] at hl
        exact .inr (h.chain_subset ht w hl)
      · simp [Store.bindings_eq_nil_of_next_le le_rfl] at hmem
    · refine .inr (h.closed hu ?_)
      unfold Store.Leads at hl
      rwa [Store.outer_addWithin_of_ne (h.lt hu).ne, Store.bindings_addWithin] at hl

theorem restrict (h : Shared L m m') (hL : L' ⊆ L)
    (hclosed : ∀ {t u}, t ∈ L' → m'.store.Leads t u → u ∈ L') : Shared L' m m' where
  functions_eq := h.functions_eq
  next_eq := h.next_eq
  lt ht := h.lt (hL ht)
  outer_eq ht := h.outer_eq (hL ht)
  bindings_eq ht := h.bindings_eq (hL ht)
  closed := hclosed

theorem clear (h : Shared L m m') (ht : t ∈ L → m'.store.bindings t = []) :
    Shared L { m with store := m.store.clear t } m' where
  functions_eq := h.functions_eq
  next_eq := by simpa [Store.clear] using h.next_eq
  lt := h.lt
  outer_eq hu := by simpa [Store.clear] using h.outer_eq hu
  bindings_eq {u} hu := by
    by_cases e : u = t
    · subst e
      rw [ht hu, Store.clear, Store.bindings_update_self _ (h.next_eq ▸ h.lt hu)]
    · rw [Store.clear, Store.bindings_update_of_ne _ e, h.bindings_eq hu]
  closed := h.closed

theorem escapes_eq (h : Shared L m m') {result : Option Traced}
    (hresult : ∀ v ∈ result, v.Within L) :
    Eval.escapes m.store t result = Eval.escapes m'.store t result := by
  cases result with
  | none => rfl
  | some v =>
    cases hv : v.value with
    | number n => simp [Eval.escapes, hv, Value.function?]
    | text x => simp [Eval.escapes, hv, Value.function?]
    | function f =>
      simp only [Eval.escapes, hv, Value.function?, Store.isWithin,
        h.chain_eq (hresult v rfl f hv)]

theorem leave {n n' : Machine} {L₂ : Set TableId} {result : Option Traced} (keep : Retention)
    (label : String) (h : Shared L m m') (ht : t = m'.store.next)
    (hkept : m'.store.Evolves t [] n'.store) (h₂ : Shared L₂ n n') (hL : L ⊆ L₂)
    (hresult : ∀ v ∈ result, v.Within L₂) (hsev : ¬Eval.Severs n'.store t result) :
    ∃ L₃, L ⊆ L₃ ∧ Shared L₃ (Eval.release keep label t result n) n' ∧
      ∀ v ∈ result, v.Within L₃ := by
  cases keep with
  | all => exact ⟨L₂, hL, h₂, hresult⟩
  | escaping =>
    have hesc := h₂.escapes_eq (t := t) hresult
    unfold Eval.release
    dsimp only
    by_cases he : Eval.escapes n.store t result
    · rw [if_pos he]
      exact ⟨L₂, hL, h₂.note _ _, hresult⟩
    rw [if_neg he]
    by_cases hempty : n'.store.bindings t = []
    · exact ⟨L₂, hL, h₂.clear fun _ => hempty, hresult⟩
    -- Only what was shared before and what the result leads to can be kept: the table itself is
    -- new, so it is none of the former, and the call does not sever its result, so it is none of
    -- the latter.
    let R : Set TableId :=
      {u | ∃ v f, result = some v ∧ v.value = .function f ∧ n'.store.Reaches f.table u}
    have hR : R ⊆ L₂ := by
      rintro u ⟨v, f, hv, hf, hr⟩
      exact h₂.reaches (hresult v hv f hf) hr
    have htL : t ∉ L := fun h' => (h.lt h').ne ht
    have htR : t ∉ R := by
      rintro ⟨v, f, hv, hf, hr⟩
      refine hsev ⟨v, f, hv, hf, ?_, hempty, hr⟩
      rw [hesc, hv] at he
      simpa [Eval.escapes, hf, Value.function?] using he
    have hclosed : ∀ {u w}, u ∈ L ∪ R → n'.store.Leads u w → w ∈ L ∪ R := by
      rintro u w (hu | ⟨v, f, hv, hf, hr⟩) hl
      · refine .inl (h.closed hu ?_)
        unfold Store.Leads at hl ⊢
        rwa [hkept.outer_eq u (h.lt hu),
          hkept.bindings_eq u (h.lt hu) (fun e => htL (e ▸ hu))] at hl
      · exact .inr ⟨v, f, hv, hf, hr.tail hl⟩
    refine ⟨L ∪ R, Set.subset_union_left, ?_, ?_⟩
    · have h₃ : Shared (L ∪ R) n n' := h₂.restrict (Set.union_subset hL hR) hclosed
      exact h₃.clear fun h' => (h'.elim htL htR).elim
    · intro v hv f hf
      exact .inr ⟨v, f, hv, hf, .refl⟩

end Machine.Shared

def Machine.Shared.simulation : Simulation where
  World := Set TableId
  le := (· ⊆ ·)
  Label := Span
  view := id
  admits _ := True
  allows _ := True
  valueless := True
  frames L f f' := f = f' ∧ f.table ∈ L
  functions L f f' := f = f' ∧ f.table ∈ L
  traced L v v' := v = v' ∧ v.Within L
  machines := Machine.Shared
  diagnostics := Eq
  stopped := Eval.Noted
  events _ _ := True
  le_refl _ := subset_rfl
  le_trans := Set.Subset.trans
  frames_mono hL h := ⟨h.1, hL h.2⟩
  traced_mono hL h := ⟨h.1, fun f hf => hL (h.2 f hf)⟩
  name_eq h := h.1 ▸ rfl
  params_eq h := h.1 ▸ rfl
  body_eq h := h.1 ▸ rfl
  admits_body _ := trivial
  admits_child _ _ := trivial
  allows_ann _ := trivial
  lacking _ _ := trivial
  value {L v v'} h := by
    obtain ⟨rfl, hv⟩ := h
    cases hval : v.value with
    | number n => exact .number n
    | text x => exact .text x
    | function f => exact .function ⟨rfl, hv f hval⟩
  stamp {L v v' s s' f f'} hv hs _ hf := by
    obtain ⟨rfl, -⟩ := hf
    obtain rfl : s = s' := hs
    cases hv with
    | number n => exact ⟨rfl, fun _ h => nomatch h⟩
    | text x => exact ⟨rfl, fun _ h => nomatch h⟩
    | function h =>
      obtain ⟨rfl, hL⟩ := h
      exact ⟨rfl, fun g hg => by cases hg; exact hL⟩
  moveTo hv hf := ⟨by rw [hv.1, hf.1], hv.2⟩
  fail x hs _ _ hf := by
    obtain ⟨rfl, -⟩ := hf
    exact congrArg (Diagnostic.ofFailure x · _) hs
  lookup {L m m' f f' s x} _ hm hf := by
    obtain ⟨rfl, ht⟩ := hf
    rw [hm.lookup?_eq ht]
    cases hv : m'.store.lookup? f.table x with
    | none => exact .none
    | some v => exact .some ⟨rfl, hm.lookup?_within ht hv⟩
  define {L m m' f f' v v'} x hm hf hv := by
    obtain ⟨rfl, ht⟩ := hf
    obtain ⟨rfl, hv⟩ := hv
    exact hm.define ht x hv
  events_refl _ := trivial
  events_calling _ _ := trivial
  note _ hm := hm.note _ _
  make {L m m' f f' b b'} name params hm hf hb _ := by
    obtain ⟨rfl, ht⟩ := hf
    rw [Expr.map_id, Expr.map_id] at hb
    obtain rfl := hb
    refine ⟨L, subset_rfl, ?_, ?_, ht⟩
    · exact ⟨congrArg (· + 1) hm.functions_eq, hm.next_eq, hm.lt, hm.outer_eq, hm.bindings_eq,
        hm.closed⟩
    · rw [hm.functions_eq]
  openTable {L m m' f f' c c' s s'} hm hg hc hs _ := by
    obtain ⟨rfl, ht⟩ := hg
    obtain ⟨rfl, -⟩ := hc
    obtain rfl : s = s' := hs
    refine ⟨_, Set.subset_insert _ _, hm.addWithin ht, ?_, ?_⟩
    · rw [hm.next_eq]
    · exact .inl hm.next_eq

namespace Eval

open Machine.Shared

theorem not_severs_none {s : Store} {t : TableId} : ¬Severs s t none :=
  fun ⟨_, _, h, _⟩ => nomatch h

theorem results_eq {L : Set TableId} {a b : Option Traced} (h : simulation.Results L a b) :
    a = b ∧ ∀ v ∈ a, v.Within L := by
  cases h with
  | none => exact ⟨rfl, fun _ h => nomatch h⟩
  | some h =>
    refine ⟨congrArg some h.traced.1, fun v hv => ?_⟩
    cases hv
    exact h.traced.2

theorem results_of_within {L L' : Set TableId} {a b : Option Traced} (h : simulation.Results L a b)
    (hwithin : ∀ v ∈ a, v.Within L') : simulation.Results L' a b := by
  cases h with
  | none => exact .none trivial
  | some h => exact .some ⟨⟨h.traced.1, hwithin _ rfl⟩, h.origin⟩

/-- Whatever is released, evaluation keeps in step with the one that keeps all tables, until that
one comes to a call that severs its result. -/
theorem simulates_watched (keep : Retention) (fuel : Nat) :
    simulation.Simulates (eval keep fuel) (watched fuel) := by
  induction fuel with
  | zero => exact fun _ _ => .exhausted
  | succ fuel ih =>
    rw [eval, ← nodeVia_self]
    refine Simulation.nodeVia ih ?_ fuel
    intro L s s' g g' vs vs' f f' hs hg hvs hf m m' hm
    obtain ⟨L₁, m₁, m₁', hL₁, hm₁, hf₁, he, he', -, hargs⟩ :=
      Simulation.enter_eq keep .all (eval keep fuel) (watching (watched fuel)) hs hg hvs hf hm
    have hbody := ih ⟨Simulation.body_eq _ hg, trivial⟩ hf₁ m₁ m₁' hm₁
    have hkept : m'.store.Evolves m'.store.next []
        (final (watched fuel g'.body (callFrame s' g' f' m') m₁')).store := by
      have hin := watched_confined fuel g'.body (callFrame s' g' f' m') m₁'
      exact .of_inner rfl g'.table ((hargs.mono (List.subset_append_left _ g'.body.targets)).trans
        (hin.mono (List.subset_append_right g'.params _)))
    rw [he, he']
    unfold inFrame watching
    rw [← hf₁.1] at hbody hkept ⊢
    have ht : (callFrame s g f m).table = m'.store.next := hm.next_eq
    generalize eval keep fuel g.body _ m₁ = r at hbody
    generalize watched fuel g'.body _ m₁' = r' at hbody hkept
    cases hbody with
    | @ok L₂ a b n n' hL₂ hn hq =>
      obtain ⟨rfl, hwithin⟩ := results_eq hq
      dsimp only
      split_ifs with hsev
      · exact .stopped (show Noted _ by simp [Noted, release])
      · obtain ⟨L₃, hL₃, hn', hwithin'⟩ := hm.leave keep (callFrame s g f m).label ht
          (ht ▸ hkept) hn (hL₁.trans hL₂) hwithin hsev
        exact .ok hL₃ hn' (results_of_within hq hwithin')
    | @failed L₂ d d' n n' hL₂ hn hd =>
      obtain ⟨L₃, hL₃, hn', -⟩ := hm.leave keep (callFrame s g f m).label ht (ht ▸ hkept) hn
        (hL₁.trans hL₂) (by simp) not_severs_none
      exact .failed hL₃ hn' hd
    | @exhausted L₂ n n' hL₂ hn =>
      obtain ⟨L₃, hL₃, hn', -⟩ := hm.leave keep (callFrame s g f m).label ht (ht ▸ hkept) hn
        (hL₁.trans hL₂) (by simp) not_severs_none
      exact .exhausted hL₃ hn'
    | stopped h => exact .stopped h

end Eval

def Source.tree? (source : Source) : Option SourceExpr :=
  let stream := TokenStream.ofSource source
  match stream.error?, (Reading.ofTokens stream.tokens).outcome with
  | none, .ok e => some e
  | _, _ => none

namespace Session

def runAllWith (keep : Retention) (fuel : Nat) (s : Session) : List Source → List Run
  | [] => []
  | source :: rest =>
    let r := s.runWith keep fuel source
    r :: runAllWith keep fuel r.session rest

theorem runAll_eq (s : Session) (sources : List Source) :
    s.runAll sources = s.runAllWith .escaping fuel sources := by
  induction sources generalizing s with
  | nil => rfl
  | cons source rest ih => exact congrArg (_ :: ·) (ih _)

def machine (s : Session) : Machine := ⟨s.store, s.functions, []⟩

/-- No call of the session severs its result when it ends, all tables being kept. -/
def Unsevered (fuel : Nat) (s : Session) : List Source → Prop
  | [] => True
  | source :: rest =>
    (∀ e ∈ source.tree?, ¬Eval.Noted (Eval.final (Eval.watched fuel e frame s.machine))) ∧
      Unsevered fuel (s.runWith .all fuel source).session rest

def outcomeOf : EStateM.Result Halt Machine (Option Traced) → Outcome
  | .ok (some v) _ => .value v
  | .ok none _ => .nothing
  | .error (.failed d) _ => .failed d
  | .error .exhausted _ => .exhausted

theorem evaluate_eq (keep : Retention) (fuel : Nat) (s : Session) (e : SourceExpr)
    (log : List Event) :
    let r := eval keep fuel e frame s.machine
    (s.evaluate keep fuel e log).outcome = outcomeOf r ∧
      (s.evaluate keep fuel e log).session =
        ⟨(Eval.final r).store, (Eval.final r).functions⟩ := by
  unfold evaluate machine
  match eval keep fuel e frame ⟨s.store, s.functions, []⟩ with
  | .ok (some v) m => exact ⟨rfl, rfl⟩
  | .ok none m => exact ⟨rfl, rfl⟩
  | .error (.failed d) m => exact ⟨rfl, rfl⟩
  | .error .exhausted m => exact ⟨rfl, rfl⟩

theorem runWith_of_tree? {source : Source} {e : SourceExpr} (h : source.tree? = some e) :
    ∃ log, ∀ (keep : Retention) (fuel : Nat) (s : Session),
      s.runWith keep fuel source = s.evaluate keep fuel e log := by
  unfold Source.tree? at h
  cases herr : (TokenStream.ofSource source).error? with
  | some x => simp [herr] at h
  | none =>
    cases hout : (Reading.ofTokens (TokenStream.ofSource source).tokens).outcome with
    | error f => simp [herr, hout] at h
    | ok e' =>
      simp only [herr, hout, Option.some.injEq] at h
      subst h
      exact ⟨_, fun keep fuel s => by unfold runWith; simp only [herr, hout]; rfl⟩

theorem runWith_of_tree?_none {source : Source} (h : source.tree? = none) :
    ∃ d, ∀ (keep : Retention) (fuel : Nat) (s : Session),
      (s.runWith keep fuel source).outcome = .failed d ∧
        (s.runWith keep fuel source).session = s := by
  unfold Source.tree? at h
  cases herr : (TokenStream.ofSource source).error? with
  | some x => exact ⟨_, fun keep fuel s => by unfold runWith; simp only [herr]; exact ⟨rfl, rfl⟩⟩
  | none =>
    cases hout : (Reading.ofTokens (TokenStream.ofSource source).tokens).outcome with
    | error f =>
      exact ⟨_, fun keep fuel s => by unfold runWith; simp only [herr, hout]; exact ⟨rfl, rfl⟩⟩
    | ok e => simp [herr, hout] at h

theorem outcomeOf_eq_watched (keep : Retention) (fuel : Nat) (e : SourceExpr) {L : Set TableId}
    {m m' : Machine} (h : Machine.Shared L m m') (hL : frame.table ∈ L)
    (hnote : ¬Eval.Noted (Eval.final (Eval.watched fuel e frame m'))) :
    outcomeOf (eval keep fuel e frame m) = outcomeOf (Eval.watched fuel e frame m') ∧
      ∃ L', frame.table ∈ L' ∧ Machine.Shared L' (Eval.final (eval keep fuel e frame m))
        (Eval.final (Eval.watched fuel e frame m')) := by
  have hrun := Eval.simulates_watched keep fuel (e := e) ⟨rfl, trivial⟩ (f := frame) ⟨rfl, hL⟩
    m m' h
  generalize eval keep fuel e frame m = r at hrun ⊢
  generalize Eval.watched fuel e frame m' = r' at hrun hnote ⊢
  cases hrun with
  | @ok L' a b n n' hL' hn hq =>
    obtain ⟨rfl, -⟩ := Eval.results_eq hq
    exact ⟨by cases a <;> rfl, L', hL' hL, hn⟩
  | @failed L' d d' n n' hL' hn hd => exact ⟨congrArg Outcome.failed hd, L', hL' hL, hn⟩
  | @exhausted L' n n' hL' hn => exact ⟨rfl, L', hL' hL, hn⟩
  | stopped hstop => exact absurd hstop hnote

theorem outcomes_eq (fuel : Nat) {s s' : Session} (sources : List Source) {L : Set TableId}
    (h : Machine.Shared L s.machine s'.machine) (hL : frame.table ∈ L)
    (hsev : s'.Unsevered fuel sources) :
    (s.runAllWith .escaping fuel sources).map Run.outcome =
      (s'.runAllWith .all fuel sources).map Run.outcome := by
  induction sources generalizing s s' L with
  | nil => rfl
  | cons source rest ih =>
    obtain ⟨hnote, hrest⟩ := hsev
    simp only [runAllWith, List.map_cons]
    cases htree : source.tree? with
    | none =>
      obtain ⟨d, hd⟩ := runWith_of_tree?_none htree
      rw [(hd .all fuel s').2] at hrest
      rw [(hd .escaping fuel s).1, (hd .escaping fuel s).2, (hd .all fuel s').1,
        (hd .all fuel s').2, ih h hL hrest]
    | some e =>
      obtain ⟨log, hlog⟩ := runWith_of_tree? htree
      obtain ⟨ho, hs⟩ := evaluate_eq .escaping fuel s e log
      obtain ⟨ho', hs'⟩ := evaluate_eq .all fuel s' e log
      obtain ⟨hout, L₁, hL₁, hm₁⟩ :=
        outcomeOf_eq_watched .escaping fuel e h hL (hnote e htree)
      obtain ⟨hout', L₂, hL₂, hm₂⟩ :=
        outcomeOf_eq_watched .all fuel e h.right_self hL (hnote e htree)
      have hnext : Machine.Shared (L₁ ∩ L₂) (s.evaluate .escaping fuel e log).session.machine
          (s'.evaluate .all fuel e log).session.machine := by
        rw [hs, hs']
        exact (hm₁.trans hm₂).note [] []
      rw [hlog .all fuel s'] at hrest
      rw [hlog .escaping fuel s, hlog .all fuel s', ho, ho', hout, hout',
        ih hnext ⟨hL₁, hL₂⟩ hrest]

theorem shared_start : Machine.Shared {frame.table} start.machine start.machine where
  functions_eq := rfl
  next_eq := rfl
  lt ht := by
    rw [Set.mem_singleton_iff.mp ht]
    decide
  outer_eq _ := rfl
  bindings_eq _ := rfl
  closed {t u} ht hl := by
    obtain rfl := Set.mem_singleton_iff.mp ht
    rcases hl with hl | ⟨x, v, f, hmem, hv, -⟩
    · cases hl
    · have hnone : ∀ b ∈ start.machine.store.bindings frame.table, b.2.value.function? = none := by
        decide
      have := hnone _ hmem
      rw [hv] at this
      cases this

end Session

namespace Eval

theorem severs_iff (m : Machine) (t : TableId) (result : Option Traced) (label : String) :
    Severs m.store t result ↔
      ∃ v f u, result = some v ∧ v.value = .function f ∧ m.store.Reaches f.table u ∧
        (release .escaping label t result m).store.bindings u ≠
          (release .all label t result m).store.bindings u := by
  constructor
  · rintro ⟨v, f, rfl, hf, hin, hne, hr⟩
    refine ⟨v, f, t, rfl, hf, hr, ?_⟩
    have hlt : t < m.store.next := by
      by_contra hle
      exact hne (Store.bindings_eq_nil_of_next_le (not_lt.mp hle))
    have hesc : escapes m.store t (some v) = false := by simp [escapes, hf, Value.function?, hin]
    simp only [release, hesc, Bool.false_eq_true, if_false, Store.clear,
      Store.bindings_update_self _ hlt]
    exact hne.symm
  · rintro ⟨v, f, u, rfl, hf, hr, hdiff⟩
    have hesc : escapes m.store t (some v) = m.store.isWithin f.table t := by
      simp [escapes, hf, Value.function?]
    simp only [release, hesc] at hdiff
    cases hin : m.store.isWithin f.table t with
    | true => simp [hin] at hdiff
    | false =>
      simp only [hin, Bool.false_eq_true, if_false, Store.clear] at hdiff
      by_cases hu : u = t
      · subst hu
        refine ⟨v, f, rfl, hf, hin, ?_, hr⟩
        intro hnil
        by_cases hlt : u < m.store.next
        · exact hdiff (by rw [Store.bindings_update_self _ hlt, hnil])
        · refine hdiff ?_
          rw [hnil, Store.bindings_eq_nil_of_next_le (by simpa using hlt)]
      · exact absurd (Store.bindings_update_of_ne _ hu) hdiff

end Eval

/-- Releasing the tables of finished calls changes no outcome of a session in which no call severs
its result; and a call severs its result exactly when releasing its table takes away bindings that
the result still leads to. -/
theorem outcomes_eq_of_unsevered (fuel : Nat) (sources : List Source) :
    (Session.start.Unsevered fuel sources →
      (Session.start.runAllWith .escaping fuel sources).map Run.outcome =
        (Session.start.runAllWith .all fuel sources).map Run.outcome) ∧
    (Session.start.Unsevered Session.fuel sources →
      (Session.start.runAll sources).map Run.outcome =
        (Session.start.runAllWith .all Session.fuel sources).map Run.outcome) ∧
    ∀ (m : Machine) (t : TableId) (result : Option Traced) (label : String),
      Eval.Severs m.store t result ↔
        ∃ v f u, result = some v ∧ v.value = .function f ∧ m.store.Reaches f.table u ∧
          (Eval.release .escaping label t result m).store.bindings u ≠
            (Eval.release .all label t result m).store.bindings u := by
  refine ⟨Session.outcomes_eq fuel sources Session.shared_start rfl, fun h => ?_, Eval.severs_iff⟩
  rw [Session.runAll_eq]
  exact Session.outcomes_eq _ sources Session.shared_start rfl h

theorem outcomes_eq_returned :
    let sources : List Source :=
      [⟨"a", "fn adder(x) -> fn (y) -> x + y"⟩, ⟨"b", "set inc = adder(1)"⟩, ⟨"c", "inc(2)"⟩]
    Session.start.Unsevered 20 sources ∧
      (Session.start.runAllWith .escaping 20 sources).map Run.outcome =
        (Session.start.runAllWith .all 20 sources).map Run.outcome := by
  intro sources
  have h : Session.start.Unsevered 20 sources :=
    ⟨by decide +kernel, by decide +kernel, by decide +kernel, trivial⟩
  exact ⟨h, (outcomes_eq_of_unsevered 20 sources).1 h⟩

def Outcome.message? : Outcome → Option String
  | .failed d => some d.message
  | _ => none

/-- A function of the call of `f` is passed to `wrap` and comes back inside another function. The
table of the call is emptied when the call ends, so the function no longer finds `a`. -/
theorem outcomes_ne_wrapped :
    let sources : List Source :=
      [⟨"a", "fn wrap(k) -> fn () -> k()"⟩, ⟨"b", "fn f(a) -> wrap(fn () -> a)"⟩,
        ⟨"c", "set c = f(1)"⟩, ⟨"d", "c()"⟩]
    (Session.start.runAllWith .escaping 20 sources).map (·.outcome.message?) =
        [none, none, none, some "a is not defined"] ∧
      (Session.start.runAllWith .escaping 20 sources).map Run.outcome ≠
        (Session.start.runAllWith .all 20 sources).map Run.outcome := by
  intro sources
  have h : (Session.start.runAllWith .escaping 20 sources).map (·.outcome.message?) =
      [none, none, none, some "a is not defined"] := by decide +kernel
  have h' : (Session.start.runAllWith .all 20 sources).map (·.outcome.message?) =
      [none, none, none, none] := by decide +kernel
  refine ⟨h, fun heq => ?_⟩
  have hmap := congrArg (List.map Outcome.message?) heq
  simp only [List.map_map, Function.comp_def] at hmap
  rw [h, h'] at hmap
  cases hmap

end ArrowScript
