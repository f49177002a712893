import Mathlib
import ArrowScript.Proofs.Store

/-! Tables and their history. What a store holds after any operations on a growing forest of tables
can be told from the operations alone: which value a name has in a table, in which order the names
of a table are listed, and in which tables a name is looked up. -/

namespace ArrowScript

inductive TableOp where
  | new
  | globals
  | child (outer : TableId)
  | set (t : TableId) (x : String) (v : Traced)
  | get (t : TableId) (x : String)
  | remove (t : TableId) (x : String)
  | has (t : TableId) (x : String)
  | clear (t : TableId)
  | within (t u : TableId)
  | names (t : TableId)

inductive TableEvent where
  | made (outer? : Option TableId)
  | set (t : TableId) (x : String) (v : Traced)
  | remove (t : TableId) (x : String)
  | clear (t : TableId)

namespace TableOp

def tables : TableOp → List TableId
  | new | globals => []
  | child p => [p]
  | set t _ _ | get t _ | remove t _ | has t _ | clear t | names t => [t]
  | within t u => [t, u]

def made : TableOp → Nat
  | new | globals | child _ => 1
  | _ => 0

def target? : TableOp → Option TableId
  | set t _ _ | remove t _ | clear t => some t
  | _ => none

/-- The store after an operation. Those that only ask leave it as it is: their answers are `lookup?`,
`local?`, `isWithin` and the names of the bindings, and a removal answers with `local?`. -/
def apply (s : Store) : TableOp → Store
  | new => s.addRoot
  | globals => s.addGlobals
  | child p => s.addWithin p
  | set t x v => s.define t x v
  | remove t x => s.erase t x
  | clear t => s.clear t
  | get .. | has .. | within .. | names _ => s

def events (n : Nat) : TableOp → List TableEvent
  | new => [.made none]
  | globals => .made none :: Store.predefined.map fun (x, v) => .set n x (.plain v)
  | child p => [.made (some p)]
  | set t x v => [.set t x v]
  | remove t x => [.remove t x]
  | clear t => [.clear t]
  | get .. | has .. | within .. | names _ => []

def Scoped : Nat → List TableOp → Prop
  | _, [] => True
  | n, op :: ops => (∀ t ∈ op.tables, t < n) ∧ Scoped (n + op.made) ops

def eventsFrom : Nat → List TableOp → List TableEvent
  | _, [] => []
  | n, op :: ops => op.events n ++ eventsFrom (n + op.made) ops

end TableOp

structure TableHistory where
  ops : List TableOp
  inScope : TableOp.Scoped 0 ops

namespace TableHistory

def store (h : TableHistory) : Store := h.ops.foldl TableOp.apply .empty

def events (h : TableHistory) : List TableEvent := TableOp.eventsFrom 0 h.ops

end TableHistory

namespace TableEvent

variable {es before after : List TableEvent} {e f : TableEvent} {t u p : TableId} {x : String}
  {v : Traced} {n : Nat}

def isMade : TableEvent → Bool
  | made _ => true
  | _ => false

def Voids (t : TableId) (x : String) : TableEvent → Prop
  | remove u y => u = t ∧ y = x
  | clear u => u = t
  | _ => False

def Spares (t : TableId) (x : String) (e : TableEvent) : Prop :=
  ¬ e.Voids t x ∧ ∀ v, e ≠ set t x v

def LastSet (es : List TableEvent) (t : TableId) (x : String) (v : Traced) : Prop :=
  ∃ before after, es = before ++ set t x v :: after ∧ ∀ e ∈ after, e.Spares t x

/-- The event with the number `n` is the first set of `x` in `t` since `x` was last removed. -/
def FirstSet (es : List TableEvent) (t : TableId) (x : String) (n : Nat) : Prop :=
  ∃ before v after, es = before ++ set t x v :: after ∧ before.length = n ∧
    (∀ e ∈ after, ¬ e.Voids t x) ∧
    ∀ earlier w later, before = earlier ++ set t x w :: later → ∃ e ∈ later, e.Voids t x

/-- The table `t` was made within `p?`, or as a root. Tables are numbered as they are made. -/
def Parent (es : List TableEvent) (t : TableId) (p? : Option TableId) : Prop :=
  ∃ before after, es = before ++ made p? :: after ∧ before.countP isMade = t

inductive Chain (es : List TableEvent) : TableId → List TableId → Prop
  | root {t : TableId} (h : Parent es t none) : Chain es t [t]
  | within {t p : TableId} {us : List TableId} (h : Parent es t (some p)) (hp : Chain es p us) :
      Chain es t (t :: us)

theorem concat_eq_split :
    es ++ [e] = before ++ f :: after ↔
      (after = [] ∧ es = before ∧ e = f) ∨
        ∃ after', after = after' ++ [e] ∧ es = before ++ f :: after' := by
  constructor
  · intro h
    rcases List.eq_nil_or_concat after with rfl | ⟨after', g, rfl⟩
    · obtain ⟨hes, he⟩ := List.append_inj' h rfl
      exact .inl ⟨rfl, hes, List.singleton_inj.1 he⟩
    · rw [List.concat_eq_append, ← List.cons_append, ← List.append_assoc] at h
      obtain ⟨hes, he⟩ := List.append_inj' h rfl
      rw [← List.singleton_inj.1 he]
      exact .inr ⟨after', List.concat_eq_append, hes⟩
  · rintro (⟨rfl, rfl, rfl⟩ | ⟨after', rfl, rfl⟩)
    · rfl
    · simp

theorem lastSet_concat : LastSet (es ++ [e]) t x v ↔
    e = set t x v ∨ e.Spares t x ∧ LastSet es t x v := by
  constructor
  · rintro ⟨before, after, heq, hafter⟩
    rcases concat_eq_split.1 heq with ⟨rfl, rfl, rfl⟩ | ⟨after', rfl, rfl⟩
    · exact .inl rfl
    · rw [List.forall_mem_append, List.forall_mem_singleton] at hafter
      exact .inr ⟨hafter.2, before, after', rfl, hafter.1⟩
  · rintro (rfl | ⟨hspares, before, after, rfl, hafter⟩)
    · exact ⟨es, [], rfl, by simp⟩
    · refine ⟨before, after ++ [e], by simp, ?_⟩
      rw [List.forall_mem_append, List.forall_mem_singleton]
      exact ⟨hafter, hspares⟩

theorem exists_firstSet (h : es = before ++ set t x v :: after)
    (hafter : ∀ e ∈ after, ¬ e.Voids t x) : ∃ n, FirstSet es t x n := by
  -- by induction on what stands before: either the set is the first, or there is an earlier one
  induction hn : before.length using Nat.strong_induction_on generalizing before v after with
  | _ n ih =>
    by_cases hfirst : ∀ earlier w later, before = earlier ++ set t x w :: later →
        ∃ e ∈ later, e.Voids t x
    · exact ⟨_, before, v, after, h, rfl, hafter, hfirst⟩
    · push Not at hfirst
      obtain ⟨earlier, w, later, rfl, hlater⟩ := hfirst
      refine ih earlier.length ?_ (by rw [h, List.append_assoc, List.cons_append]) ?_ rfl
      · rw [← hn, List.length_append, List.length_cons]
        omega
      · rw [List.forall_mem_append, List.forall_mem_cons]
        exact ⟨hlater, id, hafter⟩

theorem firstSet_concat : FirstSet (es ++ [e]) t x n ↔
    (∃ v, e = set t x v) ∧ n = es.length ∧ (∀ m, ¬ FirstSet es t x m) ∨
      ¬ e.Voids t x ∧ FirstSet es t x n := by
  constructor
  · rintro ⟨before, v, after, heq, rfl, hafter, hfirst⟩
    rcases concat_eq_split.1 heq with ⟨rfl, rfl, rfl⟩ | ⟨after', rfl, rfl⟩
    · refine .inl ⟨⟨v, rfl⟩, rfl, ?_⟩
      rintro m ⟨before, w, after, rfl, -, hafter', -⟩
      obtain ⟨e, he, hvoid⟩ := hfirst before w after rfl
      exact hafter' e he hvoid
    · rw [List.forall_mem_append, List.forall_mem_singleton] at hafter
      exact .inr ⟨hafter.2, before, v, after', rfl, rfl, hafter.1, hfirst⟩
  · rintro (⟨⟨v, rfl⟩, rfl, hnone⟩ | ⟨hvoid, before, v, after, rfl, hn, hafter, hfirst⟩)
    · refine ⟨es, v, [], rfl, rfl, by simp, fun earlier w later heq => ?_⟩
      by_contra hvoid
      push Not at hvoid
      obtain ⟨m, hm⟩ := exists_firstSet heq hvoid
      exact hnone m hm
    · refine ⟨before, v, after ++ [e], by simp, hn, ?_, hfirst⟩
      rw [List.forall_mem_append, List.forall_mem_singleton]
      exact ⟨hafter, hvoid⟩

theorem FirstSet.lt_length (h : FirstSet es t x n) : n < es.length := by
  obtain ⟨before, v, after, rfl, rfl, -, -⟩ := h
  rw [List.length_append, List.length_cons]
  omega

theorem parent_concat {p? : Option TableId} : Parent (es ++ [e]) t p? ↔
    e = made p? ∧ t = es.countP isMade ∨ Parent es t p? := by
  constructor
  · rintro ⟨before, after, heq, rfl⟩
    rcases concat_eq_split.1 heq with ⟨rfl, rfl, rfl⟩ | ⟨after', rfl, rfl⟩
    · exact .inl ⟨rfl, rfl⟩
    · exact .inr ⟨before, after', rfl, rfl⟩
  · rintro (⟨rfl, rfl⟩ | ⟨before, after, rfl, rfl⟩)
    · exact ⟨es, [], rfl, rfl⟩
    · exact ⟨before, after ++ [e], by simp, rfl⟩

theorem Spares.lastSet (h : e.Spares t x) : LastSet (es ++ [e]) t x v ↔ LastSet es t x v := by
  rw [lastSet_concat]
  exact ⟨fun h' => (h'.resolve_left (h.2 v)).2, fun h' => .inr ⟨h, h'⟩⟩

theorem Spares.firstSet (h : e.Spares t x) : FirstSet (es ++ [e]) t x n ↔ FirstSet es t x n := by
  rw [firstSet_concat]
  exact ⟨fun h' => (h'.resolve_left fun ⟨⟨v, hv⟩, _⟩ => h.2 v hv).2, fun h' => .inr ⟨h.1, h'⟩⟩

theorem spares_made (p? : Option TableId) (t : TableId) (x : String) : (made p?).Spares t x :=
  ⟨id, fun _ h => nomatch h⟩

end TableEvent

open TableEvent (LastSet FirstSet Parent Chain)

structure Store.Follows (es : List TableEvent) (s : Store) : Prop where
  next_eq : s.next = es.countP TableEvent.isMade
  local_iff : ∀ t x v, s.local? t x = some v ↔ LastSet es t x v
  mem_names : ∀ t x, x ∈ (s.bindings t).names ↔ ∃ n, FirstSet es t x n
  ordered : ∀ t, (s.bindings t).names.Pairwise fun x y =>
    ∀ m n, FirstSet es t x m → FirstSet es t y n → m < n
  outer_eq : ∀ {t p?}, Parent es t p? → s.outer t = p?.elim [] s.chain
  lt_of_parent : ∀ {t p}, Parent es t (some p) → p < t
  exists_parent : ∀ t < s.next, ∃ p?, Parent es t p?

namespace Store.Follows

variable {es : List TableEvent} {e : TableEvent} {s : Store} {t : TableId} {x : String}
  {v : Traced}

theorem empty : Store.empty.Follows [] where
  next_eq := rfl
  local_iff t x v := by
    simp [Store.empty, Store.local?, Store.bindings, Bindings.find?, LastSet]
  mem_names t x := by
    simp [Store.empty, Store.bindings, Bindings.names, FirstSet]
  ordered t := by
    simp [Store.empty, Store.bindings, Bindings.names]
  outer_eq h := by
    simp [Parent] at h
  lt_of_parent h := by
    simp [Parent] at h
  exists_parent t ht := absurd ht (Nat.not_lt_zero t)

theorem nodup_names (h : s.Follows es) (t : TableId) : (s.bindings t).names.Nodup := by
  refine (h.ordered t).imp_of_mem fun {x y} hx _ hlt heq => ?_
  obtain ⟨n, hn⟩ := (h.mem_names t x).1 hx
  exact Nat.lt_irrefl n (hlt n n hn (heq ▸ hn))

theorem parent_lt (h : s.Follows es) {p? : Option TableId} (hp : Parent es t p?) : t < s.next := by
  obtain ⟨before, after, rfl, rfl⟩ := hp
  rw [h.next_eq, List.countP_append, List.countP_cons_of_pos rfl]
  exact Nat.lt_add_of_pos_right (Nat.succ_pos _)

theorem update (h : s.Follows es) {g : Bindings → Bindings} (ht : t < s.next)
    (hmade : e.isMade = false) (helse : ∀ u ≠ t, ∀ y, e.Spares u y)
    (hlocal : ∀ x v, (g (s.bindings t)).find? x = some v ↔ LastSet (es ++ [e]) t x v)
    (hmem : ∀ x, x ∈ (g (s.bindings t)).names ↔ ∃ n, FirstSet (es ++ [e]) t x n)
    (hordered : (g (s.bindings t)).names.Pairwise fun x y =>
      ∀ m n, FirstSet (es ++ [e]) t x m → FirstSet (es ++ [e]) t y n → m < n) :
    (s.update t g).Follows (es ++ [e]) := by
  have hparent {u : TableId} {p? : Option TableId} (hp : Parent (es ++ [e]) u p?) :
      Parent es u p? := by
    refine (TableEvent.parent_concat.1 hp).resolve_left ?_
    rintro ⟨rfl, -⟩
    cases hmade
  -- every other table has the bindings that it had, and the event says nothing about it
  refine ⟨?_, fun u x v => ?_, fun u x => ?_, fun u => ?_, fun {u p?} hp => ?_,
    fun hp => h.lt_of_parent (hparent hp), fun u hu => ?_⟩
  · rw [next_update, h.next_eq, List.countP_append, List.countP_singleton, hmade]
    rfl
  · by_cases hu : u = t
    · subst hu
      rw [local?, bindings_update_self g ht, hlocal]
    · rw [local?, bindings_update_of_ne g hu, (helse u hu x).lastSet]
      exact h.local_iff u x v
  · by_cases hu : u = t
    · subst hu
      rw [bindings_update_self g ht, hmem]
    · simp only [bindings_update_of_ne g hu, (helse u hu x).firstSet]
      exact h.mem_names u x
  · by_cases hu : u = t
    · subst hu
      rw [bindings_update_self g ht]
      exact hordered
    · simp only [bindings_update_of_ne g hu, (helse u hu _).firstSet]
      exact h.ordered u
  · rw [outer_update, h.outer_eq (hparent hp)]
    cases p? with
    | none => rfl
    | some p => simp only [Option.elim, chain, outer_update]
  · rw [next_update] at hu
    obtain ⟨p?, hp⟩ := h.exists_parent u hu
    exact ⟨p?, TableEvent.parent_concat.2 (.inr hp)⟩

theorem set (h : s.Follows es) (ht : t < s.next) (x : String) (v : Traced) :
    (s.define t x v).Follows (es ++ [.set t x v]) := by
  have hother {y : String} (hy : x ≠ y) : (TableEvent.set t x v).Spares t y := by
    refine ⟨id, ?_⟩
    rintro w ⟨⟩
    exact hy rfl
  -- a name that is bound keeps its first set, a new one has it here
  have hbound (hx : x ∈ (s.bindings t).names) {n : Nat} :
      FirstSet (es ++ [.set t x v]) t x n ↔ FirstSet es t x n := by
    obtain ⟨m, hm⟩ := (h.mem_names t x).1 hx
    rw [TableEvent.firstSet_concat]
    exact ⟨fun h' => (h'.resolve_left fun h₁ => h₁.2.2 m hm).2, fun h' => .inr ⟨id, h'⟩⟩
  have hnew (hx : x ∉ (s.bindings t).names) {n : Nat} :
      FirstSet (es ++ [.set t x v]) t x n ↔ n = es.length := by
    have hnone : ∀ m, ¬ FirstSet es t x m := fun m hm => hx ((h.mem_names t x).2 ⟨m, hm⟩)
    rw [TableEvent.firstSet_concat]
    exact ⟨fun h' => (h'.resolve_right fun h₁ => hnone n h₁.2).2.1,
      fun h' => .inl ⟨⟨v, rfl⟩, h', hnone⟩⟩
  refine h.update ht rfl (fun u hu y => ⟨id, ?_⟩) (fun y w => ?_) (fun y => ?_) ?_
  · rintro w ⟨⟩
    exact hu rfl
  · rw [Bindings.find?_insert]
    by_cases hy : x = y
    · subst hy
      rw [if_pos rfl, TableEvent.lastSet_concat]
      constructor
      · rintro ⟨⟩
        exact .inl rfl
      · rintro (hw | ⟨hspares, -⟩)
        · cases hw
          rfl
        · exact absurd rfl (hspares.2 v)
    · rw [if_neg hy, (hother hy).lastSet]
      exact h.local_iff t y w
  · by_cases hx : x ∈ (s.bindings t).names
    · rw [Bindings.names_insert_of_mem v hx, h.mem_names]
      by_cases hy : x = y
      · subst hy
        simp only [hbound hx]
      · simp only [(hother hy).firstSet]
    · rw [Bindings.names_insert_of_not_mem v hx, List.mem_append, List.mem_singleton, h.mem_names]
      by_cases hy : x = y
      · subst hy
        simp [hnew hx]
      · simp [(hother hy).firstSet, Ne.symm hy]
  · by_cases hx : x ∈ (s.bindings t).names
    · rw [Bindings.names_insert_of_mem v hx]
      have hsame : ∀ y n, FirstSet (es ++ [.set t x v]) t y n ↔ FirstSet es t y n := by
        intro y n
        by_cases hy : x = y
        · subst hy
          exact hbound hx
        · exact (hother hy).firstSet
      simp only [hsame]
      exact h.ordered t
    · rw [Bindings.names_insert_of_not_mem v hx, List.pairwise_append]
      refine ⟨(h.ordered t).imp_of_mem fun {y z} hy hz hlt => ?_, List.pairwise_singleton _ _, ?_⟩
      · have hxy : x ≠ y := fun heq => hx (heq ▸ hy)
        have hxz : x ≠ z := fun heq => hx (heq ▸ hz)
        simpa only [(hother hxy).firstSet, (hother hxz).firstSet] using hlt
      · intro y hy z hz m n hm hn
        rw [List.mem_singleton.1 hz, hnew hx] at hn
        have hxy : x ≠ y := fun heq => hx (heq ▸ hy)
        rw [(hother hxy).firstSet] at hm
        exact hn ▸ hm.lt_length

theorem remove (h : s.Follows es) (ht : t < s.next) (x : String) :
    (s.erase t x).Follows (es ++ [.remove t x]) := by
  have hother {y : String} (hy : x ≠ y) : (TableEvent.remove t x).Spares t y :=
    ⟨fun h' => hy h'.2, fun _ h' => nomatch h'⟩
  have hgone {n : Nat} : ¬ FirstSet (es ++ [.remove t x]) t x n := by
    rw [TableEvent.firstSet_concat]
    rintro (⟨⟨v, hv⟩, -⟩ | ⟨hvoid, -⟩)
    · cases hv
    · exact hvoid ⟨rfl, rfl⟩
  have hnot : x ∉ ((s.bindings t).erase x).names := by
    rw [Bindings.names_erase]
    exact (h.nodup_names t).not_mem_erase
  refine h.update ht rfl (fun u hu y => ⟨fun h' => hu h'.1.symm, fun _ h' => nomatch h'⟩)
    (fun y w => ?_) (fun y => ?_) ?_
  · by_cases hy : x = y
    · subst hy
      rw [Bindings.find?_eq_none_iff.2 hnot, TableEvent.lastSet_concat]
      simp [TableEvent.Spares, TableEvent.Voids]
    · rw [Bindings.find?_erase_of_ne hy, (hother hy).lastSet]
      exact h.local_iff t y w
  · by_cases hy : x = y
    · subst hy
      simp [hnot, hgone]
    · rw [Bindings.names_erase, List.mem_erase_of_ne (Ne.symm hy), h.mem_names]
      simp only [(hother hy).firstSet]
  · rw [Bindings.names_erase] at hnot ⊢
    refine ((h.ordered t).sublist List.erase_sublist).imp_of_mem fun {y z} hy hz hlt => ?_
    have hxy : x ≠ y := fun heq => hnot (heq ▸ hy)
    have hxz : x ≠ z := fun heq => hnot (heq ▸ hz)
    simpa only [(hother hxy).firstSet, (hother hxz).firstSet] using hlt

theorem clear (h : s.Follows es) (ht : t < s.next) : (s.clear t).Follows (es ++ [.clear t]) := by
  refine h.update ht rfl (fun u hu y => ⟨fun h' => hu h'.symm, fun _ h' => nomatch h'⟩)
    (fun y w => ?_) (fun y => ?_) List.Pairwise.nil
  · rw [TableEvent.lastSet_concat]
    simp [Bindings.find?, TableEvent.Spares, TableEvent.Voids]
  · simp only [TableEvent.firstSet_concat]
    simp [Bindings.names, TableEvent.Voids]

theorem made (h : s.Follows es) {s' : Store} {p? : Option TableId} (hnext : s'.next = s.next + 1)
    (hbindings : ∀ u, s'.bindings u = s.bindings u)
    (houter : ∀ u ≠ s.next, s'.outer u = s.outer u)
    (hnew : s'.outer s.next = p?.elim [] s.chain) (hp : ∀ p ∈ p?, p < s.next) :
    s'.Follows (es ++ [.made p?]) := by
  have hspares := TableEvent.spares_made p?
  have hchain {p : TableId} (hlt : p < s.next) : s'.chain p = s.chain p := by
    rw [chain, chain, houter p hlt.ne]
  refine ⟨?_, fun u x v => ?_, fun u x => ?_, fun u => ?_, fun {u q?} hq => ?_, fun {u q} hq => ?_,
    fun u hu => ?_⟩
  · rw [hnext, h.next_eq, List.countP_append]
    rfl
  · rw [local?, hbindings, (hspares u x).lastSet]
    exact h.local_iff u x v
  · simp only [hbindings, (hspares u x).firstSet]
    exact h.mem_names u x
  · simp only [hbindings, (hspares u _).firstSet]
    exact h.ordered u
  · rcases TableEvent.parent_concat.1 hq with ⟨heq, rfl⟩ | hq
    · cases heq
      rw [← h.next_eq, hnew]
      cases p? with
      | none => rfl
      | some p => exact (hchain (hp p rfl)).symm
    · rw [houter u (h.parent_lt hq).ne, h.outer_eq hq]
      cases q? with
      | none => rfl
      | some q => exact (hchain ((h.lt_of_parent hq).trans (h.parent_lt hq))).symm
  · rcases TableEvent.parent_concat.1 hq with ⟨heq, rfl⟩ | hq
    · cases heq
      rw [← h.next_eq]
      exact hp q rfl
    · exact h.lt_of_parent hq
  · rw [hnext] at hu
    rcases Nat.lt_succ_iff_lt_or_eq.1 hu with hu | rfl
    · obtain ⟨q?, hq⟩ := h.exists_parent u hu
      exact ⟨q?, TableEvent.parent_concat.2 (.inr hq)⟩
    · exact ⟨p?, TableEvent.parent_concat.2 (.inl ⟨rfl, h.next_eq⟩)⟩

theorem chain_eq (h : s.Follows es) {us : List TableId} (hus : Chain es t us) :
    s.chain t = us := by
  induction hus with
  | root hp => rw [chain, h.outer_eq hp, Option.elim]
  | within hp _ ih => rw [chain, h.outer_eq hp, Option.elim, ih]

theorem chain_iff (h : s.Follows es) (ht : t < s.next) {us : List TableId} :
    Chain es t us ↔ us = s.chain t := by
  refine ⟨fun hus => (h.chain_eq hus).symm, ?_⟩
  rintro rfl
  -- a table is made within one that was made before
  induction t using Nat.strong_induction_on with
  | _ t ih =>
    obtain ⟨p?, hp⟩ := h.exists_parent t ht
    rw [chain, h.outer_eq hp]
    cases p? with
    | none => exact .root hp
    | some p =>
      have hlt := h.lt_of_parent hp
      exact .within hp (ih p hlt (hlt.trans ht))

theorem lookup?_iff (h : s.Follows es) : s.lookup? t x = some v ↔
    ∃ near u far, s.chain t = near ++ u :: far ∧ LastSet es u x v ∧
      ∀ w ∈ near, ∀ v', ¬ LastSet es w x v' := by
  unfold lookup?
  simp only [List.findSome?_eq_some_iff, h.local_iff, Option.eq_none_iff_forall_ne_some, ne_eq]

theorem op (h : s.Follows es) {op : TableOp} (hop : ∀ t ∈ op.tables, t < s.next) :
    (op.apply s).Follows (es ++ op.events s.next) := by
  have hroot : s.addRoot.Follows (es ++ [.made none]) := by
    refine h.made (next_addRoot s) (bindings_addRoot s) (fun u _ => outer_addRoot s u) ?_ (by simp)
    rw [outer_addRoot, outer_eq_nil_of_next_le le_rfl]
    rfl
  cases op with
  | new => exact hroot
  | globals =>
    have hlt : s.next < s.addRoot.next := by simp
    have h₁ := hroot.set hlt "nil" (.plain (.ofBool false))
    have h₂ := h₁.set (t := s.next) (by simp [define]) "false" (.plain (.ofBool false))
    have h₃ := h₂.set (t := s.next) (by simp [define]) "true" (.plain (.ofBool true))
    simpa [TableOp.events, TableOp.apply, addGlobals, predefined] using h₃
  | child p =>
    refine h.made (next_addWithin s p) (bindings_addWithin s p)
      (fun u hu => outer_addWithin_of_ne hu) (outer_addWithin_next s p) ?_
    rintro _ ⟨⟩
    exact hop p List.mem_cons_self
  | set t x v => exact h.set (hop t List.mem_cons_self) x v
  | remove t x => exact h.remove (hop t List.mem_cons_self) x
  | clear t => exact h.clear (hop t List.mem_cons_self)
  | _ => rwa [TableOp.events, List.append_nil]

end Store.Follows

namespace TableOp

variable {s : Store} {t : TableId}

theorem next_apply (op : TableOp) (s : Store) : (op.apply s).next = s.next + op.made := by
  cases op <;> simp [apply, made, Store.addGlobals, Store.predefined, Store.define, Store.erase,
    Store.clear]

theorem apply_frame (op : TableOp) (ht : t < s.next) :
    (op.apply s).outer t = s.outer t ∧
      (op.target? ≠ some t → (op.apply s).bindings t = s.bindings t) := by
  have hupdate {u : TableId} (g : Bindings → Bindings) :
      (s.update u g).outer t = s.outer t ∧
        (some u ≠ some t → (s.update u g).bindings t = s.bindings t) :=
    ⟨Store.outer_update s u t g, fun hne =>
      Store.bindings_update_of_ne g fun heq => hne (congrArg some heq.symm)⟩
  cases op with
  | new => exact ⟨Store.outer_addRoot s t, fun _ => Store.bindings_addRoot s t⟩
  | globals =>
    simp [apply, Store.addGlobals, Store.predefined, Store.define, Store.outer_addRoot,
      Store.bindings_update_of_ne _ ht.ne]
  | child p =>
    exact ⟨Store.outer_addWithin_of_ne ht.ne, fun _ => Store.bindings_addWithin s p t⟩
  | set u x v => exact hupdate _
  | remove u x => exact hupdate _
  | clear u => exact hupdate _
  | _ => exact ⟨rfl, fun _ => rfl⟩

theorem follows_run {ops : List TableOp} {es : List TableEvent} (hs : s.Follows es)
    (hops : Scoped s.next ops) :
    (ops.foldl apply s).Follows (es ++ eventsFrom s.next ops) := by
  induction ops generalizing s es with
  | nil => rwa [eventsFrom, List.append_nil]
  | cons op ops ih =>
    have hstep := hs.op hops.1
    have hrest := hops.2
    rw [eventsFrom, ← List.append_assoc, List.foldl_cons]
    rw [← next_apply op s] at hrest ⊢
    exact ih hstep hrest

end TableOp

/-- The store after any operations on a growing forest of tables, told from the history: a name has
the value of its last set in the table since it was last removed; names are listed by their first set
since then; a table has one chain, on which the nearest value of a name is found, and it lies within
exactly the tables of its chain. An operation changes no parent link, and no bindings but those of
the table it is on. -/
theorem TableHistory.store_told (h : TableHistory) :
    (∀ t x v, h.store.local? t x = some v ↔ LastSet h.events t x v) ∧
    (∀ t, (∀ x, x ∈ (h.store.bindings t).names ↔ ∃ n, FirstSet h.events t x n) ∧
      (h.store.bindings t).names.Pairwise fun x y =>
        ∀ m n, FirstSet h.events t x m → FirstSet h.events t y n → m < n) ∧
    (∀ t < h.store.next, ∃ us, (∀ ws, Chain h.events t ws ↔ ws = us) ∧
      (∀ x v, h.store.lookup? t x = some v ↔
        ∃ near u far, us = near ++ u :: far ∧ LastSet h.events u x v ∧
          ∀ w ∈ near, ∀ v', ¬ LastSet h.events w x v') ∧
      ∀ u, h.store.isWithin t u = true ↔ u ∈ us) ∧
    h.store.next = h.events.countP TableEvent.isMade ∧
    ∀ (op : TableOp), ∀ t < h.store.next,
      (op.apply h.store).outer t = h.store.outer t ∧
      (op.target? ≠ some t → (op.apply h.store).bindings t = h.store.bindings t) := by
  have hfollows : h.store.Follows h.events := TableOp.follows_run .empty h.inScope
  refine ⟨hfollows.local_iff, fun t => ⟨hfollows.mem_names t, hfollows.ordered t⟩,
    fun t ht => ⟨h.store.chain t, fun ws => hfollows.chain_iff ht,
      fun x v => hfollows.lookup?_iff, fun u => Store.isWithin_iff⟩,
    hfollows.next_eq, fun op t ht => op.apply_frame ht⟩

end ArrowScript
