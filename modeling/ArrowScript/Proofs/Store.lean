import Mathlib
import ArrowScript.Store

/-! What each operation on a store does to its tables, seen through `next`, `outer` and
`bindings`. -/

namespace ArrowScript

namespace Bindings

theorem mem_of_find? {x : String} {v : Traced} {b : Bindings} (h : find? x b = some v) :
    (x, v) ∈ b := by
  induction b with
  | nil => simp [find?] at h
  | cons e b ih =>
    by_cases hx : e.1 = x
    · simp only [find?, hx, if_true, Option.some.injEq] at h
      rw [← hx, ← h]
      exact List.mem_cons_self
    · simp only [find?, hx, if_false] at h
      exact List.mem_cons_of_mem _ (ih h)

theorem mem_insert {x y : String} {v w : Traced} {b : Bindings} (h : (y, w) ∈ b.insert x v) :
    w = v ∨ (y, w) ∈ b := by
  induction b with
  | nil =>
    simp only [insert, List.mem_singleton, Prod.mk.injEq] at h
    exact .inl h.2
  | cons e b ih =>
    simp only [insert] at h
    split at h
    · rcases List.mem_cons.mp h with h | h
      · exact .inl (congrArg Prod.snd h)
      · exact .inr (List.mem_cons_of_mem _ h)
    · rcases List.mem_cons.mp h with h | h
      · exact .inr (h ▸ List.mem_cons_self)
      · exact (ih h).imp_right (List.mem_cons_of_mem _)

theorem names_prefix_insert (x : String) (v : Traced) (b : Bindings) :
    b.names <+: (b.insert x v).names := by
  by_cases h : x ∈ b.names
  · rw [names_insert_of_mem v h]
  · rw [names_insert_of_not_mem v h]
    exact List.prefix_append _ _

theorem find?_eq_none_iff {x : String} {b : Bindings} : find? x b = none ↔ x ∉ b.names := by
  induction b with
  | nil => simp [find?, names]
  | cons e b ih =>
    by_cases hx : e.1 = x
    · simp [find?, names, hx]
    · simpa [find?, names, hx, Ne.symm hx] using ih

theorem names_erase (x : String) (b : Bindings) : (b.erase x).names = b.names.erase x := by
  induction b with
  | nil => rfl
  | cons e b ih =>
    by_cases hx : e.1 = x
    · simp [erase, names, hx]
    · simpa [erase, names, hx] using ih

theorem find?_erase_of_ne {x y : String} (h : x ≠ y) (b : Bindings) :
    find? y (b.erase x) = find? y b := by
  induction b with
  | nil => rfl
  | cons e b ih =>
    by_cases hx : e.1 = x
    · have hy : e.1 ≠ y := hx ▸ h
      simp only [erase, find?, if_pos hx, if_neg hy]
    · simp only [erase, find?, if_neg hx, ih]

end Bindings

namespace Store

variable (s : Store) (t u : TableId) (f : Bindings → Bindings)

@[simp] theorem next_update : (s.update t f).next = s.next := by
  simp [update, next]

@[simp] theorem outer_update : (s.update t f).outer u = s.outer u := by
  simp only [outer, update, Array.getElem?_modify]
  by_cases h : t = u
  · rw [if_pos h]
    cases s.tables[u]? <;> rfl
  · rw [if_neg h]

variable {s t u} in
theorem bindings_update_self (h : t < s.next) : (s.update t f).bindings t = f (s.bindings t) := by
  have ht : s.tables[t]? = some s.tables[t] := Array.getElem?_eq_getElem h
  simp only [bindings, update, Array.getElem?_modify, if_pos, ht, Option.map_some]

variable {s t u} in
theorem bindings_update_of_ne (h : u ≠ t) : (s.update t f).bindings u = s.bindings u := by
  simp [bindings, update, Array.getElem?_modify, h.symm]

@[simp] theorem next_addWithin : (s.addWithin t).next = s.next + 1 := by
  simp [addWithin, next]

@[simp] theorem bindings_addWithin : (s.addWithin t).bindings u = s.bindings u := by
  simp only [bindings, addWithin, Array.getElem?_push]
  by_cases h : u = s.tables.size
  · have hu : s.tables[u]? = none := Array.getElem?_eq_none h.ge
    rw [if_pos h, hu]
    rfl
  · rw [if_neg h]

@[simp] theorem outer_addWithin_next : (s.addWithin t).outer s.next = s.chain t := by
  simp [outer, addWithin, next, Table.empty]

variable {s t u} in
theorem outer_addWithin_of_ne (h : u ≠ s.next) : (s.addWithin t).outer u = s.outer u := by
  simp only [outer, addWithin, Array.getElem?_push]
  rw [if_neg (by simpa [next] using h)]

@[simp] theorem next_addRoot : s.addRoot.next = s.next + 1 := by
  simp [addRoot, next]

@[simp] theorem bindings_addRoot : s.addRoot.bindings u = s.bindings u := by
  simp only [bindings, addRoot, Array.getElem?_push]
  by_cases h : u = s.tables.size
  · have hu : s.tables[u]? = none := Array.getElem?_eq_none h.ge
    rw [if_pos h, hu]
    rfl
  · rw [if_neg h]

theorem outer_addRoot : s.addRoot.outer u = s.outer u := by
  simp only [outer, addRoot, Array.getElem?_push]
  by_cases h : u = s.tables.size
  · have hu : s.tables[u]? = none := Array.getElem?_eq_none h.ge
    rw [if_pos h, hu]
    rfl
  · rw [if_neg h]

variable {s t u} in
theorem bindings_eq_nil_of_next_le (h : s.next ≤ u) : s.bindings u = [] := by
  have hu : s.tables[u]? = none := Array.getElem?_eq_none h
  simp [bindings, hu]

variable {s t u} in
theorem isWithin_iff : s.isWithin t u = true ↔ u ∈ s.chain t := by
  rw [isWithin, List.contains_iff_mem]

variable {s t u} in
theorem outer_eq_nil_of_next_le (h : s.next ≤ u) : s.outer u = [] := by
  have hu : s.tables[u]? = none := Array.getElem?_eq_none h
  simp [outer, hu]

end Store

end ArrowScript
