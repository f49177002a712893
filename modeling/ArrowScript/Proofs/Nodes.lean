import Mathlib
import ArrowScript.Expr.Basic

/-! The nodes of a tree. The parts of a node are evaluated where it stands; its children are its
parts and, for a function, the body. What holds of the annotations of all nodes passes from a tree
to its children, and from the children back to the tree. -/

namespace ArrowScript

namespace Expr

variable {α β : Type}

/-- The parts of a node that are evaluated where the node is. The body of a function is evaluated
where the function is called. -/
def parts : Expr α → List (Expr α)
  | number .. | text .. | name .. | function .. => []
  | binary _ _ l r => [l, r]
  | unary _ _ e | assign _ _ e => [e]
  | cond _ t b arms other => t :: b :: arms.flatMap (fun a => [a.1, a.2]) ++ other.toList
  | forRange _ _ i j step b => i :: j :: step.toList ++ [b]
  | whileLoop _ t b => [t, b]
  | call _ c es => c :: es

/-- `e.Holds e'`: the node `e'` occurs in `e` outside the bodies of functions. -/
def Holds : Expr α → Expr α → Prop := Relation.ReflTransGen fun e e' => e' ∈ e.parts

def children : Expr α → List (Expr α)
  | function _ _ _ b => [b]
  | e => e.parts

def Contains : Expr α → Expr α → Prop := Relation.ReflTransGen fun e e' => e' ∈ e.children

def Every (P : α → Prop) (e : Expr α) : Prop := ∀ e', e.Contains e' → P e'.ann

theorem forall_contains {P : Expr α → Prop} {e : Expr α} (h : P e)
    (hc : ∀ c ∈ e.children, ∀ n, c.Contains n → P n) : ∀ n, e.Contains n → P n := by
  intro n hn
  rcases hn.cases_head with rfl | ⟨c, hmem, hcn⟩
  · exact h
  · exact hc c hmem n hcn

theorem children_induct {P : Expr α → Prop} (h : ∀ e, (∀ c ∈ e.children, P c) → P e)
    (e : Expr α) : P e := by
  induction e with
  | number a n => exact h _ (by simp [children, parts])
  | text a s => exact h _ (by simp [children, parts])
  | name a x => exact h _ (by simp [children, parts])
  | binary a op l r hl hr => exact h _ (by simp [children, parts, hl, hr])
  | unary a op e he => exact h _ (by simp [children, parts, he])
  | assign a x e he => exact h _ (by simp [children, parts, he])
  | cond a t b arms other ht hb harms hother =>
    refine h _ fun c hc => ?_
    simp only [children, parts, List.cons_append, List.mem_cons, List.mem_append,
      List.mem_flatMap, Option.mem_toList, List.not_mem_nil, or_false] at hc
    rcases hc with rfl | rfl | ⟨arm, harm, rfl | rfl⟩ | hc
    · exact ht
    · exact hb
    · exact (harms arm harm).1
    · exact (harms arm harm).2
    · exact hother c hc
  | forRange a x i j step b hi hj hstep hb =>
    refine h _ fun c hc => ?_
    simp only [children, parts, List.cons_append, List.mem_cons, List.mem_append,
      Option.mem_toList, List.not_mem_nil, or_false] at hc
    rcases hc with rfl | rfl | hc | rfl
    · exact hi
    · exact hj
    · exact hstep c hc
    · exact hb
  | whileLoop a t b ht hb => exact h _ (by simp [children, parts, ht, hb])
  | function a n ps b hb => exact h _ (by simp [children, hb])
  | call a c es hc hes => exact h _ (List.forall_mem_cons.2 ⟨hc, hes⟩)

theorem parts_subset_children (e : Expr α) : e.parts ⊆ e.children := by
  cases e with
  | function a n ps b => exact List.nil_subset _
  | _ => exact List.Subset.refl _

theorem map_id (e : Expr α) : e.map id = e := by
  induction e with
  | number a n => rfl
  | text a s => rfl
  | name a x => rfl
  | binary a op l r hl hr => simp only [map, hl, hr, id]
  | unary a op e he => simp only [map, he, id]
  | assign a x e he => simp only [map, he, id]
  | cond a t b arms other ht hb harms hother =>
    have h₁ : arms.map (fun c => (c.1.map id, c.2.map id)) = arms :=
      (List.map_congr_left fun c hc => by rw [(harms c hc).1, (harms c hc).2]; rfl).trans
        (List.map_id _)
    have h₂ : other.map (map id) = other := by
      cases other with
      | none => rfl
      | some e => rw [Option.map_some, hother e rfl]
    rw [map, mapArms_eq, mapOption_eq, h₁, h₂, ht, hb, id]
  | forRange a x i j step b hi hj hstep hb =>
    have h : step.map (map id) = step := by
      cases step with
      | none => rfl
      | some e => rw [Option.map_some, hstep e rfl]
    rw [map, mapOption_eq, h, hi, hj, hb, id]
  | whileLoop a t b ht hb => simp only [map, ht, hb, id]
  | function a n ps b hb => simp only [map, hb, id]
  | call a c es hc hes =>
    have h : es.map (map id) = es :=
      (List.map_congr_left fun e he => hes e he).trans (List.map_id _)
    rw [map, mapList_eq, h, hc, id]

theorem children_map (f : α → β) (e : Expr α) :
    (e.map f).children = e.children.map (map f) := by
  cases e with
  | cond a t b arms other =>
    cases other <;>
      simp [map, mapArms_eq, mapOption_eq, children, parts, List.flatMap_map, List.map_flatMap]
  | forRange a x i j step b => cases step <;> simp [map, mapOption_eq, children, parts]
  | call a c es => simp [map, mapList_eq, children, parts]
  | _ => rfl

theorem exists_of_contains_map {f : α → β} {e : Expr α} {n' : Expr β} (h : (e.map f).Contains n') :
    ∃ n, e.Contains n ∧ n' = n.map f := by
  induction h with
  | refl => exact ⟨e, .refl, rfl⟩
  | tail _ hc ih =>
    obtain ⟨m, hm, rfl⟩ := ih
    rw [children_map, List.mem_map] at hc
    obtain ⟨n, hn, rfl⟩ := hc
    exact ⟨n, hm.tail hn, rfl⟩

section Parts

variable {P : Expr α → Prop} {a : α} {x : String} {t b i j : Expr α} {o : Option (Expr α)}
  {cs : List (Expr α × Expr α)}

theorem forall_parts_cond (h : ∀ c ∈ (cond a t b cs o).parts, P c) :
    (∀ c ∈ (t, b) :: cs, P c.1 ∧ P c.2) ∧ ∀ e ∈ o, P e := by
  have harm {c : Expr α × Expr α} {e : Expr α} (hc : c ∈ cs) (he : e ∈ [c.1, c.2]) :
      e ∈ (cond a t b cs o).parts := by
    have hmem : e ∈ cs.flatMap fun a => [a.1, a.2] := List.mem_flatMap.2 ⟨c, hc, he⟩
    simp [parts, hmem]
  refine ⟨List.forall_mem_cons.2 ⟨⟨h t (by simp [parts]), h b (by simp [parts])⟩, fun c hc => ?_⟩,
    fun e he => h e ?_⟩
  · exact ⟨h _ (harm hc (by simp)), h _ (harm hc (by simp))⟩
  · rw [Option.mem_def.1 he]
    simp [parts]

theorem forall_parts_forRange (h : ∀ c ∈ (forRange a x i j o b).parts, P c) :
    P i ∧ P j ∧ (∀ e ∈ o, P e) ∧ P b := by
  refine ⟨h i (by simp [parts]), h j (by simp [parts]), fun e he => h e ?_, h b (by simp [parts])⟩
  rw [Option.mem_def.1 he]
  simp [parts]

end Parts

section Every

variable {P Q : α → Prop} {e c : Expr α}

theorem Every.ann (h : e.Every P) : P e.ann := h e .refl

theorem Every.child (h : e.Every P) (hc : c ∈ e.children) : c.Every P :=
  fun e' he' => h e' (.head hc he')

theorem Every.node (h : P e.ann) (hc : ∀ c ∈ e.children, c.Every P) : e.Every P :=
  forall_contains h hc

theorem Every.mono (h : e.Every P) (hPQ : ∀ a, P a → Q a) : e.Every Q :=
  fun e' he' => hPQ _ (h e' he')

end Every

def Lacking : Expr α → Prop
  | cond _ _ _ _ none | forRange .. | whileLoop .. => True
  | _ => False

def ownNames : Expr α → List String
  | name _ x | assign _ x _ | forRange _ x _ _ _ _ => [x]
  | function _ n ps _ => n.toList ++ ps
  | _ => []

@[simp] theorem ownNames_map (f : α → β) (e : Expr α) : (e.map f).ownNames = e.ownNames := by
  cases e <;> rfl

def Mentions (e : Expr α) (x : String) : Prop := ∃ e', e.Contains e' ∧ x ∈ e'.ownNames

theorem Mentions.cases {e : Expr α} {x : String} (h : e.Mentions x) :
    x ∈ e.ownNames ∨ ∃ c ∈ e.children, c.Mentions x := by
  obtain ⟨e', he', hx⟩ := h
  rcases he'.cases_head with rfl | ⟨c, hc, hc'⟩
  · exact .inl hx
  · exact .inr ⟨c, hc, e', hc', hx⟩

theorem Mentions.of_name {a : α} {x y : String} (h : (name a y).Mentions x) : x = y := by
  rcases h.cases with h | ⟨c, hc, -⟩
  · exact List.mem_singleton.1 h
  · cases hc

theorem Mentions.of_child {e c : Expr α} {x : String} (h : c.Mentions x) (hc : c ∈ e.children) :
    e.Mentions x := by
  obtain ⟨e', he', hx⟩ := h
  exact ⟨e', .head hc he', hx⟩

end Expr

end ArrowScript
