import Mathlib
import ArrowScript.Proofs.OutlineText

/-! The outline of a tree identifies the tree. Outlines are read from the left: the parts of a node
end before a blank, a comma or a closing parenthesis, and an opening parenthesis behind an outline
belongs to a call of it. So the head of a tree is read first, then one list of arguments after the
other. -/

namespace ArrowScript.Expr

open Outline

variable {α β : Type}

def Reads (e : Expr Unit) : Prop :=
  ∀ ⦃e' : Expr Unit⦄ ⦃s s' : List Char⦄, e'.Legible → Ends s → Ends s' →
    e.chars ++ s = e'.chars ++ s' → e = e' ∧ s = s'

variable {s s' : List Char}

section Reads

variable {e e' : Expr Unit}

theorem Reads.blank (he : e.Reads) (he' : e'.Legible)
    (h : e.chars ++ ' ' :: s = e'.chars ++ ' ' :: s') : e = e' ∧ s = s' := by
  obtain ⟨rfl, hrest⟩ := he he' ends_blank ends_blank h
  exact ⟨rfl, List.tail_eq_of_cons_eq hrest⟩

theorem Reads.closing (he : e.Reads) (he' : e'.Legible)
    (h : e.chars ++ ')' :: s = e'.chars ++ ')' :: s') : e = e' ∧ s = s' := by
  obtain ⟨rfl, hrest⟩ := he he' ends_closing ends_closing h
  exact ⟨rfl, List.tail_eq_of_cons_eq hrest⟩

theorem cancel_word {w : List Char} (h : w ++ ' ' :: s = w ++ ' ' :: s') : s = s' :=
  List.tail_eq_of_cons_eq (List.append_cancel_left h)

end Reads

theorem names_append {ps ps' : List String} (hps : ∀ x ∈ ps, Lexeme.IsName x)
    (hps' : ∀ x ∈ ps', Lexeme.IsName x)
    (h : (commaSeparated ps).toList ++ ')' :: s = (commaSeparated ps').toList ++ ')' :: s') :
    ps = ps' ∧ s = s' := by
  have hw : ∀ x ∈ ps, IsWord x := fun x hx => isWord_name (hps x hx)
  have hw' : ∀ x ∈ ps', IsWord x := fun x hx => isWord_name (hps' x hx)
  rw [← List.map_id ps, ← List.map_id ps'] at h
  exact commaSeparated_append
    (fun x hx y hy _ _ hr hr' => (hw x hx).append (hw' y hy) hr.1 hr'.1)
    (fun x hx _ hr => (Begins.word (hw x hx) hr.1).not_ends)
    (fun x hx _ hr => (Begins.word (hw' x hx) hr.1).not_ends) h

theorem args_append {es es' : List (Expr Unit)} (hes : ∀ e ∈ es, e.Legible ∧ e.Reads)
    (hes' : ∀ e ∈ es', e.Legible)
    (h : (commaSeparated (es.map outline)).toList ++ ')' :: s =
      (commaSeparated (es'.map outline)).toList ++ ')' :: s') : es = es' ∧ s = s' :=
  commaSeparated_append (fun e he e' he' _ _ hr hr' => (hes e he).2 (hes' e' he') hr hr')
    (fun e he _ hr => (begins_chars (hes e he).1 hr.1).not_ends)
    (fun e he _ hr => (begins_chars (hes' e he) hr.1).not_ends) h

theorem argumentChars_append {ess ess' : List (List (Expr Unit))}
    (hess : ∀ es ∈ ess, ∀ e ∈ es, e.Legible ∧ e.Reads) (hess' : ∀ es ∈ ess', ∀ e ∈ es, e.Legible)
    (hs : Ends s) (hs' : Ends s') (h : argumentChars ess ++ s = argumentChars ess' ++ s') :
    ess = ess' ∧ s = s' := by
  induction ess generalizing ess' with
  | nil =>
    cases ess' with
    | nil => exact ⟨rfl, h⟩
    | cons es' ess' => exact absurd (congrArg List.head? h) hs.2
  | cons es ess ih =>
    cases ess' with
    | nil => exact absurd (congrArg List.head? h).symm hs'.2
    | cons es' ess' =>
      simp only [argumentChars, List.flatMap_cons, List.cons_append, List.append_assoc,
        List.cons.injEq, true_and, List.nil_append] at h
      obtain ⟨rfl, hrest⟩ := args_append (hess es (by simp)) (hess' es' (by simp)) h
      obtain ⟨rfl, rfl⟩ := ih (fun es hes => hess es (.tail _ hes))
        (fun es hes => hess' es (.tail _ hes)) hrest
      exact ⟨rfl, rfl⟩

theorem tail_append {word : String} {o o' : Option (Expr Unit)} (ho : ∀ e ∈ o, e.Reads)
    (ho' : ∀ e ∈ o', e.Legible) (hs : Ends s) (hs' : Ends s') (hword : ¬ word.toList <+: s)
    (hword' : ¬ word.toList <+: s')
    (h : (outlineTail word o).toList ++ s = (outlineTail word o').toList ++ s') :
    o = o' ∧ s = s' := by
  cases o <;> cases o' <;>
    simp only [outlineTail, String.toList_append, List.append_assoc, String.toList_empty,
      List.nil_append] at h
  · exact ⟨rfl, h⟩
  · exact absurd ⟨_, h.symm⟩ hword
  · exact absurd ⟨_, h⟩ hword'
  · obtain ⟨rfl, hrest⟩ := ho _ rfl (ho' _ rfl) hs hs' (List.append_cancel_left h)
    exact ⟨rfl, hrest⟩

def condRest (arms : List (Expr Unit × Expr Unit)) (o : Option (Expr Unit)) (s : List Char) :
    List Char :=
  (outlineArms arms).toList ++ ((outlineTail " else " o).toList ++ ')' :: s)

theorem condRest_cons (t b : Expr Unit) (arms : List (Expr Unit × Expr Unit))
    (o : Option (Expr Unit)) (s : List Char) : condRest ((t, b) :: arms) o s =
      ' ' :: ("elif".toList ++ ' ' :: (t.chars ++ ' ' :: ("do".toList ++ ' ' ::
        (b.chars ++ condRest arms o s)))) := by
  simp [condRest, outlineArms, chars]

theorem ends_condRest (arms : List (Expr Unit × Expr Unit)) (o : Option (Expr Unit))
    (s : List Char) : Ends (condRest arms o s) := by
  cases arms with
  | nil => cases o <;> simp [condRest, outlineArms, outlineTail]
  | cons arm arms =>
    rw [condRest_cons]
    exact ends_blank

theorem condRest_nil_ne (o : Option (Expr Unit)) (s r : List Char) :
    condRest [] o s ≠ ' ' :: ("elif".toList ++ ' ' :: r) := by
  cases o <;> simp [condRest, outlineArms, outlineTail]

theorem condRest_append {arms arms' : List (Expr Unit × Expr Unit)} {o o' : Option (Expr Unit)}
    (harms : ∀ arm ∈ arms, arm.1.Reads ∧ arm.2.Reads)
    (harms' : ∀ arm ∈ arms', arm.1.Legible ∧ arm.2.Legible) (ho : ∀ e ∈ o, e.Reads)
    (ho' : ∀ e ∈ o', e.Legible) (h : condRest arms o s = condRest arms' o' s') :
    arms = arms' ∧ o = o' ∧ s = s' := by
  induction arms generalizing arms' with
  | nil =>
    cases arms' with
    | nil =>
      obtain ⟨rfl, hrest⟩ := tail_append ho ho' ends_closing ends_closing (by simp) (by simp) h
      exact ⟨rfl, rfl, List.tail_eq_of_cons_eq hrest⟩
    | cons arm' arms' =>
      rw [condRest_cons] at h
      exact absurd h (condRest_nil_ne o s _)
  | cons arm arms ih =>
    obtain ⟨t, b⟩ := arm
    cases arms' with
    | nil =>
      rw [condRest_cons] at h
      exact absurd h.symm (condRest_nil_ne o' s' _)
    | cons arm' arms' =>
      obtain ⟨t', b'⟩ := arm'
      rw [condRest_cons, condRest_cons] at h
      obtain ⟨ht, hb⟩ := harms (t, b) (by simp)
      obtain ⟨ht', hb'⟩ := harms' (t', b') (by simp)
      obtain ⟨rfl, h₁⟩ := Reads.blank ht ht' (cancel_word (List.tail_eq_of_cons_eq h))
      obtain ⟨rfl, h₂⟩ := hb hb' (ends_condRest ..) (ends_condRest ..) (cancel_word h₁)
      obtain ⟨rfl, rfl, rfl⟩ := ih (fun arm harm => harms arm (.tail _ harm))
        (fun arm harm => harms' arm (.tail _ harm)) h₂
      exact ⟨rfl, rfl, rfl⟩

theorem nameChars_append {n n' : Option String} (hn : ∀ x ∈ n, Lexeme.IsName x)
    (hn' : ∀ x ∈ n', Lexeme.IsName x) (h : nameChars n ++ '(' :: s = nameChars n' ++ '(' :: s') :
    n = n' ∧ s = s' := by
  cases n <;> cases n' <;>
    simp only [nameChars, List.nil_append, List.cons_append, List.cons.injEq, true_and] at h
  · exact ⟨rfl, h⟩
  · exact absurd h.1 (by decide)
  · exact absurd h.1 (by decide)
  · obtain ⟨rfl, hrest⟩ := (isWord_name (hn _ rfl)).append (isWord_name (hn' _ rfl))
      (stops_cons rfl) (stops_cons rfl) h
    exact ⟨rfl, List.tail_eq_of_cons_eq hrest⟩

theorem forall_children_cond {P : Expr Unit → Prop} {a : Unit} {t b : Expr Unit}
    {arms : List (Expr Unit × Expr Unit)} {o : Option (Expr Unit)}
    (h : ∀ c ∈ (cond a t b arms o).children, P c) :
    P t ∧ P b ∧ (∀ arm ∈ arms, P arm.1 ∧ P arm.2) ∧ ∀ e ∈ o, P e := by
  obtain ⟨harms, ho⟩ := forall_parts_cond (a := a) h
  obtain ⟨⟨ht, hb⟩, harms⟩ := List.forall_mem_cons.1 harms
  exact ⟨ht, hb, harms, ho⟩

section Nodes

variable {a a' : Unit} {x x' : String} {e e' l l' r r' t t' b b' i i' j j' : Expr Unit}
  {o o' : Option (Expr Unit)}

theorem binary_append {op op' : BinaryOp} (h' : (binary a' op' l' r').Legible)
    (hreads : ∀ c ∈ (binary a op l r).children, c.Reads)
    (h : (binary a op l r).chars ++ s = (binary a' op' l' r').chars ++ s') :
    binary a op l r = binary a' op' l' r' ∧ s = s' := by
  have hl : l.Reads := hreads l (by simp [children, parts])
  have hr : r.Reads := hreads r (by simp [children, parts])
  have hl' : l'.Legible := h'.child (by simp [children, parts])
  have hr' : r'.Legible := h'.child (by simp [children, parts])
  simp only [chars_binary, List.cons_append, List.append_assoc, List.cons.injEq, true_and,
    List.nil_append] at h
  obtain ⟨rfl, h₁⟩ := hl.blank hl' h
  obtain ⟨rfl, h₂⟩ := symbol_append ends_blank.1 ends_blank.1 h₁
  obtain ⟨rfl, h₃⟩ := hr.closing hr' (List.tail_eq_of_cons_eq h₂)
  exact ⟨rfl, h₃⟩

theorem unary_append {op : UnaryOp} (h' : (unary a' op e').Legible)
    (hreads : ∀ c ∈ (unary a op e).children, c.Reads)
    (h : (unary a op e).chars ++ s = (unary a' op e').chars ++ s') :
    unary a op e = unary a' op e' ∧ s = s' := by
  have he : e.Reads := hreads e (by simp [children, parts])
  have he' : e'.Legible := h'.child (by simp [children, parts])
  simp only [chars_unary, List.cons_append, List.append_assoc, List.cons.injEq, true_and,
    List.nil_append] at h
  obtain ⟨rfl, h₁⟩ := he.closing he' (cancel_word h)
  exact ⟨rfl, h₁⟩

theorem assign_append (hl : (assign a x e).Legible) (hl' : (assign a' x' e').Legible)
    (hreads : ∀ c ∈ (assign a x e).children, c.Reads)
    (h : (assign a x e).chars ++ s = (assign a' x' e').chars ++ s') :
    assign a x e = assign a' x' e' ∧ s = s' := by
  have he : e.Reads := hreads e (by simp [children, parts])
  have he' : e'.Legible := hl'.child (by simp [children, parts])
  have hx : IsWord x := isWord_name (hl.own x (by simp [ownNames]))
  have hx' : IsWord x' := isWord_name (hl'.own x' (by simp [ownNames]))
  simp only [chars_assign, List.cons_append, List.append_assoc, List.cons.injEq, true_and,
    List.nil_append] at h
  obtain ⟨rfl, h₁⟩ := hx.append hx' ends_blank.1 ends_blank.1 (cancel_word h)
  obtain ⟨rfl, h₂⟩ := he.closing he' (List.tail_eq_of_cons_eq h₁)
  exact ⟨rfl, h₂⟩

theorem cond_append {arms arms' : List (Expr Unit × Expr Unit)}
    (hl' : (cond a' t' b' arms' o').Legible)
    (hreads : ∀ c ∈ (cond a t b arms o).children, c.Reads)
    (h : (cond a t b arms o).chars ++ s = (cond a' t' b' arms' o').chars ++ s') :
    cond a t b arms o = cond a' t' b' arms' o' ∧ s = s' := by
  obtain ⟨ht, hb, harms, ho⟩ := forall_children_cond hreads
  obtain ⟨ht', hb', harms', ho'⟩ := forall_children_cond fun c hc => hl'.child hc
  simp only [chars_cond, List.cons_append, List.append_assoc, List.cons.injEq, true_and,
    List.nil_append] at h
  obtain ⟨rfl, h₁⟩ := ht.blank ht' (cancel_word h)
  obtain ⟨rfl, h₂⟩ := hb hb' (ends_condRest arms o s) (ends_condRest arms' o' s') (cancel_word h₁)
  obtain ⟨rfl, rfl, h₃⟩ := condRest_append harms harms' ho ho' h₂
  exact ⟨rfl, h₃⟩

theorem forRange_append (hl : (forRange a x i j o b).Legible)
    (hl' : (forRange a' x' i' j' o' b').Legible)
    (hreads : ∀ c ∈ (forRange a x i j o b).children, c.Reads)
    (h : (forRange a x i j o b).chars ++ s = (forRange a' x' i' j' o' b').chars ++ s') :
    forRange a x i j o b = forRange a' x' i' j' o' b' ∧ s = s' := by
  obtain ⟨hi, hj, ho, hb⟩ := forall_parts_forRange (a := a) (x := x) hreads
  obtain ⟨hi', hj', ho', hb'⟩ :=
    forall_parts_forRange (a := a') (x := x') fun c hc => hl'.child hc
  have hx : IsWord x := isWord_name (hl.own x (by simp [ownNames]))
  have hx' : IsWord x' := isWord_name (hl'.own x' (by simp [ownNames]))
  have hends (o : Option (Expr Unit)) (r : List Char) :
      Ends ((outlineTail " by " o).toList ++ ' ' :: r) := by
    cases o <;> simp [outlineTail]
  simp only [chars_forRange, List.cons_append, List.append_assoc, List.cons.injEq, true_and,
    List.nil_append] at h
  obtain ⟨rfl, h₁⟩ := hx.append hx' ends_blank.1 ends_blank.1 (cancel_word h)
  obtain ⟨rfl, h₂⟩ := hi.blank hi' (cancel_word (List.tail_eq_of_cons_eq h₁))
  obtain ⟨rfl, h₃⟩ := hj hj' (hends o _) (hends o' _) (cancel_word h₂)
  obtain ⟨rfl, h₄⟩ := tail_append ho ho' ends_blank ends_blank (by simp) (by simp) h₃
  obtain ⟨rfl, h₅⟩ := hb.closing hb' (cancel_word (List.tail_eq_of_cons_eq h₄))
  exact ⟨rfl, h₅⟩

theorem whileLoop_append (hl' : (whileLoop a' t' b').Legible)
    (hreads : ∀ c ∈ (whileLoop a t b).children, c.Reads)
    (h : (whileLoop a t b).chars ++ s = (whileLoop a' t' b').chars ++ s') :
    whileLoop a t b = whileLoop a' t' b' ∧ s = s' := by
  have ht : t.Reads := hreads t (by simp [children, parts])
  have hb : b.Reads := hreads b (by simp [children, parts])
  have ht' : t'.Legible := hl'.child (by simp [children, parts])
  have hb' : b'.Legible := hl'.child (by simp [children, parts])
  simp only [chars_whileLoop, List.cons_append, List.append_assoc, List.cons.injEq, true_and,
    List.nil_append] at h
  obtain ⟨rfl, h₁⟩ := ht.blank ht' (cancel_word h)
  obtain ⟨rfl, h₂⟩ := hb.closing hb' (cancel_word h₁)
  exact ⟨rfl, h₂⟩

theorem function_append {n n' : Option String} {ps ps' : List String}
    (hl : (function a n ps b).Legible) (hl' : (function a' n' ps' b').Legible)
    (hreads : ∀ c ∈ (function a n ps b).children, c.Reads)
    (h : (function a n ps b).chars ++ s = (function a' n' ps' b').chars ++ s') :
    function a n ps b = function a' n' ps' b' ∧ s = s' := by
  have hb : b.Reads := hreads b (by simp [children])
  have hb' : b'.Legible := hl'.child (by simp [children])
  simp only [chars_function, List.cons_append, List.append_assoc, List.cons.injEq, true_and,
    List.nil_append] at h
  obtain ⟨rfl, h₁⟩ := nameChars_append (fun y hy => hl.own y (by simp_all [ownNames]))
    (fun y hy => hl'.own y (by simp_all [ownNames])) (List.append_cancel_left h)
  obtain ⟨rfl, h₂⟩ := names_append (fun y hy => hl.own y (by simp [ownNames, hy]))
    (fun y hy => hl'.own y (by simp [ownNames, hy])) h₁
  obtain ⟨rfl, h₃⟩ := hb.closing hb' (cancel_word (List.tail_eq_of_cons_eq h₂))
  exact ⟨rfl, h₃⟩

end Nodes

theorem head_append {e e' : Expr Unit} (he : e.Legible) (he' : e'.Legible) (hhead : e.head = e)
    (hhead' : e'.head = e') (hreads : ∀ c ∈ e.children, c.Reads) (hs : Stops s) (hs' : Stops s')
    (h : e.chars ++ s = e'.chars ++ s') : e = e' ∧ s = s' := by
  have hlead : e.lead = e'.lead := by
    rw [← Lead.ofChars_chars he hhead s, h, Lead.ofChars_chars he' hhead' s']
  cases e with
  | number a n =>
    cases e' with
    | number a' n' =>
      have hn := he.numbers a n .refl
      have hn' := he'.numbers a' n' .refl
      obtain ⟨htext, hrest⟩ := (isWord_number hn).append (isWord_number hn') hs hs' h
      rw [hn.toText_injective hn' htext]
      exact ⟨rfl, hrest⟩
    | _ => cases hlead
  | text a x =>
    cases e' with
    | text a' x' =>
      obtain ⟨rfl, hrest⟩ := Text.quote_append h
      exact ⟨rfl, hrest⟩
    | _ => cases hlead
  | name a x =>
    cases e' with
    | name a' x' =>
      obtain ⟨rfl, hrest⟩ := (isWord_name (he.own x (by simp [ownNames]))).append
        (isWord_name (he'.own x' (by simp [ownNames]))) hs hs' h
      exact ⟨rfl, hrest⟩
    | _ => cases hlead
  | binary a op l r =>
    cases e' with
    | binary a' op' l' r' => exact binary_append he' hreads h
    | call a' c' es' => exact absurd hhead' (head_ne_call c' a' c' es')
    | _ => cases hlead
  | unary a op x =>
    cases e' with
    | unary a' op' x' =>
      cases hlead
      exact unary_append he' hreads h
    | _ => cases hlead
  | assign a x v =>
    cases e' with
    | assign a' x' v' => exact assign_append he he' hreads h
    | _ => cases hlead
  | cond a t b arms o =>
    cases e' with
    | cond a' t' b' arms' o' => exact cond_append he' hreads h
    | _ => cases hlead
  | forRange a x i j o b =>
    cases e' with
    | forRange a' x' i' j' o' b' => exact forRange_append he he' hreads h
    | _ => cases hlead
  | whileLoop a t b =>
    cases e' with
    | whileLoop a' t' b' => exact whileLoop_append he' hreads h
    | _ => cases hlead
  | function a n ps b =>
    cases e' with
    | function a' n' ps' b' => exact function_append he he' hreads h
    | _ => cases hlead
  | call a c es => exact absurd hhead (head_ne_call c a c es)

def Splits (e : Expr Unit) : Prop :=
  ∀ ⦃e' : Expr Unit⦄ ⦃s s' : List Char⦄, e'.Legible → Stops s → Stops s' →
    e.chars ++ s = e'.chars ++ s' →
    e.head = e'.head ∧ argumentChars e.arguments ++ s = argumentChars e'.arguments ++ s'

variable {e : Expr Unit}

theorem splits_head (he : e.Legible) (hhead : e.head = e) (hargs : e.arguments = [])
    (hreads : ∀ c ∈ e.children, c.Reads) : e.Splits := by
  intro e' s s' he' hs hs' h
  rw [chars_append e'] at h
  have hstops := stops_argumentChars e'.arguments hs'
  obtain ⟨hsame, hrest⟩ := head_append he he'.head hhead e'.head_head hreads hs hstops h
  rw [hhead, hargs]
  exact ⟨hsame, hrest⟩

theorem splits_call {a : Unit} {c : Expr Unit} {es : List (Expr Unit)} (hc : c.Splits) :
    (call a c es).Splits := by
  intro e' s s' he' hs hs' h
  rw [chars_call, List.append_assoc] at h
  obtain ⟨hsame, hrest⟩ := hc he' (stops_cons rfl) hs' h
  refine ⟨hsame, ?_⟩
  rw [arguments, argumentChars_concat, List.append_assoc]
  exact hrest

theorem Splits.reads (h : e.Splits) (hargs : ∀ es ∈ e.arguments, ∀ e ∈ es, e.Legible ∧ e.Reads) :
    e.Reads := by
  intro e' s s' he' hs hs' heq
  obtain ⟨hhead, hrest⟩ := h he' hs.1 hs'.1 heq
  obtain ⟨hsame, hrest⟩ := argumentChars_append hargs he'.arguments hs hs' hrest
  exact ⟨eq_of_head hhead hsame, hrest⟩

theorem reads_of_legible (he : e.Legible) : e.Reads := by
  -- `Reads` says nothing before an opening parenthesis, where the callee of a call stands, so the
  -- induction carries the heads and the arguments that have been passed on the way
  have key : e.Splits ∧ ∀ es ∈ e.arguments, ∀ e ∈ es, e.Legible ∧ e.Reads := by
    induction e using children_induct with
    | _ e ih =>
      have hreads : ∀ c ∈ e.children, c.Legible ∧ c.Reads := by
        intro c hc
        obtain ⟨hsplits, hargs⟩ := ih c hc (he.child hc)
        exact ⟨he.child hc, hsplits.reads hargs⟩
      cases e with
      | call a c es =>
        have hc : c ∈ (call a c es).children := by simp [children, parts]
        obtain ⟨hsplits, hargs⟩ := ih c hc (he.child hc)
        refine ⟨splits_call hsplits, fun fs hfs => ?_⟩
        rcases List.mem_append.1 hfs with hfs | hfs
        · exact hargs fs hfs
        · rw [List.mem_singleton.1 hfs]
          exact fun f hf => hreads f (by simp [children, parts, hf])
      | _ => exact ⟨splits_head he rfl rfl fun c hc => (hreads c hc).2, by simp [arguments]⟩
  exact key.1.reads key.2

theorem outlineArms_map {f : α → β} {arms : List (Expr α × Expr α)}
    (h : ∀ arm ∈ arms,
      (arm.1.map f).outline = arm.1.outline ∧ (arm.2.map f).outline = arm.2.outline) :
    outlineArms (mapArms f arms) = outlineArms arms := by
  induction arms with
  | nil => rfl
  | cons arm arms ih =>
    obtain ⟨ht, hb⟩ := h arm (by simp)
    rw [mapArms, outlineArms, outlineArms, ht, hb, ih fun arm harm => h arm (.tail _ harm)]

theorem outlineTail_map {f : α → β} {o : Option (Expr α)}
    (h : ∀ e ∈ o, (e.map f).outline = e.outline) (word : String) :
    outlineTail word (mapOption f o) = outlineTail word o := by
  cases o with
  | none => rfl
  | some e => rw [mapOption, outlineTail, outlineTail, h e rfl]

theorem outline_map (f : α → β) (e : Expr α) : (e.map f).outline = e.outline := by
  induction e with
  | number a n => rfl
  | text a s => rfl
  | name a x => rfl
  | binary a op l r hl hr => simp only [map, outline, hl, hr]
  | unary a op e he => simp only [map, outline, he]
  | assign a x e he => simp only [map, outline, he]
  | cond a t b arms other ht hb harms hother =>
    simp only [map, outline, ht, hb, outlineArms_map harms, outlineTail_map hother]
  | forRange a x i j step b hi hj hstep hb =>
    simp only [map, outline, hi, hj, outlineTail_map hstep, hb]
  | whileLoop a t b ht hb => simp only [map, outline, ht, hb]
  | function a n ps b hb => simp only [map, outline, hb]
  | call a c es hc hes =>
    have hes' : es.map (outline ∘ map f) = es.map outline := List.map_congr_left hes
    simp only [map, outline, mapList_eq, outlineList_eq, List.map_map, hc, hes']

theorem Legible.map {e : Expr α} (h : e.Legible) (f : α → β) : (e.map f).Legible := by
  constructor
  · rintro x ⟨n', hn', hx⟩
    obtain ⟨n, hn, rfl⟩ := exists_of_contains_map hn'
    rw [ownNames_map] at hx
    exact h.names x ⟨n, hn, hx⟩
  · intro a n hn'
    obtain ⟨m, hm, heq⟩ := exists_of_contains_map hn'
    cases m with
    | number a' n' =>
      cases heq
      exact h.numbers a' n hm
    | _ => cases heq

/-- Trees with the same outline are the same tree, up to annotations. -/
theorem outline_injective {t : Expr α} {u : Expr β} (ht : t.Legible) (hu : u.Legible)
    (h : t.outline = u.outline) : t.erase = u.erase := by
  have hchars : t.erase.chars ++ [] = u.erase.chars ++ [] := by
    rw [chars, chars, erase, erase, outline_map, outline_map, h]
  exact (reads_of_legible (ht.map _) (hu.map _) ends_nil ends_nil hchars).1

theorem Legible.node {e : Expr α} (hnames : ∀ x ∈ e.ownNames, Lexeme.IsName x)
    (hnumber : ∀ a n, e = number a n → n.IsFinite) (h : ∀ c ∈ e.children, c.Legible) :
    e.Legible := by
  constructor
  · intro x hx
    rcases hx.cases with hx | ⟨c, hc, hx⟩
    · exact hnames x hx
    · exact (h c hc).names x hx
  · intro a n hn
    rcases hn.cases_head with heq | ⟨c, hc, hn⟩
    · exact hnumber a n heq
    · exact (h c hc).numbers a n hn

-- the conditional `(if (x < 0.5) do "\"" else (- x))`, with one annotation everywhere
def condSample (a : α) : Expr α :=
  cond a (binary a .lt (name a "x") (number a (.float (.ofBits 0x3FE0000000000000))))
    (text a "\"") [] (some (unary a .neg (name a "x")))

-- the call `(fn(x) -> c)(2)`, where `c` is the conditional
def callSample (a : α) : Expr α :=
  call a (function a none ["x"] (condSample a)) [number a (.int 2)]

theorem isName_x : Lexeme.IsName "x" := by
  refine ⟨⟨'x', [], rfl, by decide, by simp⟩, fun k => ?_⟩
  cases k <;> decide

theorem legible_condSample (a : α) : (condSample a).Legible := by
  have hname : (name a "x").Legible :=
    .node (by simp [ownNames, isName_x]) (by simp) (by simp [children, parts])
  have htext : (text a "\"").Legible :=
    .node (by simp [ownNames]) (by simp) (by simp [children, parts])
  have hhalf : (number a (.float (.ofBits 0x3FE0000000000000))).Legible :=
    .node (by simp [ownNames]) (by rintro _ _ ⟨⟩; exact ⟨false, _, rfl⟩) (by simp [children, parts])
  have htest : (binary a .lt (name a "x")
      (number a (.float (.ofBits 0x3FE0000000000000)))).Legible :=
    .node (by simp [ownNames]) (by simp) (by simp [children, parts, hname, hhalf])
  have hneg : (unary a .neg (name a "x")).Legible :=
    .node (by simp [ownNames]) (by simp) (by simp [children, parts, hname])
  exact .node (by simp [condSample, ownNames]) (by simp [condSample])
    (by simp [condSample, children, parts, htest, htext, hneg])

theorem legible_callSample (a : α) : (callSample a).Legible := by
  have htwo : (number a (.int 2)).Legible :=
    .node (by simp [ownNames]) (by simp [Number.IsFinite]) (by simp [children, parts])
  have hfunction : (function a none ["x"] (condSample a)).Legible :=
    .node (by simp [ownNames, isName_x]) (by simp) (by simp [children, legible_condSample])
  exact .node (by simp [callSample, ownNames]) (by simp [callSample])
    (by simp [callSample, children, parts, hfunction, htwo])

theorem outline_injective_annotations :
    (callSample 1).outline = (callSample true).outline ∧
      (callSample 1).erase = (callSample true).erase := by
  have h : (callSample 1).outline = (callSample true).outline := rfl
  exact ⟨h, outline_injective (legible_callSample 1) (legible_callSample true) h⟩

end ArrowScript.Expr
