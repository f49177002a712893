import Mathlib
import ArrowScript.Expr.Outline
import ArrowScript.Proofs.Nodes
import ArrowScript.Proofs.NumberIdentity
import ArrowScript.Proofs.QuotedText
import ArrowScript.Proofs.Written

/-! The text of an outline. Words end before blanks, commas and parentheses. The head of a tree,
which is what remains when all calls are taken off, shows by its first word what kind of node it
is. -/

namespace ArrowScript

namespace Outline

def inWord (c : Char) : Bool := c != ' ' && c != '(' && c != ')' && c != ','

def Stops (s : List Char) : Prop := ∀ c ∈ s.head?, inWord c = false

def Ends (s : List Char) : Prop := Stops s ∧ s.head? ≠ some '('

variable {c : Char} {w w' r r' s s' : List Char}

theorem stops_cons (h : inWord c = false) : Stops (c :: s) := by
  rintro d ⟨⟩
  exact h

theorem ends_cons (h : inWord c = false) (hc : c ≠ '(') : Ends (c :: s) :=
  ⟨stops_cons h, fun heq => hc (Option.some.inj heq)⟩

@[simp] theorem ends_blank : Ends (' ' :: s) := ends_cons rfl (by decide)

@[simp] theorem ends_comma : Ends (',' :: s) := ends_cons rfl (by decide)

@[simp] theorem ends_closing : Ends (')' :: s) := ends_cons rfl (by decide)

theorem ends_nil : Ends [] := ⟨by simp [Stops], by simp⟩

theorem word_append (hw : ∀ c ∈ w, inWord c) (hw' : ∀ c ∈ w', inWord c) (hr : Stops r)
    (hr' : Stops r') (h : w ++ r = w' ++ r') : w = w' ∧ r = r' := by
  have hword : w = w' := by
    rw [← Lexeme.takeWhile_run hw hr, h, Lexeme.takeWhile_run hw' hr']
  subst hword
  exact ⟨rfl, List.append_cancel_left h⟩

theorem inWord_of_nameChar (h : Lexeme.NameChar c) : inWord c := by
  have hne {d : Char} (hd : ¬ Lexeme.NameChar d) : c != d := by
    rw [bne_iff_ne]
    rintro rfl
    exact hd h
  simp only [inWord, Bool.and_eq_true]
  exact ⟨⟨⟨hne (by decide), hne (by decide)⟩, hne (by decide)⟩, hne (by decide)⟩

def leadWords : List String := ["+", "-", "not", "set", "if", "for", "while", "fn"]

structure IsWord (x : String) : Prop where
  chars : ∀ c ∈ x.toList, inWord c
  ne_nil : x.toList ≠ []
  free : x ∉ leadWords

theorem IsWord.append {x y : String} (hx : IsWord x) (hy : IsWord y) (hr : Stops r)
    (hr' : Stops r') (h : x.toList ++ r = y.toList ++ r') : x = y ∧ r = r' := by
  obtain ⟨hxy, hrest⟩ := word_append hx.chars hy.chars hr hr' h
  exact ⟨String.toList_injective hxy, hrest⟩

theorem isWord_name {x : String} (h : Lexeme.IsName x) : IsWord x := by
  obtain ⟨c, cs, hx, hc, hcs⟩ := h.chars
  refine ⟨?_, by simp [hx], ?_⟩
  · intro d hd
    rw [hx, List.mem_cons] at hd
    rcases hd with rfl | hd
    · exact inWord_of_nameChar (.inl hc)
    · exact inWord_of_nameChar (hcs d hd)
  · intro hmem
    simp only [leadWords, List.mem_cons, List.not_mem_nil, or_false] at hmem
    rcases hmem with rfl | rfl | rfl | rfl | rfl | rfl | rfl | rfl
    · cases hx
      exact absurd hc (by decide)
    · cases hx
      exact absurd hc (by decide)
    · exact h.free .not rfl
    · exact h.free .set rfl
    · exact h.free .if_ rfl
    · exact h.free .for_ rfl
    · exact h.free .while_ rfl
    · exact h.free .fn rfl

theorem isWord_number {n : Number} (h : n.IsFinite) : IsWord n.toText := by
  obtain ⟨negative, cs, htext, hcs⟩ := h.toText_eq
  have hnumeral : ∀ c ∈ cs, inWord c := by
    intro c hc
    rcases hcs.chars c hc with hdigit | rfl
    · exact inWord_of_nameChar (.inr (.inl hdigit))
    · rfl
  obtain ⟨c, hc⟩ := List.exists_mem_of_ne_nil _ hcs.ne_nil
  have hmem : c ∈ n.toText.toList := by
    rw [htext]
    cases negative with
    | false => exact hc
    | true => exact .tail _ hc
  refine ⟨?_, List.ne_nil_of_mem hmem, ?_⟩
  · rw [htext]
    intro d hd
    cases negative with
    | false => exact hnumeral d hd
    | true =>
      rcases List.mem_cons.1 hd with rfl | hd
      · rfl
      · exact hnumeral d hd
  · have hwords : ∀ w ∈ leadWords, ∀ c ∈ w.toList, ¬ (c.isDigit ∨ c = '.') := by simp [leadWords]
    exact fun hword => hwords _ hword c hmem (hcs.chars c hc)

inductive Begins : List Char → Prop
  | word {x : String} {r : List Char} (hx : IsWord x) (hr : Stops r) : Begins (x.toList ++ r)
  | quote (r : List Char) : Begins ('"' :: r)
  | opening (r : List Char) : Begins ('(' :: r)

theorem Begins.not_ends (h : Begins s) : ¬ Ends s := by
  intro hends
  cases h with
  | @word x r hx hr =>
    obtain ⟨c, cs, hc⟩ := List.exists_cons_of_ne_nil hx.ne_nil
    have hword := hx.chars c (by simp [hc])
    rw [hc] at hends
    simp [hends.1 c rfl] at hword
  | quote r => exact absurd (hends.1 '"' rfl) (by decide)
  | opening r => exact hends.2 rfl

theorem Begins.not_leadWord (h : Begins s) : String.ofList (s.takeWhile inWord) ∉ leadWords := by
  cases h with
  | word hx hr =>
    rw [Lexeme.takeWhile_run hx.chars hr, String.ofList_toList]
    exact hx.free
  | quote r =>
    have hwords : ∀ w ∈ leadWords, '"' ∉ w.toList := by simp [leadWords]
    exact fun hword => hwords _ hword (by simp [inWord])
  | opening r => simp [inWord, leadWords]

theorem inWord_symbol (op : BinaryOp) : ∀ c ∈ op.symbol.toList, inWord c := by
  cases op <;> simp [BinaryOp.symbol, inWord]

theorem symbol_append {op op' : BinaryOp} (hr : Stops r) (hr' : Stops r')
    (h : op.symbol.toList ++ r = op'.symbol.toList ++ r') : op = op' ∧ r = r' := by
  obtain ⟨hsymbol, hrest⟩ := word_append (inWord_symbol op) (inWord_symbol op') hr hr' h
  refine ⟨?_, hrest⟩
  have hinjective : ∀ op op' : BinaryOp, op.symbol = op'.symbol → op = op' := by
    intro op op'
    cases op <;> cases op' <;> decide
  exact hinjective op op' (String.toList_injective hsymbol)

def listRest (texts : List String) (s : List Char) : List Char :=
  match texts with
  | [] => ')' :: s
  | _ => ',' :: ' ' :: ((Expr.commaSeparated texts).toList ++ ')' :: s)

theorem ends_listRest (texts : List String) (s : List Char) : Ends (listRest texts s) := by
  cases texts <;> simp [listRest]

theorem commaSeparated_nil (s : List Char) :
    (Expr.commaSeparated []).toList ++ ')' :: s = ')' :: s := rfl

theorem commaSeparated_cons (x : String) (texts : List String) (s : List Char) :
    (Expr.commaSeparated (x :: texts)).toList ++ ')' :: s = x.toList ++ listRest texts s := by
  cases texts <;> simp [listRest, Expr.commaSeparated]

theorem commaSeparated_append {β : Type} {text : β → String} {as bs : List β}
    (hread : ∀ a ∈ as, ∀ b ∈ bs, ∀ r r', Ends r → Ends r' →
      (text a).toList ++ r = (text b).toList ++ r' → a = b ∧ r = r')
    (has : ∀ a ∈ as, ∀ r, Ends r → ¬ Ends ((text a).toList ++ r))
    (hbs : ∀ b ∈ bs, ∀ r, Ends r → ¬ Ends ((text b).toList ++ r))
    (h : (Expr.commaSeparated (as.map text)).toList ++ ')' :: s =
      (Expr.commaSeparated (bs.map text)).toList ++ ')' :: s') : as = bs ∧ s = s' := by
  induction as generalizing bs with
  | nil =>
    cases bs with
    | nil => exact ⟨rfl, by simpa using h⟩
    | cons b bs =>
      rw [List.map_nil, commaSeparated_nil, List.map_cons, commaSeparated_cons] at h
      exact absurd (h ▸ ends_closing) (hbs b (by simp) _ (ends_listRest ..))
  | cons a as ih =>
    cases bs with
    | nil =>
      rw [List.map_nil, commaSeparated_nil, List.map_cons, commaSeparated_cons] at h
      exact absurd (h ▸ ends_closing) (has a (by simp) _ (ends_listRest ..))
    | cons b bs =>
      rw [List.map_cons, List.map_cons, commaSeparated_cons, commaSeparated_cons] at h
      obtain ⟨rfl, hrest⟩ :=
        hread a (by simp) b (by simp) _ _ (ends_listRest ..) (ends_listRest ..) h
      have htail : as = bs ∧ s = s' := by
        refine ih (fun a ha b hb => hread a (.tail _ ha) b (.tail _ hb))
          (fun a ha => has a (.tail _ ha)) (fun b hb => hbs b (.tail _ hb)) ?_
        cases as <;> cases bs
        · exact hrest
        · simp [listRest] at hrest
        · simp [listRest] at hrest
        · exact List.tail_eq_of_cons_eq (List.tail_eq_of_cons_eq hrest)
      rw [htail.1]
      exact ⟨rfl, htail.2⟩

end Outline

namespace Expr

open Outline

variable {α β : Type}

/-- Trees as they are read: all names are names of the language, and all numbers are finite. -/
structure Legible (e : Expr α) : Prop where
  names : ∀ x, e.Mentions x → Lexeme.IsName x
  numbers : ∀ a n, e.Contains (number a n) → n.IsFinite

theorem Legible.child {e c : Expr α} (h : e.Legible) (hc : c ∈ e.children) : c.Legible :=
  ⟨fun x hx => h.names x (hx.of_child hc), fun a n hn => h.numbers a n (.head hc hn)⟩

theorem Legible.own {e : Expr α} (h : e.Legible) : ∀ x ∈ e.ownNames, Lexeme.IsName x :=
  fun x hx => h.names x ⟨e, .refl, hx⟩

def chars (e : Expr α) : List Char := e.outline.toList

theorem outlineList_eq (es : List (Expr α)) : outlineList es = es.map outline := by
  induction es with
  | nil => rfl
  | cons e es ih => rw [outlineList, ih, List.map_cons]

def nameChars : Option String → List Char
  | none => []
  | some x => ' ' :: x.toList

section Equations

variable {a : α} {x : String} {e e' t b i j : Expr α}

theorem chars_binary (op : BinaryOp) : (binary a op e e').chars =
    '(' :: (e.chars ++ ' ' :: (op.symbol.toList ++ ' ' :: (e'.chars ++ [')']))) := by
  simp [chars, outline]

theorem chars_unary (op : UnaryOp) :
    (unary a op e).chars = '(' :: (op.symbol.toList ++ ' ' :: (e.chars ++ [')'])) := by
  simp [chars, outline]

theorem chars_assign : (assign a x e).chars =
    '(' :: ("set".toList ++ ' ' :: (x.toList ++ ' ' :: (e.chars ++ [')']))) := by
  simp [chars, outline]

theorem chars_cond (arms : List (Expr α × Expr α)) (other : Option (Expr α)) :
    (cond a t b arms other).chars = '(' :: ("if".toList ++ ' ' :: (t.chars ++ ' ' ::
      ("do".toList ++ ' ' :: (b.chars ++ ((outlineArms arms).toList ++
        ((outlineTail " else " other).toList ++ [')'])))))) := by
  simp [chars, outline]

theorem chars_forRange (step : Option (Expr α)) : (forRange a x i j step b).chars =
    '(' :: ("for".toList ++ ' ' :: (x.toList ++ ' ' :: ("from".toList ++ ' ' :: (i.chars ++ ' ' ::
      ("to".toList ++ ' ' :: (j.chars ++ ((outlineTail " by " step).toList ++ ' ' ::
        ("then".toList ++ ' ' :: (b.chars ++ [')']))))))))) := by
  simp [chars, outline]

theorem chars_whileLoop : (whileLoop a t b).chars = '(' :: ("while".toList ++ ' ' ::
    (t.chars ++ ' ' :: ("then".toList ++ ' ' :: (b.chars ++ [')'])))) := by
  simp [chars, outline]

theorem chars_function (n : Option String) (ps : List String) : (function a n ps b).chars =
    '(' :: ("fn".toList ++ (nameChars n ++ '(' :: ((commaSeparated ps).toList ++ ')' :: ' ' ::
      ("->".toList ++ ' ' :: (b.chars ++ [')']))))) := by
  cases n <;> simp [chars, outline, nameChars]

theorem chars_call (es : List (Expr α)) : (call a e es).chars =
    e.chars ++ '(' :: ((commaSeparated (es.map outline)).toList ++ [')']) := by
  simp [chars, outline, outlineList_eq]

end Equations

def head : Expr α → Expr α
  | call _ c _ => head c
  | e => e

def arguments : Expr α → List (List (Expr α))
  | call _ c es => arguments c ++ [es]
  | _ => []

def argumentChars (ess : List (List (Expr α))) : List Char :=
  ess.flatMap fun es => '(' :: ((commaSeparated (es.map outline)).toList ++ [')'])

theorem argumentChars_concat (ess : List (List (Expr α))) (es : List (Expr α)) :
    argumentChars (ess ++ [es]) =
      argumentChars ess ++ '(' :: ((commaSeparated (es.map outline)).toList ++ [')']) := by
  rw [argumentChars, List.flatMap_append, List.flatMap_singleton]
  rfl

theorem chars_eq (e : Expr α) : e.chars = e.head.chars ++ argumentChars e.arguments := by
  induction e with
  | call a c es hc _ =>
    rw [chars_call, hc, arguments, argumentChars_concat, ← List.append_assoc]
    rfl
  | _ => exact (List.append_nil _).symm

theorem head_head (e : Expr α) : e.head.head = e.head := by
  induction e with
  | call a c es hc _ => exact hc
  | _ => rfl

theorem head_ne_call (e : Expr α) (a : α) (c : Expr α) (es : List (Expr α)) :
    e.head ≠ call a c es := by
  induction e with
  | call _ _ _ hc _ => exact hc
  | _ => simp [head]

theorem contains_head (e : Expr α) : e.Contains e.head := by
  induction e with
  | call a c es hc _ => exact .head (List.mem_cons_self ..) hc
  | _ => exact .refl

theorem Legible.head {e : Expr α} (h : e.Legible) : e.head.Legible where
  names := fun x ⟨n, hn, hx⟩ => h.names x ⟨n, e.contains_head.trans hn, hx⟩
  numbers := fun a n hn => h.numbers a n (e.contains_head.trans hn)

theorem Legible.arguments {e : Expr α} (h : e.Legible) :
    ∀ es ∈ e.arguments, ∀ e ∈ es, e.Legible := by
  induction e with
  | call a c es hc _ =>
    intro fs hfs
    rcases List.mem_append.1 hfs with hfs | hfs
    · exact hc (h.child (by simp [children, parts])) fs hfs
    · rw [List.mem_singleton.1 hfs]
      exact fun f hf => h.child (by simp [children, parts, hf])
  | _ => simp [Expr.arguments]

theorem eq_of_head {e e' : Expr Unit} (hhead : e.head = e'.head)
    (hargs : e.arguments = e'.arguments) : e = e' := by
  induction e generalizing e' with
  | call a c es hc _ =>
    cases e' with
    | call a' c' es' =>
      obtain ⟨hcallee, hlast⟩ := List.append_inj' hargs rfl
      have hsame : c = c' := hc hhead hcallee
      rw [hsame, List.singleton_inj.1 hlast]
    | _ => simp [arguments] at hargs
  | _ =>
    cases e' with
    | call a' c' es' => simp [arguments] at hargs
    | _ => exact hhead

theorem stops_argumentChars (ess : List (List (Expr α))) {s : List Char} (hs : Stops s) :
    Stops (argumentChars ess ++ s) := by
  cases ess with
  | nil => exact hs
  | cons es ess => exact stops_cons rfl

theorem chars_append (e : Expr α) (s : List Char) :
    e.chars ++ s = e.head.chars ++ (argumentChars e.arguments ++ s) := by
  rw [chars_eq, List.append_assoc]

theorem begins_chars {e : Expr α} (he : e.Legible) {s : List Char} (hs : Stops s) :
    Begins (e.chars ++ s) := by
  induction e generalizing s with
  | number a n => exact .word (isWord_number (he.numbers a n .refl)) hs
  | text a x =>
    rw [chars, outline, Text.quote, String.toList_ofList]
    exact .quote _
  | name a x => exact .word (isWord_name (he.own x (by simp [ownNames]))) hs
  | binary => rw [chars_binary]; exact .opening _
  | unary => rw [chars_unary]; exact .opening _
  | assign => rw [chars_assign]; exact .opening _
  | cond => rw [chars_cond]; exact .opening _
  | forRange => rw [chars_forRange]; exact .opening _
  | whileLoop => rw [chars_whileLoop]; exact .opening _
  | function => rw [chars_function]; exact .opening _
  | call a c es hc _ =>
    rw [chars_call, List.append_assoc]
    exact hc (he.child (by simp [children, parts])) (stops_cons rfl)

inductive Lead where
  | number | text | name | binary
  | unary (op : UnaryOp)
  | assign | cond | forRange | whileLoop | function

def lead : Expr α → Lead
  | number .. => .number
  | text .. => .text
  | name .. => .name
  | unary _ op _ => .unary op
  | assign .. => .assign
  | cond .. => .cond
  | forRange .. => .forRange
  | whileLoop .. => .whileLoop
  | function .. => .function
  | _ => .binary

namespace Lead

def ofWord : String → Lead
  | "+" => .unary .plus
  | "-" => .unary .neg
  | "not" => .unary .not
  | "set" => .assign
  | "if" => .cond
  | "for" => .forRange
  | "while" => .whileLoop
  | "fn" => .function
  | _ => .binary

def ofChars : List Char → Lead
  | '"' :: _ => .text
  | '(' :: s => ofWord (String.ofList (s.takeWhile inWord))
  | c :: _ => if c.isAlpha then .name else .number
  | [] => .binary

theorem ofWord_eq_binary {w : String} (h : w ∉ leadWords) : ofWord w = .binary := by
  unfold ofWord
  split <;> simp_all [leadWords]

theorem ofChars_word {w : String} (hw : w ∈ leadWords) {r : List Char} (hr : Stops r) :
    ofChars ('(' :: (w.toList ++ r)) = ofWord w := by
  have hchars : ∀ w ∈ leadWords, ∀ c ∈ w.toList, inWord c := by simp [leadWords, inWord]
  rw [ofChars, Lexeme.takeWhile_run (hchars w hw) hr, String.ofList_toList]

theorem ofChars_cons {c : Char} (hc : inWord c) (hquote : c ≠ '"') (r : List Char) :
    ofChars (c :: r) = if c.isAlpha then .name else .number := by
  unfold ofChars
  split <;> rename_i heq
  · exact absurd (List.cons.inj heq).1 hquote
  · rw [(List.cons.inj heq).1] at hc
    cases hc
  · rw [(List.cons.inj heq).1]
  · cases heq

theorem ofChars_name {x : String} (h : Lexeme.IsName x) (s : List Char) :
    ofChars (x.toList ++ s) = .name := by
  obtain ⟨c, cs, hx, hc, -⟩ := h.chars
  have hword : inWord c := inWord_of_nameChar (.inl hc)
  have hquote : c ≠ '"' := by
    rintro rfl
    exact absurd hc (by decide)
  rw [hx, List.cons_append, ofChars_cons hword hquote, if_pos hc]

theorem ofChars_number {n : Number} (h : n.IsFinite) (s : List Char) :
    ofChars (n.toText.toList ++ s) = .number := by
  obtain ⟨negative, cs, htext, hcs⟩ := h.toText_eq
  rw [htext]
  cases negative with
  | true => rfl
  | false =>
    obtain ⟨c, cs, rfl⟩ := List.exists_cons_of_ne_nil hcs.ne_nil
    rcases hcs.chars c (by simp) with hdigit | rfl
    · have hword : inWord c := inWord_of_nameChar (.inr (.inl hdigit))
      have hquote : c ≠ '"' := by
        rintro rfl
        exact absurd hdigit (by decide)
      have halpha : ¬ c.isAlpha := by
        intro halpha
        simp [Lexeme.isDigit_eq_false_of_isAlpha halpha] at hdigit
      exact (ofChars_cons hword hquote _).trans (if_neg halpha)
    · rfl

theorem ofChars_chars {e : Expr α} (he : e.Legible) (hhead : e.head = e) (s : List Char) :
    ofChars (e.chars ++ s) = e.lead := by
  cases e with
  | number a n => exact ofChars_number (he.numbers a n .refl) s
  | text a x =>
    rw [chars, outline, Text.quote, String.toList_ofList]
    rfl
  | name a x => exact ofChars_name (he.own x (by simp [ownNames])) s
  | binary a op l r =>
    have hl : l.Legible := he.child (by simp [children, parts])
    rw [chars_binary, List.cons_append, List.append_assoc]
    exact ofWord_eq_binary (begins_chars hl ends_blank.1).not_leadWord
  | unary a op e =>
    rw [chars_unary, List.cons_append, List.append_assoc]
    refine (ofChars_word (by cases op <;> decide) ends_blank.1).trans ?_
    cases op <;> rfl
  | assign a x e =>
    rw [chars_assign, List.cons_append, List.append_assoc]
    exact ofChars_word (by decide) ends_blank.1
  | cond a t b arms other =>
    rw [chars_cond, List.cons_append, List.append_assoc]
    exact ofChars_word (by decide) ends_blank.1
  | forRange a x i j step b =>
    rw [chars_forRange, List.cons_append, List.append_assoc]
    exact ofChars_word (by decide) ends_blank.1
  | whileLoop a t b =>
    rw [chars_whileLoop, List.cons_append, List.append_assoc]
    exact ofChars_word (by decide) ends_blank.1
  | function a n ps b =>
    rw [chars_function, List.cons_append, List.append_assoc]
    refine ofChars_word (by decide) ?_
    cases n with
    | none => exact stops_cons rfl
    | some x => exact stops_cons rfl
  | call a c es => exact absurd hhead (head_ne_call c a c es)

end Lead

end Expr

end ArrowScript
