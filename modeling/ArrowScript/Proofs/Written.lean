import Mathlib
import ArrowScript.Expr.Outline
import ArrowScript.Proofs.Grammar
import ArrowScript.Proofs.NumberRoundTrip

/-! Trees written as sources, fully parenthesised. The text of a tree is made of the lexemes of its
tokens and of blanks. Names and numbers, which could run into what follows them, always stand before
a blank, a comma or a parenthesis. -/

namespace ArrowScript

def Text.literal (s : String) : String :=
  let escaped := s.toList.flatMap fun c => if c = '"' ∨ c = '\\' then ['\\', c] else [c]
  String.ofList ('"' :: escaped ++ ['"'])

namespace Expr

variable {α : Type}

mutual

def print : Expr α → String
  | number _ n => n.toText
  | text _ s => Text.literal s
  | name _ x => x
  | binary _ op l r => "(" ++ print l ++ " " ++ op.symbol ++ " " ++ print r ++ ")"
  | unary _ op e => "(" ++ op.symbol ++ " " ++ print e ++ ")"
  | assign _ x e => "(set " ++ x ++ " = " ++ print e ++ ")"
  | cond _ t b arms other =>
    "(if " ++ print t ++ " do " ++ print b ++ printArms arms ++ printTail " else " other ++ ")"
  | forRange _ x i j step b =>
    "(for " ++ x ++ " from " ++ print i ++ " to " ++ print j ++ printTail " by " step ++ " then "
      ++ print b ++ ")"
  | whileLoop _ t b => "(while " ++ print t ++ " then " ++ print b ++ ")"
  | function _ n ps b =>
    "(fn" ++ n.elim "" (" " ++ ·) ++ "(" ++ commaSeparated ps ++ ") -> " ++ print b ++ ")"
  | call _ c es => "(" ++ print c ++ ")(" ++ commaSeparated (printList es) ++ ")"

def printArms : List (Expr α × Expr α) → String
  | [] => ""
  | (t, b) :: arms => " elif " ++ print t ++ " do " ++ print b ++ printArms arms

def printTail (word : String) : Option (Expr α) → String
  | none => ""
  | some e => word ++ print e

def printList : List (Expr α) → List String
  | [] => []
  | e :: es => print e :: printList es

end

mutual

def tokens : Expr α → List TokenKind
  | number _ n => [.number n]
  | text _ s => [.text s]
  | name _ x => [.name x]
  | binary _ op l r => .symbol .opening :: tokens l ++ op.token :: tokens r ++ [.symbol .closing]
  | unary _ op e => .symbol .opening :: op.token :: tokens e ++ [.symbol .closing]
  | assign _ x e =>
    .symbol .opening :: .keyword .set :: .name x :: .symbol .assign :: tokens e
      ++ [.symbol .closing]
  | cond _ t b arms other =>
    .symbol .opening :: .keyword .if_ :: tokens t ++ .keyword .do_ :: tokens b ++ tokensArms arms
      ++ tokensTail .else_ other ++ [.symbol .closing]
  | forRange _ x i j step b =>
    .symbol .opening :: .keyword .for_ :: .name x :: .keyword .from_ :: tokens i
      ++ .keyword .to_ :: tokens j ++ tokensTail .by_ step ++ .keyword .then_ :: tokens b
      ++ [.symbol .closing]
  | whileLoop _ t b =>
    .symbol .opening :: .keyword .while_ :: tokens t ++ .keyword .then_ :: tokens b
      ++ [.symbol .closing]
  | function _ n ps b =>
    .symbol .opening :: .keyword .fn :: n.toList.map TokenKind.name ++ .symbol .opening ::
      Fragment.separated (ps.map fun x => [TokenKind.name x]) ++ .symbol .closing ::
      .symbol .arrow :: tokens b ++ [.symbol .closing]
  | call _ c es =>
    .symbol .opening :: tokens c ++ .symbol .closing :: .symbol .opening ::
      Fragment.separated (tokensList es) ++ [.symbol .closing]

def tokensArms : List (Expr α × Expr α) → List TokenKind
  | [] => []
  | (t, b) :: arms =>
    .keyword .elif :: tokens t ++ .keyword .do_ :: tokens b ++ tokensArms arms

def tokensTail (k : Keyword) : Option (Expr α) → List TokenKind
  | none => []
  | some e => .keyword k :: tokens e

def tokensList : List (Expr α) → List (List TokenKind)
  | [] => []
  | e :: es => tokens e :: tokensList es

end

end Expr

namespace Lexeme

structure IsName (x : String) : Prop where
  chars : ∃ c cs, x.toList = c :: cs ∧ c.isAlpha ∧ ∀ d ∈ cs, NameChar d
  free : ∀ k : Keyword, k.spelling ≠ x

def Lexes (cs : List Char) (ks : List TokenKind) : Prop :=
  ∃ ps, Splits cs ps ∧ ps.filterMap Segment.kind? = ks

def Apart (cs : List Char) : Prop := ∀ k, EndsBefore cs.head? k

def Prints (s : String) (ks : List TokenKind) : Prop :=
  ∀ cs ks', Apart cs → Lexes cs ks' → Lexes (s.toList ++ cs) (ks ++ ks')

structure Separates (s : String) (ks : List TokenKind) : Prop where
  apart : ∀ cs, Apart (s.toList ++ cs)
  lexes : ∀ cs ks', Lexes cs ks' → Lexes (s.toList ++ cs) (ks ++ ks')

variable {s d d' : String} {ks ks' us : List TokenKind} {k : TokenKind}

theorem apart_nil : Apart [] := endsBefore_none

theorem apart_cons {c : Char} (h : c = ' ' ∨ c = '(' ∨ c = ')' ∨ c = ',') (cs : List Char) :
    Apart (c :: cs) := by
  intro k
  have hname : ¬ NameChar c := by rcases h with rfl | rfl | rfl | rfl <;> decide
  have hdigit : ¬ (c.isDigit ∨ c = '.') := by rcases h with rfl | rfl | rfl | rfl <;> decide
  have hequal : c ≠ '=' := by rcases h with rfl | rfl | rfl | rfl <;> decide
  have harrow : c ≠ '>' := by rcases h with rfl | rfl | rfl | rfl <;> decide
  unfold EndsBefore
  split <;> simp_all

theorem spells_operator
    (h : (∃ t, k = .symbol t ∧ s = t.spelling) ∨ ∃ w, k = .keyword w ∧ s = w.spelling) :
    Spells s.toList k := by
  obtain ⟨t, rfl, rfl⟩ | ⟨w, rfl, rfl⟩ := h
  · exact .symbol t
  · exact .keyword w

theorem IsName.spells {x : String} (h : IsName x) : Spells x.toList (.name x) := by
  obtain ⟨c, cs, hx, hc, hcs⟩ := h.chars
  have hfree : ∀ k : Keyword, k.spelling.toList ≠ c :: cs :=
    fun k hk => h.free k (String.toList_injective (hk.trans hx.symm))
  have hspells := Spells.name hc hcs hfree
  rwa [← hx, String.ofList_toList] at hspells

theorem prints_of_spells (h : Spells s.toList k) : Prints s [k] := by
  rintro cs ks' hcs ⟨ps, hps, rfl⟩
  exact ⟨.lexeme s.toList k :: ps, .lexeme h (hcs k) hps, rfl⟩

namespace Separates

theorem prints (h : Separates s ks) : Prints s ks := fun cs ks' _ => h.lexes cs ks'

theorem append (h : Separates d ks) (h' : Separates d' ks') : Separates (d ++ d') (ks ++ ks') where
  apart cs := by
    rw [String.toList_append, List.append_assoc]
    exact h.apart _
  lexes cs us hcs := by
    rw [String.toList_append, List.append_assoc, List.append_assoc]
    exact h.lexes _ _ (h'.lexes cs us hcs)

theorem around (h : Separates d ks) (hs : Prints s us) (h' : Separates d' ks') :
    Separates (d ++ s ++ d') (ks ++ us ++ ks') where
  apart cs := by
    rw [String.toList_append, String.toList_append, List.append_assoc, List.append_assoc]
    exact h.apart _
  lexes cs vs hcs := by
    rw [String.toList_append, String.toList_append]
    simp only [List.append_assoc]
    exact h.lexes _ _ (hs _ _ (h'.apart cs) (h'.lexes cs vs hcs))

theorem blank : Separates " " [] where
  apart := apart_cons (c := ' ') (.inl rfl)
  lexes := by
    rintro cs ks ⟨ps, hps, rfl⟩
    exact ⟨.blank ' ' :: ps, .blank (by decide) hps, rfl⟩

theorem symbol (s : Symbol) (h : s = .opening ∨ s = .closing ∨ s = .comma) :
    Separates s.spelling [.symbol s] where
  apart := by
    rcases h with rfl | rfl | rfl
    · exact apart_cons (c := '(') (by simp)
    · exact apart_cons (c := ')') (by simp)
    · exact apart_cons (c := ',') (by simp)
  lexes := by
    rintro cs ks ⟨ps, hps, rfl⟩
    have hends : EndsBefore cs.head? (.symbol s) := by
      rcases h with rfl | rfl | rfl <;> trivial
    exact ⟨.lexeme s.spelling.toList (.symbol s) :: ps, .lexeme (.symbol s) hends hps, rfl⟩

theorem opening : Separates "(" [.symbol .opening] := symbol .opening (by simp)

theorem closing : Separates ")" [.symbol .closing] := symbol .closing (by simp)

theorem comma : Separates ", " [.symbol .comma] := (symbol .comma (by simp)).append blank

theorem word (k : Keyword) : Separates (" " ++ k.spelling ++ " ") [.keyword k] :=
  blank.around (prints_of_spells (.keyword k)) blank

theorem opened (k : Keyword) :
    Separates ("(" ++ k.spelling ++ " ") [.symbol .opening, .keyword k] :=
  opening.around (prints_of_spells (.keyword k)) blank

theorem operator (op : BinaryOp) : Separates (" " ++ op.symbol ++ " ") [op.token] := by
  have hspells : Spells op.symbol.toList op.token := spells_operator <| by
    cases op <;> first | exact .inl ⟨_, rfl, rfl⟩ | exact .inr ⟨_, rfl, rfl⟩
  exact blank.around (prints_of_spells hspells) blank

theorem sign (op : UnaryOp) :
    Separates ("(" ++ op.symbol ++ " ") [.symbol .opening, op.token] := by
  have hspells : Spells op.symbol.toList op.token := spells_operator <| by
    cases op <;> first | exact .inl ⟨_, rfl, rfl⟩ | exact .inr ⟨_, rfl, rfl⟩
  exact opening.around (prints_of_spells hspells) blank

theorem list {ss : List String} {kss : List (List TokenKind)} (hs : List.Forall₂ Prints ss kss)
    (h : Separates d ks) (h' : Separates d' ks') :
    Separates (d ++ Expr.commaSeparated ss ++ d') (ks ++ Fragment.separated kss ++ ks') := by
  induction hs generalizing d ks with
  | nil => simpa [Expr.commaSeparated, Fragment.separated] using h.append h'
  | cons hfirst hrest ih =>
    cases hrest with
    | nil => simpa [Expr.commaSeparated, Fragment.separated] using h.around hfirst h'
    | cons hnext hrest =>
      -- the first element and the comma belong to what stands before the others
      have := ih (h.around hfirst comma)
      simpa [Expr.commaSeparated, Fragment.separated, String.append_assoc] using this

end Separates

def TextItem.ofChar (c : Char) : TextItem :=
  if h : c = '"' ∨ c = '\\' then .escaped c else .plain c (h <| .inl ·) (h <| .inr ·)

theorem TextItem.spelling_ofChar (c : Char) :
    (ofChar c).spelling = if c = '"' ∨ c = '\\' then ['\\', c] else [c] := by
  unfold ofChar
  split_ifs <;> rfl

theorem TextItem.content_ofChar (c : Char) : (ofChar c).content = c := by
  unfold ofChar
  split_ifs with h
  · rcases h with rfl | rfl <;> rfl
  · rfl

theorem spells_literal (s : String) : Spells (Text.literal s).toList (.text s) := by
  have h := Spells.text (s.toList.map TextItem.ofChar)
  have hspelling : (s.toList.map TextItem.ofChar).flatMap TextItem.spelling =
      s.toList.flatMap fun c => if c = '"' ∨ c = '\\' then ['\\', c] else [c] := by
    simp only [List.flatMap_map, TextItem.spelling_ofChar]
  have hcontent : (s.toList.map TextItem.ofChar).map TextItem.content = s.toList := by
    simp [Function.comp_def, TextItem.content_ofChar]
  rw [hspelling, hcontent, String.ofList_toList] at h
  rwa [Text.literal, String.toList_ofList]

end Lexeme

namespace Expr

open Lexeme

/-- The trees that can be written: all names in them are names, and no number has a sign. -/
inductive Writable {α : Type} : Expr α → Prop
  | number {a n} (hn : n.Unsigned) : Writable (number a n)
  | text {a s} : Writable (text a s)
  | name {a x} (hx : IsName x) : Writable (name a x)
  | binary {a op l r} (hl : Writable l) (hr : Writable r) : Writable (binary a op l r)
  | unary {a op e} (he : Writable e) : Writable (unary a op e)
  | assign {a x e} (hx : IsName x) (he : Writable e) : Writable (assign a x e)
  | cond {a t b arms other} (ht : Writable t) (hb : Writable b)
      (htests : ∀ arm ∈ arms, Writable arm.1) (hbodies : ∀ arm ∈ arms, Writable arm.2)
      (hother : ∀ e ∈ other, Writable e) : Writable (cond a t b arms other)
  | forRange {a x i j step b} (hx : IsName x) (hi : Writable i) (hj : Writable j)
      (hstep : ∀ e ∈ step, Writable e) (hb : Writable b) : Writable (forRange a x i j step b)
  | whileLoop {a t b} (ht : Writable t) (hb : Writable b) : Writable (whileLoop a t b)
  | function {a n ps b} (hn : ∀ x ∈ n, IsName x) (hps : ∀ x ∈ ps, IsName x) (hb : Writable b) :
      Writable (function a n ps b)
  | call {a c es} (hc : Writable c) (hes : ∀ e ∈ es, Writable e) : Writable (call a c es)

variable {d : String} {ks : List TokenKind}

theorem separates_arms {arms : List (Expr α × Expr α)}
    (ht : ∀ arm ∈ arms, Prints arm.1.print arm.1.tokens)
    (hb : ∀ arm ∈ arms, Prints arm.2.print arm.2.tokens) (hd : Separates d ks) :
    Separates (printArms arms ++ d) (tokensArms arms ++ ks) := by
  induction arms with
  | nil => simpa [printArms, tokensArms] using hd
  | cons arm arms ih =>
    obtain ⟨t, b⟩ := arm
    rw [List.forall_mem_cons] at ht hb
    have helif : Separates " elif " [.keyword .elif] := .word .elif
    have hdo : Separates " do " [.keyword .do_] := .word .do_
    have h := (helif.around ht.1 hdo).around hb.1 (ih ht.2 hb.2)
    simpa [printArms, tokensArms, String.append_assoc] using h

theorem separates_tail {word : String} {k : Keyword} {other : Option (Expr α)}
    (hword : Separates word [.keyword k]) (he : ∀ e ∈ other, Prints e.print e.tokens)
    (hd : Separates d ks) : Separates (printTail word other ++ d) (tokensTail k other ++ ks) := by
  cases other with
  | none => simpa [printTail, tokensTail] using hd
  | some e => exact hword.around (he e rfl) hd

theorem prints_list {es : List (Expr α)} (he : ∀ e ∈ es, Prints e.print e.tokens) :
    List.Forall₂ Prints (printList es) (tokensList es) := by
  induction es with
  | nil => exact .nil
  | cons e es ih =>
    rw [List.forall_mem_cons] at he
    exact .cons he.1 (ih he.2)

theorem separates_head {n : Option String} (hn : ∀ x ∈ n, IsName x) :
    Separates ("(fn" ++ n.elim "" (" " ++ ·) ++ "(") (.symbol .opening :: .keyword .fn ::
      n.toList.map TokenKind.name ++ [.symbol .opening]) := by
  cases n with
  | none => exact Separates.opening.around (prints_of_spells (.keyword .fn)) .opening
  | some x =>
    have hfn : Separates ("(fn" ++ " ") [.symbol .opening, .keyword .fn] := .opened .fn
    rw [Option.elim_some, ← String.append_assoc]
    exact hfn.around (prints_of_spells (hn x rfl).spells) .opening

theorem Writable.prints {e : Expr α} (h : e.Writable) : Prints e.print e.tokens := by
  have hopen : Separates "(" [.symbol .opening] := .opening
  have hclose : Separates ")" [.symbol .closing] := .closing
  have hdo : Separates " do " [.keyword .do_] := .word .do_
  have hthen : Separates " then " [.keyword .then_] := .word .then_
  induction h with
  | number hn => exact prints_of_spells hn.spells
  | text => exact prints_of_spells (spells_literal _)
  | name hx => exact prints_of_spells hx.spells
  | @binary _ op _ _ _ _ ihl ihr =>
    have h := (hopen.around ihl (.operator op)).around ihr hclose
    simpa [print, tokens, String.append_assoc] using h.prints
  | @unary _ op _ _ ih => exact ((Separates.sign op).around ih hclose).prints
  | assign hx _ ih =>
    have hset : Separates "(set " [.symbol .opening, .keyword .set] := .opened .set
    have hsign : Separates " = " [.symbol .assign] :=
      .around .blank (prints_of_spells (.symbol .assign)) .blank
    have h := (hset.around (prints_of_spells hx.spells) hsign).around ih hclose
    simpa [print, tokens, String.append_assoc] using h.prints
  | cond _ _ _ _ _ iht ihb ihts ihbs ihe =>
    have hif : Separates "(if " [.symbol .opening, .keyword .if_] := .opened .if_
    have helse : Separates " else " [.keyword .else_] := .word .else_
    -- from the end on: what follows the first body begins with a separator in any case
    have htail := separates_arms ihts ihbs (separates_tail helse ihe hclose)
    have h := (hif.around iht hdo).around ihb htail
    simpa [print, tokens, String.append_assoc] using h.prints
  | forRange hx _ _ _ _ ihi ihj ihs ihb =>
    have hfor : Separates "(for " [.symbol .opening, .keyword .for_] := .opened .for_
    have hfrom : Separates " from " [.keyword .from_] := .word .from_
    have hto : Separates " to " [.keyword .to_] := .word .to_
    have hby : Separates " by " [.keyword .by_] := .word .by_
    have hrange := (hfor.around (prints_of_spells hx.spells) hfrom).around ihi hto
    have h := (hrange.around ihj (separates_tail hby ihs hthen)).around ihb hclose
    simpa [print, tokens, String.append_assoc] using h.prints
  | whileLoop _ _ iht ihb =>
    have hwhile : Separates "(while " [.symbol .opening, .keyword .while_] := .opened .while_
    have h := (hwhile.around iht hthen).around ihb hclose
    simpa [print, tokens, String.append_assoc] using h.prints
  | @function _ n ps b hn hps _ ih =>
    have hparams : List.Forall₂ Prints ps (ps.map fun x => [TokenKind.name x]) := by
      rw [List.forall₂_map_right_iff, List.forall₂_same]
      exact fun x hx => prints_of_spells (hps x hx).spells
    have harrow : Separates ") -> " [.symbol .closing, .symbol .arrow] :=
      .around (hclose.append .blank) (prints_of_spells (.symbol .arrow)) .blank
    have h := (Separates.list hparams (separates_head hn) harrow).around ih hclose
    simpa [print, tokens, String.append_assoc] using h.prints
  | call _ _ ihc ihes =>
    have hcall : Separates ")(" [.symbol .closing, .symbol .opening] := hclose.append hopen
    have h := Separates.list (prints_list ihes) (hopen.around ihc hcall) hclose
    simpa [print, tokens, String.append_assoc] using h.prints

end Expr

end ArrowScript
