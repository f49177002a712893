import Mathlib
import ArrowScript.Token.Stream

/-! The lexical grammar. A text is cut into blanks and lexemes, where a lexeme ends only before a
character that could not have prolonged it. A text has at most one such cut, and the token stream
of a text reports no fault exactly when it has one. -/

namespace ArrowScript

namespace Lexeme

def NameChar (c : Char) : Prop := c.isAlpha ∨ c.isDigit ∨ c = '_'

instance : DecidablePred NameChar := fun c =>
  inferInstanceAs (Decidable (c.isAlpha ∨ c.isDigit ∨ c = '_'))

inductive TextItem where
  | plain (c : Char) (hquote : c ≠ '"') (hescape : c ≠ '\\')
  | escaped (c : Char)

namespace TextItem

def spelling : TextItem → List Char
  | plain c _ _ => [c]
  | escaped c => ['\\', c]

def content : TextItem → Char
  | plain c _ _ => c
  | escaped c => if c = 'n' then '\n' else if c = 't' then '\t' else c

end TextItem

/-- `Spells w k`: the characters `w` are a lexeme, with the token `k`. -/
inductive Spells : List Char → TokenKind → Prop
  | integer {ds : List Char} {n : Int64} (hne : ds ≠ []) (hds : ∀ c ∈ ds, c.isDigit)
      (hn : n.toInt = Nat.ofDigitChars 10 ds 0) : Spells ds (.number (.int n))
  | large {ds : List Char} (hds : ∀ c ∈ ds, c.isDigit)
      (hn : 2 ^ 63 - 1 < Nat.ofDigitChars 10 ds 0) :
      Spells ds (.number (.float (.ofScientific (Nat.ofDigitChars 10 ds 0) false 0)))
  | decimal {whole fraction : List Char} (hwhole : ∀ c ∈ whole, c.isDigit) (hne : fraction ≠ [])
      (hfraction : ∀ c ∈ fraction, c.isDigit) :
      Spells (whole ++ '.' :: fraction) (.number (.float
        (.ofScientific (Nat.ofDigitChars 10 (whole ++ fraction) 0) true fraction.length)))
  | keyword (k : Keyword) : Spells k.spelling.toList (.keyword k)
  | name {c : Char} {cs : List Char} (hc : c.isAlpha) (hcs : ∀ d ∈ cs, NameChar d)
      (hk : ∀ k : Keyword, k.spelling.toList ≠ c :: cs) :
      Spells (c :: cs) (.name (String.ofList (c :: cs)))
  | text (items : List TextItem) :
      Spells ('"' :: items.flatMap TextItem.spelling ++ ['"'])
        (.text (String.ofList (items.map TextItem.content)))
  | symbol (s : Symbol) : Spells s.spelling.toList (.symbol s)

theorem isStop_of_spells {w : List Char} {k : TokenKind} (h : Spells w k) : k.isStop = false := by
  cases h <;> rfl

/-- The tokens that a lexeme may have when the character `next`, or the end of the text, follows. -/
def EndsBefore (next : Option Char) : TokenKind → Prop
  | .number _ => ∀ c ∈ next, ¬ (c.isDigit ∨ c = '.')
  | .name _ | .keyword _ => ∀ c ∈ next, ¬ NameChar c
  | .symbol .less | .symbol .greater | .symbol .assign => next ≠ some '='
  | .symbol .minus => next ≠ some '>'
  | _ => True

theorem endsBefore_none (k : TokenKind) : EndsBefore none k := by
  unfold EndsBefore
  split <;> simp

inductive Segment where
  | blank (c : Char)
  | lexeme (chars : List Char) (kind : TokenKind)

def Segment.kind? : Segment → Option TokenKind
  | blank _ => none
  | lexeme _ k => some k

/-- `Splits cs ps`: the text `cs` can be cut into the segments `ps`. -/
inductive Splits : List Char → List Segment → Prop
  | nil : Splits [] []
  | blank {c cs ps} (hc : Text.isBlank c) (h : Splits cs ps) : Splits (c :: cs) (.blank c :: ps)
  | lexeme {w k cs ps} (hw : Spells w k) (hk : EndsBefore cs.head? k) (h : Splits cs ps) :
      Splits (w ++ cs) (.lexeme w k :: ps)

def Begins (text : List Char) (k : TokenKind) (n : Nat) : Prop :=
  ∃ w cs, text = w ++ cs ∧ w.length = n + 1 ∧ Spells w k ∧ EndsBefore cs.head? k

section Characters

variable {c : Char}

theorem isNameChar_iff : isNameChar c = true ↔ NameChar c := by
  simp [isNameChar, NameChar, Char.isAlphanum, or_assoc]

theorem unescape_eq (c : Char) : unescape c = (TextItem.escaped c).content := by
  unfold unescape TextItem.content
  split <;> simp_all

theorem isBlank_eq_false (h : 32 < c.toNat) (h' : c.toNat ≤ 127) : Text.isBlank c = false := by
  have hranges : ∀ r ∈ Text.blankRanges, r.2 ≤ 32 ∨ 127 < r.1 := by decide
  rw [← Bool.not_eq_true, Text.isBlank, Text.Ranges.contains_iff]
  rintro ⟨r, hr, hlo, hhi⟩
  rcases hranges r hr with hr | hr <;> omega

theorem toNat_of_isAlpha (h : c.isAlpha = true) : 65 ≤ c.toNat ∧ c.toNat ≤ 122 := by
  simp only [Char.isAlpha, Char.isUpper, Char.isLower, Bool.or_eq_true, Bool.and_eq_true,
    decide_eq_true_eq, UInt32.le_iff_toNat_le, ge_iff_le] at h
  have hc : c.toNat = c.val.toNat := rfl
  have hA : 'A'.val.toNat = 65 := rfl
  have hZ : 'Z'.val.toNat = 90 := rfl
  have ha : 'a'.val.toNat = 97 := rfl
  have hz : 'z'.val.toNat = 122 := rfl
  omega

theorem toNat_of_isDigit (h : c.isDigit = true) : 48 ≤ c.toNat ∧ c.toNat ≤ 57 :=
  Char.isDigit_iff_toNat.1 h

theorem isDigit_eq_false_of_isAlpha (h : c.isAlpha = true) : c.isDigit = false := by
  rw [← Bool.not_eq_true]
  intro hd
  have := toNat_of_isAlpha h
  have := toNat_of_isDigit hd
  omega

end Characters

section First

variable {c : Char} {rest : List Char}

theorem first_of_digit (h : c.isDigit ∨ c = '.') : first c rest = number (c :: rest) := by
  have hb : Text.isBlank c = false := by
    rcases h with h | rfl
    · have := toNat_of_isDigit h
      exact isBlank_eq_false (by omega) (by omega)
    · decide
  simp [first, hb, h]

theorem first_of_alpha (h : c.isAlpha) : first c rest =
    ⟨.token (ofName (c :: rest.takeWhile isNameChar)), (rest.takeWhile isNameChar).length⟩ := by
  have hc := toNat_of_isAlpha h
  have hb : Text.isBlank c = false := isBlank_eq_false (by omega) (by omega)
  have hd : c.isDigit = false := isDigit_eq_false_of_isAlpha h
  have hp : c ≠ '.' := by rintro rfl; revert h; decide
  have hu : c ≠ '_' := by rintro rfl; revert h; decide
  simp [first, hb, hd, hp, hu, h]

theorem first_quote : first '"' rest = string rest := by
  have hb : Text.isBlank '"' = false := by decide
  simp [first, hb]

end First

section Runs

variable {p : Char → Bool} {w cs : List Char}

theorem takeWhile_run (hw : ∀ c ∈ w, p c) (hcs : ∀ c ∈ cs.head?, p c = false) :
    (w ++ cs).takeWhile p = w := by
  rw [List.takeWhile_append_of_pos hw]
  cases cs with
  | nil => simp
  | cons c cs => simp [hcs c rfl]

theorem dropWhile_run (hw : ∀ c ∈ w, p c) (hcs : ∀ c ∈ cs.head?, p c = false) :
    (w ++ cs).dropWhile p = cs := by
  rw [List.dropWhile_append_of_pos hw]
  cases cs with
  | nil => rfl
  | cons c cs => simp [hcs c rfl]

theorem exists_run (p : Char → Bool) (text : List Char) :
    ∃ w cs, text = w ++ cs ∧ (∀ c ∈ w, p c) ∧ ∀ c ∈ cs.head?, p c = false := by
  refine ⟨text.takeWhile p, text.dropWhile p, List.takeWhile_append_dropWhile.symm,
    fun c => List.mem_takeWhile_imp, fun c hc => ?_⟩
  have h := List.head?_dropWhile_not p text
  rw [Option.mem_def.mp hc] at h
  exact h

end Runs

section Numbers

variable {ds whole fraction cs : List Char}

theorem ofDigits_of_toInt {n : Int64} (h : n.toInt = Nat.ofDigitChars 10 ds 0) :
    Number.ofDigits ds = .int n := by
  have hd : (Decimal.ofDigits ds : Int) = n.toInt := h.symm
  have hfits : Number.Fits n.toInt := ⟨Int64.minValue_le_toInt n, Int64.toInt_le n⟩
  simp [Number.ofDigits, Number.ofInt?, hd, hfits]

theorem ofDigits_of_lt (h : 2 ^ 63 - 1 < Nat.ofDigitChars 10 ds 0) :
    Number.ofDigits ds = .float (.ofScientific (Nat.ofDigitChars 10 ds 0) false 0) := by
  have hd : Decimal.ofDigits ds = Nat.ofDigitChars 10 ds 0 := rfl
  have hfits : ¬ Number.Fits (Nat.ofDigitChars 10 ds 0 : Nat) := by
    rintro ⟨-, h'⟩
    have hmax : Int64.maxValue.toInt = 2 ^ 63 - 1 := rfl
    omega
  simp [Number.ofDigits, Number.ofInt?, hd, hfits]

theorem ofDecimal_eq (whole fraction : List Char) : Number.ofDecimal whole fraction =
    .float (.ofScientific (Nat.ofDigitChars 10 (whole ++ fraction) 0) true fraction.length) := rfl

theorem spells_digits (hne : ds ≠ []) (hds : ∀ c ∈ ds, c.isDigit) :
    Spells ds (.number (.ofDigits ds)) := by
  by_cases h : 2 ^ 63 - 1 < Nat.ofDigitChars 10 ds 0
  · rw [ofDigits_of_lt h]
    exact .large hds h
  · have hn : (Int64.ofNat (Nat.ofDigitChars 10 ds 0)).toInt = Nat.ofDigitChars 10 ds 0 :=
      Int64.toInt_ofNat_of_lt (by omega)
    rw [ofDigits_of_toInt hn]
    exact .integer hne hds hn

theorem number_digits (hds : ∀ c ∈ ds, c.isDigit) (hcs : ∀ c ∈ cs.head?, ¬ (c.isDigit ∨ c = '.')) :
    number (ds ++ cs) = ⟨.token (.number (.ofDigits ds)), ds.length - 1⟩ := by
  have hdigit : ∀ c ∈ cs.head?, c.isDigit = false := by
    intro c hc
    simpa using fun h => hcs c hc (.inl h)
  simp only [number, takeWhile_run hds hdigit, dropWhile_run hds hdigit]
  split
  · exact absurd (.inr rfl) (hcs '.' rfl)
  · rfl

theorem number_decimal (hwhole : ∀ c ∈ whole, c.isDigit) (hne : fraction ≠ [])
    (hfraction : ∀ c ∈ fraction, c.isDigit) (hcs : ∀ c ∈ cs.head?, ¬ (c.isDigit ∨ c = '.')) :
    number (whole ++ '.' :: (fraction ++ cs)) =
      ⟨.token (.number (.ofDecimal whole fraction)), whole.length + fraction.length⟩ := by
  have hdigit : ∀ c ∈ cs.head?, c.isDigit = false := by
    intro c hc
    simpa using fun h => hcs c hc (.inl h)
  have hpoint : ∀ c ∈ ('.' :: (fraction ++ cs)).head?, c.isDigit = false := by
    intro c hc
    cases hc
    decide
  simp only [number, takeWhile_run hwhole hpoint, dropWhile_run hwhole hpoint,
    takeWhile_run hfraction hdigit, dropWhile_run hfraction hdigit]
  rw [if_neg (by simpa using hne)]
  split
  · exact absurd (.inr rfl) (hcs '.' rfl)
  · rfl

theorem begins_of_number {text : List Char} {k : TokenKind} {n : Nat}
    (hhead : ∃ c ∈ text.head?, c.isDigit ∨ c = '.') (h : number text = ⟨.token k, n⟩) :
    Begins text k n := by
  obtain ⟨whole, tail, rfl, hwhole, htail⟩ := exists_run Char.isDigit text
  by_cases hpoint : tail.head? = some '.'
  · obtain ⟨more, rfl⟩ : ∃ more, tail = '.' :: more := by
      cases tail <;> simp_all
    obtain ⟨fraction, cs, rfl, hfraction, hcs⟩ := exists_run Char.isDigit more
    simp only [number, takeWhile_run hwhole htail, dropWhile_run hwhole htail,
      takeWhile_run hfraction hcs, dropWhile_run hfraction hcs] at h
    split_ifs at h with hempty
    · cases h
    have hne : fraction ≠ [] := by simpa using hempty
    split at h
    · cases h
    · rename_i hdot
      cases h
      refine ⟨whole ++ '.' :: fraction, cs, by simp, by simp; omega,
        .decimal hwhole hne hfraction, ?_⟩
      intro c hc
      rintro (hd | rfl)
      · simp [hcs c hc] at hd
      · cases cs with
        | nil => cases hc
        | cons d cs =>
          cases hc
          exact hdot cs rfl
  · simp only [number, takeWhile_run hwhole htail, dropWhile_run hwhole htail] at h
    split at h
    · simp at hpoint
    · cases h
      have hne : whole ≠ [] := by
        rintro rfl
        obtain ⟨c, hc, hd | rfl⟩ := hhead
        · simp [htail c hc] at hd
        · exact hpoint hc
      have hlen : 0 < whole.length := List.length_pos_of_ne_nil hne
      refine ⟨whole, tail, rfl, by omega, spells_digits hne hwhole, ?_⟩
      rintro c hc (hd | rfl)
      · simp [htail c hc] at hd
      · exact hpoint hc

end Numbers

section Names

variable {c : Char} {cs : List Char}

theorem ofSpelling?_eq_some {x : String} {k : Keyword} :
    Keyword.ofSpelling? x = some k ↔ k.spelling = x := by
  constructor
  · intro h
    simpa using List.find?_some h
  · rintro rfl
    cases k <;> decide

theorem keyword_chars (k : Keyword) :
    ∃ c cs, k.spelling.toList = c :: cs ∧ c.isAlpha ∧ ∀ d ∈ cs, NameChar d := by
  have hne : k.spelling.toList ≠ [] := by cases k <;> decide
  have hall : k.spelling.toList.all Char.isAlpha = true := by cases k <;> decide
  obtain ⟨c, cs, hcs⟩ := List.exists_cons_of_ne_nil hne
  rw [hcs, List.all_eq_true, List.forall_mem_cons] at hall
  exact ⟨c, cs, hcs, hall.1, fun d hd => .inl (hall.2 d hd)⟩

theorem ofName_keyword (k : Keyword) : ofName k.spelling.toList = .keyword k := by
  have h : Keyword.ofSpelling? k.spelling = some k := ofSpelling?_eq_some.2 rfl
  simp [ofName, h]

theorem ofName_name {w : List Char} (h : ∀ k : Keyword, k.spelling.toList ≠ w) :
    ofName w = .name (String.ofList w) := by
  have hnone : Keyword.ofSpelling? (String.ofList w) = none := by
    rw [Option.eq_none_iff_forall_ne_some]
    intro k hk
    refine h k ?_
    rw [ofSpelling?_eq_some.1 hk, String.toList_ofList]
  simp [ofName, hnone]

theorem spells_ofName (hc : c.isAlpha) (hcs : ∀ d ∈ cs, NameChar d) :
    Spells (c :: cs) (ofName (c :: cs)) := by
  by_cases h : ∃ k : Keyword, k.spelling.toList = c :: cs
  · obtain ⟨k, hk⟩ := h
    rw [← hk, ofName_keyword]
    exact .keyword k
  · rw [not_exists] at h
    rw [ofName_name h]
    exact .name hc hcs h

theorem endsBefore_ofName {next : Option Char} {w : List Char} :
    EndsBefore next (ofName w) ↔ ∀ c ∈ next, ¬ NameChar c := by
  unfold ofName
  dsimp only
  split <;> rfl

theorem first_name {rest : List Char} (hc : c.isAlpha) (hcs : ∀ d ∈ cs, NameChar d)
    (hrest : ∀ d ∈ rest.head?, ¬ NameChar d) :
    first c (cs ++ rest) = ⟨.token (ofName (c :: cs)), cs.length⟩ := by
  have htake : (cs ++ rest).takeWhile isNameChar = cs :=
    takeWhile_run (fun d hd => isNameChar_iff.2 (hcs d hd)) fun d hd => by
      simpa [← isNameChar_iff] using hrest d hd
  rw [first_of_alpha hc, htake]

theorem begins_of_alpha {rest : List Char} {k : TokenKind} {n : Nat} (hc : c.isAlpha)
    (h : first c rest = ⟨.token k, n⟩) : Begins (c :: rest) k n := by
  obtain ⟨w, cs, rfl, hw, hcs⟩ := exists_run isNameChar rest
  have hw' : ∀ d ∈ w, NameChar d := fun d hd => isNameChar_iff.1 (hw d hd)
  have hcs' : ∀ d ∈ cs.head?, ¬ NameChar d := fun d hd => by
    simpa [← isNameChar_iff] using hcs d hd
  rw [first_name hc hw' hcs'] at h
  cases h
  exact ⟨c :: w, cs, rfl, rfl, spells_ofName hc hw', endsBefore_ofName.2 hcs'⟩

end Names

section Texts

theorem stringTail_items (items : List TextItem) (cs content : List Char) (n : Nat) :
    stringTail content n (items.flatMap TextItem.spelling ++ '"' :: cs) =
      some (content.reverse ++ items.map TextItem.content,
        n + (items.flatMap TextItem.spelling).length + 1) := by
  induction items generalizing content n with
  | nil => simp [stringTail]
  | cons item items ih =>
    cases item with
    | plain c hquote hescape =>
      have hstep : stringTail content n (c :: (items.flatMap TextItem.spelling ++ '"' :: cs)) =
          stringTail (c :: content) (n + 1) (items.flatMap TextItem.spelling ++ '"' :: cs) := by
        rw [stringTail.eq_4] <;> simp_all
      simp only [List.flatMap_cons, TextItem.spelling, List.cons_append, List.nil_append, hstep, ih]
      simp [TextItem.content]
      omega
    | escaped c =>
      simp only [List.flatMap_cons, TextItem.spelling, List.cons_append, List.nil_append,
        stringTail, ih, unescape_eq]
      simp
      omega

theorem items_of_stringTail {rest content content' : List Char} {n n' : Nat}
    (h : stringTail content n rest = some (content', n')) :
    ∃ (items : List TextItem) (cs : List Char),
      rest = items.flatMap TextItem.spelling ++ '"' :: cs ∧
      content' = content.reverse ++ items.map TextItem.content ∧
      n' = n + (items.flatMap TextItem.spelling).length + 1 := by
  fun_induction stringTail content n rest with
  | case1 => cases h
  | case2 content n cs =>
    cases h
    exact ⟨[], cs, rfl, by simp, by simp⟩
  | case3 content n c rest ih =>
    obtain ⟨items, cs, rfl, rfl, rfl⟩ := ih h
    refine ⟨.escaped c :: items, cs, by simp [TextItem.spelling], by simp [unescape_eq], ?_⟩
    simp [TextItem.spelling]
    omega
  | case4 content n c rest hquote hescape ih =>
    obtain ⟨items, cs, hrest, rfl, rfl⟩ := ih h
    -- a backslash that escapes nothing would be the last character, but a quote follows
    have hne : c ≠ '\\' := by
      intro hc
      obtain ⟨d, ds, hd⟩ := List.exists_cons_of_ne_nil
        (show items.flatMap TextItem.spelling ++ '"' :: cs ≠ [] by simp)
      exact hescape d ds hc (hrest.trans hd)
    refine ⟨.plain c hquote hne :: items, cs, by simp [TextItem.spelling, hrest],
      by simp [TextItem.content], ?_⟩
    simp [TextItem.spelling]
    omega

theorem begins_of_string {rest : List Char} {k : TokenKind} {n : Nat}
    (h : string rest = ⟨.token k, n⟩) : Begins ('"' :: rest) k n := by
  unfold string at h
  split at h
  · rename_i content n' htail
    cases h
    obtain ⟨items, cs, rfl, rfl, rfl⟩ := items_of_stringTail htail
    exact ⟨'"' :: items.flatMap TextItem.spelling ++ ['"'], cs, by simp, by simp, .text items,
      trivial⟩
  · cases h

end Texts

section Symbols

variable {c d : Char} {s : Symbol} {cs : List Char}

theorem single?_eq_some : Symbol.single? c = some s ↔ s.spelling.toList = [c] := by
  constructor
  · intro h
    unfold Symbol.single? at h
    split at h <;> cases h <;> rfl
  · intro h
    cases s <;> cases h <;> rfl

theorem double?_eq_some : Symbol.double? c d = some s ↔ s.spelling.toList = [c, d] := by
  constructor
  · intro h
    unfold Symbol.double? at h
    split at h <;> cases h <;> rfl
  · intro h
    cases s <;> cases h <;> rfl

theorem spelling_cases (s : Symbol) :
    (∃ c, s.spelling.toList = [c]) ∨ ∃ c d, s.spelling.toList = [c, d] := by
  rw [← List.length_eq_one_iff, ← List.length_eq_two]
  cases s <;> decide

theorem first_symbol {w rest : List Char} (h : s.spelling.toList = c :: w) :
    first c rest = symbol c rest := by
  cases s <;> cases h <;> rfl

theorem symbol_double (h : s.spelling.toList = [c, d]) :
    symbol c (d :: cs) = ⟨.token (.symbol s), 1⟩ := by
  have hd : Symbol.double? c d = some s := double?_eq_some.2 h
  simp [symbol, hd]

theorem symbol_single (h : s.spelling.toList = [c]) (hcs : EndsBefore cs.head? (.symbol s)) :
    symbol c cs = ⟨.token (.symbol s), 0⟩ := by
  have hs : Symbol.single? c = some s := single?_eq_some.2 h
  have hnone : cs.head?.bind (Symbol.double? c) = none := by
    rw [Option.eq_none_iff_forall_ne_some]
    intro s' hs'
    obtain ⟨d, hd, hs'⟩ := Option.bind_eq_some_iff.1 hs'
    have hspelling := double?_eq_some.1 hs'
    rw [hd] at hcs
    cases s' <;> cases hspelling <;> cases hs <;> exact hcs rfl
  simp [symbol, hnone, hs]

theorem begins_of_symbol {rest : List Char} {k : TokenKind} {n : Nat}
    (h : symbol c rest = ⟨.token k, n⟩) : Begins (c :: rest) k n := by
  unfold symbol at h
  split at h
  · rename_i s hs
    cases h
    obtain ⟨d, hd, hs⟩ := Option.bind_eq_some_iff.1 hs
    have hspelling := double?_eq_some.1 hs
    cases rest with
    | nil => cases hd
    | cons d' cs =>
      cases hd
      refine ⟨[c, d], cs, rfl, rfl, hspelling ▸ .symbol s, ?_⟩
      cases s <;> first | trivial | cases hspelling
  · rename_i s hnone hs
    cases h
    have hspelling := single?_eq_some.1 hs
    refine ⟨[c], rest, rfl, rfl, hspelling ▸ .symbol s, ?_⟩
    cases s <;> cases hspelling <;> first | trivial | (intro hd; rw [hd] at hnone; cases hnone)
  · cases h

end Symbols

theorem first_of_spells {w cs : List Char} {k : TokenKind} (hw : Spells w k)
    (hcs : EndsBefore cs.head? k) :
    ∃ c w', w = c :: w' ∧ first c (w' ++ cs) = ⟨.token k, w'.length⟩ := by
  cases hw with
  | @integer ds n hne hds hn =>
    obtain ⟨c, w, rfl⟩ := List.exists_cons_of_ne_nil hne
    have hnumber := number_digits hds hcs
    rw [ofDigits_of_toInt hn] at hnumber
    exact ⟨c, w, rfl, (first_of_digit (.inl (hds c List.mem_cons_self))).trans hnumber⟩
  | large hds hn =>
    cases w with
    | nil => simp at hn
    | cons c w =>
      have hnumber := number_digits hds hcs
      rw [ofDigits_of_lt hn] at hnumber
      exact ⟨c, w, rfl, (first_of_digit (.inl (hds c List.mem_cons_self))).trans hnumber⟩
  | @decimal whole fraction hwhole hne hfraction =>
    have hnumber := number_decimal hwhole hne hfraction hcs
    rw [ofDecimal_eq] at hnumber
    cases whole with
    | nil => exact ⟨'.', fraction, rfl, (first_of_digit (.inr rfl)).trans (by simpa using hnumber)⟩
    | cons c whole =>
      refine ⟨c, whole ++ '.' :: fraction, rfl,
        (first_of_digit (.inl (hwhole c List.mem_cons_self))).trans ?_⟩
      simpa [Nat.add_comm, Nat.add_left_comm] using hnumber
  | keyword k =>
    obtain ⟨c, w, hw, hc, hname⟩ := keyword_chars k
    refine ⟨c, w, hw, ?_⟩
    rw [first_name hc hname hcs, ← hw, ofName_keyword]
  | @name c w hc hname hk =>
    refine ⟨c, w, rfl, ?_⟩
    rw [first_name hc hname hcs, ofName_name hk]
  | text items =>
    refine ⟨'"', items.flatMap TextItem.spelling ++ ['"'], rfl, ?_⟩
    rw [first_quote]
    simp [string, stringTail_items]
  | symbol s =>
    rcases spelling_cases s with ⟨c, hc⟩ | ⟨c, d, hc⟩
    · exact ⟨c, [], hc, (first_symbol hc).trans (symbol_single hc hcs)⟩
    · exact ⟨c, [d], hc, (first_symbol hc).trans (symbol_double hc)⟩

theorem begins_of_first {c : Char} {rest : List Char} {k : TokenKind} {n : Nat}
    (h : first c rest = ⟨.token k, n⟩) : Begins (c :: rest) k n := by
  have hfirst := h
  unfold first at h
  split_ifs at h with hblank hdigit hunderscore halpha hquote
  · cases h
  · have hc : c.isDigit ∨ c = '.' := by simpa using hdigit
    exact begins_of_number ⟨c, rfl, hc⟩ h
  · cases h
  · exact begins_of_alpha halpha hfirst
  · have hc : c = '"' := by simpa using hquote
    exact hc ▸ begins_of_string h
  · exact begins_of_symbol h

theorem isBlank_eq_false_of_first {c : Char} {rest : List Char} {k : TokenKind} {n : Nat}
    (h : first c rest = ⟨.token k, n⟩) : Text.isBlank c = false := by
  rw [← Bool.not_eq_true]
  intro hc
  simp [first, hc] at h

theorem isBlank_of_first {c : Char} {rest : List Char} (h : (first c rest).piece = .blank) :
    Text.isBlank c = true ∧ (first c rest).extra = 0 := by
  by_cases hc : Text.isBlank c = true
  · exact ⟨hc, by simp [first, hc]⟩
  · grind [first, number, string, Lexeme.symbol]

theorem Splits.unique {cs : List Char} {ps ps' : List Segment} (h : Splits cs ps)
    (h' : Splits cs ps') : ps = ps' := by
  induction h generalizing ps' with
  | nil =>
    generalize hnil : ([] : List Char) = cs at h'
    cases h' with
    | nil => rfl
    | blank => cases hnil
    | lexeme hw hk =>
      obtain ⟨c, w, rfl, -⟩ := first_of_spells hw hk
      cases hnil
  | @blank c cs ps hc h ih =>
    generalize htext : c :: cs = text at h'
    cases h' with
    | nil => cases htext
    | blank hc' h' =>
      cases htext
      rw [ih h']
    | lexeme hw hk h' =>
      obtain ⟨c', w, rfl, hfirst⟩ := first_of_spells hw hk
      cases htext
      simp [isBlank_eq_false_of_first hfirst] at hc
  | @lexeme w k cs ps hw hk h ih =>
    obtain ⟨c, w, rfl, hfirst⟩ := first_of_spells hw hk
    generalize htext : c :: w ++ cs = text at h'
    cases h' with
    | nil => cases htext
    | blank hc' h' =>
      cases htext
      simp [isBlank_eq_false_of_first hfirst] at hc'
    | lexeme hw' hk' h' =>
      -- both lexemes are what reading finds, so they have the same length and the same token
      obtain ⟨c', w', rfl, hfirst'⟩ := first_of_spells hw' hk'
      obtain ⟨rfl, hrest⟩ : c = c' ∧ w ++ _ = w' ++ _ := List.cons.inj htext
      rw [hrest, hfirst'] at hfirst
      simp only [Cut.mk.injEq, Piece.token.injEq] at hfirst
      obtain ⟨rfl, rfl⟩ := List.append_inj hrest hfirst.2.symm
      rw [hfirst.1, ih h']

end Lexeme

namespace TokenStream

open Lexeme

variable {p : Position} {cs : List Char} {ps : List Segment}

theorem ofChars_blank {c : Char} (hc : Text.isBlank c = true) :
    ofChars p (c :: cs) = ofChars (p.advance c) cs := by
  have hfirst : first c cs = ⟨.blank, 0⟩ := by simp [first, hc]
  rw [ofChars]
  simp [hfirst]

theorem ofChars_token {c : Char} {w : List Char} {k : TokenKind}
    (h : first c (w ++ cs) = ⟨.token k, w.length⟩) :
    ofChars p (c :: (w ++ cs)) = (ofChars ((p.advance c).advanceOver w) cs).push
      ⟨k, ⟨p, (p.advance c).advanceOver w⟩⟩ := by
  rw [ofChars]
  simp [h]

theorem ofChars_of_splits (h : Splits cs ps) (p : Position) :
    (ofChars p cs).error? = none ∧
      (ofChars p cs).tokens.map Token.kind = ps.filterMap Segment.kind? ++ [.stop] := by
  induction h generalizing p with
  | nil => exact ⟨by simp [ofChars, finished], by simp [ofChars, finished]⟩
  | blank hc h ih =>
    rw [ofChars_blank hc]
    exact ih _
  | lexeme hw hk h ih =>
    obtain ⟨c, w, rfl, hfirst⟩ := first_of_spells hw hk
    obtain ⟨herror, htokens⟩ := ih ((p.advance c).advanceOver w)
    rw [List.cons_append, ofChars_token hfirst]
    exact ⟨herror, by simp [push, htokens, Segment.kind?]⟩

theorem exists_splits (h : (ofChars p cs).error? = none) : ∃ ps, Splits cs ps := by
  fun_induction ofChars p cs with
  | case1 => exact ⟨[], .nil⟩
  | case2 p c rest cut after hpiece ih =>
    obtain ⟨hc, hextra⟩ := isBlank_of_first hpiece
    obtain ⟨ps, hps⟩ := ih h
    rw [hextra, List.drop_zero] at hps
    exact ⟨_, .blank hc hps⟩
  | case3 p c rest cut after k hpiece ih =>
    obtain ⟨w, cs, htext, hlen, hw, hk⟩ : Begins (c :: rest) k cut.extra :=
      begins_of_first (by rw [← hpiece])
    have hdrop : rest.drop cut.extra = cs := by
      rw [← List.drop_succ_cons (a := c), htext, ← hlen, List.drop_left]
    obtain ⟨ps, hps⟩ := ih h
    rw [hdrop] at hps
    exact ⟨_, htext ▸ Splits.lexeme hw hk hps⟩
  | case4 p c rest cut after cause hfault => cases h

/-- The stream of a source has no fault exactly when the text can be cut into blanks and lexemes.
The cut is then unique, and the tokens are those of its lexemes, followed by the end of the
input. -/
theorem ofSource_exact (s : Source) :
    match (ofSource s).error? with
    | none => ∃ ps, Splits s.text.toList ps ∧ (∀ ps', Splits s.text.toList ps' → ps' = ps) ∧
        (ofSource s).tokens.map Token.kind = ps.filterMap Segment.kind? ++ [.stop]
    | some _ => ¬ ∃ ps, Splits s.text.toList ps := by
  split
  · rename_i herror
    obtain ⟨ps, hps⟩ := exists_splits herror
    exact ⟨ps, hps, fun ps' h => h.unique hps, (ofChars_of_splits hps _).2⟩
  · rename_i fault herror
    rintro ⟨ps, hps⟩
    have hnone := (ofChars_of_splits hps (.start s)).1
    cases herror.symm.trans hnone

end TokenStream

end ArrowScript
