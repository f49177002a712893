import Mathlib
import ArrowScript.Proofs.IllegalRuns

/-! What stands before a fault is clean. Reading looks at most one character beyond a token, and
that character only ever cuts the token short. So the text before a fault, read alone, gives the
tokens that it gave with the fault behind it; and the fault itself is the same whatever follows its
end, as long as a blank comes first. -/

namespace ArrowScript

def Position.inSource (s : Source) (p : Position) : Position := { p with source := s }

def Span.inSource (s : Source) (span : Span) : Span :=
  ⟨span.start.inSource s, span.stop.inSource s⟩

def Token.inSource (s : Source) (t : Token) : Token := { t with span := t.span.inSource s }

def LexError.inSource (s : Source) (fault : LexError) : LexError :=
  { fault with span := fault.span.inSource s }

def TokenStream.inSource (s : Source) (stream : TokenStream) : TokenStream :=
  ⟨stream.tokens.map (·.inSource s), stream.error?.map (·.inSource s)⟩

theorem Position.advance_inSource (s : Source) (p : Position) (c : Char) :
    (p.inSource s).advance c = (p.advance c).inSource s := by
  unfold advance
  split <;> rfl

theorem Position.advanceOver_inSource (s : Source) (p : Position) (cs : List Char) :
    (p.inSource s).advanceOver cs = (p.advanceOver cs).inSource s := by
  induction cs generalizing p with
  | nil => rfl
  | cons c cs ih => rw [advanceOver_cons, advance_inSource, ih, advanceOver_cons]

namespace Lexeme

/-- `Fails w cause`: the characters `w` are at fault. A string without an end is not among these,
since it is at fault up to the end of the text. -/
inductive Fails : List Char → LexFault → Prop
  | barePoint {whole : List Char} (hwhole : ∀ c ∈ whole, c.isDigit) :
      Fails (whole ++ ['.']) .barePoint
  | extraPoint {whole fraction : List Char} (hwhole : ∀ c ∈ whole, c.isDigit)
      (hne : fraction ≠ []) (hfraction : ∀ c ∈ fraction, c.isDigit) :
      Fails (whole ++ '.' :: fraction ++ ['.']) .extraPoint
  | underscore : Fails ['_'] .leadingUnderscore
  | illegal {c : Char} {w : List Char} (hc : startsToken c = false) (hquote : c ≠ '"')
      (hw : ∀ d ∈ w, startsToken d = false) : Fails (c :: w) (.illegal (c :: w))

variable {c b : Char} {rest cs w : List Char} {cause : LexFault} {n : Nat}

theorem isDigit_eq_false_of_isBlank (h : Text.isBlank c = true) : c.isDigit = false := by
  rw [← Bool.not_eq_true]
  intro hd
  have hc := toNat_of_isDigit hd
  rw [isBlank_eq_false (by omega) (by omega)] at h
  cases h

section Numbers

variable {whole fraction : List Char}

theorem isDigit_point (cs : List Char) : ∀ d ∈ ('.' :: cs).head?, d.isDigit = false := by
  rintro _ ⟨⟩
  rfl

theorem number_barePoint (hwhole : ∀ c ∈ whole, c.isDigit)
    (hcs : ∀ c ∈ cs.head?, c.isDigit = false) :
    number (whole ++ '.' :: cs) = ⟨.fault .barePoint, whole.length⟩ := by
  have hnone : cs.takeWhile Char.isDigit = [] := takeWhile_run (w := []) (by simp) hcs
  simp only [number, takeWhile_run hwhole (isDigit_point cs),
    dropWhile_run hwhole (isDigit_point cs), hnone, List.isEmpty_nil, if_true]

theorem number_extraPoint (hwhole : ∀ c ∈ whole, c.isDigit) (hne : fraction ≠ [])
    (hfraction : ∀ c ∈ fraction, c.isDigit) (cs : List Char) :
    number (whole ++ '.' :: (fraction ++ '.' :: cs)) =
      ⟨.fault .extraPoint, whole.length + fraction.length + 1⟩ := by
  simp only [number, takeWhile_run hwhole (isDigit_point _), dropWhile_run hwhole (isDigit_point _),
    takeWhile_run hfraction (isDigit_point cs), dropWhile_run hfraction (isDigit_point cs)]
  rw [if_neg (by simpa using hne)]

theorem fails_of_number {text : List Char} (h : number text = ⟨.fault cause, n⟩) :
    ∃ w left, text = w ++ left ∧ w.length = n + 1 ∧ Fails w cause := by
  obtain ⟨whole, left, rfl, hwhole, hleft⟩ := exists_run Char.isDigit text
  simp only [number, takeWhile_run hwhole hleft, dropWhile_run hwhole hleft] at h
  split at h
  · rename_i more
    obtain ⟨fraction, left, rfl, hfraction, hleft⟩ := exists_run Char.isDigit more
    simp only [takeWhile_run hfraction hleft, dropWhile_run hfraction hleft] at h
    split_ifs at h with hempty
    · cases h
      exact ⟨whole ++ ['.'], fraction ++ left, by simp, by simp, .barePoint hwhole⟩
    · split at h
      · rename_i more' _
        cases h
        exact ⟨whole ++ '.' :: fraction ++ ['.'], more', by simp, by simp; omega,
          .extraPoint hwhole (by simpa using hempty) hfraction⟩
      · cases h
  · cases h

end Numbers

theorem first_of_fails (h : Fails w cause) (hb : Text.isBlank b = true) (cs : List Char) :
    ∃ c w', w = c :: w' ∧ first c (w' ++ b :: cs) = ⟨.fault cause, w'.length⟩ := by
  have hdigit : ∀ d ∈ (b :: cs).head?, d.isDigit = false := by
    rintro _ ⟨⟩
    exact isDigit_eq_false_of_isBlank hb
  cases h with
  | @barePoint whole hwhole =>
    have hnumber := number_barePoint hwhole hdigit
    cases whole with
    | nil => exact ⟨'.', [], rfl, (first_of_digit (.inr rfl)).trans hnumber⟩
    | cons c whole =>
      refine ⟨c, whole ++ ['.'], rfl,
        (first_of_digit (.inl (hwhole c List.mem_cons_self))).trans ?_⟩
      simpa using hnumber
  | @extraPoint whole fraction hwhole hne hfraction =>
    have hnumber := number_extraPoint hwhole hne hfraction (b :: cs)
    cases whole with
    | nil =>
      refine ⟨'.', fraction ++ ['.'], rfl, (first_of_digit (.inr rfl)).trans ?_⟩
      simpa using hnumber
    | cons c whole =>
      refine ⟨c, whole ++ '.' :: fraction ++ ['.'], rfl,
        (first_of_digit (.inl (hwhole c List.mem_cons_self))).trans ?_⟩
      simpa [Nat.add_comm, Nat.add_left_comm] using hnumber
  | underscore => exact ⟨'_', [], rfl, rfl⟩
  | @illegal c w hc hquote hw =>
    have hb' : startsToken b = true := by simp [startsToken, hb]
    have hrun : (w ++ b :: cs).takeWhile (!startsToken ·) = w := by
      refine takeWhile_run (by simpa using hw) ?_
      rintro _ ⟨⟩
      simp [hb']
    have hnext : ¬ Overlooked c (w ++ b :: cs).head? := by
      rintro (hc' | ⟨-, hequal⟩)
      · exact hquote hc'
      · cases w with
        | nil =>
          cases hequal
          cases hb
        | cons d w =>
          cases hequal
          cases hw '=' List.mem_cons_self
    refine ⟨c, w, rfl, ?_⟩
    rw [first_of_illegal hc hnext, hrun]

theorem fails_of_first (h : first c rest = ⟨.fault cause, n⟩) (hcause : cause ≠ .unterminated) :
    ∃ w left, c :: rest = w ++ left ∧ w.length = n + 1 ∧ Fails w cause := by
  have hfirst := h
  unfold first at h
  split_ifs at h with hblank hnumber hunderscore halpha hquote
  · cases h
  · exact fails_of_number h
  · cases h
    have hc : c = '_' := by simpa using hunderscore
    exact ⟨['_'], rest, by rw [hc]; rfl, rfl, .underscore⟩
  · cases h
  · unfold string at h
    split at h
    · cases h
    · cases h
      exact absurd rfl hcause
  · obtain ⟨run, hrun⟩ : ∃ run, cause = .illegal run := by
      unfold symbol at h
      split at h <;> cases h
      exact ⟨_, rfl⟩
    have hpiece : (first c rest).piece = .fault (.illegal run) := by rw [hfirst, hrun]
    obtain ⟨hc, hnext⟩ := of_first_illegal hpiece
    obtain ⟨w, left, rfl, hw, hleft⟩ := exists_run (!startsToken ·) rest
    rw [first_of_illegal hc hnext, takeWhile_run hw hleft] at hfirst
    cases hfirst
    exact ⟨c :: w, left, rfl, rfl, .illegal hc (by simpa using hquote) (by simpa using hw)⟩

end Lexeme

namespace TokenStream

open Lexeme

variable {p : Position} {c : Char} {cs read rest rest' : List Char} {ts : List Token}
  {fault : LexError}

theorem ofChars_inSource (s : Source) (p : Position) (cs : List Char) :
    ofChars (p.inSource s) cs = (ofChars p cs).inSource s := by
  fun_induction ofChars p cs with
  | case1 p =>
    rw [ofChars]
    rfl
  | case2 p c rest cut after hpiece ih =>
    rw [ofChars]
    simp only [show (first c rest).piece = .blank from hpiece, Position.advance_inSource,
      Position.advanceOver_inSource]
    exact ih
  | case3 p c rest cut after k hpiece ih =>
    rw [ofChars]
    simp only [show (first c rest).piece = .token k from hpiece, Position.advance_inSource,
      Position.advanceOver_inSource]
    rw [ih]
    rfl
  | case4 p c rest cut after cause hpiece =>
    rw [ofChars]
    simp only [show (first c rest).piece = .fault cause from hpiece, Position.advance_inSource,
      Position.advanceOver_inSource]
    rfl

inductive Reads (rest : List Char) : Position → List Char → List Token → Prop
  | nil {p : Position} : Reads rest p [] []
  | blank {p : Position} {c : Char} {cs : List Char} {ts : List Token} (hc : Text.isBlank c)
      (h : Reads rest (p.advance c) cs ts) : Reads rest p (c :: cs) ts
  | token {p : Position} {w cs : List Char} {k : TokenKind} {ts : List Token} (hw : Spells w k)
      (hk : EndsBefore (cs ++ rest).head? k) (h : Reads rest (p.advanceOver w) cs ts) :
      Reads rest p (w ++ cs) (⟨k, ⟨p, p.advanceOver w⟩⟩ :: ts)

namespace Reads

theorem ofChars_append (h : Reads rest p read ts) : ofChars p (read ++ rest) =
    ⟨ts ++ (ofChars (p.advanceOver read) rest).tokens,
      (ofChars (p.advanceOver read) rest).error?⟩ := by
  induction h with
  | nil => rfl
  | blank hc h ih =>
    rw [List.cons_append, ofChars_blank hc, ih]
    rfl
  | @token p w cs k ts hw hk h ih =>
    obtain ⟨c, w, rfl, hfirst⟩ := first_of_spells hw hk
    rw [List.append_assoc, List.cons_append, ofChars_token hfirst, Position.advanceOver_append,
      ← Position.advanceOver_cons, ih]
    rfl

theorem replace (h : Reads rest p read ts) (hrest : ∀ c ∈ rest'.head?, rest.head? = some c) :
    Reads rest' p read ts := by
  induction h with
  | nil => exact .nil
  | blank hc h ih => exact .blank hc ih
  | @token p w cs k ts hw hk h ih =>
    refine .token hw ?_ ih
    cases cs with
    | cons d cs => exact hk
    | nil =>
      cases hd : rest'.head? with
      | none => simpa [hd] using endsBefore_none k
      | some d =>
        rw [List.nil_append, hrest d hd] at hk
        simpa [hd] using hk

theorem ofChars_fault_append (h : Reads (c :: rest) p read ts) {cause : LexFault} {n : Nat}
    (hfirst : first c rest = ⟨.fault cause, n⟩) :
    let stop := p.advanceOver (read ++ c :: rest.take n)
    ofChars p (read ++ c :: rest) =
      ⟨ts ++ [⟨.stop, .empty stop⟩], some ⟨cause, ⟨p.advanceOver read, stop⟩⟩⟩ := by
  intro stop
  have hfault : ofChars (p.advanceOver read) (c :: rest) =
      finished stop (some ⟨cause, ⟨p.advanceOver read, stop⟩⟩) := by
    rw [ofChars]
    simp only [hfirst, stop, Position.advanceOver_append, Position.advanceOver_cons]
  rw [h.ofChars_append, hfault]
  rfl

end Reads

theorem exists_reads (h : (ofChars p cs).error? = some fault) :
    ∃ read c rest n ts, cs = read ++ c :: rest ∧ Reads (c :: rest) p read ts ∧
      first c rest = ⟨.fault fault.cause, n⟩ ∧
      fault.span = ⟨p.advanceOver read, p.advanceOver (read ++ c :: rest.take n)⟩ := by
  fun_induction ofChars p cs with
  | case1 p => cases h
  | case2 p c rest cut after hpiece ih =>
    obtain ⟨hc, hextra⟩ := isBlank_of_first hpiece
    have hafter : after = p.advance c := by simp only [after, cut, hextra, List.take_zero]; rfl
    obtain ⟨read, d, rest', n, ts, hrest, hreads, hfirst, hspan⟩ := ih h
    rw [hextra, List.drop_zero] at hrest
    rw [hafter] at hreads hspan
    exact ⟨c :: read, d, rest', n, ts, by rw [hrest]; rfl, .blank hc hreads, hfirst, hspan⟩
  | case3 p c rest cut after k hpiece ih =>
    obtain ⟨w, cs, htext, hlen, hw, hk⟩ : Begins (c :: rest) k cut.extra :=
      begins_of_first (by rw [← hpiece])
    have hdrop : rest.drop cut.extra = cs := by
      rw [← List.drop_succ_cons (a := c), htext, ← hlen, List.drop_left]
    have htake : c :: rest.take cut.extra = w := by
      rw [← List.take_succ_cons, htext, ← hlen, List.take_left]
    have hafter : after = p.advanceOver w := by rw [← htake]; rfl
    obtain ⟨read, d, rest', n, ts, hrest, hreads, hfirst, hspan⟩ := ih h
    rw [hdrop] at hrest
    rw [hafter] at hreads hspan
    refine ⟨w ++ read, d, rest', n, _, by rw [htext, hrest, List.append_assoc],
      .token hw (hrest ▸ hk) hreads, hfirst, ?_⟩
    rw [hspan, List.append_assoc, Position.advanceOver_append p w, Position.advanceOver_append p w]
  | case4 p c rest cut after cause hpiece =>
    cases h
    exact ⟨[], c, rest, cut.extra, [], rfl, .nil, by rw [← hpiece], rfl⟩

/-- The text before a fault, read alone, has no fault and the same tokens. If the fault is not a
string without an end, then with any other text behind its end that begins with a blank, the source
has the same tokens and the same fault. -/
theorem ofSource_clean_prefix (source : Source) {fault : LexError}
    (h : (ofSource source).error? = some fault) :
    (∀ name, let before : Source :=
        ⟨name, String.ofList (Text.takeBytes fault.span.start.index source.text.toList)⟩
      (ofSource before).error? = none ∧ (ofSource before).tokens.dropLast =
        (ofSource source).tokens.dropLast.map (Token.inSource before)) ∧
    (fault.cause ≠ .unterminated → ∀ name b after, Text.isBlank b = true →
      let other : Source := ⟨name, String.ofList
        (Text.takeBytes fault.span.stop.index source.text.toList ++ b :: after)⟩
      ofSource other = (ofSource source).inSource other) := by
  obtain ⟨read, c, rest, n, ts, htext, hreads, hfirst, hspan⟩ := exists_reads h
  have hindex (cs : List Char) :
      (Position.advanceOver (.start source) cs).index = String.utf8Len cs :=
    (Position.index_advanceOver _ _).trans (Nat.zero_add _)
  have hstream := hreads.ofChars_fault_append hfirst
  rw [← htext] at hstream
  constructor
  · intro name before
    have hbefore : before.text.toList = read := by
      rw [String.toList_ofList, hspan, hindex, htext, Text.takeBytes_utf8Len]
    have hreads' : Reads [] (.start source) read ts := hreads.replace (by simp)
    have halone := hreads'.ofChars_append
    rw [List.append_nil] at halone
    have hread : ofSource before = (ofChars (.start source) read).inSource before := by
      rw [ofSource, hbefore, ← ofChars_inSource]
      rfl
    rw [hread, halone, ofSource, hstream]
    simp [inSource, ofChars, finished]
  · intro hcause name b after hb other
    obtain ⟨w, left, hw, hlength, hfails⟩ := fails_of_first hfirst hcause
    obtain ⟨d, w, rfl, hfirst'⟩ := first_of_fails hfails hb after
    obtain ⟨rfl, rfl⟩ : c = d ∧ rest = w ++ left := by simpa using hw
    obtain rfl : w.length = n := by simpa using hlength
    have hupTo : Text.takeBytes fault.span.stop.index source.text.toList = read ++ c :: w := by
      rw [hspan, hindex, List.take_left, htext, ← List.cons_append, ← List.append_assoc,
        Text.takeBytes_utf8Len]
    have hother : other.text.toList = read ++ c :: (w ++ b :: after) := by
      rw [String.toList_ofList, hupTo]
      simp
    have hreads' : Reads (c :: (w ++ b :: after)) (.start source) read ts :=
      hreads.replace (by simp)
    have hstream' := hreads'.ofChars_fault_append hfirst'
    rw [List.take_left] at hstream hstream'
    have hread : ofSource other =
        (ofChars (.start source) (read ++ c :: (w ++ b :: after))).inSource other := by
      rw [ofSource, hother, ← ofChars_inSource]
      rfl
    rw [hread, hstream', ofSource, hstream]

theorem ofSource_clean_prefix_run :
    let source : Source := ⟨"f", "<$$="⟩
    let fault : LexError := ⟨.illegal ['$', '$'], ⟨⟨source, 1, 0, 1⟩, ⟨source, 3, 0, 3⟩⟩⟩
    let before : Source :=
      ⟨"g", String.ofList (Text.takeBytes fault.span.start.index source.text.toList)⟩
    let other : Source := ⟨"g", String.ofList
      (Text.takeBytes fault.span.stop.index source.text.toList ++ '\n' :: "= 2".toList)⟩
    (ofSource source).error? = some fault ∧ fault.cause ≠ .unterminated ∧
      Text.isBlank '\n' = true ∧ (ofSource before).error? = none ∧
      ofSource other = (ofSource source).inSource other := by
  intro source fault before other
  have hfault : (ofSource source).error? = some fault := by cbv
  have hcause : fault.cause ≠ .unterminated := LexFault.noConfusion
  obtain ⟨hbefore, hbehind⟩ := ofSource_clean_prefix source hfault
  exact ⟨hfault, hcause, rfl, (hbefore "g").1, hbehind hcause "g" '\n' "= 2".toList rfl⟩

end TokenStream

end ArrowScript
