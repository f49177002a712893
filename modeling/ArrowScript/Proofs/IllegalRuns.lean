import Mathlib
import ArrowScript.Diagnostic
import ArrowScript.Proofs.Tiling

/-! Runs of illegal characters. A run begins with a character that begins nothing else, and goes on
up to a character at which runs end. There are two kinds of characters at which a run does not end
although they begin a token: quotes, and exclamation marks before an equals sign. Everywhere else in
a run, reading would fail at once with an illegal character if it began there. -/

namespace ArrowScript

namespace Lexeme

/-- What begins a token and does not end a run of illegal characters: a quote, and an exclamation
mark with an equals sign behind it. -/
def Overlooked (c : Char) (next : Option Char) : Prop := c = '"' ∨ c = '!' ∧ next = some '='

variable {c : Char} {rest run : List Char}

theorem double?_eq_none_iff (hc : Symbol.single? c = none) :
    rest.head?.bind (Symbol.double? c) = none ↔ ¬ (c = '!' ∧ rest.head? = some '=') := by
  constructor
  · rintro hnone ⟨rfl, hd⟩
    rw [hd] at hnone
    cases hnone
  · intro hne
    rw [Option.eq_none_iff_forall_ne_some]
    intro s hs
    obtain ⟨d, hd, hs⟩ := Option.bind_eq_some_iff.1 hs
    unfold Symbol.double? at hs
    split at hs
    · cases hc
    · exact hne ⟨rfl, hd⟩
    · cases hc
    · cases hc
    · cases hc
    · cases hs

theorem startsToken_eq_false : startsToken c = false ↔ Text.isBlank c = false ∧ c.isDigit = false ∧
    c.isAlpha = false ∧ c ≠ '_' ∧ c ≠ '.' ∧ Symbol.single? c = none := by
  simp [startsToken, isNameChar, Char.isAlphanum]
  tauto

theorem not_illegal_number (cs : List Char) : (number cs).piece ≠ .fault (.illegal run) := by
  unfold number
  dsimp only
  split
  · split_ifs
    · nofun
    · split <;> nofun
  · nofun

theorem not_illegal_string (cs : List Char) : (string cs).piece ≠ .fault (.illegal run) := by
  unfold string
  split <;> nofun

theorem first_of_illegal (hc : startsToken c = false) (hnext : ¬ Overlooked c rest.head?) :
    first c rest = ⟨.fault (.illegal (c :: rest.takeWhile (!startsToken ·))),
      (rest.takeWhile (!startsToken ·)).length⟩ := by
  obtain ⟨hblank, hdigit, halpha, hunderscore, hpoint, hsingle⟩ := startsToken_eq_false.1 hc
  have hquote : c ≠ '"' := fun h => hnext (.inl h)
  have hdouble : rest.head?.bind (Symbol.double? c) = none :=
    (double?_eq_none_iff hsingle).2 fun h => hnext (.inr h)
  have hsymbol : first c rest = symbol c rest := by
    simp [first, hblank, hdigit, hpoint, hunderscore, halpha, hquote]
  rw [hsymbol, symbol, hdouble, hsingle]

theorem of_first_illegal (h : (first c rest).piece = .fault (.illegal run)) :
    startsToken c = false ∧ ¬ Overlooked c rest.head? := by
  unfold first at h
  split_ifs at h with hblank hnumber hunderscore halpha hquote
  · exact absurd h (not_illegal_number _)
  · cases h
  · exact absurd h (not_illegal_string _)
  · unfold symbol at h
    split at h
    · cases h
    · cases h
    · rename_i hdouble hsingle
      have hnumber' : c.isDigit = false ∧ c ≠ '.' := by simpa using hnumber
      refine ⟨startsToken_eq_false.2 ⟨by simpa using hblank, hnumber'.1, by simpa using halpha,
        by simpa using hunderscore, hnumber'.2, hsingle⟩, ?_⟩
      rintro (hc | hc)
      · exact hquote (by simpa using hc)
      · exact (double?_eq_none_iff hsingle).1 hdouble hc

end Lexeme

namespace TokenStream

def FailsFirst (s : Source) : Prop :=
  ∃ fault : LexError, ofSource s = finished fault.span.stop (some fault) ∧
    fault.cause.kind = .illegalCharacter

def FailsAtOnce (s : Source) : Prop :=
  ∃ fault : LexError, ofSource s = finished fault.span.stop (some fault) ∧
    fault.cause.kind = .illegalCharacter ∧ fault.span.start = .start s

def FaultBehind (p : Position) (cs read : List Char) (fault : LexError) : Prop :=
  ∃ c rest, cs = read ++ c :: rest ∧ (Lexeme.first c rest).piece = .fault fault.cause ∧
    fault.span.start = p.advanceOver read ∧
    fault.span.stop = p.advanceOver (read ++ c :: rest.take (Lexeme.first c rest).extra)

theorem FaultBehind.of_drop {p : Position} {c : Char} {rest read : List Char} {n : Nat}
    {fault : LexError}
    (h : FaultBehind ((p.advance c).advanceOver (rest.take n)) (rest.drop n) read fault) :
    FaultBehind p (c :: rest) (c :: rest.take n ++ read) fault := by
  obtain ⟨d, rest', hrest, hfirst, hstart, hstop⟩ := h
  refine ⟨d, rest', ?_, hfirst, ?_, ?_⟩
  · rw [List.append_assoc, ← hrest, List.cons_append, List.take_append_drop]
  · rw [hstart, Position.advanceOver_append, Position.advanceOver_cons]
  · rw [hstop, List.append_assoc, Position.advanceOver_append p, Position.advanceOver_cons]

theorem exists_faultBehind {p : Position} {cs : List Char} {fault : LexError}
    (h : (ofChars p cs).error? = some fault) : ∃ read, FaultBehind p cs read fault := by
  fun_induction ofChars p cs with
  | case1 p => cases h
  | case2 p c rest cut after hpiece ih =>
    obtain ⟨read, hread⟩ := ih h
    exact ⟨_, hread.of_drop⟩
  | case3 p c rest cut after k hpiece ih =>
    obtain ⟨read, hread⟩ := ih h
    exact ⟨_, hread.of_drop⟩
  | case4 p c rest cut after cause hpiece =>
    cases h
    exact ⟨[], c, rest, rfl, hpiece, rfl, rfl⟩

theorem ofChars_fault (p : Position) {c : Char} {rest : List Char} {cause : LexFault} {n : Nat}
    (h : Lexeme.first c rest = ⟨.fault cause, n⟩) :
    ∃ fault : LexError, ofChars p (c :: rest) = finished fault.span.stop (some fault) ∧
      fault.cause = cause ∧ fault.span.start = p := by
  refine ⟨⟨cause, p, (p.advance c).advanceOver (rest.take n)⟩, ?_, rfl, rfl⟩
  rw [ofChars]
  simp only [h]

theorem first_of_finished {p q : Position} {c : Char} {rest : List Char} {fault : LexError}
    (hc : Text.isBlank c = false) (h : ofChars p (c :: rest) = finished q (some fault)) :
    (Lexeme.first c rest).piece = .fault fault.cause := by
  rw [ofChars] at h
  split at h
  · rename_i hpiece
    rw [(Lexeme.isBlank_of_first hpiece).1] at hc
    cases hc
  · rename_i k hpiece
    obtain ⟨-, -, ts, stop, error?, -, -, -, hstream⟩ :=
      ofChars_tiled ((p.advance c).advanceOver (rest.take (Lexeme.first c rest).extra))
        (rest.drop (Lexeme.first c rest).extra)
    have hlength := congrArg (fun s => s.tokens.length) h
    simp [hstream, push, finished] at hlength
  · rename_i cause hpiece
    have hcause := congrArg error? h
    cases hcause
    exact hpiece

theorem exists_illegal {cause : LexFault} (h : cause.kind = .illegalCharacter) :
    ∃ run, cause = .illegal run := by
  cases cause with
  | illegal run => exact ⟨run, rfl⟩
  | _ => cases h

theorem startsToken_of_failsFirst {name : String} {c : Char} {rest : List Char}
    (hc : Text.isBlank c = false) (h : FailsFirst ⟨name, String.ofList (c :: rest)⟩) :
    Lexeme.startsToken c = false := by
  obtain ⟨fault, hstream, hkind⟩ := h
  rw [ofSource, String.toList_ofList] at hstream
  obtain ⟨run, hrun⟩ := exists_illegal hkind
  exact (Lexeme.of_first_illegal ((first_of_finished hc hstream).trans (by rw [hrun]))).1

theorem failsAtOnce_iff (name : String) (c : Char) (rest : List Char) :
    FailsAtOnce ⟨name, String.ofList (c :: rest)⟩ ↔
      Lexeme.startsToken c = false ∧ ¬ Lexeme.Overlooked c rest.head? := by
  constructor
  · rintro ⟨fault, hstream, hkind, hstart⟩
    have herror := congrArg error? hstream
    rw [ofSource, String.toList_ofList] at herror
    obtain ⟨read, d, rest', hcs, hfirst, hread, -⟩ := exists_faultBehind herror
    -- nothing was read before the fault, so it is what the text begins with
    have hindex := congrArg Position.index (hread.symm.trans hstart)
    rw [Position.index_advanceOver, Nat.add_eq_left, String.utf8Len_eq_zero] at hindex
    rw [hindex, List.nil_append] at hcs
    obtain ⟨rfl, rfl⟩ := List.cons.inj hcs
    obtain ⟨run, hrun⟩ := exists_illegal hkind
    exact Lexeme.of_first_illegal (hfirst.trans (by rw [hrun]))
  · rintro ⟨hc, hnext⟩
    obtain ⟨fault, hstream, hcause, hstart⟩ :=
      ofChars_fault (.start ⟨name, String.ofList (c :: rest)⟩) (Lexeme.first_of_illegal hc hnext)
    refine ⟨fault, ?_, by rw [hcause]; rfl, hstart⟩
    rw [ofSource, String.toList_ofList, hstream]

theorem exists_split {before read w left rest : List Char} {c : Char}
    (htext : before ++ c :: rest = read ++ (w ++ left))
    (hge : String.utf8Len read ≤ String.utf8Len before)
    (hlt : String.utf8Len before < String.utf8Len (read ++ w)) :
    ∃ pre post, before = read ++ pre ∧ w = pre ++ c :: post ∧ rest = post ++ left := by
  -- the character does not stand before `w`
  obtain ⟨pre, rfl, hpre⟩ : ∃ pre, before = read ++ pre ∧ pre ++ c :: rest = w ++ left := by
    rcases List.append_eq_append_iff.1 htext with ⟨tail, rfl, htail⟩ | ⟨pre, hbefore, hpre⟩
    · rw [String.utf8Len_append] at hge
      have hnil : tail = [] := String.utf8Len_eq_zero.1 (by omega)
      subst hnil
      exact ⟨[], by simp, by simpa using htail⟩
    · exact ⟨pre, hbefore, hpre.symm⟩
  -- nor behind it
  rcases List.append_eq_append_iff.1 hpre with ⟨post, hw, hpost⟩ | ⟨tail, hw, -⟩
  · cases post with
    | nil =>
      rw [hw, List.append_nil] at hlt
      omega
    | cons d post =>
      obtain ⟨rfl, hrest⟩ := List.cons.inj hpost
      exact ⟨pre, post, rfl, hw, hrest⟩
  · rw [hw, ← List.append_assoc, String.utf8Len_append] at hlt
    omega

theorem exists_run_of_illegal {source : Source} {fault : LexError}
    (hfault : (ofSource source).error? = some fault)
    (hkind : fault.cause.kind = .illegalCharacter) :
    ∃ read run left, source.text.toList = read ++ (run ++ left) ∧ fault.cause = .illegal run ∧
      fault.span = ⟨Position.advanceOver (.start source) read,
        (Position.advanceOver (.start source) read).advanceOver run⟩ ∧
      (∀ d ∈ run, Lexeme.startsToken d = false) ∧
      ∀ d ∈ left.head?, Lexeme.startsToken d = true := by
  obtain ⟨read, c, more, htext, hfirst, hstart, hstop⟩ := exists_faultBehind hfault
  obtain ⟨run, hrun⟩ := exists_illegal hkind
  obtain ⟨hc, hnext⟩ := Lexeme.of_first_illegal (hfirst.trans (by rw [hrun]))
  obtain ⟨w, left, rfl, hw, hleft⟩ := Lexeme.exists_run (!Lexeme.startsToken ·) more
  have hillegal := Lexeme.first_of_illegal hc hnext
  rw [Lexeme.takeWhile_run hw hleft] at hillegal
  rw [hillegal] at hfirst hstop
  rw [List.take_left] at hstop
  refine ⟨read, c :: w, left, htext, (Piece.fault.inj hfirst).symm, ?_, ?_, by simpa using hleft⟩
  · rw [← Position.advanceOver_append, ← hstart, ← hstop]
  · exact List.forall_mem_cons.2 ⟨hc, by simpa using hw⟩

/-- What a report of an illegal character covers. Its message quotes the characters covered. Each of
them, with what stands behind it, fails at once with an illegal character as well, unless it is
overlooked. The report ends at the end of the text, at a blank, or where something else begins. -/
theorem illegal_exact (source : Source) {fault : LexError}
    (hfault : (ofSource source).error? = some fault)
    (hkind : fault.cause.kind = .illegalCharacter) :
    fault.cause.message = "'" ++ String.ofList fault.span.chars ++ "'" ∧
    (∀ before c rest, source.text.toList = before ++ c :: rest →
      fault.span.Covers (String.utf8Len before) →
      (FailsAtOnce ⟨source.name, String.ofList (c :: rest)⟩ ↔ ¬ Lexeme.Overlooked c rest.head?)) ∧
    ∃ before rest, source.text.toList = before ++ rest ∧
      fault.span.stop.index = String.utf8Len before ∧
      (rest = [] ∨ (∃ c ∈ rest.head?, Text.isBlank c = true) ∨
        ¬ FailsFirst ⟨source.name, String.ofList rest⟩) := by
  obtain ⟨read, run, left, htext, hcause, hspan, hrun, hleft⟩ := exists_run_of_illegal hfault hkind
  have hread : Position.Follows (Position.advanceOver (.start source) read) read :=
    (Position.Follows.start source).advanceOver ⟨_, htext.symm⟩
  have hstart : fault.span.start.index = String.utf8Len read := by rw [hspan, hread.index_eq]
  have hstop : fault.span.stop.index = String.utf8Len (read ++ run) := by
    rw [hspan, Position.index_advanceOver, hread.index_eq, String.utf8Len_append]
  refine ⟨?_, ?_, read ++ run, left, by rw [htext, List.append_assoc], hstop, ?_⟩
  · have hchars : fault.span.chars = run := by
      rw [hspan]
      apply Span.chars_eq hread
      rw [Position.source_advanceOver, List.append_assoc]
      exact htext
    rw [hcause, hchars]
    simp [LexFault.message, String.append_assoc]
  · intro before c rest hsplit hcovers
    rw [Span.Covers, hstart, hstop] at hcovers
    obtain ⟨pre, post, -, rfl, -⟩ := exists_split (hsplit.symm.trans htext) hcovers.1 hcovers.2
    have hc : Lexeme.startsToken c = false := hrun c (by simp)
    rw [failsAtOnce_iff, and_iff_right hc]
  · cases left with
    | nil => exact .inl rfl
    | cons d left =>
      cases hd : Text.isBlank d with
      | true => exact .inr (.inl ⟨d, rfl, hd⟩)
      | false =>
        refine .inr (.inr fun hfails => ?_)
        have hstarts := startsToken_of_failsFirst hd hfails
        rw [hleft d rfl] at hstarts
        cases hstarts

theorem illegal_exact_before_blank :
    let source : Source := ⟨"f", "$$# 2"⟩
    let fault : LexError := ⟨.illegal ['$', '$', '#'], ⟨⟨source, 0, 0, 0⟩, ⟨source, 3, 0, 3⟩⟩⟩
    (ofSource source).error? = some fault ∧ fault.cause.kind = .illegalCharacter ∧
      fault.span.Covers (String.utf8Len ['$']) ∧
      fault.cause.message = "'" ++ String.ofList fault.span.chars ++ "'" ∧
      FailsAtOnce ⟨source.name, String.ofList ('$' :: "# 2".toList)⟩ := by
  intro source fault
  have hfault : (ofSource source).error? = some fault := by cbv
  have hcovers : fault.span.Covers (String.utf8Len ['$']) :=
    ⟨by decide +kernel, by decide +kernel⟩
  obtain ⟨hmessage, hrun, -⟩ := illegal_exact source hfault rfl
  refine ⟨hfault, rfl, hcovers, hmessage, (hrun _ _ _ ?_ hcovers).2 ?_⟩
  · decide +kernel
  · simp [Lexeme.Overlooked]

theorem illegal_covers_quote :
    let source : Source := ⟨"f", "$\"abc\""⟩
    let fault : LexError := ⟨.illegal ['$', '"'], ⟨⟨source, 0, 0, 0⟩, ⟨source, 2, 0, 2⟩⟩⟩
    (ofSource source).error? = some fault ∧ fault.cause.kind = .illegalCharacter ∧
      source.text.toList = ['$'] ++ '"' :: "abc\"".toList ∧
      fault.span.Covers (String.utf8Len ['$']) ∧
      ¬ FailsAtOnce ⟨source.name, String.ofList ('"' :: "abc\"".toList)⟩ := by
  intro source fault
  refine ⟨by cbv, rfl, by decide +kernel, ⟨by decide +kernel, by decide +kernel⟩,
    fun hfails => ?_⟩
  exact ((failsAtOnce_iff _ _ _).1 hfails).2 (.inl rfl)

end TokenStream

end ArrowScript
