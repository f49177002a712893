import Mathlib
import ArrowScript.Proofs.Cursor
import ArrowScript.Proofs.DecimalRounding

/-! Numbers read back from their text. Integers are written without a point and finite numbers in
floating point with one, so that reading tells them apart however large they are, and what is
written for a number in floating point rounds to it. The text of a number without a sign is
therefore one token, which holds the same number to the last bit. -/

namespace ArrowScript

namespace Position

theorem advanceOver_of_unbroken {cs : List Char} (h : '\n' ∉ cs) (p : Position) :
    p.advanceOver cs = ⟨p.source, p.index + String.utf8Len cs, p.line, p.column + cs.length⟩ := by
  induction cs generalizing p with
  | nil => rfl
  | cons c cs ih =>
    rw [List.mem_cons, not_or] at h
    rw [advanceOver_cons, ih h.2, advance, if_neg (Ne.symm h.1), String.utf8Len_cons,
      List.length_cons, mk.injEq]
    exact ⟨rfl, by dsimp only; omega, rfl, by dsimp only; omega⟩

end Position

namespace TokenStream

open Lexeme

theorem ofChars_of_spells {w : List Char} {k : TokenKind} (h : Spells w k) (p : Position) :
    ofChars p w =
      ⟨[⟨k, ⟨p, p.advanceOver w⟩⟩, ⟨.stop, .empty (p.advanceOver w)⟩], none⟩ := by
  have hend : EndsBefore ([] : List Char).head? k := endsBefore_none k
  obtain ⟨c, w, rfl, hfirst⟩ := first_of_spells h hend
  have htoken := ofChars_token (p := p) hfirst
  rw [List.append_nil] at htoken
  rw [htoken, ofChars]
  rfl

end TokenStream

namespace Number

variable {n : Number}

/-- Integers that are not negative, and finite numbers in floating point whose sign bit is clear. -/
def Unsigned : Number → Prop
  | int n => 0 ≤ n.toInt
  | float x => ∃ b, Decimal.shape x = .finite false b

theorem Unsigned.isFinite (h : n.Unsigned) : n.IsFinite := by
  cases n with
  | int n => trivial
  | float x => exact ⟨false, h⟩

theorem Unsigned.spells (h : n.Unsigned) : Lexeme.Spells n.toText.toList (.number n) := by
  cases n with
  | int n =>
    have hsign : ¬ n.toInt < 0 := not_lt.2 h
    rw [toText_int, Decimal.signed, if_neg (by simpa using hsign)]
    refine .integer Nat.toDigits_ne_nil (Decimal.isDigit_digits _) ?_
    rw [Decimal.digits, Nat.ofDigitChars_ten_toDigits]
    omega
  | float x =>
    obtain ⟨b, hx⟩ := h
    obtain ⟨cs, v, htext, hcs, hb⟩ := Decimal.pointed_writes hx
    obtain @⟨whole, fraction, hne, hdigits⟩ := hcs
    have hread : Float.ofScientific (Nat.ofDigitChars 10 (whole ++ fraction) 0) true
        fraction.length = x := Binary64.ofScientific_of_encloses hx hb
    have hspells := Lexeme.Spells.decimal (fun c hc => hdigits c (List.mem_append_left _ hc)) hne
      fun c hc => hdigits c (List.mem_append_right _ hc)
    rw [toText, htext, Decimal.signed, if_neg Bool.false_ne_true]
    rwa [hread] at hspells

theorem IsFinite.unbroken_toText (h : n.IsFinite) : '\n' ∉ n.toText.toList := by
  obtain ⟨negative, cs, htext, hcs⟩ := h.toText_eq
  have hbreak : '\n' ∉ cs := fun hmem => absurd (hcs.chars _ hmem) (by decide)
  rw [htext, Decimal.signed]
  split_ifs
  · simpa using hbreak
  · exact hbreak

/-- A number without a sign is read back from its text, which is one token as a whole. -/
theorem read_toText (n : Number) (hn : n.Unsigned) (file : String) :
    let s : Source := ⟨file, n.toText⟩
    let stop : Position := ⟨s, n.toText.utf8ByteSize, 0, n.toText.length⟩
    TokenStream.ofSource s =
      ⟨[⟨.number n, ⟨.start s, stop⟩⟩, ⟨.stop, .empty stop⟩], none⟩ := by
  intro s stop
  have hstop : (Position.start s).advanceOver n.toText.toList = stop := by
    rw [Position.advanceOver_of_unbroken hn.isFinite.unbroken_toText, Position.utf8Len_toList,
      String.length_toList]
    simp [Position.start, stop]
  rw [← hstop]
  exact TokenStream.ofChars_of_spells hn.spells (.start s)

theorem read_toText_limit :
    let n : Number := .float 9223372036854775808
    let s : Source := ⟨"in", n.toText⟩
    n.Unsigned ∧ n.toText = "9223372036854775808.0" ∧
      TokenStream.ofSource s =
        ⟨[⟨.number n, ⟨⟨s, 0, 0, 0⟩, ⟨s, 21, 0, 21⟩⟩⟩, ⟨.stop, .empty ⟨s, 21, 0, 21⟩⟩], none⟩ := by
  intro n s
  have hn : n.Unsigned := ⟨⟨2 ^ 52, 11, true⟩, by decide +kernel⟩
  have htext : n.toText = "9223372036854775808.0" := by decide +kernel
  have hsize : n.toText.utf8ByteSize = 21 ∧ n.toText.length = 21 := by
    rw [htext]
    decide
  have hread := read_toText n hn "in"
  rw [hsize.1, hsize.2] at hread
  exact ⟨hn, htext, hread⟩

end Number

end ArrowScript
