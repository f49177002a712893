import Mathlib
import ArrowScript.Text.Quoted
import ArrowScript.Proofs.LexicalGrammar

/-! A quoted text ends at its first bare quote and identifies the string in it: what is written for
one character is never the beginning of what is written for another. -/

namespace ArrowScript.Text

theorem brace_ne_of_mem_toDigits (n : Nat) : ∀ c ∈ Nat.toDigits 16 n, c != '\x7d' := by
  induction n using Nat.strong_induction_on with
  | _ n ih =>
    intro c hc
    have hdigit (k : Nat) : k.digitChar != '\x7d' := by
      rw [bne_iff_ne]
      exact Nat.digitChar_ne _ rfl
    rw [Nat.toDigits_eq_if (by decide)] at hc
    split_ifs at hc with hn
    · rw [List.mem_singleton.1 hc]
      exact hdigit n
    · rcases List.mem_append.1 hc with hc | hc
      · exact ih (n / 16) (by omega) c hc
      · rw [List.mem_singleton.1 hc]
        exact hdigit _

theorem digitChar_injective {m n : Nat} (hm : m < 16) (hn : n < 16)
    (h : m.digitChar = n.digitChar) : m = n := by
  have hall : ∀ m < 16, ∀ n < 16, m.digitChar = n.digitChar → m = n := by decide
  exact hall m hm n hn h

theorem toDigits_injective {m n : Nat} (h : Nat.toDigits 16 m = Nat.toDigits 16 n) : m = n := by
  induction m using Nat.strong_induction_on generalizing n with
  | _ m ih =>
    rw [Nat.toDigits_eq_if (by decide), Nat.toDigits_eq_if (by decide) (n := n)] at h
    split_ifs at h with hm hn hn
    · exact digitChar_injective hm hn (List.singleton_inj.1 h)
    · have hlength := congrArg List.length h
      have hpos := Nat.length_toDigits_pos (b := 16) (n := n / 16)
      simp only [List.length_append, List.length_singleton] at hlength
      omega
    · have hlength := congrArg List.length h
      have hpos := Nat.length_toDigits_pos (b := 16) (n := m / 16)
      simp only [List.length_append, List.length_singleton] at hlength
      omega
    · obtain ⟨hrest, hlast⟩ := List.append_inj' h rfl
      have hdiv := ih (m / 16) (by omega) hrest
      have hmod := digitChar_injective (Nat.mod_lt _ (by decide)) (Nat.mod_lt _ (by decide))
        (List.singleton_inj.1 hlast)
      omega

variable {c d : Char} {r s : List Char}

theorem codePoint_append (h : codePoint c ++ r = codePoint d ++ s) : c = d ∧ r = s := by
  simp only [codePoint, List.cons_append, List.nil_append, List.append_assoc, List.cons.injEq,
    true_and] at h
  have hbrace (r : List Char) : ∀ c ∈ ('\x7d' :: r).head?, (c != '\x7d') = false := by simp
  have hdigits : Nat.toDigits 16 c.toNat = Nat.toDigits 16 d.toNat := by
    rw [← Lexeme.takeWhile_run (brace_ne_of_mem_toDigits c.toNat) (hbrace r), h,
      Lexeme.takeWhile_run (brace_ne_of_mem_toDigits d.toNat) (hbrace s)]
  rw [hdigits, List.append_cancel_left_eq, List.cons.injEq] at h
  exact ⟨Char.toNat_inj.1 (toDigits_injective hdigits), h.2⟩

theorem quoteChar_cases (c : Char) :
    (∃ letter, shortEscape? c = some letter ∧ quoteChar c = ['\\', letter] ∧ letter ≠ 'u') ∨
      (quoteChar c = [c] ∧ c ≠ '\\' ∧ c ≠ '"') ∨ quoteChar c = codePoint c := by
  cases hc : shortEscape? c with
  | some letter =>
    refine .inl ⟨letter, rfl, by rw [quoteChar, hc], ?_⟩
    unfold shortEscape? at hc
    split at hc <;> cases hc <;> decide
  | none =>
    right
    rw [quoteChar, hc]
    dsimp only
    split_ifs
    · refine .inl ⟨rfl, ?_, ?_⟩
      · rintro rfl
        cases hc
      · rintro rfl
        cases hc
    · exact .inr rfl

theorem shortEscape?_injective {letter : Char} (hc : shortEscape? c = some letter)
    (hd : shortEscape? d = some letter) : c = d := by
  unfold shortEscape? at hc hd
  split at hc <;> cases hc <;> split at hd <;> simp_all

theorem quoteChar_append (h : quoteChar c ++ r = quoteChar d ++ s) : c = d ∧ r = s := by
  rcases quoteChar_cases c with ⟨x, hx, hc, hxu⟩ | ⟨hc, hcslash, -⟩ | hc <;>
    rcases quoteChar_cases d with ⟨y, hy, hd, hyu⟩ | ⟨hd, hdslash, -⟩ | hd <;> rw [hc, hd] at h
  · simp only [List.cons_append, List.nil_append, List.cons.injEq, true_and] at h
    exact ⟨shortEscape?_injective hx (h.1 ▸ hy), h.2⟩
  · exact absurd (List.cons.inj h).1.symm hdslash
  · simp only [codePoint, List.cons_append, List.cons.injEq, true_and] at h
    exact absurd h.1 hxu
  · exact absurd (List.cons.inj h).1 hcslash
  · exact List.cons.inj h
  · exact absurd (List.cons.inj h).1 hcslash
  · simp only [codePoint, List.cons_append, List.cons.injEq, true_and] at h
    exact absurd h.1.symm hyu
  · exact absurd (List.cons.inj h).1.symm hdslash
  · exact codePoint_append h

theorem quoteChar_ne_quote (c : Char) (r s : List Char) : quoteChar c ++ r ≠ '"' :: s := by
  intro h
  rcases quoteChar_cases c with ⟨x, -, hc, -⟩ | ⟨hc, -, hcquote⟩ | hc <;> rw [hc] at h
  · exact absurd (List.cons.inj h).1 (by decide)
  · exact hcquote (List.cons.inj h).1
  · exact absurd (List.cons.inj h).1 (by decide)

theorem quoteChars_append {cs ds : List Char} (h : quoteChars cs ++ r = quoteChars ds ++ s) :
    cs = ds ∧ r = s := by
  simp only [quoteChars, List.cons_append, List.append_assoc, List.nil_append, List.cons.injEq,
    true_and] at h
  induction cs generalizing ds with
  | nil =>
    cases ds with
    | nil => exact ⟨rfl, List.tail_eq_of_cons_eq h⟩
    | cons d ds =>
      rw [List.flatMap_cons, List.append_assoc] at h
      exact absurd h.symm (quoteChar_ne_quote d _ _)
  | cons c cs ih =>
    rw [List.flatMap_cons, List.append_assoc] at h
    cases ds with
    | nil => exact absurd h (quoteChar_ne_quote c _ _)
    | cons d ds =>
      rw [List.flatMap_cons, List.append_assoc] at h
      obtain ⟨rfl, hrest⟩ := quoteChar_append h
      obtain ⟨rfl, rfl⟩ := ih hrest
      exact ⟨rfl, rfl⟩

theorem quote_append {x y : String} (h : (quote x).toList ++ r = (quote y).toList ++ s) :
    x = y ∧ r = s := by
  rw [quote, quote, String.toList_ofList, String.toList_ofList] at h
  obtain ⟨hxy, hrs⟩ := quoteChars_append h
  exact ⟨String.toList_injective hxy, hrs⟩

end ArrowScript.Text
