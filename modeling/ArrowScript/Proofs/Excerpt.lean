import Mathlib
import ArrowScript.Diagnostic
import ArrowScript.Proofs.Cursor
import ArrowScript.Proofs.LexicalGrammar

/-! The excerpt of a report. It shows the line on which a span starts, found by counting line breaks
from the beginning of the text, and carets at columns that the cursors have counted themselves. The
two agree: the carets stand under the characters of the span, as far as these are on the line. -/

namespace ArrowScript

/-- The line around a place in a text, which has `before` and `after` on its two sides: of the line,
`head` stands before the place and `tail` behind it. -/
structure Text.LineAround (before after head tail : List Char) : Prop where
  above : ∃ above, before = above ++ head ∧ ∀ c ∈ above.getLast?, c = '\n'
  below : ∃ below, after = tail ++ below ∧ ∀ c ∈ below.head?, c = '\n'
  unbroken : '\n' ∉ head ++ tail

namespace Text

theorem rtakeWhile_run {p : Char → Bool} {above w : List Char} (hw : ∀ c ∈ w, p c)
    (habove : ∀ c ∈ above.getLast?, p c = false) : (above ++ w).rtakeWhile p = w := by
  have hrun : (w.reverse ++ above.reverse).takeWhile p = w.reverse := by
    apply Lexeme.takeWhile_run
    · simpa using hw
    · simpa using habove
  rw [List.rtakeWhile, List.reverse_append, hrun, List.reverse_reverse]

theorem exists_lineAround (before after : List Char) :
    ∃ head tail, LineAround before after head tail := by
  obtain ⟨tail, below, hafter, htail, hbelow⟩ := Lexeme.exists_run (· != '\n') after
  obtain ⟨head', above', hbefore, hhead, habove⟩ :=
    Lexeme.exists_run (· != '\n') before.reverse
  refine ⟨head'.reverse, tail, ⟨above'.reverse, ?_, ?_⟩, ⟨below, hafter, by simpa using hbelow⟩, ?_⟩
  · rw [← List.reverse_append, ← hbefore, List.reverse_reverse]
  · simpa using habove
  · intro hbreak
    rw [List.mem_append, List.mem_reverse] at hbreak
    rcases hbreak with hbreak | hbreak
    · simpa using hhead _ hbreak
    · simpa using htail _ hbreak

theorem lineAt?_of_above {above cs : List Char} (habove : ∀ c ∈ above.getLast?, c = '\n') :
    Position.lineAt? (above.count '\n') (above ++ cs) = some (cs.takeWhile (· != '\n')) := by
  induction above with
  | nil => rfl
  | cons c above ih =>
    by_cases hc : c = '\n'
    · subst hc
      have hlast : ∀ c ∈ above.getLast?, c = '\n' := by
        intro d hd
        apply habove
        rw [List.getLast?_cons, Option.mem_def.mp hd]
        rfl
      rw [List.count_cons_self, List.cons_append, Position.lineAt?]
      simpa using ih hlast
    · -- a line break is still to come, and the count goes on behind it
      cases above with
      | nil => exact absurd (habove c rfl) hc
      | cons d above =>
        rw [List.getLast?_cons_cons] at habove
        have hnext := ih habove
        obtain ⟨n, hn⟩ : ∃ n, (d :: above).count '\n' = n + 1 := by
          have hlast : (d :: above).getLast (List.cons_ne_nil d above) = '\n' := by
            apply habove
            exact List.getLast?_eq_some_getLast _
          have hmem : '\n' ∈ d :: above := hlast ▸ List.getLast_mem _
          exact Nat.exists_eq_succ_of_ne_zero (List.count_pos_iff.2 hmem).ne'
        rw [hn] at hnext
        rw [List.count_cons_of_ne hc, hn, ← hnext, Position.lineAt?, Position.lineAt?,
          List.cons_append, List.dropWhile_cons_of_pos (by simpa using hc)]

namespace LineAround

variable {before after head tail : List Char}

theorem lineAt?_eq (h : LineAround before after head tail) :
    Position.lineAt? (before.count '\n') (before ++ after) = some (head ++ tail) := by
  obtain ⟨above, rfl, habove⟩ := h.above
  obtain ⟨below, rfl, hbelow⟩ := h.below
  have hcount : (above ++ head).count '\n' = above.count '\n' := by
    have hhead : '\n' ∉ head := fun hbreak => h.unbroken (List.mem_append_left _ hbreak)
    rw [List.count_append, List.count_eq_zero.2 hhead, Nat.add_zero]
  have hline : (head ++ tail ++ below).takeWhile (· != '\n') = head ++ tail := by
    apply Lexeme.takeWhile_run
    · intro c hc
      rw [bne_iff_ne]
      rintro rfl
      exact h.unbroken hc
    · simpa using hbelow
  have htext : above ++ head ++ (tail ++ below) = above ++ (head ++ tail ++ below) := by simp
  rw [hcount, htext, lineAt?_of_above habove, hline]

theorem rtakeWhile_append (h : LineAround before after head tail) {run : List Char}
    (hrun : '\n' ∉ run) : (before ++ run).rtakeWhile (· != '\n') = head ++ run := by
  obtain ⟨above, rfl, habove⟩ := h.above
  rw [List.append_assoc]
  apply rtakeWhile_run
  · intro c hc
    rw [bne_iff_ne]
    rintro rfl
    rcases List.mem_append.1 hc with hc | hc
    · exact h.unbroken (List.mem_append_left _ hc)
    · exact hrun hc
  · simpa using habove

theorem column_eq (h : LineAround before after head tail) {p : Position}
    (hp : p.Follows before) : p.column = head.length := by
  have hhead : before.rtakeWhile (· != '\n') = head := by
    simpa using h.rtakeWhile_append List.not_mem_nil
  rw [hp.column_eq, hhead]

theorem prefix_tail_iff (h : LineAround before after head tail) {run : List Char}
    (hrun : run <+: after) : '\n' ∉ run ↔ run <+: tail := by
  obtain ⟨below, rfl, hbelow⟩ := h.below
  have htail : '\n' ∉ tail := fun hbreak => h.unbroken (List.mem_append_right _ hbreak)
  constructor
  · intro hfree
    rcases List.prefix_or_prefix_of_prefix hrun (List.prefix_append tail below) with hr | hr
    · exact hr
    · obtain ⟨more, rfl⟩ := hr
      cases more with
      | nil => simp
      | cons c more =>
        rw [List.prefix_append_right_inj] at hrun
        obtain ⟨rest, rfl⟩ := hrun
        exact absurd (by simp [hbelow c rfl]) hfree
  · rintro ⟨more, rfl⟩ hbreak
    exact htail (List.mem_append_left _ hbreak)

theorem getElem?_eq (h : LineAround before after head tail) {run : List Char}
    (hrun : run <+: after) {k : Nat} (hk : k < min run.length tail.length) :
    (head ++ tail)[head.length + k]? = run[k]? := by
  obtain ⟨below, hafter, -⟩ := h.below
  obtain ⟨more, hmore⟩ := hrun
  have hkrun : k < run.length := by omega
  have hktail : k < tail.length := by omega
  calc (head ++ tail)[head.length + k]?
      = tail[k]? := by
        rw [List.getElem?_append_right (Nat.le_add_right _ _), Nat.add_sub_cancel_left]
    _ = after[k]? := by rw [hafter, List.getElem?_append_left hktail]
    _ = run[k]? := by rw [← hmore, List.getElem?_append_left hkrun]

end LineAround

end Text

namespace Position

theorem prefix_of_index_le {source : Source} {before before' : List Char}
    (hbefore : before <+: source.text.toList) (hbefore' : before' <+: source.text.toList)
    (hle : ((start source).advanceOver before).index ≤
      ((start source).advanceOver before').index) : before <+: before' := by
  rcases List.prefix_or_prefix_of_prefix hbefore hbefore' with h | h
  · exact h
  · obtain ⟨more, rfl⟩ := h
    rw [index_advanceOver, index_advanceOver, String.utf8Len_append] at hle
    have hmore : String.utf8Len more = 0 := by omega
    rw [String.utf8Len_eq_zero.1 hmore, List.append_nil]

end Position

namespace Span

variable {s : Span} {before covered after head tail : List Char}

theorem caretStop_eq (hstart : s.start.Follows before) (hstop : s.stop.Follows (before ++ covered))
    (hcovered : covered <+: after) (hline : Text.LineAround before after head tail)
    (hsource : s.start.sourceLine = head ++ tail) :
    s.caretStop = head.length + max 1 (min covered.length tail.length) := by
  have hcolumn := hline.column_eq hstart
  have hlines : s.stop.line = s.start.line ↔ '\n' ∉ covered := by
    rw [hstop.line_eq, hstart.line_eq, List.count_append, Nat.add_eq_left, List.count_eq_zero]
  unfold caretStop
  dsimp only
  by_cases hfree : '\n' ∈ covered
  · -- the span goes on behind the end of its first line
    obtain ⟨below, hafter, -⟩ := hline.below
    have htail : tail.length ≤ covered.length := by
      rcases List.prefix_or_prefix_of_prefix hcovered (hafter ▸ List.prefix_append tail below)
        with hc | hc
      · exact absurd hfree ((hline.prefix_tail_iff hcovered).2 hc)
      · exact hc.length_le
    rw [if_neg (fun h => hlines.1 h hfree), hcolumn, hsource, List.length_append,
      Nat.min_eq_right htail]
    omega
  · have hcolumn' : s.stop.column = head.length + covered.length := by
      rw [hstop.column_eq, hline.rtakeWhile_append hfree, List.length_append]
    have hle : covered.length ≤ tail.length :=
      ((hline.prefix_tail_iff hcovered).1 hfree).length_le
    rw [if_pos (hlines.2 hfree), hcolumn, hcolumn', Nat.min_eq_left hle]
    omega

theorem exists_of_caret {m n j : Nat}
    (h : (List.replicate m ' ' ++ List.replicate n '^')[j]? = some '^') :
    ∃ k < n, j = m + k := by
  have hge : m ≤ j := by
    by_contra hlt
    rw [List.getElem?_append_left (by simpa using hlt), List.getElem?_replicate] at h
    simp [not_le.1 hlt] at h
  obtain ⟨k, rfl⟩ := Nat.exists_eq_add_of_le hge
  refine ⟨k, ?_, rfl⟩
  by_contra hle
  rw [List.getElem?_eq_none (by simp; omega)] at h
  cases h

/-- For two cursors into a text, moved from its beginning over `before` and over as much or more:
the line that is shown is the one around the first of them, counting finds it in the text, and it
gets a blank for each of its characters before the span, and a caret for each of its characters
within. Where there is none within, it still gets one caret; any other caret stands under a
character of the span. -/
theorem excerpt_exact (source : Source) {before before' : List Char}
    (hbefore : before <+: source.text.toList) (hbefore' : before' <+: source.text.toList)
    (hle : ((Position.start source).advanceOver before).index ≤
      ((Position.start source).advanceOver before').index) :
    let s : Span :=
      ⟨(Position.start source).advanceOver before, (Position.start source).advanceOver before'⟩
    ∃ covered after head tail, before' = before ++ covered ∧
      source.text.toList = before ++ after ∧ Text.LineAround before after head tail ∧
      Position.lineAt? s.start.line source.text.toList = some (head ++ tail) ∧
      s.start.sourceLine = head ++ tail ∧
      let n := min covered.length tail.length
      s.carets = List.replicate head.length ' ' ++ List.replicate (max 1 n) '^' ∧
      ∀ j, s.carets[j]? = some '^' →
        n = 0 ∨ ∃ k < n, j = head.length + k ∧ (head ++ tail)[j]? = covered[k]? := by
  intro s
  obtain ⟨covered, rfl⟩ := Position.prefix_of_index_le hbefore hbefore' hle
  obtain ⟨after, htext⟩ := hbefore
  obtain ⟨head, tail, hline⟩ := Text.exists_lineAround before after
  have hstart : s.start.Follows before :=
    (Position.Follows.start source).advanceOver ⟨after, htext⟩
  have hstop : s.stop.Follows (before ++ covered) :=
    (Position.Follows.start source).advanceOver hbefore'
  have hcovered : covered <+: after := by rwa [← htext, List.prefix_append_right_inj] at hbefore'
  have hlineAt : Position.lineAt? s.start.line source.text.toList = some (head ++ tail) := by
    rw [hstart.line_eq, ← htext, hline.lineAt?_eq]
  have hsource : s.start.sourceLine = head ++ tail := by
    have hof : s.start.source = source := Position.source_advanceOver _ before
    rw [Position.sourceLine, hof, hlineAt, Option.getD_some]
  have hcarets : s.carets = List.replicate head.length ' ' ++
      List.replicate (max 1 (min covered.length tail.length)) '^' := by
    rw [carets, caretStop_eq hstart hstop hcovered hline hsource, hline.column_eq hstart,
      Nat.add_sub_cancel_left]
  refine ⟨covered, after, head, tail, rfl, htext.symm, hline, hlineAt, hsource, hcarets, ?_⟩
  intro j hj
  obtain ⟨k, hk, rfl⟩ := exists_of_caret (hcarets ▸ hj)
  by_cases hn : min covered.length tail.length = 0
  · exact .inl hn
  · have hk' : k < min covered.length tail.length := by omega
    exact .inr ⟨k, hk', rfl, hline.getElem?_eq hcovered hk'⟩

theorem excerpt_exact_across_lines :
    let source : Source := ⟨"f", "é = 1 +\n2"⟩
    let before := "é = ".toList
    let before' := "é = 1 +\n2".toList
    let s : Span :=
      ⟨(Position.start source).advanceOver before, (Position.start source).advanceOver before'⟩
    before <+: source.text.toList ∧ before' <+: source.text.toList ∧ s.start.index ≤ s.stop.index ∧
      s.start.sourceLine = "é = 1 +".toList ∧ s.carets = "    ^^^".toList ∧
      ∃ covered after head tail, before' = before ++ covered ∧
        Text.LineAround before after head tail ∧ s.start.sourceLine = head ++ tail ∧
        s.carets = List.replicate head.length ' ' ++
          List.replicate (max 1 (min covered.length tail.length)) '^' := by
  intro source before before' s
  have hbefore : before <+: source.text.toList := by decide +kernel
  have hbefore' : before' <+: source.text.toList := by decide +kernel
  have hle : s.start.index ≤ s.stop.index := by decide +kernel
  obtain ⟨covered, after, head, tail, hcovered, -, hline, -, hsource, hcarets, -⟩ :=
    excerpt_exact source hbefore hbefore' hle
  exact ⟨hbefore, hbefore', hle, by decide +kernel, by decide +kernel, covered, after, head, tail,
    hcovered, hline, hsource, hcarets⟩

end Span

end ArrowScript
