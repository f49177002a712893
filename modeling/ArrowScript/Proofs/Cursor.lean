import Mathlib
import ArrowScript.Position

/-! Positions as cursors. A position is a true cursor when some characters at the beginning of its
text stand before it and its three numbers count them: bytes, line breaks, and characters behind
the last line break. Moving over the characters that come next keeps a cursor true. -/

namespace ArrowScript

namespace Position

/-- `before` is what stands before `p` in its text, counted as `p` says. -/
structure Follows (p : Position) (before : List Char) : Prop where
  starts : before <+: p.source.text.toList
  index_eq : p.index = String.utf8Len before
  line_eq : p.line = before.count '\n'
  column_eq : p.column = (before.rtakeWhile (· != '\n')).length

def IsCursorOf (source : Source) (p : Position) : Prop :=
  p.source = source ∧ ∃ before, p.Follows before

theorem source_advanceOver (p : Position) (cs : List Char) :
    (p.advanceOver cs).source = p.source := by
  induction cs generalizing p with
  | nil => rfl
  | cons c cs ih => rw [advanceOver_cons, ih, source_advance]

theorem index_advanceOver (p : Position) (cs : List Char) :
    (p.advanceOver cs).index = p.index + String.utf8Len cs := by
  induction cs generalizing p with
  | nil => rfl
  | cons c cs ih =>
    rw [advanceOver_cons, ih, index_advance, String.utf8Len_cons]
    omega

theorem dropBytes_utf8Len (cs ds : List Char) : dropBytes (String.utf8Len cs) (cs ++ ds) = ds := by
  induction cs with
  | nil =>
    rw [String.utf8Len_nil, List.nil_append]
    unfold dropBytes
    rfl
  | cons c cs ih =>
    have hc := c.utf8Size_pos
    obtain ⟨n, hn⟩ : ∃ n, String.utf8Len (c :: cs) = n + 1 :=
      Nat.exists_eq_succ_of_ne_zero (by rw [String.utf8Len_cons]; omega)
    have hrest : n + 1 - c.utf8Size = String.utf8Len cs := by
      rw [← hn, String.utf8Len_cons, Nat.add_sub_cancel]
    rw [hn, List.cons_append, dropBytes, hrest, if_pos, ih]
    rw [← hn, String.utf8Len_cons]
    omega

theorem utf8Len_toList (s : String) : String.utf8Len s.toList = s.utf8ByteSize := by
  rw [← String.utf8ByteSize_ofList, String.ofList_toList]

namespace Follows

variable {p : Position} {before : List Char}

theorem start (s : Source) : (Position.start s).Follows [] where
  starts := List.nil_prefix
  index_eq := rfl
  line_eq := rfl
  column_eq := rfl

theorem advance {c : Char} (h : p.Follows before)
    (hc : before ++ [c] <+: p.source.text.toList) : (p.advance c).Follows (before ++ [c]) := by
  have hsize : p.index + c.utf8Size = String.utf8Len (before ++ [c]) := by
    rw [String.utf8Len_append, h.index_eq, String.utf8Len_cons, String.utf8Len_nil, Nat.zero_add]
  by_cases hbreak : c = '\n'
  · subst hbreak
    refine ⟨by rwa [source_advance], by rw [index_advance, hsize], ?_, ?_⟩
    · rw [List.count_append, ← h.line_eq]
      rfl
    · rw [List.rtakeWhile_concat]
      rfl
  · refine ⟨by rwa [source_advance], by rw [index_advance, hsize], ?_, ?_⟩
    · rw [List.count_append, ← h.line_eq, List.count_singleton, if_neg (by simpa using hbreak)]
      simp [Position.advance, hbreak]
    · rw [List.rtakeWhile_concat, if_pos (by simpa using hbreak), List.length_append,
        ← h.column_eq]
      simp [Position.advance, hbreak]

theorem advanceOver {cs : List Char} (h : p.Follows before)
    (hcs : before ++ cs <+: p.source.text.toList) : (p.advanceOver cs).Follows (before ++ cs) := by
  induction cs generalizing p before with
  | nil => simpa using h
  | cons c cs ih =>
    have hstep : before ++ c :: cs = before ++ [c] ++ cs := by simp
    rw [hstep] at hcs ⊢
    have hc := h.advance ((List.prefix_append _ cs).trans hcs)
    rw [advanceOver_cons]
    exact ih hc (by rwa [source_advance])

theorem text_eq (h : p.Follows before) : p.source.text.toList = before ++ p.rest := by
  obtain ⟨after, hafter⟩ := h.starts
  rw [Position.rest, h.index_eq, ← hafter, dropBytes_utf8Len]

end Follows

namespace IsCursorOf

variable {source : Source} {p : Position}

theorem lineEnd (h : p.IsCursorOf source) : p.lineEnd.IsCursorOf source := by
  obtain ⟨hsource, before, hp⟩ := h
  refine ⟨(source_advanceOver p _).trans hsource, _, hp.advanceOver ?_⟩
  rw [hp.text_eq, List.prefix_append_right_inj]
  exact List.takeWhile_prefix _

theorem index_le_lineEnd (p : Position) : p.index ≤ p.lineEnd.index := by
  rw [Position.lineEnd, index_advanceOver]
  exact Nat.le_add_right _ _

theorem atEnd_iff (h : p.IsCursorOf source) : p.atEnd = true ↔ p.rest = [] := by
  obtain ⟨-, before, hp⟩ := h
  have hsize : p.source.text.utf8ByteSize = p.index + String.utf8Len p.rest := by
    rw [← utf8Len_toList, hp.text_eq, String.utf8Len_append, hp.index_eq]
  rw [atEnd, decide_eq_true_eq, hsize, ← String.utf8Len_eq_zero]
  omega

theorem step {c : Char} {cs : List Char} (h : p.IsCursorOf source) (hrest : p.rest = c :: cs) :
    p.step = p.advance c ∧ p.step.IsCursorOf source ∧ p.step.rest = cs ∧
      p.step.current? = p.next? := by
  obtain ⟨hsource, before, hp⟩ := h
  have hstep : p.step = p.advance c := by rw [Position.step, current?, hrest, List.head?_cons]
  have htext : p.source.text.toList = before ++ [c] ++ cs := by rw [hp.text_eq, hrest]; simp
  have hnext : (p.advance c).Follows (before ++ [c]) := hp.advance ⟨cs, htext.symm⟩
  have hleft : p.step.rest = cs := by
    have hcut := hnext.text_eq
    rw [source_advance, htext, List.append_cancel_left_eq] at hcut
    rw [hstep, hcut]
  refine ⟨hstep, ?_, hleft, ?_⟩
  · rw [hstep]
    exact ⟨(source_advance p c).trans hsource, _, hnext⟩
  · rw [current?, hleft, next?, hrest, List.tail_cons]

theorem iterate_step {cs ds : List Char} (h : p.IsCursorOf source) (hrest : p.rest = cs ++ ds) :
    Position.step^[cs.length] p = p.advanceOver cs ∧ (p.advanceOver cs).IsCursorOf source ∧
      (p.advanceOver cs).rest = ds := by
  induction cs generalizing p with
  | nil => exact ⟨rfl, h, hrest⟩
  | cons c cs ih =>
    obtain ⟨hstep, hcursor, hleft, -⟩ := h.step hrest
    rw [List.length_cons, Function.iterate_succ_apply, advanceOver_cons, ← hstep]
    exact ih hcursor hleft

end IsCursorOf

theorem isCursorOf_start (s : Source) : (start s).IsCursorOf s := ⟨rfl, [], .start s⟩

theorem rest_start (s : Source) : (start s).rest = s.text.toList :=
  (Follows.start s).text_eq.symm

end Position

structure Span.LiesIn (source : Source) (s : Span) : Prop where
  start : s.start.IsCursorOf source
  stop : s.stop.IsCursorOf source
  le : s.start.index ≤ s.stop.index

namespace Span.LiesIn

variable {source : Source} {s t : Span} {p : Position}

theorem empty (h : p.IsCursorOf source) : (Span.empty p).LiesIn source := ⟨h, h, le_rfl⟩

theorem behind (h : s.LiesIn source) : s.behind.LiesIn source := .empty h.stop

theorem toLineEnd (h : s.LiesIn source) : s.toLineEnd.LiesIn source :=
  ⟨h.start, h.stop.lineEnd, h.le.trans (Position.IsCursorOf.index_le_lineEnd _)⟩

end Span.LiesIn

end ArrowScript
