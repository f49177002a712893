import Mathlib
import ArrowScript.Proofs.Cursor
import ArrowScript.Proofs.LexicalGrammar

/-! Tokens tile the text. As far as reading comes, every character is a blank or belongs to exactly
one token, and the spans of the tokens follow one another. That holds up to the end of the text, and
up to the beginning of a fault where there is one. The places where pieces are cut are those that a
cursor comes to in single steps from the start. -/

namespace ArrowScript

def Text.takeBytes : Nat → List Char → List Char
  | _, [] => []
  | n, c :: cs => if c.utf8Size ≤ n then c :: takeBytes (n - c.utf8Size) cs else []

theorem Text.takeBytes_utf8Len (cs ds : List Char) :
    takeBytes (String.utf8Len cs) (cs ++ ds) = cs := by
  induction cs with
  | nil =>
    cases ds with
    | nil => rfl
    | cons d ds =>
      have hd := d.utf8Size_pos
      rw [String.utf8Len_nil, List.nil_append, takeBytes, if_neg (by omega)]
  | cons c cs ih =>
    rw [List.cons_append, takeBytes, String.utf8Len_cons, if_pos (Nat.le_add_left _ _),
      Nat.add_sub_cancel, ih]

namespace Span

def chars (s : Span) : List Char :=
  Text.takeBytes (s.stop.index - s.start.index) s.start.rest

def Covers (s : Span) (i : Nat) : Prop := s.start.index ≤ i ∧ i < s.stop.index

theorem chars_eq {p : Position} {before w after : List Char} (h : p.Follows before)
    (htext : p.source.text.toList = before ++ w ++ after) :
    (Span.mk p (p.advanceOver w)).chars = w := by
  have hrest : p.rest = w ++ after := by
    rw [h.text_eq, List.append_assoc] at htext
    exact List.append_cancel_left htext
  rw [chars, hrest, Position.index_advanceOver, Nat.add_sub_cancel_left, Text.takeBytes_utf8Len]

end Span

namespace Lexeme

theorem extra_number_lt {cs : List Char} (hcs : cs ≠ []) : (number cs).extra < cs.length := by
  obtain ⟨whole, left, rfl, hwhole, hleft⟩ := exists_run Char.isDigit cs
  have hpos := List.length_pos_of_ne_nil hcs
  rw [List.length_append] at hpos ⊢
  simp only [number, takeWhile_run hwhole hleft, dropWhile_run hwhole hleft]
  split
  · rename_i more
    have hmore : (more.takeWhile Char.isDigit).length + (more.dropWhile Char.isDigit).length =
        more.length := by
      rw [← List.length_append, List.takeWhile_append_dropWhile]
    rw [List.length_cons]
    split_ifs
    · dsimp only
      omega
    · split
      · rename_i hpoint
        rw [hpoint, List.length_cons] at hmore
        dsimp only
        omega
      · dsimp only
        omega
  · dsimp only
    omega

theorem le_of_stringTail {content content' cs : List Char} {n n' : Nat}
    (h : stringTail content n cs = some (content', n')) : n' ≤ n + cs.length := by
  fun_induction stringTail content n cs with
  | case1 => cases h
  | case2 =>
    cases h
    simp
  | case3 content n c rest ih =>
    have hle := ih h
    simp only [List.length_cons]
    omega
  | case4 content n c rest _ _ ih =>
    have hle := ih h
    simp only [List.length_cons]
    omega

theorem extra_first_le (c : Char) (rest : List Char) : (first c rest).extra ≤ rest.length := by
  unfold first
  split_ifs
  · exact Nat.zero_le _
  · exact Nat.lt_succ_iff.1 (extra_number_lt (List.cons_ne_nil c rest))
  · exact Nat.zero_le _
  · exact (List.takeWhile_sublist _).length_le
  · unfold string
    split
    · rename_i h
      simpa using le_of_stringTail h
    · exact le_rfl
  · unfold symbol
    split
    · cases rest with
      | nil => simp_all
      | cons d rest => simp
    · exact Nat.zero_le _
    · exact (List.takeWhile_sublist _).length_le

end Lexeme

namespace TokenStream

/-- Reading goes as a cursor does. At the end of the text there is nothing to read. Before it, the
first piece is cut from what stands at the cursor, and reading goes on where as many steps lead as
the piece has characters. -/
theorem ofChars_rest {source : Source} {p : Position} (hp : p.IsCursorOf source) :
    (p.atEnd = true → ofChars p p.rest = finished p none) ∧
    ∀ c ∈ p.current?,
      let cut := Lexeme.first c p.step.rest
      let after := Position.step^[cut.extra + 1] p
      after.IsCursorOf source ∧ after.rest = p.rest.drop (cut.extra + 1) ∧ ofChars p p.rest =
        match cut.piece with
        | .blank => ofChars after after.rest
        | .token kind => (ofChars after after.rest).push ⟨kind, ⟨p, after⟩⟩
        | .fault cause => finished after (some ⟨cause, ⟨p, after⟩⟩) := by
  refine ⟨fun hend => ?_, fun c hc => ?_⟩
  · rw [hp.atEnd_iff.1 hend, ofChars]
  · obtain ⟨rest, hrest⟩ : ∃ rest, p.rest = c :: rest := List.head?_eq_some_iff.1 hc
    intro cut after
    have hcut : cut = Lexeme.first c rest := by rw [← (hp.step hrest).2.2.1]
    have hle : cut.extra ≤ rest.length := hcut ▸ Lexeme.extra_first_le c rest
    -- the piece as a list of characters, as many as there are steps
    have hsplit : p.rest = c :: rest.take cut.extra ++ rest.drop cut.extra := by
      rw [hrest, List.cons_append, List.take_append_drop]
    obtain ⟨hsteps, hcursor, hleft⟩ := hp.iterate_step hsplit
    rw [List.length_cons, List.length_take_of_le hle] at hsteps
    change after = _ at hsteps
    rw [hsteps, hleft, hrest, List.drop_succ_cons, ofChars, ← hcut]
    exact ⟨hcursor, rfl, rfl⟩

theorem span_ofChars_rest {source : Source} {p : Position} (hp : p.IsCursorOf source) :
    ∀ t ∈ (ofChars p p.rest).tokens,
      ∃ i j, t.span = ⟨Position.step^[i] p, Position.step^[j] p⟩ := by
  induction hn : p.rest.length using Nat.strong_induction_on generalizing p with
  | _ n ih =>
    obtain ⟨hend, hpiece⟩ := ofChars_rest hp
    cases hc : p.current? with
    | none =>
      rw [hend (hp.atEnd_iff.2 (List.head?_eq_none_iff.1 hc)), finished]
      simpa using ⟨0, 0, rfl⟩
    | some c =>
      obtain ⟨hafter, hleft, hstream⟩ := hpiece c hc
      generalize hcut : Lexeme.first c p.step.rest = cut at hafter hleft hstream
      have hpos : p.rest ≠ [] := fun h => by simp [Position.current?, h] at hc
      have hshorter : (Position.step^[cut.extra + 1] p).rest.length < n := by
        have hlength := List.length_pos_of_ne_nil hpos
        rw [hleft, List.length_drop]
        omega
      have hlater : ∀ t ∈ (ofChars (Position.step^[cut.extra + 1] p)
          (Position.step^[cut.extra + 1] p).rest).tokens,
          ∃ i j, t.span = ⟨Position.step^[i] p, Position.step^[j] p⟩ := by
        intro t ht
        obtain ⟨i, j, hspan⟩ := ih _ hshorter hafter rfl t ht
        rw [← Function.iterate_add_apply, ← Function.iterate_add_apply] at hspan
        exact ⟨_, _, hspan⟩
      rw [hstream]
      cases cut.piece with
      | blank => exact hlater
      | token kind => exact List.forall_mem_cons.2 ⟨⟨0, _, rfl⟩, hlater⟩
      | fault cause => exact List.forall_mem_singleton.2 ⟨_, _, rfl⟩

/-- Tokens begin and end where single steps lead from the start of the text. -/
theorem span_ofSource (s : Source) : ∀ t ∈ (ofSource s).tokens,
    ∃ i j, t.span = ⟨Position.step^[i] (.start s), Position.step^[j] (.start s)⟩ := by
  rw [ofSource, ← Position.rest_start]
  exact span_ofChars_rest (Position.isCursorOf_start s)

inductive Tiled : Position → List Char → List Token → Prop
  | nil {p} : Tiled p [] []
  | blank {p c cs ts} (hc : Text.isBlank c) (h : Tiled (p.advance c) cs ts) : Tiled p (c :: cs) ts
  | token {p w k cs ts} (hw : w ≠ []) (hk : k.isStop = false) (h : Tiled (p.advanceOver w) cs ts) :
      Tiled p (w ++ cs) (⟨k, ⟨p, p.advanceOver w⟩⟩ :: ts)

inductive Ending (p : Position) : List Char → Position → Option LexError → Prop
  | done : Ending p [] p none
  | fault (cause : LexFault) {w : List Char} (hw : w ≠ []) (rest : List Char) :
      Ending p (w ++ rest) (p.advanceOver w) (some ⟨cause, ⟨p, p.advanceOver w⟩⟩)

theorem ofChars_tiled (p : Position) (cs : List Char) :
    ∃ read rest ts stop error?, cs = read ++ rest ∧ Tiled p read ts ∧
      Ending (p.advanceOver read) rest stop error? ∧
      ofChars p cs = ⟨ts ++ [⟨.stop, .empty stop⟩], error?⟩ := by
  fun_induction ofChars p cs with
  | case1 p => exact ⟨[], [], [], p, none, rfl, .nil, .done, rfl⟩
  | case2 p c rest cut after hpiece ih =>
    obtain ⟨hc, hextra⟩ := Lexeme.isBlank_of_first hpiece
    obtain ⟨read, left, ts, stop, error?, hrest, htiled, hending, hstream⟩ := ih
    have hafter : after = p.advance c := by simp only [after, cut, hextra, List.take_zero]; rfl
    rw [hextra, List.drop_zero] at hrest
    rw [hafter] at htiled hending
    exact ⟨c :: read, left, ts, stop, error?, by rw [hrest]; rfl, .blank hc htiled, hending,
      hstream⟩
  | case3 p c rest cut after k hpiece ih =>
    obtain ⟨w, -, -, -, hw, -⟩ : Lexeme.Begins (c :: rest) k cut.extra :=
      Lexeme.begins_of_first (by rw [← hpiece])
    obtain ⟨read, left, ts, stop, error?, hrest, htiled, hending, hstream⟩ := ih
    refine ⟨c :: rest.take cut.extra ++ read, left, ⟨k, ⟨p, after⟩⟩ :: ts, stop, error?, ?_,
      .token (by simp) (Lexeme.isStop_of_spells hw) htiled, ?_, ?_⟩
    · rw [List.append_assoc, ← hrest, List.cons_append, List.take_append_drop]
    · rw [Position.advanceOver_append]
      exact hending
    · rw [hstream]
      rfl
  | case4 p c rest cut after cause hpiece =>
    refine ⟨[], c :: rest, [], after, some ⟨cause, ⟨p, after⟩⟩, rfl, .nil, ?_, rfl⟩
    have hrest : c :: rest = c :: rest.take cut.extra ++ rest.drop cut.extra := by
      rw [List.cons_append, List.take_append_drop]
    rw [hrest]
    exact .fault cause (by simp) _

namespace Tiled

variable {p : Position} {cs : List Char} {ts : List Token}

theorem inside (h : Tiled p cs ts) : ∀ t ∈ ts, p.index ≤ t.span.start.index ∧
    t.span.start.index < t.span.stop.index ∧
    t.span.stop.index ≤ p.index + String.utf8Len cs := by
  induction h with
  | nil => simp
  | @blank p c cs ts hc h ih =>
    intro t ht
    have hbounds := ih t ht
    rw [Position.index_advance] at hbounds
    rw [String.utf8Len_cons]
    omega
  | @token p w k cs ts hw hk h ih =>
    have hpos : 0 < String.utf8Len w :=
      Nat.pos_of_ne_zero fun h => hw (String.utf8Len_eq_zero.1 h)
    rw [Position.index_advanceOver] at ih
    rw [String.utf8Len_append, List.forall_mem_cons]
    refine ⟨⟨le_rfl, ?_, ?_⟩, fun t ht => ?_⟩
    · change p.index < (p.advanceOver w).index
      rw [Position.index_advanceOver]
      omega
    · rw [Position.index_advanceOver]
      omega
    · have hbounds := ih t ht
      omega

theorem ordered (h : Tiled p cs ts) :
    ts.Pairwise fun t u => t.span.stop.index ≤ u.span.start.index := by
  induction h with
  | nil => exact .nil
  | blank _ _ ih => exact ih
  | token _ _ h ih => exact List.pairwise_cons.2 ⟨fun u hu => (h.inside u hu).1, ih⟩

theorem isStop_eq_false (h : Tiled p cs ts) : ∀ t ∈ ts, t.kind.isStop = false := by
  induction h with
  | nil => simp
  | blank _ _ ih => exact ih
  | token _ hk _ ih => exact List.forall_mem_cons.2 ⟨hk, ih⟩

theorem isBlank (h : Tiled p cs ts) {before after : List Char} {c : Char}
    (hcs : cs = before ++ c :: after)
    (hfree : ∀ t ∈ ts, ¬ t.span.Covers (p.index + String.utf8Len before)) :
    Text.isBlank c = true := by
  induction h generalizing before with
  | nil => simp at hcs
  | @blank p d cs ts hd h ih =>
    cases before with
    | nil =>
      cases hcs
      exact hd
    | cons b before =>
      obtain ⟨rfl, htail⟩ := List.cons.inj hcs
      refine ih htail fun t ht => ?_
      have hshift : (p.advance d).index + String.utf8Len before =
          p.index + String.utf8Len (d :: before) := by
        rw [Position.index_advance, String.utf8Len_cons]
        omega
      rw [hshift]
      exact hfree t ht
  | @token p w k cs ts hw hk h ih =>
    rw [List.forall_mem_cons] at hfree
    -- the character stands within the token, or behind it
    rcases List.append_eq_append_iff.1 hcs with ⟨gap, hbefore, hgap⟩ | ⟨tail, hw', htail⟩
    · refine ih hgap fun t ht => ?_
      rw [Position.index_advanceOver, Nat.add_assoc, ← String.utf8Len_append, ← hbefore]
      exact hfree.2 t ht
    · cases tail with
      | nil =>
        have hcs' : cs = [] ++ c :: after := by simpa using htail.symm
        refine ih hcs' fun t ht => ?_
        rw [Position.index_advanceOver, hw', List.append_nil]
        exact hfree.2 t ht
      | cons d tail =>
        have hd := d.utf8Size_pos
        refine absurd ⟨Nat.le_add_right _ _, ?_⟩ hfree.1
        rw [Position.index_advanceOver, hw', String.utf8Len_append, String.utf8Len_cons]
        omega

theorem rebuilt (h : Tiled p cs ts) {source : Source} {before after : List Char}
    (hp : p.Follows before) (hsource : p.source = source)
    (htext : source.text.toList = before ++ cs ++ after) :
    ∃ (lead : List Char) (gaps : List (List Char)), gaps.length = ts.length ∧
      (∀ g ∈ lead :: gaps, ∀ c ∈ g, Text.isBlank c = true) ∧
      cs = lead ++ (List.zipWith (fun t g => t.span.chars ++ g) ts gaps).flatten := by
  induction h generalizing before with
  | nil => exact ⟨[], [], rfl, by simp, rfl⟩
  | @blank p c cs ts hc h ih =>
    have hstarts : before ++ [c] <+: p.source.text.toList := by
      rw [hsource, htext]
      exact ⟨cs ++ after, by simp⟩
    obtain ⟨lead, gaps, hlength, hblank, hcs⟩ :=
      ih (hp.advance hstarts) (by rwa [Position.source_advance]) (by simpa using htext)
    rw [List.forall_mem_cons] at hblank
    refine ⟨c :: lead, gaps, hlength, ?_, by rw [hcs]; rfl⟩
    exact List.forall_mem_cons.2 ⟨List.forall_mem_cons.2 ⟨hc, hblank.1⟩, hblank.2⟩
  | @token p w k cs ts hw hk h ih =>
    have hstarts : before ++ w <+: p.source.text.toList := by
      rw [hsource, htext]
      exact ⟨cs ++ after, by simp⟩
    obtain ⟨lead, gaps, hlength, hblank, hcs⟩ :=
      ih (hp.advanceOver hstarts) (by rwa [Position.source_advanceOver]) (by simpa using htext)
    have htext' : p.source.text.toList = before ++ w ++ (cs ++ after) := by
      rw [hsource, htext]
      simp
    have hchars : (Span.mk p (p.advanceOver w)).chars = w := Span.chars_eq hp htext'
    refine ⟨[], lead :: gaps, by simp [hlength], ?_, ?_⟩
    · exact List.forall_mem_cons.2 ⟨by simp, hblank⟩
    · rw [List.zipWith_cons_cons, List.flatten_cons, hchars, List.append_assoc, ← hcs]
      rfl

theorem liesIn (h : Tiled p cs ts) {source : Source} {before : List Char}
    (hp : p.Follows before) (hsource : p.source = source)
    (hcs : before ++ cs <+: source.text.toList) : ∀ t ∈ ts, t.span.LiesIn source := by
  induction h generalizing before with
  | nil => simp
  | @blank p c cs ts hc h ih =>
    have hstep : before ++ c :: cs = before ++ [c] ++ cs := by simp
    rw [hstep] at hcs
    have hc' := hp.advance (hsource ▸ (List.prefix_append _ cs).trans hcs)
    exact ih hc' (by rwa [Position.source_advance]) hcs
  | @token p w k cs ts hw hk h ih =>
    rw [← List.append_assoc] at hcs
    have hw' := hp.advanceOver (hsource ▸ (List.prefix_append _ cs).trans hcs)
    have hsource' : (p.advanceOver w).source = source := by rwa [Position.source_advanceOver]
    refine List.forall_mem_cons.2 ⟨⟨⟨hsource, before, hp⟩, ⟨hsource', _, hw'⟩, ?_⟩,
      ih hw' hsource' hcs⟩
    rw [Position.index_advanceOver]
    exact Nat.le_add_right _ _

end Tiled

/-- The tokens `ts` tile the first `stop` bytes of the text of `source`. -/
structure Tiles (source : Source) (stop : Nat) (ts : List Token) : Prop where
  nonempty : ∀ t ∈ ts, t.span.start.index < t.span.stop.index
  ordered : ts.Pairwise fun t u => t.span.stop.index ≤ u.span.start.index
  inside : ∀ t ∈ ts, t.span.stop.index ≤ stop
  isBlank : ∀ before c after, source.text.toList = before ++ c :: after →
    String.utf8Len before < stop → (∀ t ∈ ts, ¬ t.span.Covers (String.utf8Len before)) →
    Text.isBlank c = true
  rebuilt : ∃ (lead : List Char) (gaps : List (List Char)), gaps.length = ts.length ∧
    (∀ g ∈ lead :: gaps, ∀ c ∈ g, Text.isBlank c = true) ∧
    Text.takeBytes stop source.text.toList =
      lead ++ (List.zipWith (fun t g => t.span.chars ++ g) ts gaps).flatten

theorem Tiled.tiles {source : Source} {read rest : List Char} {ts : List Token}
    (h : Tiled (.start source) read ts) (htext : source.text.toList = read ++ rest) :
    Tiles source (String.utf8Len read) ts where
  nonempty t ht := (h.inside t ht).2.1
  ordered := h.ordered
  inside t ht := by simpa [Position.start] using (h.inside t ht).2.2
  isBlank before c after hc hlt hfree := by
    -- the character lies before the end of what has been read
    obtain ⟨tail, hread⟩ : ∃ tail, read = before ++ c :: tail := by
      rw [htext] at hc
      rcases List.append_eq_append_iff.1 hc with ⟨gap, hbefore, -⟩ | ⟨tail, hread, htail⟩
      · rw [hbefore, String.utf8Len_append] at hlt
        omega
      · cases tail with
        | nil =>
          rw [hread, List.append_nil] at hlt
          omega
        | cons d tail =>
          obtain ⟨rfl, -⟩ := List.cons.inj htail
          exact ⟨tail, hread⟩
    exact h.isBlank hread (by simpa [Position.start] using hfree)
  rebuilt := by
    rw [htext, Text.takeBytes_utf8Len]
    exact h.rebuilt (Position.Follows.start source) rfl htext

/-- The tokens of a source, without the one for the end of the input that stands last, tile the text
up to its end, or up to the fault where there is one. The end of the input is then at the end of the
text, or at the end of the fault. -/
theorem ofSource_tiles (source : Source) :
    let stream := ofSource source
    ∃ (ts : List Token) (stop : Position), stream.tokens = ts ++ [⟨.stop, .empty stop⟩] ∧
      (∀ t ∈ ts, t.kind.isStop = false) ∧
      match stream.error? with
      | none => Tiles source source.text.utf8ByteSize ts ∧ stop.index = source.text.utf8ByteSize
      | some fault => Tiles source fault.span.start.index ts ∧ stop = fault.span.stop := by
  obtain ⟨read, rest, ts, stop, error?, htext, htiled, hending, hstream⟩ :=
    ofChars_tiled (.start source) source.text.toList
  have htiles := htiled.tiles htext
  have hindex : (Position.advanceOver (.start source) read).index = String.utf8Len read := by
    rw [Position.index_advanceOver]
    exact Nat.zero_add _
  refine ⟨ts, stop, by rw [ofSource, hstream], htiled.isStop_eq_false, ?_⟩
  rw [ofSource, hstream]
  cases hending with
  | done =>
    rw [List.append_nil] at htext
    rw [← Position.utf8Len_toList, htext]
    exact ⟨htiles, hindex⟩
  | fault cause hw rest => exact ⟨hindex ▸ htiles, rfl⟩

end TokenStream

end ArrowScript
