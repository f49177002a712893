import Mathlib
import ArrowScript.CommandLine.Program
import ArrowScript.Proofs.Isolation
import ArrowScript.Proofs.LexicalGrammar
import ArrowScript.Proofs.Release

/-! The interactive shell. It reads bytes, cuts them at line feeds and decodes each line for itself;
seen from outside it is one session over the lines of a text, up to the first that asks to leave. -/

namespace ArrowScript

namespace Text

/-- The lines of a text, cut at its line feeds. What stands behind the last line feed is a line of
its own unless it is empty. -/
def lines (cs : List Char) : List (List Char) :=
  let pieces := cs.splitOn '\n'
  if pieces.getLast? = some [] then pieces.dropLast else pieces

theorem lines_unbroken {cs : List Char} (hcs : '\n' ∉ cs) (hne : cs ≠ []) : lines cs = [cs] := by
  unfold lines
  rw [List.splitOn_eq_singleton hcs]
  simp [hne]

theorem lines_append_cons {line : List Char} (hline : '\n' ∉ line) (cs : List Char) :
    lines (line ++ '\n' :: cs) = line :: lines cs := by
  obtain ⟨piece, pieces, hpieces⟩ := List.exists_cons_of_ne_nil (List.splitOn_ne_nil '\n' cs)
  unfold lines
  rw [List.splitOn_append_cons_self_of_not_mem hline, hpieces]
  simp only [List.getLast?_cons_cons, List.dropLast_cons_cons]
  split <;> rfl

theorem trim_append_newline (cs : List Char) : trim (cs ++ ['\n']) = trim cs := by
  have hblank : isBlank '\n' = true := by decide
  unfold trim
  rw [List.dropWhile_append]
  split
  · rename_i hcs
    rw [List.isEmpty_iff.1 hcs, List.dropWhile_cons_of_pos hblank, List.dropWhile_nil]
  · rw [List.reverse_append, List.reverse_singleton, List.singleton_append,
      List.dropWhile_cons_of_pos hblank]

def encode (cs : List Char) : List UInt8 := cs.flatMap String.utf8EncodeChar

theorem encode_append (cs ds : List Char) : encode (cs ++ ds) = encode cs ++ encode ds :=
  List.flatMap_append

theorem encode_newline : encode ['\n'] = [10] := by decide

theorem encode_eq_nil {cs : List Char} : encode cs = [] ↔ cs = [] := by
  cases cs with
  | nil => simp [encode]
  | cons c cs => simp [encode, String.utf8EncodeChar_ne_nil]

theorem not_mem_utf8EncodeChar {c : Char} (hc : c ≠ '\n') : 10 ∉ String.utf8EncodeChar c := by
  have hval : c.val.toNat ≠ 10 := fun h => hc (Char.toNat_inj.1 h)
  have hbyte {n : Nat} (hn : n < 256) (hne : n ≠ 10) : (10 : UInt8) ≠ UInt8.ofNat n := by
    intro h
    have htoNat : 10 = n % 256 := by simpa using congrArg UInt8.toNat h
    omega
  unfold String.utf8EncodeChar
  dsimp only
  split_ifs <;> simp only [List.mem_cons, List.not_mem_nil, or_false, not_or]
  · exact hbyte (by omega) hval
  · refine ⟨?_, ?_⟩ <;> exact hbyte (by omega) (by omega)
  · refine ⟨?_, ?_, ?_⟩ <;> exact hbyte (by omega) (by omega)
  · refine ⟨?_, ?_, ?_, ?_⟩ <;> exact hbyte (by omega) (by omega)

theorem not_mem_encode {cs : List Char} (hcs : '\n' ∉ cs) : 10 ∉ encode cs := by
  intro h
  obtain ⟨c, hc, hbyte⟩ := List.mem_flatMap.1 h
  exact not_mem_utf8EncodeChar (fun heq => hcs (heq ▸ hc)) hbyte

theorem toList_loop_eq (bytes : ByteArray) (i : Nat) (front : List UInt8) :
    ByteArray.toList.loop bytes i front = front.reverse ++ bytes.data.toList.drop i := by
  fun_induction ByteArray.toList.loop bytes i front with
  | case1 i front hi ih =>
    have hlt : i < bytes.data.toList.length := by simpa using hi
    rw [ih, List.drop_eq_getElem_cons hlt]
    simp [ByteArray.get!, hi]
  | case2 i front hi =>
    rw [List.drop_eq_nil_of_le (by simpa using Nat.le_of_not_lt hi), List.append_nil]

theorem toByteArray_ofList (cs : List Char) :
    (String.ofList cs).toByteArray = ⟨(encode cs).toArray⟩ := by
  apply ByteArray.ext
  apply Array.toList_inj.1
  simp [String.ofList, List.utf8Encode, encode]

theorem toList_toUTF8 (text : String) : text.toUTF8.toList = encode text.toList := by
  have hbytes := toByteArray_ofList text.toList
  rw [String.ofList_toList] at hbytes
  rw [String.toUTF8_eq_toByteArray, hbytes, ByteArray.toList, toList_loop_eq]
  simp

end Text

namespace CommandLine

theorem decodeLine_encode (cs : List Char) :
    decodeLine (Text.encode cs) = some (String.ofList cs) := by
  rw [decodeLine, ← Text.toByteArray_ofList, String.fromUTF8?,
    dif_pos (String.ofList cs).isValidUTF8]
  rfl

theorem byteLines_unbroken {bytes : List UInt8} (h : 10 ∉ bytes) (hne : bytes ≠ []) :
    byteLines bytes = [bytes] := by
  induction bytes with
  | nil => exact absurd rfl hne
  | cons b bytes ih =>
    rw [List.mem_cons, not_or] at h
    rw [byteLines, if_neg (Ne.symm h.1)]
    cases bytes with
    | nil => rfl
    | cons b' bytes => rw [ih h.2 (List.cons_ne_nil _ _)]

theorem byteLines_append_cons {line : List UInt8} (h : 10 ∉ line) (bytes : List UInt8) :
    byteLines (line ++ 10 :: bytes) = (line ++ [10]) :: byteLines bytes := by
  induction line with
  | nil => rfl
  | cons b line ih =>
    rw [List.mem_cons, not_or] at h
    rw [List.cons_append, byteLines, if_neg (Ne.symm h.1), ih h.2]
    rfl

theorem decoded_lines (cs : List Char) : ∃ decoded : List String,
    (byteLines (Text.encode cs)).map decodeLine = decoded.map some ∧
      List.Forall₂ (fun s line => Text.trim s.toList = Text.trim line) decoded (Text.lines cs) := by
  obtain ⟨line, rest, rfl, hline, hrest⟩ := Lexeme.exists_run (· != '\n') cs
  have hunbroken : '\n' ∉ line := fun h => by simpa using hline _ h
  cases rest with
  | nil =>
    rw [List.append_nil]
    by_cases hne : line = []
    · subst hne
      exact ⟨[], rfl, .nil⟩
    · refine ⟨[String.ofList line], ?_, ?_⟩
      · rw [byteLines_unbroken (Text.not_mem_encode hunbroken) (mt Text.encode_eq_nil.1 hne)]
        simp [decodeLine_encode]
      · rw [Text.lines_unbroken hunbroken hne]
        exact .cons (congrArg Text.trim String.toList_ofList) .nil
  | cons c rest =>
    have hc : c = '\n' := by simpa using hrest c rfl
    subst hc
    obtain ⟨decoded, hdecoded, hsame⟩ := decoded_lines rest
    refine ⟨String.ofList (line ++ ['\n']) :: decoded, ?_, ?_⟩
    · have hencode : Text.encode (line ++ '\n' :: rest) =
          Text.encode line ++ 10 :: Text.encode rest := by
        rw [← List.singleton_append, Text.encode_append, Text.encode_append, Text.encode_newline]
        rfl
      rw [hencode, byteLines_append_cons (Text.not_mem_encode hunbroken), ← Text.encode_newline,
        ← Text.encode_append, List.map_cons, decodeLine_encode, hdecoded, List.map_cons]
    · rw [Text.lines_append_cons hunbroken]
      refine .cons ?_ hsame
      rw [String.toList_ofList, Text.trim_append_newline]
termination_by cs.length
decreasing_by simp_all; omega

def AsksToLeave (line : List Char) : Prop :=
  String.ofList (Text.trim line) = "exit" ∨ String.ofList (Text.trim line) = "quit"

instance (line : List Char) : Decidable (AsksToLeave line) :=
  inferInstanceAs (Decidable (_ ∨ _))

/-- The lines of the input that the shell takes notice of, all before one that asks to leave. -/
def heard (text : String) : List (List Char) :=
  (Text.lines text.toList).takeWhile fun line => ¬AsksToLeave line

def program? (line : List Char) : Option Source :=
  if Text.trim line = [] then none else some ⟨interactiveName, String.ofList (Text.trim line)⟩

end CommandLine

namespace Outcome

def shown : Outcome → String
  | value v => v.value.toText ++ "\n"
  | nothing | failed _ | exhausted => ""

def reported (color : Bool) : Outcome → String
  | failed d => d.report color ++ "\n"
  | value _ | nothing | exhausted => ""

end Outcome

namespace CommandLine

variable {s : Settings}

theorem Output.mk_append (a b c d : String) : (⟨a, b⟩ ++ ⟨c, d⟩ : Output) = ⟨a ++ c, b ++ d⟩ :=
  rfl

theorem Output.empty_append (o : Output) : Output.empty ++ o = o := by
  rw [Output.empty, Output.mk_append "" "" o.out o.err, String.empty_append, String.empty_append]

theorem logLine_quiet (hs : s.verbose = false) (message : String) : s.logLine message = .empty := by
  rw [Settings.logLine, hs]
  rfl

theorem logLines_quiet (hs : s.verbose = false) (log : List Event) : s.logLines log = .empty := by
  unfold Settings.logLines
  induction log with
  | nil => rfl
  | cons e log ih =>
    rw [List.foldl_cons, logLine_quiet hs, Output.empty_append, ite_self]
    exact ih

theorem present_quiet (hs : s.verbose = false) (r : Run) :
    s.present r = ⟨r.outcome.shown, r.outcome.reported s.color⟩ := by
  rw [Settings.present, logLines_quiet hs, Output.empty_append]
  cases r.outcome <;> rfl

variable {session : Session} {line : List Char} {given : String}

theorem interactLine_of_asksToLeave (hsame : Text.trim given.toList = Text.trim line)
    (hline : AsksToLeave line) : interactLine s session (some given) = (.empty, none) := by
  unfold interactLine
  dsimp only
  rw [hsame]
  exact if_pos hline

theorem interactLine_of_program?_none (hsame : Text.trim given.toList = Text.trim line)
    (hline : program? line = none) :
    interactLine s session (some given) = (.empty, some session) := by
  have htrim : Text.trim line = [] := by
    by_contra hne
    rw [program?, if_neg hne] at hline
    cases hline
  unfold interactLine
  dsimp only
  rw [hsame, htrim]
  rfl

theorem interactLine_of_program? (hs : s.verbose = false) {source : Source}
    (hsame : Text.trim given.toList = Text.trim line) (hstay : ¬AsksToLeave line)
    (hline : program? line = some source) :
    interactLine s session (some given) =
      (⟨(session.run source).outcome.shown, (session.run source).outcome.reported s.color⟩,
        some (session.run source).session) := by
  have htrim : Text.trim line ≠ [] := by
    intro h
    rw [program?, if_pos h] at hline
    cases hline
  rw [program?, if_neg htrim, Option.some.injEq] at hline
  subst hline
  have hne : String.ofList (Text.trim line) ≠ "" := by
    intro h
    exact htrim (by simpa using congrArg String.toList h)
  unfold interactLine
  dsimp only
  rw [hsame, if_neg (show ¬(_ ∨ _) from hstay), if_neg hne, present_quiet hs]

/-- One answer for each line: none for a blank one, and the run of its program for any other. -/
structure Answers (session : Session) (lines : List (List Char)) (answers : List (Option Run)) :
    Prop where
  aligned : List.Forall₂ (fun line answer => answer.isSome ↔ (program? line).isSome) lines answers
  runs_eq : answers.reduceOption = session.runAll (lines.filterMap program?)

def dialogue (answers : List (Option Run)) : String :=
  String.join (answers.map fun answer => prompt ++ answer.elim "" (·.outcome.shown)) ++ prompt

def complaints (color : Bool) (runs : List Run) : String :=
  String.join (runs.map (·.outcome.reported color))

theorem Answers.blank {lines : List (List Char)} {answers : List (Option Run)}
    (h : Answers session lines answers) (hline : program? line = none) :
    Answers session (line :: lines) (none :: answers) := by
  refine ⟨.cons (by simp [hline]) h.aligned, ?_⟩
  rw [List.reduceOption_cons_of_none, List.filterMap_cons_none hline]
  exact h.runs_eq

theorem Answers.cons {lines : List (List Char)} {answers : List (Option Run)} {source : Source}
    (h : Answers (session.run source).session lines answers) (hline : program? line = some source) :
    Answers session (line :: lines) (some (session.run source) :: answers) := by
  refine ⟨.cons (by simp [hline]) h.aligned, ?_⟩
  rw [List.reduceOption_cons_of_some, List.filterMap_cons_some hline, h.runs_eq]
  rfl

theorem interact_answers (hs : s.verbose = false) {decoded : List String}
    {lines : List (List Char)}
    (hsame : List.Forall₂ (fun s line => Text.trim s.toList = Text.trim line) decoded lines)
    (session : Session) :
    ∃ answers, Answers session (lines.takeWhile fun line => ¬AsksToLeave line) answers ∧
      interact s session (decoded.map some) =
        ⟨dialogue answers, complaints s.color answers.reduceOption⟩ := by
  induction hsame generalizing session with
  | nil => exact ⟨[], ⟨.nil, rfl⟩, rfl⟩
  | @cons given line decoded lines hline hsame ih =>
    by_cases hleave : AsksToLeave line
    · refine ⟨[], ?_, ?_⟩
      · rw [List.takeWhile_cons_of_neg (by simpa using hleave)]
        exact ⟨.nil, rfl⟩
      · rw [List.map_cons, interact, interactLine_of_asksToLeave hline hleave]
        rfl
    · rw [List.takeWhile_cons_of_pos (by simpa using hleave), List.map_cons, interact]
      cases hprogram : program? line with
      | none =>
        obtain ⟨answers, hanswers, hrest⟩ := ih session
        refine ⟨none :: answers, hanswers.blank hprogram, ?_⟩
        rw [interactLine_of_program?_none hline hprogram]
        dsimp only
        rw [hrest, Output.empty, Output.mk_append, Output.mk_append]
        simp [dialogue, complaints, String.append_assoc]
      | some source =>
        obtain ⟨answers, hanswers, hrest⟩ := ih (session.run source).session
        refine ⟨some (session.run source) :: answers, hanswers.cons hprogram, ?_⟩
        rw [interactLine_of_program? hs hline hleave hprogram]
        dsimp only
        rw [hrest, Output.mk_append, Output.mk_append]
        simp [dialogue, complaints, String.append_assoc]

end CommandLine

namespace Session

theorem run_names (s : Session) (source : Source) (hs : frame.table < s.store.next) :
    frame.table < (s.run source).session.store.next ∧
      s.globals.names <+: (s.run source).session.globals.names := by
  unfold run
  cases htree : source.tree? with
  | none =>
    obtain ⟨d, hrun⟩ := runWith_of_tree?_none htree
    rw [(hrun .escaping fuel s).2]
    exact ⟨hs, List.prefix_rfl⟩
  | some e =>
    obtain ⟨log, hrun⟩ := runWith_of_tree? htree
    rw [hrun .escaping fuel s, (evaluate_eq .escaping fuel s e log).2]
    have hevolves := eval_confined .escaping fuel e frame s.machine
    exact ⟨hs.trans_le hevolves.next_le, hevolves.names_le hs⟩

theorem runAll_names (s : Session) (sources : List Source) (hs : frame.table < s.store.next) :
    List.IsChain (fun a b => a.globals.names <+: b.globals.names)
      (s :: (s.runAll sources).map Run.session) := by
  induction sources generalizing s with
  | nil => exact .singleton _
  | cons source sources ih =>
    obtain ⟨hnext, hnames⟩ := run_names s source hs
    exact .cons_cons hnames (ih _ hnext)

end Session

namespace CommandLine

/-- Without a log, the shell is one session over the lines it hears: a prompt and the value, if
any, for each of them, a last prompt, and the reports of those that fail. No line, failing or not,
takes a name away from those after it. -/
theorem program_interactive {args : List String} {o : Options}
    (hargs : Options.ofArguments args = .ok o) (htask : o.task = .interactive)
    (hquiet : o.verbose = false) (w : Wording) (terminal : Bool)
    (readFile : String → Except FileError ByteArray) (text : String) :
    let t := program w args terminal readFile text.toUTF8
    let runs := Session.start.runAll ((heard text).filterMap program?)
    t.status = 0 ∧
      (∃ answers, Answers Session.start (heard text) answers ∧ t.output.out = dialogue answers) ∧
      t.output.err = complaints (o.settings terminal).color runs ∧
      List.IsChain (fun a b => a.globals.names <+: b.globals.names)
        (Session.start :: runs.map Run.session) := by
  obtain ⟨decoded, hdecoded, hsame⟩ := decoded_lines text.toList
  have hverbose : (o.settings terminal).verbose = false := hquiet
  obtain ⟨answers, hanswers, hout⟩ := interact_answers hverbose hsame Session.start
  have hprogram : program w args terminal readFile text.toUTF8 =
      ⟨0, ⟨dialogue answers, complaints (o.settings terminal).color answers.reduceOption⟩⟩ := by
    rw [program, hargs]
    dsimp only
    rw [htask, Task.note, logLine_quiet hverbose, Text.toList_toUTF8, hdecoded, hout,
      Transcript.after, Output.empty_append]
    rfl
  have hstart : Session.frame.table < Session.start.store.next := by decide
  refine ⟨by rw [hprogram], ⟨answers, hanswers, by rw [hprogram]⟩, ?_,
    Session.runAll_names _ _ hstart⟩
  rw [hprogram, hanswers.runs_eq]
  rfl

theorem program_interactive_until_exit :
    let args := ["--color", "never"]
    let text := "set x = 20\n\nx + 22\nnope\n\"a\" * 2\n exit\n1 + 1"
    let sources : List Source := [⟨"<stdin>", "set x = 20"⟩, ⟨"<stdin>", "x + 22"⟩,
      ⟨"<stdin>", "nope"⟩, ⟨"<stdin>", "\"a\" * 2"⟩]
    Options.ofArguments args = .ok ⟨none, none, .never, false, none⟩ ∧
      (heard text).filterMap program? = sources ∧
      let w : Wording := ⟨fun _ => "usage", fun _ _ => "error", fun _ => "complete"⟩
      let t := program w args true (fun _ => .error .missing) text.toUTF8
      t.status = 0 ∧
        (∃ answers, Answers Session.start (heard text) answers ∧
          t.output.out = dialogue answers) ∧
        t.output.err = complaints false (Session.start.runAll sources) ∧
        List.IsChain (fun a b => a.globals.names <+: b.globals.names)
          (Session.start :: (Session.start.runAll sources).map Run.session) := by
  intro args text sources
  have hargs : Options.ofArguments args = .ok ⟨none, none, .never, false, none⟩ := by
    decide +kernel
  have hsources : (heard text).filterMap program? = sources := by decide +kernel
  refine ⟨hargs, hsources, ?_⟩
  rw [← hsources]
  exact program_interactive hargs rfl rfl _ true (fun _ => .error .missing) text

end CommandLine

end ArrowScript
