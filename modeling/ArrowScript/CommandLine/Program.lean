import ArrowScript.CommandLine.Options
import ArrowScript.Session

/-!
The program behind the command line: one source from an argument or a file, or an interactive
session over the lines of the standard input. All of it is a function of what it reads.
-/

namespace ArrowScript.CommandLine

structure Output where
  out : String
  err : String
  deriving DecidableEq, Repr

namespace Output

def empty : Output := ⟨"", ""⟩

def append (a b : Output) : Output := ⟨a.out ++ b.out, a.err ++ b.err⟩

instance : Append Output := ⟨append⟩

def outLine (s : String) : Output := ⟨s ++ "\n", ""⟩

def errLine (s : String) : Output := ⟨"", s ++ "\n"⟩

end Output

structure Transcript where
  status : Nat
  output : Output
  deriving DecidableEq, Repr

structure Settings where
  color : Bool
  verbose : Bool

inductive FileError where
  | missing
  | directory
  | notDirectory
  | denied
  | notText
  deriving DecidableEq, Repr

def notTextMessage : String := "stream did not contain valid UTF-8"

def FileError.message : FileError → String
  | missing => "No such file or directory (os error 2)"
  | directory => "Is a directory (os error 21)"
  | notDirectory => "Not a directory (os error 20)"
  | denied => "Permission denied (os error 13)"
  | notText => notTextMessage

namespace Settings

/-- A record of the log, which only shows when it was asked for. -/
def logLine (s : Settings) (message : String) : Output :=
  if s.verbose then .errLine ("[arrowlang:debug] " ++ message) else .empty

/-- The records of a run; those for tracing are never shown. -/
def logLines (s : Settings) (log : List Event) : Output :=
  log.foldl (fun o e => if e.level = .debug then o ++ s.logLine e.message else o) .empty

def errorLine (s : Settings) (message : String) : Output := .errLine (paint s.color message)

/-- The output of a run: its log, and its value or its report. -/
def present (s : Settings) (r : Run) : Output :=
  s.logLines r.log ++
    match r.outcome with
    | .value v => .outLine v.value.toText
    | .failed d => .errLine (d.report s.color)
    | .nothing | .exhausted => .empty

end Settings

def evalName : String := "<eval>"

def prompt : String := "arrowlang> "

def runOnce (s : Settings) (source : Source) : Transcript :=
  let r := Session.start.run source
  let status := match r.outcome with
    | .value _ | .nothing => 0
    | .failed _ | .exhausted => 1
  ⟨status, s.present r⟩

/-- Runs the source in a file, whose content is what reading it gave. -/
def runFile (s : Settings) (path : String) : Except FileError ByteArray → Transcript
  | .error e => ⟨1, s.errorLine ("Error reading file " ++ path ++ ": " ++ e.message)⟩
  | .ok bytes =>
    match String.fromUTF8? bytes with
    | some text => runOnce s ⟨path, text⟩
    | none =>
      ⟨1, s.errorLine ("Error reading file " ++ path ++ ": " ++ FileError.notText.message)⟩

def badInput (s : Settings) : Output :=
  s.errorLine ("Error reading input: " ++ notTextMessage)

/-- What one line of input leads to: its output and the session after it, which is none when the
shell ends. A line may be no text. -/
def interactLine (s : Settings) (session : Session) : Option String → Output × Option Session
  | none => (badInput s, none)
  | some line =>
    let line := String.ofList (Text.trim line.toList)
    if line = "exit" ∨ line = "quit" then (.empty, none)
    else if line = "" then (.empty, some session)
    else
      let r := session.run ⟨interactiveName, line⟩
      (s.present r, some r.session)

/-- The interactive session over lines of input, with a prompt before each and at the end. -/
def interact (s : Settings) (session : Session) : List (Option String) → Output
  | [] => ⟨prompt, ""⟩
  | line :: rest =>
    match interactLine s session line with
    | (o, none) => ⟨prompt, ""⟩ ++ o
    | (o, some session') => ⟨prompt, ""⟩ ++ o ++ interact s session' rest

/-- Bytes cut behind each line feed. -/
def byteLines : List UInt8 → List (List UInt8)
  | [] => []
  | b :: bs =>
    if b = 10 then [b] :: byteLines bs
    else
      match byteLines bs with
      | [] => [[b]]
      | line :: lines => (b :: line) :: lines

def decodeLine (bytes : List UInt8) : Option String := String.fromUTF8? ⟨bytes.toArray⟩

def versionText : String := "arrowlang 0.1.0"

/-- The texts about the command line itself, which are made from its description: help and
complaints for given arguments, and completion scripts. -/
structure Wording where
  help : List String → String
  misuse : List String → Misuse → String
  completion : CompletionShell → String

def Notice.transcript (w : Wording) (args : List String) : Notice → Transcript
  | help => ⟨0, ⟨w.help args, ""⟩⟩
  | version => ⟨0, .outLine versionText⟩
  | misuse m => ⟨2, ⟨"", w.misuse args m⟩⟩

inductive Task where
  | complete (shell : CompletionShell)
  | source (text : String)
  | file (path : String)
  | interactive

/-- A completion request comes first, then a source, then a file. -/
def Options.task (o : Options) : Task :=
  match o.complete?, o.eval?, o.file? with
  | some shell, _, _ => .complete shell
  | none, some text, _ => .source text
  | none, none, some path => .file path
  | none, none, none => .interactive

/-- Colour as chosen, and in doubt as the terminal allows. -/
def Options.settings (o : Options) (terminal : Bool) : Settings :=
  ⟨o.color.enabled?.getD terminal, o.verbose⟩

namespace Task

/-- The record of the log before a task is begun. -/
def note (s : Settings) : Task → Output
  | complete _ => .empty
  | source _ => s.logLine "Evaluating source from the command line"
  | file path => s.logLine ("Reading program from file: " ++ path)
  | interactive => s.logLine "Entering interactive mode"

/-- Does a task, given how to read a file and how to hold the interactive session. -/
def perform {m : Type → Type} [Monad m] (w : Wording) (s : Settings)
    (readFile : String → m (Except FileError ByteArray)) (converse : m Output) :
    Task → m Transcript
  | complete shell => pure ⟨0, ⟨w.completion shell, ""⟩⟩
  | source text => pure (runOnce s ⟨evalName, text⟩)
  | file path => return runFile s path (← readFile path)
  | interactive => return ⟨0, ← converse⟩

end Task

def Transcript.after (o : Output) (t : Transcript) : Transcript :=
  { t with output := o ++ t.output }

/-- The whole run of a command line, given the files and the standard input. -/
def program (w : Wording) (args : List String) (terminal : Bool)
    (readFile : String → Except FileError ByteArray) (input : ByteArray) : Transcript :=
  match Options.ofArguments args with
  | .error n => n.transcript w args
  | .ok o =>
    let s := o.settings terminal
    let lines := (byteLines input.toList).map decodeLine
    let t := o.task.perform (m := Id) w s readFile (interact s Session.start lines)
    t.after (o.task.note s)

end ArrowScript.CommandLine
