import ArrowScript.CommandLine.Program

/-!
The command line: reads files and the standard input, and writes what the program says.
-/

namespace ArrowScript.CommandLine

def emit (o : Output) : IO Unit := do
  IO.print o.out
  IO.eprint o.err

def finishWith (t : Transcript) : IO UInt32 := do
  emit t.output
  return t.status.toUInt32

/-- The content of a file. A file that cannot be read for want of permission and the like counts as
denied. -/
def readBytes (path : String) : IO (Except FileError ByteArray) := do
  try
    return .ok (← IO.FS.readBinFile path)
  catch
    | .noFileOrDirectory .. => return .error .missing
    | .inappropriateType _ code _ =>
      return .error (if code = 21 then .directory else .notDirectory)
    | _ => return .error .denied

/-- The bytes of the next line with its line feed; none at the end of the input. -/
partial def readLine (input : IO.FS.Stream) (line : List UInt8) : IO (List UInt8) := do
  match (← input.read 1).toList with
  | [] => return line.reverse
  | b :: _ => if b = 10 then return (b :: line).reverse else readLine input (b :: line)

/-- Prompts for a line and answers it, until the input ends or asks to leave. -/
partial def converse (s : Settings) (session : Session) : IO Unit := do
  emit ⟨prompt, ""⟩
  (← IO.getStdout).flush
  match ← readLine (← IO.getStdin) [] with
  | [] => return ()
  | bytes =>
    let (o, session?) := interactLine s session (decodeLine bytes)
    emit o
    if let some session' := session? then converse s session'

def misuseText : Misuse → String
  | .unknownArgument => "unexpected argument found"
  | .invalidValue => "invalid or missing value"
  | .valueValidation => "value not accepted"
  | .tooManyValues => "unexpected value"
  | .argumentConflict => "the argument cannot be used here"
  | .missingRequiredArgument => "a required argument was not provided"
  | .invalidSubcommand => "unrecognized subcommand"

/-- A wording that lists the options and has no completion scripts. -/
def wording : Wording where
  help _ := "\n".intercalate
    ["Interpreter for a small expression language",
      "",
      "Usage: arrowlang [OPTIONS] [FILE] [COMMAND]",
      "",
      "Commands:",
      "  complete  Print a shell completion script",
      "  help      Print this message or the help of the given subcommand(s)",
      "",
      "Options:",
      "  -e, --eval <SOURCE>",
      "      --color <WHEN>   [default: auto]",
      "  -v, --verbose",
      "  -h, --help           Print help",
      "  -V, --version        Print version",
      ""]
  misuse _ m := "error: " ++ misuseText m ++ "\n"
  completion _ := ""

def start (args : List String) : IO UInt32 := do
  match Options.ofArguments args with
  | .error n => finishWith (n.transcript wording args)
  | .ok o =>
    let terminal := (← (← IO.getStdout).isTty) && (← (← IO.getStderr).isTty)
    let s := o.settings terminal
    emit (o.task.note s)
    let t ← o.task.perform wording s readBytes do
      converse s Session.start
      return .empty
    finishWith t

end ArrowScript.CommandLine

def main (args : List String) : IO UInt32 := ArrowScript.CommandLine.start args
