/-!
Options of the command line, read from left to right. An option that takes a value keeps it
pending until the next option, operand or the end, and only then is it checked and stored.
-/

namespace ArrowScript.CommandLine

inductive ColorChoice where
  | auto | always | never
  deriving DecidableEq, Repr

namespace ColorChoice

/-- A choice by its name, in small or capital letters. -/
def ofText? (s : String) : Option ColorChoice :=
  match s.toLower with
  | "auto" => some auto
  | "always" => some always
  | "never" => some never
  | _ => none

def complaint (s : String) : String :=
  "Invalid color choice: " ++ s ++ ". Must be 'auto', 'always', or 'never'"

/-- Whether to use colour, when the terminal need not be asked. -/
def enabled? : ColorChoice → Option Bool
  | auto => none
  | always => some true
  | never => some false

end ColorChoice

inductive CompletionShell where
  | bash | elvish | fish | powershell | zsh
  deriving DecidableEq, Repr

namespace CompletionShell

def name : CompletionShell → String
  | bash => "bash"
  | elvish => "elvish"
  | fish => "fish"
  | powershell => "powershell"
  | zsh => "zsh"

def ofName? (s : String) : Option CompletionShell :=
  [bash, elvish, fish, powershell, zsh].find? (·.name == s)

end CompletionShell

inductive Misuse where
  | unknownArgument
  | invalidValue
  | valueValidation
  | tooManyValues
  | argumentConflict
  | missingRequiredArgument
  | invalidSubcommand
  deriving DecidableEq, Repr

/-- Why arguments do not lead to a run. -/
inductive Notice where
  | help
  | version
  | misuse (m : Misuse)
  deriving DecidableEq, Repr

structure Options where
  file? : Option String
  eval? : Option String
  color : ColorChoice
  verbose : Bool
  complete? : Option CompletionShell
  deriving DecidableEq, Repr

/-- Settings that hold a value. -/
inductive Setting where
  | file | eval | color
  deriving DecidableEq, Repr

structure Draft where
  file? : Option String
  eval? : Option String
  color? : Option ColorChoice
  verbose : Bool
  /-- A setting that is not stored yet, and its value if that has come. -/
  pending? : Option (Setting × Option String)

namespace Draft

def empty : Draft := ⟨none, none, none, false, none⟩

def refuse {α : Type} (m : Misuse) : Except Notice α := .error (.misuse m)

/-- Stores a value, which must be the first for its setting. -/
def store (d : Draft) : Setting → String → Except Notice Draft
  | .file, v => if v = "" then refuse .invalidValue else .ok { d with file? := some v }
  | .eval, v =>
    if d.eval?.isSome then refuse .argumentConflict else .ok { d with eval? := some v }
  | .color, v =>
    if d.color?.isSome then refuse .argumentConflict
    else
      match ColorChoice.ofText? v with
      | some c => .ok { d with color? := some c }
      | none => refuse .valueValidation

/-- Stores the setting that is pending, if any. -/
def commit (d : Draft) : Except Notice Draft :=
  match d.pending? with
  | none => .ok d
  | some (_, none) => refuse .invalidValue
  | some (setting, some v) => store { d with pending? := none } setting v

/-- The setting whose value must come next. -/
def awaiting? (d : Draft) : Option Setting :=
  match d.pending? with
  | some (setting, none) => some setting
  | _ => none

def setVerbose (d : Draft) : Except Notice Draft := do
  let d ← d.commit
  if d.verbose then refuse .argumentConflict else return { d with verbose := true }

/-- An option with its value, or with a value to come. -/
def setOption (d : Draft) (setting : Setting) : Option String → Except Notice Draft
  | some v => do (← d.commit).store setting v
  | none => do return { ← d.commit with pending? := some (setting, none) }

/-- Shows a notice instead of running, once what is pending has been checked. -/
def announce (d : Draft) (n : Notice) : Except Notice Draft := do
  let _ ← d.commit
  .error n

def flag (value? : Option String) (act : Except Notice Draft) : Except Notice Draft :=
  if value?.isSome then refuse .tooManyValues else act

/-- An option by its long name, with the value behind its equals sign. -/
def long (d : Draft) (name : String) (value? : Option String) : Except Notice Draft :=
  match name with
  | "eval" => d.setOption .eval value?
  | "color" => d.setOption .color value?
  | "verbose" => flag value? d.setVerbose
  | "help" => flag value? (d.announce .help)
  | "version" => flag value? (d.announce .version)
  | _ => refuse .unknownArgument

/-- The value written directly behind a short option, if any. -/
def attached? : List Char → Option String
  | [] => none
  | '=' :: cs => some (String.ofList cs)
  | cs => some (String.ofList cs)

/-- A cluster of short options; one that takes a value takes the rest of the cluster. -/
def short (d : Draft) : List Char → Except Notice Draft
  | [] => .ok d
  | 'e' :: cs => d.setOption .eval (attached? cs)
  | 'v' :: cs => do short (← d.setVerbose) cs
  | 'h' :: _ => d.announce .help
  | 'V' :: _ => d.announce .version
  | _ => refuse .unknownArgument

def operand (d : Draft) (a : String) : Except Notice Draft :=
  if d.file?.isSome || d.pending?.any (·.1 == .file) then refuse .unknownArgument
  else do return { ← d.commit with pending? := some (.file, some a) }

def finish (d : Draft) (complete? : Option CompletionShell) : Except Notice Options := do
  let d ← d.commit
  if d.file?.isSome && d.eval?.isSome then refuse .argumentConflict
  else return ⟨d.file?, d.eval?, d.color?.getD .auto, d.verbose, complete?⟩

end Draft

/-- An argument as an option: a long name with an optional value, or a cluster of short ones. -/
inductive Dashed where
  | long (name : String) (value? : Option String)
  | short (cluster : List Char)

/-- A single dash is no option. -/
def Dashed.ofText? (a : String) : Option Dashed :=
  match a.toList with
  | '-' :: '-' :: cs =>
    let value? := match cs.dropWhile (· != '=') with
      | [] => none
      | _ :: value => some (String.ofList value)
    some (.long (String.ofList (cs.takeWhile (· != '='))) value?)
  | '-' :: c :: cs => some (.short (c :: cs))
  | _ => none

def checkShell : Option String → Except Notice CompletionShell
  | none => Draft.refuse .missingRequiredArgument
  | some s => (CompletionShell.ofName? s).elim (Draft.refuse .invalidValue) .ok

/-- The help of a completion request, once its shell has been checked. -/
def completionHelp (shell? : Option String) : Except Notice CompletionShell := do
  if shell?.isSome then let _ ← checkShell shell?
  .error .help

/-- The arguments of a completion request; after `--` all of them are operands. -/
def readCompletion (shell? : Option String) (literal : Bool) :
    List String → Except Notice CompletionShell
  | [] => checkShell shell?
  | a :: rest =>
    if a = "--" ∧ ¬ literal then readCompletion shell? true rest
    else
      match (if literal then none else Dashed.ofText? a) with
      | some (.long "help" none) => completionHelp shell?
      | some (.long "help" (some _)) => Draft.refuse .tooManyValues
      | some (.short ('h' :: _)) => completionHelp shell?
      | some _ => Draft.refuse .unknownArgument
      | none =>
        if shell?.isSome then Draft.refuse .unknownArgument
        else readCompletion (some a) literal rest

/-- The notice for a request for help on a command. -/
def helpOn : List String → Notice
  | [] | ["complete"] | ["help"] => .help
  | _ => .misuse .invalidSubcommand

def readOperands (d : Draft) : List String → Except Notice Options
  | [] => d.finish none
  | a :: rest => do readOperands (← d.operand a) rest

def readArguments (d : Draft) : List String → Except Notice Options
  | [] => d.finish none
  | a :: rest =>
    if a = "complete" ∧ d.awaiting?.isNone then do
      let shell ← readCompletion none false rest
      d.finish (some shell)
    else if a = "help" ∧ d.awaiting?.isNone then .error (helpOn rest)
    else if a = "--" then readOperands d rest
    else
      match Dashed.ofText? a, d.awaiting? with
      | some (.long name value?), _ => do readArguments (← d.long name value?) rest
      | some (.short cluster), _ => do readArguments (← d.short cluster) rest
      | none, some setting => readArguments { d with pending? := some (setting, some a) } rest
      | none, none => do readArguments (← d.operand a) rest

/-- The options that arguments stand for. -/
def Options.ofArguments (args : List String) : Except Notice Options :=
  readArguments .empty args

end ArrowScript.CommandLine
