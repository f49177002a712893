import ArrowScript.Token.Basic
import ArrowScript.Text.Blank

/-!
The first piece of a text: a blank, a token, or a fault. Which piece it is depends on the
characters alone; positions come in when pieces are put together to a stream.
-/

namespace ArrowScript

inductive LexFault where
  /-- A run of characters none of which starts a token. -/
  | illegal (run : List Char)
  | extraPoint
  /-- A decimal point without a digit behind it. -/
  | barePoint
  | leadingUnderscore
  | unterminated
  deriving DecidableEq, Repr

def LexFault.message : LexFault → String
  | illegal run => String.ofList ('\'' :: run ++ ['\''])
  | extraPoint => "multiple decimal points"
  | barePoint => "invalid syntax"
  | leadingUnderscore => "variable cannot begin with '_'"
  | unterminated => "Unterminated string"

inductive Piece where
  | blank
  | token (kind : TokenKind)
  | fault (cause : LexFault)

/-- A piece together with the number of characters it takes beyond its first. -/
structure Cut where
  piece : Piece
  extra : Nat

namespace Lexeme

/-- Names and keywords continue with letters, digits and underscores. -/
def isNameChar (c : Char) : Bool := c.isAlphanum || c == '_'

/-- Characters at which a run of illegal ones ends. -/
def startsToken (c : Char) : Bool :=
  Text.isBlank c || isNameChar c || c == '.' || (Symbol.single? c).isSome

def ofName (cs : List Char) : TokenKind :=
  let x := String.ofList cs
  match Keyword.ofSpelling? x with
  | some k => .keyword k
  | none => .name x

/-- A number, from its first character on, which is a digit or a point. -/
def number (cs : List Char) : Cut :=
  let whole := cs.takeWhile Char.isDigit
  match cs.dropWhile Char.isDigit with
  | '.' :: more =>
    let fraction := more.takeWhile Char.isDigit
    if fraction.isEmpty then ⟨.fault .barePoint, whole.length⟩
    else
      match more.dropWhile Char.isDigit with
      | '.' :: _ => ⟨.fault .extraPoint, whole.length + fraction.length + 1⟩
      | _ => ⟨.token (.number (.ofDecimal whole fraction)), whole.length + fraction.length⟩
  | _ => ⟨.token (.number (.ofDigits whole)), whole.length - 1⟩

/-- What a character behind a backslash stands for. -/
def unescape : Char → Char
  | 'n' => '\n'
  | 't' => '\t'
  | c => c

/-- The content of a string from behind its opening quote on, and the number of characters up to
and with the closing one. The characters read so far are `content`, the last one first. -/
def stringTail (content : List Char) (length : Nat) : List Char → Option (List Char × Nat)
  | [] => none
  | '"' :: _ => some (content.reverse, length + 1)
  | '\\' :: c :: rest => stringTail (unescape c :: content) (length + 2) rest
  | c :: rest => stringTail (c :: content) (length + 1) rest

def string (rest : List Char) : Cut :=
  match stringTail [] 0 rest with
  | some (content, n) => ⟨.token (.text (String.ofList content)), n⟩
  | none => ⟨.fault .unterminated, rest.length⟩

/-- A symbol, the two-character form first, or else a run of illegal characters. -/
def symbol (c : Char) (rest : List Char) : Cut :=
  match rest.head?.bind (Symbol.double? c), Symbol.single? c with
  | some s, _ => ⟨.token (.symbol s), 1⟩
  | none, some s => ⟨.token (.symbol s), 0⟩
  | none, none =>
    let run := rest.takeWhile (!startsToken ·)
    ⟨.fault (.illegal (c :: run)), run.length⟩

/-- The piece that begins with `c`, in the text `c :: rest`. -/
def first (c : Char) (rest : List Char) : Cut :=
  if Text.isBlank c then ⟨.blank, 0⟩
  else if c.isDigit || c == '.' then number (c :: rest)
  else if c == '_' then ⟨.fault .leadingUnderscore, 0⟩
  else if c.isAlpha then
    let more := rest.takeWhile isNameChar
    ⟨.token (ofName (c :: more)), more.length⟩
  else if c == '"' then string rest
  else symbol c rest

end Lexeme

end ArrowScript
