import ArrowScript.Text.Printable
import ArrowScript.Text.Extending

/-!
Quoted text: the form in which strings appear inside token lists, tree outlines and record
summaries. Quotes and backslashes are escaped, so a quoted text ends at its first bare quote;
characters that would not be seen are written by their code point.
-/

namespace ArrowScript.Text

/-- A character written by its code point in lower-case hexadecimal digits. -/
def codePoint (c : Char) : List Char :=
  ['\\', 'u', '\x7b'] ++ Nat.toDigits 16 c.toNat ++ ['\x7d']

/-- The letter that stands behind a backslash for `c`, if it has one. -/
def shortEscape? : Char → Option Char
  | '\x00' => some '0'
  | '\t' => some 't'
  | '\r' => some 'r'
  | '\n' => some 'n'
  | '"' => some '"'
  | '\\' => some '\\'
  | _ => none

/-- Whether a character shows by itself in a quoted text. -/
def isPlain (c : Char) : Bool :=
  (0x20 ≤ c.toNat && c.toNat < 0x7F) || (isPrintable c && !isExtending c)

def quoteChar (c : Char) : List Char :=
  match shortEscape? c with
  | some letter => ['\\', letter]
  | none => if isPlain c then [c] else codePoint c

def quoteChars (cs : List Char) : List Char :=
  '"' :: cs.flatMap quoteChar ++ ['"']

def quote (s : String) : String :=
  String.ofList (quoteChars s.toList)

def quoteList (texts : List String) : String :=
  "[" ++ ", ".intercalate (texts.map quote) ++ "]"

end ArrowScript.Text
