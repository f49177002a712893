import ArrowScript.Number
import ArrowScript.Position
import ArrowScript.Text.Quoted

/-!
Tokens: numbers, strings, names, keywords, symbols and the end of the input, each with the span of
the source that it covers.
-/

namespace ArrowScript

inductive Keyword where
  | set | not | and | or | if_ | do_ | elif | else_ | for_ | from_ | to_ | by_ | then_ | while_ | fn
  deriving DecidableEq, Repr

namespace Keyword

def spelling : Keyword → String
  | set => "set"
  | not => "not"
  | and => "and"
  | or => "or"
  | if_ => "if"
  | do_ => "do"
  | elif => "elif"
  | else_ => "else"
  | for_ => "for"
  | from_ => "from"
  | to_ => "to"
  | by_ => "by"
  | then_ => "then"
  | while_ => "while"
  | fn => "fn"

def all : List Keyword :=
  [set, not, and, or, if_, do_, elif, else_, for_, from_, to_, by_, then_, while_, fn]

def ofSpelling? (s : String) : Option Keyword := all.find? (·.spelling == s)

end Keyword

inductive Symbol where
  | plus | minus | star | slash | caret
  | equal | notEqual | less | greater | lessEqual | greaterEqual
  | assign | arrow | comma | opening | closing
  deriving DecidableEq, Repr

namespace Symbol

def spelling : Symbol → String
  | plus => "+"
  | minus => "-"
  | star => "*"
  | slash => "/"
  | caret => "^"
  | equal => "=="
  | notEqual => "!="
  | less => "<"
  | greater => ">"
  | lessEqual => "<="
  | greaterEqual => ">="
  | assign => "="
  | arrow => "->"
  | comma => ","
  | opening => "("
  | closing => ")"

def single? : Char → Option Symbol
  | '+' => some plus
  | '-' => some minus
  | '*' => some star
  | '/' => some slash
  | '^' => some caret
  | '=' => some assign
  | '<' => some less
  | '>' => some greater
  | ',' => some comma
  | '(' => some opening
  | ')' => some closing
  | _ => none

def double? : Char → Char → Option Symbol
  | '=', '=' => some equal
  | '!', '=' => some notEqual
  | '<', '=' => some lessEqual
  | '>', '=' => some greaterEqual
  | '-', '>' => some arrow
  | _, _ => none

def ofSpelling? (s : String) : Option Symbol :=
  match s.toList with
  | [c] => single? c
  | [c, d] => double? c d
  | _ => none

theorem ofSpelling?_spelling (s : Symbol) : ofSpelling? s.spelling = some s := by
  cases s <;> decide

end Symbol

inductive TokenKind where
  | number (n : Number)
  | text (s : String)
  | name (x : String)
  | keyword (k : Keyword)
  | symbol (s : Symbol)
  /-- The end of the input. -/
  | stop

namespace TokenKind

def describe : TokenKind → String
  | number (.int n) => "INT:" ++ (Number.int n).toText
  | number (.float x) => "FLOAT:" ++ Decimal.plain x
  | text s => "STRING:" ++ Text.quote s
  | name x => "IDENT:" ++ x
  | keyword k => "KEY:" ++ k.spelling
  | symbol s => "'" ++ s.spelling ++ "'"
  | stop => "EOF"

def isStop : TokenKind → Bool
  | stop => true
  | _ => false

end TokenKind

structure Token where
  kind : TokenKind
  span : Span

end ArrowScript
