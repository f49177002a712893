/-!
Sources, positions in them, and spans. A position counts bytes from the start of its text, lines,
and characters since the last line break; moving it over the characters of the text, one after the
other, keeps the three in step.
-/

namespace ArrowScript

/-- A named program text. -/
structure Source where
  name : String
  text : String
  deriving DecidableEq, Repr

structure Position where
  source : Source
  /-- Offset in bytes of the UTF-8 form of the text. -/
  index : Nat
  /-- Line breaks before the position. -/
  line : Nat
  /-- Characters since the last line break. -/
  column : Nat
  deriving DecidableEq, Repr

namespace Position

def start (s : Source) : Position := ⟨s, 0, 0, 0⟩

/-- The position after `c`, which stands at `p`. -/
def advance (p : Position) (c : Char) : Position :=
  if c = '\n' then { p with index := p.index + c.utf8Size, line := p.line + 1, column := 0 }
  else { p with index := p.index + c.utf8Size, column := p.column + 1 }

/-- The position after the characters `cs`, which stand at `p`. -/
def advanceOver (p : Position) (cs : List Char) : Position := cs.foldl advance p

/-- One byte and one column further, whatever stands there. -/
def skip (p : Position) : Position := { p with index := p.index + 1, column := p.column + 1 }

/-- What is left of a text after `n` bytes, and nothing when a character straddles the cut. -/
def dropBytes : Nat → List Char → List Char
  | 0, cs => cs
  | _ + 1, [] => []
  | n + 1, c :: cs => if c.utf8Size ≤ n + 1 then dropBytes (n + 1 - c.utf8Size) cs else []

/-- The characters from `p` to the end of the text. -/
def rest (p : Position) : List Char := dropBytes p.index p.source.text.toList

def current? (p : Position) : Option Char := p.rest.head?

def next? (p : Position) : Option Char := p.rest.tail.head?

def atEnd (p : Position) : Bool := p.source.text.utf8ByteSize ≤ p.index

/-- One step: over the current character, or blindly when there is none. -/
def step (p : Position) : Position :=
  match p.current? with
  | some c => p.advance c
  | none => p.skip

def lineEnd (p : Position) : Position := p.advanceOver (p.rest.takeWhile (· != '\n'))

/-- The line of a text with the given number, without its line break. -/
def lineAt? : Nat → List Char → Option (List Char)
  | 0, cs => some (cs.takeWhile (· != '\n'))
  | n + 1, cs =>
    match cs.dropWhile (· != '\n') with
    | [] => none
    | _ :: more => lineAt? n more

/-- The line that `p` stands on; the whole text if it has no such line. -/
def sourceLine (p : Position) : List Char :=
  (lineAt? p.line p.source.text.toList).getD p.source.text.toList

/-- The position for a reader, who counts lines and columns from one. -/
def describe (p : Position) : String :=
  s!"{p.source.name}:{p.line + 1}:{p.column + 1}"

@[simp] theorem advanceOver_nil (p : Position) : p.advanceOver [] = p := rfl

@[simp] theorem advanceOver_cons (p : Position) (c : Char) (cs : List Char) :
    p.advanceOver (c :: cs) = (p.advance c).advanceOver cs := rfl

theorem advanceOver_append (p : Position) (cs ds : List Char) :
    p.advanceOver (cs ++ ds) = (p.advanceOver cs).advanceOver ds := by
  simp [advanceOver]

@[simp] theorem source_advance (p : Position) (c : Char) : (p.advance c).source = p.source := by
  unfold advance; split <;> rfl

@[simp] theorem index_advance (p : Position) (c : Char) :
    (p.advance c).index = p.index + c.utf8Size := by
  unfold advance; split <;> rfl

end Position

/-- A stretch of a source, from `start` up to and without `stop`. -/
structure Span where
  start : Position
  stop : Position
  deriving DecidableEq, Repr

namespace Span

def empty (p : Position) : Span := ⟨p, p⟩

/-- From the start of `s` to the end of the line on which `s` ends. -/
def toLineEnd (s : Span) : Span := ⟨s.start, s.stop.lineEnd⟩

def behind (s : Span) : Span := empty s.stop

def through (s t : Span) : Span := ⟨s.start, t.stop⟩

end Span

end ArrowScript
