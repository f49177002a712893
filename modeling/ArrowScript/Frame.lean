import ArrowScript.Position
import ArrowScript.Text.Quoted

/-!
Frames: the calls that are active at a moment, each with the place it was made from. They serve
tracebacks; which names are visible is a matter of the table that a frame works in.
-/

namespace ArrowScript

/-- The place of a table of names in the store. -/
abbrev TableId := Nat

inductive Frame where
  /-- The program itself, over the table of globals. -/
  | program (table : TableId)
  /-- A call of `function` from `site` in the frame `caller`. -/
  | call (function : String) (site : Position) (caller : Frame) (table : TableId)

structure TraceLine where
  file : String
  line : Nat
  label : String
  deriving DecidableEq, Repr

namespace TraceLine

def ofPosition (p : Position) (label : String) : TraceLine := ⟨p.source.name, p.line + 1, label⟩

def render (t : TraceLine) : String := s!"  File {t.file}, line {t.line}, in {t.label}"

end TraceLine

namespace Frame

def programLabel : String := "<program>"

def label : Frame → String
  | program _ => programLabel
  | call function .. => function

def table : Frame → TableId
  | program t => t
  | call _ _ _ t => t

def site? : Frame → Option Position
  | program _ => none
  | call _ site _ _ => some site

/-- Number of frames from here to the program, both included. -/
def depth : Frame → Nat
  | program _ => 1
  | call _ _ caller _ => caller.depth + 1

/-- The lines of a traceback for a failure at `p` in this frame, the program first. -/
def traceback (p : Position) : Frame → List TraceLine
  | program _ => [.ofPosition p programLabel]
  | call function site caller _ => caller.traceback site ++ [.ofPosition p function]

def summary (f : Frame) : String :=
  let site := match f.site? with
    | some p => "Some(" ++ p.describe ++ ")"
    | none => "None"
  "Context \x7b label: " ++ Text.quote f.label ++ ", depth: " ++ toString f.depth
    ++ ", call_site: " ++ site ++ ", .. \x7d"

@[simp] theorem length_traceback (p : Position) (f : Frame) :
    (f.traceback p).length = f.depth := by
  induction f generalizing p with
  | program _ => rfl
  | call _ site _ _ ih => simp [traceback, depth, ih site]

end Frame

end ArrowScript
