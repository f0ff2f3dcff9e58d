import SpriteConfig.Fault
import SpriteConfig.LineBreak
import SpriteConfig.LineRange
/-!
# Patches

A patch replaces what lies between two positions of a text. The patch for a range of lines uses the
text's own line breaks and takes care of the end of the text:

- lines that come after the last one get a line break before them;
- a replacement ends with a line break unless it reaches the end of the text;
- a deletion that reaches the end of the text takes the line break before it along.

So the lines of the patched text are the lines that were asked for.
-/
namespace SpriteConfig

/-- A place in a text: a line, and a number of characters before the place in that line. -/
structure Position where
  line : Nat
  column : Nat
  deriving DecidableEq, Repr

structure Patch where
  start : Position
  stop : Position
  /-- The characters to put there, with the line breaks of the text. -/
  newText : Text
  deriving DecidableEq, Repr

/-- A range of characters that a text does not have. -/
structure OutOfRange where
  start : Nat
  stop : Nat
  length : Nat
  deriving DecidableEq, Repr

def OutOfRange.message (e : OutOfRange) : String :=
  s!"patch range {e.start}..{e.stop} is outside the buffer ({e.length} chars)"

namespace Position

/-- The number of characters of lines that are each followed by `gap` more. -/
def lengthWithGaps (gap : Nat) : List Text → Nat
  | [] => 0
  | l :: ls => l.length + gap + lengthWithGaps gap ls

/-- The number of characters before a position, in lines separated by `gap` characters. A position
behind the last line, or behind the end of its line, has none. -/
def offset? (lines : List Text) (gap : Nat) (p : Position) : Option Nat :=
  match lines[p.line]? with
  | none => none
  | some line =>
    if p.column ≤ line.length then
      some (lengthWithGaps gap (lines.take p.line) + p.column)
    else none

def lineEnd (lines : List Text) (n : Nat) : Checked Position :=
  match lines[n]? with
  | some line => .ok ⟨n, line.length⟩
  | none => .error (.noLine n)

/-- The start of a line, or the end of the last line when there are not that many. -/
def lineStart (lines : List Text) (n : Nat) : Position :=
  if n < lines.length then ⟨n, 0⟩ else ⟨lines.length - 1, (lines.getLast?.getD []).length⟩

end Position

/-- The text with the characters from `start` to `stop` replaced. -/
def Text.splice (start stop : Nat) (new t : Text) : Text := t.take start ++ new ++ t.drop stop

namespace Patch

def ofRange (current : Text) (e : LineBreak) (r : LineRange) : Checked Patch :=
  let lines := e.split current
  let stop := Position.lineStart lines r.last
  if r.isDeletion then
    if lines.length ≤ r.last ∧ 0 < r.first then do
      let start ← Position.lineEnd lines (r.first - 1)
      return ⟨start, stop, []⟩
    else .ok ⟨Position.lineStart lines r.first, stop, []⟩
  else
    .ok
      { start := Position.lineStart lines r.first
        stop
        newText :=
          (if lines.length ≤ r.first then e.text else []) ++ Text.join e.text r.lines ++
            (if r.last < lines.length then e.text else []) }

/-- The characters that a patch replaces in a text. -/
def extent (p : Patch) (t : Text) (e : LineBreak) : Except OutOfRange (Nat × Nat) :=
  let lines := e.split t
  let start? := p.start.offset? lines e.text.length
  let stop? := p.stop.offset? lines e.text.length
  match start?, stop? with
  | some start, some stop =>
    if start ≤ stop then .ok (start, stop) else .error ⟨start, stop, t.length⟩
  | _, _ => .error ⟨start?.getD t.length, stop?.getD t.length, t.length⟩

def apply (p : Patch) (t : Text) (e : LineBreak) : Except OutOfRange Text := do
  let (start, stop) ← p.extent t e
  return Text.splice start stop p.newText t

/-- The patch that turns the lines of `current` into those of `proposed`, if they differ. The lines
of `proposed` are separated by line feeds. -/
def computeWith (current : Text) (e : LineBreak) (proposed : Text) : Checked (Option Patch) :=
  match LineRange.differing? (e.split current) (LineBreak.lf.split proposed) with
  | none => .ok none
  | some r => (ofRange current e r).map some

def compute (current proposed : Text) : Checked (Option Patch) :=
  computeWith current (LineBreak.detect current) proposed

end Patch
end SpriteConfig
