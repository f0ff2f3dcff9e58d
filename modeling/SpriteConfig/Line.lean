import SpriteConfig.Fault
import SpriteConfig.Parameters.Comment
import SpriteConfig.Parameters.Reading
import SpriteConfig.Parameters.Writing
/-!
# Lines

A line of a configuration is `definition parameter* comment?`, indented by spaces and tabs. A line
belongs to the nearest line before it that is indented less. Comment lines and blank lines define
nothing; they take over the level of the line before them, so they never open or close a scope.
-/
namespace SpriteConfig

/-- A line with what was read from it. -/
structure Line where
  /-- The whole line, without its line break. -/
  text : Text
  /-- The length of the indentation, or the level taken over from the line before. -/
  level : Nat
  /-- The first word; empty for a comment and for a blank line. -/
  definition : Text
  deriving DecidableEq, Repr

namespace Line

/-- Reads a line that follows one of level `inherited`. -/
def parse (inherited : Nat) (text : Text) : Line :=
  match text.dropWhile Text.isIndent with
  | [] => ⟨text, inherited, []⟩
  | '#' :: _ => ⟨text, inherited, []⟩
  | body =>
    ⟨text, (text.takeWhile Text.isIndent).length, body.takeWhile fun c => !Text.isIndent c⟩

def isDefinition (l : Line) : Bool := !l.definition.isEmpty

def isBlank (l : Line) : Bool := Text.isBlank l.text

/-- Whether the line defines something, or holds something after more than `level` spaces and
tabs. -/
def isNestedDeeper (level : Nat) (l : Line) : Bool :=
  l.isDefinition ||
    (!(l.text.dropWhile Text.isIndent).isEmpty &&
      level < (l.text.takeWhile Text.isIndent).length)

/-- The spaces and tabs at the start of the line, as far as they make up its level. -/
def indent (l : Line) : Text := (l.text.takeWhile Text.isIndent).take l.level

/-- The text after the definition: the parameters' part and the comment. -/
def afterDefinition (l : Line) : Checked (Text × Option Text) :=
  if l.isDefinition then
    let offset := l.level + Text.byteLength l.definition
    match Text.cut? offset l.text with
    | some rest => .ok (Parameters.splitComment (Text.trimStart rest))
    | none => .error (.badCut offset)
  else .ok ([], none)

def parameters (l : Line) : Checked (List Text) := do
  let (text, _) ← l.afterDefinition
  return Parameters.parse text

/-- The line with its text written anew: indentation, definition, parameters and comment. -/
def withParameters (l : Line) (values : List Text) (comment : Option Text) : Line :=
  { l with
    text := l.indent ++ l.definition ++
      (if values.isEmpty then [] else ' ' :: Parameters.format values) ++
      (match comment with
      | none => []
      | some comment => ' ' :: comment) }

/-- The line with other parameters. The comment stays, and a line without a definition stays as it
is. -/
def setParameters (l : Line) (values : List Text) : Checked Line :=
  if l.isDefinition then do
    let (_, comment) ← l.afterDefinition
    return l.withParameters values comment
  else .ok l

def make (indent definition : Text) (values : List Text) : Line :=
  let bare : Line := ⟨indent ++ definition, Text.byteLength indent, definition⟩
  if bare.isDefinition then bare.withParameters values none else bare

end Line

/-- The lines of a document from their texts, the first after a line of level `inherited`. -/
def readLines (inherited : Nat) : List Text → List Line
  | [] => []
  | t :: ts =>
    let l := Line.parse inherited t
    l :: readLines l.level ts

/-- The lines of a text whose lines are separated by line feeds. -/
def readSource (source : Text) : List Line := readLines 0 (Text.split '\n' source)

def writeSource (lines : List Line) : Text := Text.join ['\n'] (lines.map Line.text)

theorem readLines_map_text (inherited : Nat) (ts : List Text) :
    (readLines inherited ts).map Line.text = ts := by
  induction ts generalizing inherited with
  | nil => rfl
  | cons t ts ih =>
    have ht : (Line.parse inherited t).text = t := by
      rw [Line.parse]
      split <;> rfl
    simp [readLines, ih, ht]

end SpriteConfig
