import SpriteConfig.Layout
import SpriteConfig.Subject.Registry
import SpriteConfig.Text.Utf8
/-!
# Documents

A document is the lines of a configuration together with its subjects. What belongs to a subject is
its block: the lines after its own that are nested deeper.
-/
namespace SpriteConfig

/-- A configuration. -/
structure Document where
  lines : List Line
  registry : Registry
  options : Options
  deriving DecidableEq, Repr

namespace Document

def parse (source : Text) (options : Options := {}) : Document :=
  let lines := readSource source
  { lines, registry := Registry.ofLines lines, options }

def ofUtf8 (bytes : List UInt8) (options : Options := {}) : Except Utf8.Fault Document :=
  (Utf8.decode bytes).map (parse · options)

def source (d : Document) : Text := writeSource d.lines

@[simp] theorem source_parse (source : Text) (options : Options) :
    (parse source options).source = source := by
  rw [Document.source, writeSource, parse, readSource, readLines_map_text, Text.join_split]

theorem length_lines_parse (source : Text) (options : Options) :
    (parse source options).lines.length = (Text.split '\n' source).length := by
  have htexts := readLines_map_text 0 (Text.split '\n' source)
  rw [← htexts, List.length_map]
  rfl

def line (d : Document) (n : Nat) : Checked Line :=
  match d.lines[n]? with
  | some l => .ok l
  | none => .error (.noLine n)

theorem line_eq_ok_iff {d : Document} {n : Nat} {l : Line} :
    d.line n = .ok l ↔ d.lines[n]? = some l := by
  rw [line]
  cases d.lines[n]? <;> simp

end Document

/-- Whether a line ends every block of a subject of level `level`. -/
def Line.closes (level : Nat) (l : Line) : Bool := l.isDefinition && l.level ≤ level

/-- The block of a subject of level `level`, out of the lines after it: the lines before the next
definition that is not nested deeper. Comments and blank lines at the end belong to the block only
if they are nested deeper. -/
def blockBelow (level : Nat) (below : List Line) : List Line :=
  dropTrailing (fun l => !l.isNestedDeeper level) (below.takeWhile fun l => !l.closes level)

namespace Document

/-- The number of the first line after a handle, and the block of lines there. -/
def block (d : Document) : Handle → Checked (Nat × List Line)
  | .root => .ok (0, d.lines)
  | .line n => do
    let l ← d.line n
    return (n + 1, blockBelow l.level (d.lines.drop (n + 1)))

end Document
end SpriteConfig
