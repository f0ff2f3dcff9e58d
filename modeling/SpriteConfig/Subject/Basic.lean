import SpriteConfig.Text.Basic
/-!
# Subjects

The subjects of a document are what can be edited in it: its sheets, its inputs and the sprites of
its inputs. A subject is known by a number that never changes; the line that it stands on does.
-/
namespace SpriteConfig

/-- The line of a subject. A document without a `sheet` line has a sheet of its own, which stands
before the first line. -/
inductive Handle
  /-- Before the first line. -/
  | root
  | line (n : Nat)
  deriving DecidableEq, Repr

namespace Handle

def line? : Handle → Option Nat
  | root => none
  | line n => some n

def before : Handle → Handle → Bool
  | _, root => false
  | root, line _ => true
  | line m, line n => m < n

/-- The handle moved by `delta` lines if it stands after `after`. No handle moves before line 0. -/
def moved (h after : Handle) (delta : Int) : Handle :=
  match h with
  | root => root
  | line n => if after.before h then line (n + delta).toNat else line n

def display : Handle → String
  | root => "root"
  | line n => s!"line {n}"

end Handle

inductive SubjectKind
  /-- A `sheet` line that is not indented. -/
  | sheet
  /-- An `input` line. -/
  | input
  /-- A `sprite` line after an input. -/
  | sprite
  deriving DecidableEq, Repr

def SubjectKind.token : SubjectKind → Text
  | sheet => "sheet".toList
  | input => "input".toList
  | sprite => "sprite".toList

/-- The number that a subject is known by. A registry counts them up from zero; a program has words
of 32 bits for them and stops where none is left. -/
abbrev SubjectId := Nat

structure Subject where
  id : SubjectId
  kind : SubjectKind
  handle : Handle
  /-- The sheet of an input, the input of a sprite. -/
  parent : Option SubjectId
  deriving DecidableEq, Repr

end SpriteConfig
