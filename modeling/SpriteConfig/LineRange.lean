import SpriteConfig.Text.Basic
/-!
# Differing lines

Two lists of lines differ in one range: what is left when the lines they share at the start and
then the lines they share at the end are taken away. An edit of one line changes a range of one
line.
-/
namespace SpriteConfig

/-- A range of lines and what to put there. -/
structure LineRange where
  first : Nat
  /-- The line after the last one to replace. -/
  last : Nat
  lines : List Text
  deriving DecidableEq, Repr

/-- The number of members that two lists share at their start. -/
def sharedLength [DecidableEq α] : List α → List α → Nat
  | a :: as, b :: bs => if a = b then sharedLength as bs + 1 else 0
  | _, _ => 0

namespace LineRange

def replacedLength (r : LineRange) : Nat := r.last - r.first

def isDeletion (r : LineRange) : Bool := r.lines.isEmpty

/-- The range of `current` to replace in order to get `proposed`, if they differ. -/
def differing? (current proposed : List Text) : Option LineRange :=
  if current = proposed then none
  else
    let first := sharedLength current proposed
    let ending := sharedLength (current.drop first).reverse (proposed.drop first).reverse
    some
      { first
        last := current.length - ending
        lines := (proposed.drop first).take ((proposed.drop first).length - ending) }

def replaceIn (r : LineRange) (current : List Text) : List Text :=
  current.take r.first ++ r.lines ++ current.drop r.last

end LineRange
end SpriteConfig
