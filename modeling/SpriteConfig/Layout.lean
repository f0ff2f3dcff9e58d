import SpriteConfig.Options
/-!
# Layouts

The layout of an input says how its sprites lie in its image. It is a property of the input, except
for the plain one.
-/
namespace SpriteConfig

/-- How the sprites of an input lie in its image. -/
inductive Layout
  /-- The image is one sprite, or its sprites are listed. -/
  | sprite
  /-- The sprites are found in the image. -/
  | atlas
  /-- Cells of a given size, row by row. -/
  | grid
  /-- Cells of a given size, column by column. -/
  | gridVertical
  /-- A given number of cells, row by row. -/
  | gridCells
  /-- A given number of cells, column by column. -/
  | gridCellsVertical
  deriving DecidableEq, Repr

namespace Layout

def properties : List Layout := [atlas, grid, gridVertical, gridCells, gridCellsVertical]

def token : Layout → Text
  | sprite => "sprite".toList
  | atlas => "atlas".toList
  | grid => "grid".toList
  | gridVertical => "grid-vertical".toList
  | gridCells => "grid-cells".toList
  | gridCellsVertical => "grid-cells-vertical".toList

def ofToken? (t : Text) : Option Layout := (sprite :: properties).find? fun l => l.token = t

@[simp] theorem token_inj {k l : Layout} : k.token = l.token ↔ k = l := by
  cases k <;> cases l <;> decide

/-- The parameters that are written when an input gets a layout. -/
def initialParameters (o : Options) : Layout → List Text
  | sprite | atlas => []
  | grid | gridVertical | gridCells | gridCellsVertical =>
    [Text.ofNat o.gridCellSize.1, Text.ofNat o.gridCellSize.2]

end Layout
end SpriteConfig
