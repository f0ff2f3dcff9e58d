import SpriteConfig.Json.Reader
import SpriteConfig.Json.Record
import SpriteConfig.Limits
import SpriteConfig.Options
/-!
# Options in JSON

A field that is missing has its default. Sizes are 32-bit numbers and the delay is a 64-bit one.
-/
namespace SpriteConfig
namespace Options

def fieldNames : List Text :=
  ["indentUnit".toList, "tabIndentUnit".toList, "gridCellSize".toList, "commitDebounceMs".toList]

def readCellSize? : Json → Option (Nat × Nat)
  | .array [width, height] => do
    return (← width.nat? maxWord32, ← height.nat? maxWord32)
  | _ => none

def ofJson? (v : Json) : Option Options := do
  let defaults : Options := {}
  match ← v.record? fieldNames with
  | [indentUnit, tabIndentUnit, gridCellSize, commitDelay] =>
    return {
      indentUnit := ← Json.fieldOr defaults.indentUnit Json.text? indentUnit
      tabIndentUnit := ← Json.fieldOr defaults.tabIndentUnit Json.text? tabIndentUnit
      gridCellSize := ← Json.fieldOr defaults.gridCellSize readCellSize? gridCellSize
      commitDelay := ← Json.fieldOr defaults.commitDelay (Json.nat? maxWord64) commitDelay }
  | _ => none

def parse? (t : Text) : Option Options := (Json.parse? t).bind ofJson?

end Options
end SpriteConfig
