import SpriteConfig.Json.Printer
import SpriteConfig.Json.Reader
import SpriteConfig.Json.Record
import SpriteConfig.Limits
import SpriteConfig.Patch
/-!
# Patches in JSON

All fields of a patch and of its positions have to be there. Lines and columns are 64-bit numbers.
-/
namespace SpriteConfig

namespace Position

def ofJson? (v : Json) : Option Position := do
  match ← v.record? ["line".toList, "column".toList] with
  | [some line, some column] =>
    return ⟨← line.nat? maxWord64, ← column.nat? maxWord64⟩
  | _ => none

def toJson (p : Position) : Json :=
  .object [("line".toList.map .char, .ofNat p.line), ("column".toList.map .char, .ofNat p.column)]

end Position

namespace Patch

def ofJson? (v : Json) : Option Patch := do
  match ← v.record? ["start".toList, "end".toList, "newText".toList] with
  | [some start, some stop, some newText] =>
    return ⟨← Position.ofJson? start, ← Position.ofJson? stop, ← newText.text?⟩
  | _ => none

def toJson (p : Patch) : Json :=
  .object
    [("start".toList.map .char, p.start.toJson), ("end".toList.map .char, p.stop.toJson),
     ("newText".toList.map .char, .ofText p.newText)]

def parse? (t : Text) : Option Patch := (Json.parse? t).bind ofJson?

end Patch
end SpriteConfig
