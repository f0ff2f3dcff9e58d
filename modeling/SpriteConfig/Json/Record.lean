import SpriteConfig.Json.Basic
/-!
# Records in JSON

A record is written as an object, whose fields may come in any order, or as an array of its fields
in theirs. An object may have fields that the record does not know; a field that it knows may occur
only once.
-/
namespace SpriteConfig
namespace Json

def fillSlot (name : Text) (v : Json) : List Text → List (Option Json) → Option (List (Option Json))
  | n :: ns, slot :: slots =>
    if n = name then
      match slot with
      | none => some (some v :: slots)
      | some _ => none
    else (fillSlot name v ns slots).map (slot :: ·)
  | _, slots => some slots

def fillSlots (names : List Text) (slots : List (Option Json)) :
    List (List StringPiece × Json) → Option (List (Option Json))
  | [] => some slots
  | (key, v) :: fields => do
    let name ← StringPiece.text? key
    let slots ← fillSlot name v names slots
    fillSlots names slots fields

/-- The values of a record with the given field names, in their order; a field that is missing has
none. An array may be shorter than the record, but not longer. -/
def record? (names : List Text) : Json → Option (List (Option Json))
  | object fields => fillSlots names (names.map fun _ => none) fields
  | array items =>
    if items.length ≤ names.length then
      some (items.map some ++ List.replicate (names.length - items.length) none)
    else none
  | _ => none

/-- What a field holds, or a default if the field is missing. -/
def fieldOr (default : α) (read : Json → Option α) : Option Json → Option α
  | none => some default
  | some v => read v

end Json
end SpriteConfig
