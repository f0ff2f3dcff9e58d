import SpriteConfig.Text.Basic
/-!
# JSON values

Options and patches are exchanged as JSON. A value keeps what its text says: a number keeps its
spelling and a string its escapes, because whether they make sense depends on what they are for.
-/
namespace SpriteConfig

inductive StringPiece
  | char (c : Char)
  /-- A UTF-16 unit that was written as an escape. -/
  | unit (u : Nat)
  deriving DecidableEq, Repr

inductive Json
  | null
  | bool (b : Bool)
  | number (spelling : Text)
  | string (pieces : List StringPiece)
  | array (items : List Json)
  | object (fields : List (List StringPiece × Json))

/-- The text of a string, if its UTF-16 escapes form characters: a unit of the first half of a pair
needs one of the second half right after it, and no other unit of a second half may occur. -/
def StringPiece.text? : List StringPiece → Option Text
  | [] => some []
  | .char c :: ps => (text? ps).map (c :: ·)
  | .unit u :: .unit v :: ps =>
    if 0xD800 ≤ u ∧ u ≤ 0xDBFF then
      if 0xDC00 ≤ v ∧ v ≤ 0xDFFF then
        (text? ps).map (Char.ofNat (0x10000 + (u - 0xD800) * 0x400 + (v - 0xDC00)) :: ·)
      else none
    else if 0xDC00 ≤ u ∧ u ≤ 0xDFFF then none
    else (text? (.unit v :: ps)).map (Char.ofNat u :: ·)
  | .unit u :: ps =>
    if 0xD800 ≤ u ∧ u ≤ 0xDFFF then none else (text? ps).map (Char.ofNat u :: ·)

namespace Json

def ofText (t : Text) : Json := string (t.map .char)

def ofNat (n : Nat) : Json := number (Nat.toDigits 10 n)

def text? : Json → Option Text
  | string ps => StringPiece.text? ps
  | _ => none

/-- The natural number of a number value, up to `limit`. A sign, a fraction or an exponent makes it
another kind of number. -/
def nat? (limit : Nat) : Json → Option Nat
  | number spelling =>
    if spelling.all Char.isDigit then
      let n := Nat.ofDigitChars 10 spelling 0
      if n ≤ limit then some n else none
    else none
  | _ => none

end Json
end SpriteConfig
