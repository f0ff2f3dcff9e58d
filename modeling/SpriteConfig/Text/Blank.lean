import SpriteConfig.Text.Basic
/-!
# Blank characters

Parameters are separated by white space in the sense of Unicode's `White_Space` property, and a
line is blank when it holds nothing else. The indentation of a line counts only spaces and tabs.
-/
namespace SpriteConfig
namespace Text

/-- The ranges of the Unicode property `White_Space`, by first and last code point. -/
def whiteSpace : List (Nat × Nat) :=
  [(0x09, 0x0D), (0x20, 0x20), (0x85, 0x85), (0xA0, 0xA0), (0x1680, 0x1680), (0x2000, 0x200A),
   (0x2028, 0x2029), (0x202F, 0x202F), (0x205F, 0x205F), (0x3000, 0x3000)]

def isSpace (c : Char) : Bool :=
  whiteSpace.any fun (low, high) => low ≤ c.toNat && c.toNat ≤ high

/-- Whether a character indents a line: a space or a tab. -/
def isIndent (c : Char) : Bool := c = ' ' || c = '\t'

def trimStart (t : Text) : Text := t.dropWhile isSpace

def trimEnd (t : Text) : Text := dropTrailing isSpace t

def isBlank (t : Text) : Bool := t.all isSpace

end Text
end SpriteConfig
