import SpriteConfig.Text.Basic
/-!
# Options

How new lines are written, and when edits are pushed to a file.
-/
namespace SpriteConfig

/-- The options of a document. -/
structure Options where
  /-- What is added to the indentation of a subject for its first child. -/
  indentUnit : Text := "  ".toList
  /-- The same for a subject that is indented with tabs. -/
  tabIndentUnit : Text := "\t".toList
  /-- The parameters of an input that becomes a grid. -/
  gridCellSize : Nat × Nat := (16, 16)
  /-- How many milliseconds without an edit pass before edits are pushed. -/
  commitDelay : Nat := 250
  deriving DecidableEq, Repr

def Text.ofNat (n : Nat) : Text := Nat.toDigits 10 n

theorem Text.isDigit_of_mem_ofNat {n : Nat} {c : Char} (h : c ∈ ofNat n) : c.isDigit = true :=
  Nat.isDigit_of_mem_toDigits (by decide) (by decide) h

end SpriteConfig
