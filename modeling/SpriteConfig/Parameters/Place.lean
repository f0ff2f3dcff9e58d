import SpriteConfig.Text.Blank
/-!
# Places in a parameter list

Parameters are separated by white space. A quote of either kind opens a run that reaches to the
next quote of the same kind, or to the end of the text; the characters of a run are taken as they
are. Reading parameters and finding a comment both walk along the text with a `Place`.
-/
namespace SpriteConfig

def isQuote (c : Char) : Bool := c = '"' || c = '\''

/-- Where a point of a text lies in its parameters. -/
inductive Place
  /-- Outside of any parameter, with white space or nothing before. -/
  | between
  /-- In a parameter, outside of its quoted runs. -/
  | bare
  /-- In a run that the quote `q` opened. -/
  | quoted (q : Char)
  deriving DecidableEq, Repr

namespace Place

def next : Place → Char → Place
  | quoted q, c => if c = q then bare else quoted q
  | _, c => if Text.isSpace c then between else if isQuote c then quoted c else bare

/-- The place at the end of a text that starts at a given place. -/
def after (p : Place) (t : Text) : Place := t.foldl next p

/-- Whether a character belongs to the value of the parameter, and is no separator and no quote
that opens or closes a run. -/
def keeps : Place → Char → Bool
  | quoted q, c => c ≠ q
  | _, c => !Text.isSpace c && !isQuote c

@[simp] theorem after_nil (p : Place) : p.after [] = p := rfl

@[simp] theorem after_cons (p : Place) (c : Char) (t : Text) :
    p.after (c :: t) = (p.next c).after t := rfl

theorem after_append (p : Place) (s t : Text) : p.after (s ++ t) = (p.after s).after t :=
  List.foldl_append

end Place
end SpriteConfig
