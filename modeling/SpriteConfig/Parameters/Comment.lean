import SpriteConfig.Parameters.Place
/-!
# Comments after parameters

A comment starts with the first `#` outside of quotes that has nothing or white space before it,
and reaches to the end of the text.
-/
namespace SpriteConfig
namespace Parameters

/-- The text before the comment, and the comment if there is one. -/
def cutComment : Place → Text → Text × Option Text
  | _, [] => ([], none)
  | p, c :: t =>
    if p = .between ∧ c = '#' then ([], some (c :: t))
    else
      let (before, comment) := cutComment (p.next c) t
      (c :: before, comment)

/-- The parameters' part of a text, without white space before a comment, and the comment if there
is one. A text without a comment is its own parameters' part. -/
def splitComment (t : Text) : Text × Option Text :=
  match cutComment .between t with
  | (before, some comment) => (Text.trimEnd before, some comment)
  | (before, none) => (before, none)

theorem cutComment_append (p : Place) (t : Text) :
    (cutComment p t).1 ++ (cutComment p t).2.getD [] = t := by
  induction t generalizing p with
  | nil => rfl
  | cons c t ih =>
    rw [cutComment]
    split
    · rfl
    · simpa using ih (p.next c)

end Parameters
end SpriteConfig
