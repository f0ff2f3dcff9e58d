import SpriteConfig.Text.Basic
/-!
# Line breaks

A file keeps the line breaks it was written with; a document has lines. Between the two, texts
whose lines are separated by line feeds are the common form.
-/
namespace SpriteConfig

/-- What separates the lines of a file. -/
inductive LineBreak
  | lf
  | crlf
  | cr
  deriving DecidableEq, Repr, Inhabited

namespace LineBreak

def text : LineBreak → Text
  | lf => ['\n']
  | crlf => ['\r', '\n']
  | cr => ['\r']

/-- The kind of the first line break of a text. A text without one counts as separated by line
feeds. -/
def detect : Text → LineBreak
  | [] => lf
  | '\n' :: _ => lf
  | '\r' :: '\n' :: _ => crlf
  | '\r' :: _ => cr
  | _ :: t => detect t

/-- The pieces between the pairs of a carriage return and a line feed. -/
def splitPairs : Text → List Text
  | [] => [[]]
  | '\r' :: '\n' :: t => [] :: splitPairs t
  | c :: t => (splitPairs t).modifyHead (c :: ·)

def split : LineBreak → Text → List Text
  | lf, t => Text.split '\n' t
  | crlf, t => splitPairs t
  | cr, t => Text.split '\r' t

def normalize (e : LineBreak) (t : Text) : Text := Text.join lf.text (e.split t)

/-- The text with these line breaks in place of its line feeds. -/
def restore (e : LineBreak) (t : Text) : Text := Text.join e.text (lf.split t)

theorem split_ne_nil (e : LineBreak) (t : Text) : e.split t ≠ [] := by
  cases e with
  | lf => exact Text.split_ne_nil _ _
  | cr => exact Text.split_ne_nil _ _
  | crlf =>
    rw [split]
    fun_induction splitPairs t with
    | case1 => simp
    | case2 t ih => simp
    | case3 c t _ ih => cases h : splitPairs t <;> simp_all

theorem join_split (e : LineBreak) (t : Text) : Text.join e.text (e.split t) = t := by
  cases e with
  | lf => exact Text.join_split _ _
  | cr => exact Text.join_split _ _
  | crlf =>
    have hne (t : Text) : splitPairs t ≠ [] := split_ne_nil crlf t
    simp only [split, text]
    fun_induction splitPairs t with
    | case1 => rfl
    | case2 t ih => simp [hne, ih]
    | case3 c t _ ih => rw [Text.join_modifyHead _ _ (hne t), ih]

end LineBreak
end SpriteConfig
