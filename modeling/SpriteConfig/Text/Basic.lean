/-!
# Texts

A text is a list of characters. Columns and offsets count characters; the nesting levels of a
document count the bytes of the UTF-8 form, which is why a text can also be cut at a byte.
-/
namespace SpriteConfig

/-- A text, as its list of characters. -/
abbrev Text := List Char

namespace Text

def byteLength : Text → Nat
  | [] => 0
  | c :: t => c.utf8Size + byteLength t

/-- The text after its first `n` bytes, if a character ends there. -/
def cut? : Nat → Text → Option Text
  | 0, t => some t
  | _ + 1, [] => none
  | n + 1, c :: t => if c.utf8Size ≤ n + 1 then cut? (n + 1 - c.utf8Size) t else none

/-- The pieces in order, with `separator` between any two of them. -/
def join (separator : Text) : List Text → Text
  | [] => []
  | [p] => p
  | p :: q :: ps => p ++ separator ++ join separator (q :: ps)

/-- The pieces between the occurrences of the character `c`. -/
def split (c : Char) : Text → List Text
  | [] => [[]]
  | a :: t => if a = c then [] :: split c t else (split c t).modifyHead (a :: ·)

/-- The two sides of the first `c`, if there is one. -/
def splitOnce? (c : Char) : Text → Option (Text × Text)
  | [] => none
  | a :: t => if a = c then some ([], t) else (splitOnce? c t).map fun (l, r) => (a :: l, r)

@[simp] theorem byteLength_append (s t : Text) :
    byteLength (s ++ t) = byteLength s + byteLength t := by
  induction s with
  | nil => simp [byteLength]
  | cons c s ih => simp [byteLength, ih, Nat.add_assoc]

theorem cut?_append (s t : Text) : cut? (byteLength s) (s ++ t) = some t := by
  induction s with
  | nil => simp [byteLength, cut?]
  | cons c s ih =>
    obtain ⟨n, hn⟩ : ∃ n, c.utf8Size + byteLength s = n + 1 :=
      ⟨_, (Nat.succ_pred_eq_of_pos (Nat.add_pos_left c.utf8Size_pos _)).symm⟩
    have hs : n + 1 - c.utf8Size = byteLength s := by omega
    simp only [byteLength, hn, List.cons_append, cut?, hs, ih]
    rw [if_pos (by omega)]

theorem split_ne_nil (c : Char) (t : Text) : split c t ≠ [] := by
  induction t with
  | nil => simp [split]
  | cons a t ih =>
    rw [split]
    split
    · simp
    · cases h : split c t with
      | nil => exact absurd h ih
      | cons p ps => simp

@[simp] theorem join_cons (separator p : Text) {ps : List Text} (h : ps ≠ []) :
    join separator (p :: ps) = p ++ separator ++ join separator ps := by
  cases ps with
  | nil => exact absurd rfl h
  | cons q qs => rfl

theorem join_modifyHead (separator : Text) (c : Char) {ps : List Text} (h : ps ≠ []) :
    join separator (ps.modifyHead (c :: ·)) = c :: join separator ps := by
  cases ps with
  | nil => exact absurd rfl h
  | cons p qs =>
    cases qs with
    | nil => rfl
    | cons q qs => rfl

theorem join_split (c : Char) (t : Text) : join [c] (split c t) = t := by
  induction t with
  | nil => rfl
  | cons a t ih =>
    rw [split]
    split
    · next h => simp [split_ne_nil, ih, h]
    · rw [join_modifyHead _ _ (split_ne_nil c t), ih]

end Text

/-- A list without the longest run at its end whose members satisfy `p`. -/
def dropTrailing (p : α → Bool) : List α → List α
  | [] => []
  | a :: as =>
    match dropTrailing p as with
    | [] => if p a then [] else [a]
    | b :: bs => a :: b :: bs

end SpriteConfig
