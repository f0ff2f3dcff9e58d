import Mathlib.Data.Nat.PSub
import SpriteConfig.Buffer
import SpriteConfig.Proofs.Patch
/-!
# Differences that are never negative

A difference of natural numbers is cut off at zero. The functions here have no result where one of
their differences would be negative, and they always have one: that of the functions that differences
are cut off in. So nothing is ever cut off.
-/
namespace SpriteConfig

theorem sharedLength_add_le {α : Type} [DecidableEq α] (as bs : List α) :
    let first := sharedLength as bs
    let ending := sharedLength (as.drop first).reverse (bs.drop first).reverse
    first + ending ≤ as.length ∧ first + ending ≤ bs.length := by
  have hcurrent := sharedLength_le_left as bs
  have hproposed := sharedLength_le_right as bs
  dsimp only
  generalize sharedLength as bs = first at hcurrent hproposed ⊢
  have hleft := sharedLength_le_left (as.drop first).reverse (bs.drop first).reverse
  have hright := sharedLength_le_right (as.drop first).reverse (bs.drop first).reverse
  simp only [List.length_reverse, List.length_drop] at hleft hright
  omega

namespace LineRange

def differingExactly? (current proposed : List Text) : Option (Option LineRange) :=
  if current = proposed then some none
  else do
    let first := sharedLength current proposed
    let ending := sharedLength (current.drop first).reverse (proposed.drop first).reverse
    let last ← current.length.psub ending
    let stop ← proposed.length.psub ending
    let size ← stop.psub first
    return some { first, last, lines := (proposed.drop first).take size }

theorem differingExactly?_eq (current proposed : List Text) :
    differingExactly? current proposed = some (differing? current proposed) := by
  rw [differingExactly?, differing?]
  split
  · rfl
  · obtain ⟨hcurrent, hproposed⟩ := sharedLength_add_le current proposed
    dsimp only at hcurrent hproposed ⊢
    rw [Nat.psub_eq_sub (by omega), Nat.psub_eq_sub (by omega)]
    simp only [Option.bind_eq_bind, Option.bind_some]
    rw [Nat.psub_eq_sub (by omega), List.length_drop, Nat.sub_right_comm]
    rfl

end LineRange

namespace Position

def lineStartExactly? (lines : List Text) (n : Nat) : Option Position :=
  if n < lines.length then some ⟨n, 0⟩
  else do
    let last ← lines.length.psub 1
    let line ← lines[last]?
    return ⟨last, line.length⟩

theorem lineStartExactly?_eq {lines : List Text} (h : lines ≠ []) (n : Nat) :
    lineStartExactly? lines n = some (lineStart lines n) := by
  rw [lineStartExactly?, lineStart]
  split
  · rfl
  · have hlast : lines[lines.length - 1]? = some (lines.getLast h) := by
      rw [← List.getLast?_eq_getElem?, List.getLast?_eq_some_getLast h]
    rw [Nat.psub_eq_sub (List.length_pos_iff.mpr h)]
    simp only [Option.bind_eq_bind, Option.bind_some, hlast, List.getLast?_eq_some_getLast h]
    rfl

end Position

namespace Patch

def ofRangeExactly? (current : Text) (e : LineBreak) (r : LineRange) : Option (Checked Patch) := do
  let lines := e.split current
  let stop ← Position.lineStartExactly? lines r.last
  if r.isDeletion then
    if lines.length ≤ r.last ∧ 0 < r.first then do
      let before ← r.first.psub 1
      return (Position.lineEnd lines before).map fun start => ⟨start, stop, []⟩
    else do
      let start ← Position.lineStartExactly? lines r.first
      return .ok ⟨start, stop, []⟩
  else do
    let start ← Position.lineStartExactly? lines r.first
    return .ok
      { start
        stop
        newText :=
          (if lines.length ≤ r.first then e.text else []) ++ Text.join e.text r.lines ++
            (if r.last < lines.length then e.text else []) }

def computeWithExactly? (current : Text) (e : LineBreak) (proposed : Text) :
    Option (Checked (Option Patch)) := do
  match ← LineRange.differingExactly? (e.split current) (LineBreak.lf.split proposed) with
  | none => return .ok none
  | some r =>
    let patch ← ofRangeExactly? current e r
    return patch.map some

theorem ofRangeExactly?_eq (current : Text) (e : LineBreak) (r : LineRange) :
    ofRangeExactly? current e r = some (ofRange current e r) := by
  have hstart : ∀ n, Position.lineStartExactly? (e.split current) n =
      some (Position.lineStart (e.split current) n) :=
    Position.lineStartExactly?_eq (LineBreak.split_ne_nil e current)
  simp only [ofRangeExactly?, ofRange, hstart, Option.bind_eq_bind, Option.bind_some]
  split
  · split
    · next h =>
      rw [Nat.psub_eq_sub h.2]
      rfl
    · rfl
  · rfl

theorem computeWithExactly?_eq (current : Text) (e : LineBreak) (proposed : Text) :
    computeWithExactly? current e proposed = some (computeWith current e proposed) := by
  rw [computeWithExactly?, computeWith, LineRange.differingExactly?_eq]
  cases LineRange.differing? (e.split current) (LineBreak.lf.split proposed) with
  | none => rfl
  | some r =>
    simp only [Option.bind_eq_bind, Option.bind_some, ofRangeExactly?_eq]
    rfl

end Patch

namespace Buffer

def offsetAfterExactly? (offset start stop inserted : Nat) : Option Nat :=
  if offset ≤ start then some offset
  else if stop ≤ offset then do
    let removed ← stop.psub start
    let left ← offset.psub removed
    return left + inserted
  else some (start + inserted)

def spliceExactly? (b : Buffer) (start stop : Nat) (new : Text) :
    Option (Except OutOfRange Buffer) :=
  if start ≤ stop ∧ stop ≤ b.length then do
    let caret ← offsetAfterExactly? b.caret start stop new.length
    return .ok
      { b with text := Text.splice start stop new b.text, caret, version := b.version + 1 }
  else some (.error ⟨start, stop, b.length⟩)

theorem offsetAfterExactly?_eq {start stop : Nat} (h : start ≤ stop) (offset inserted : Nat) :
    offsetAfterExactly? offset start stop inserted =
      some (offsetAfter offset start stop inserted) := by
  rw [offsetAfterExactly?, offsetAfter]
  split
  · rfl
  · split
    · rw [Nat.psub_eq_sub h]
      simp only [Option.bind_eq_bind, Option.bind_some]
      rw [Nat.psub_eq_sub (by omega)]
      rfl
    · rfl

theorem spliceExactly?_eq (b : Buffer) (start stop : Nat) (new : Text) :
    b.spliceExactly? start stop new = some (b.splice start stop new) := by
  rw [spliceExactly?, splice]
  split
  · next h =>
    rw [offsetAfterExactly?_eq h.1]
    rfl
  · rfl

end Buffer
end SpriteConfig
