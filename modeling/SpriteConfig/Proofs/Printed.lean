import SpriteConfig.Patch.Json
import SpriteConfig.Proofs.Json
import SpriteConfig.Proofs.Patch
/-!
# Patches that are printed and read

A patch is read from what is printed of it, if its lines and columns are words of 64 bits. They are
if the patch fits into a text that is no longer than that. Patches that are printed alike are equal
in any case.
-/
namespace SpriteConfig

theorem LineBreak.length_le_length_ended (e : LineBreak) (lines : List Text) :
    lines.length ≤ (e.ended lines).length := by
  induction lines with
  | nil => exact Nat.le_refl 0
  | cons l ls ih =>
    have hpos : 0 < e.text.length := by cases e <;> decide
    rw [ended_cons]
    simp only [List.length_append, List.length_cons]
    omega

namespace Json

@[simp] theorem reread_ofNat (n : Nat) : (ofNat n).reread = ofNat n := rfl

theorem text?_reread_ofText (t : Text) : (ofText t).reread.text? = some t :=
  StringPiece.text?_reread t

theorem ofNat_injective : Function.Injective ofNat := by
  intro m n h
  have hread := nat?_ofNat (Nat.le_add_right m n)
  rw [h, nat?_ofNat (Nat.le_add_left n m)] at hread
  exact (Option.some.inj hread).symm

end Json

namespace Position

variable {p q : Position}

def IsWord (p : Position) : Prop := p.line ≤ maxWord64 ∧ p.column ≤ maxWord64

theorem ofJson?_reread (h : p.IsWord) : ofJson? p.toJson.reread = some p := by
  have hfields : ofJson? p.toJson.reread = (do
      return ⟨← (Json.ofNat p.line).nat? maxWord64, ← (Json.ofNat p.column).nat? maxWord64⟩) := rfl
  rw [hfields, Json.nat?_ofNat h.1, Json.nat?_ofNat h.2]
  rfl

theorem eq_of_reread_toJson (h : p.toJson.reread = q.toJson.reread) : p = q := by
  obtain ⟨hline, hcolumn⟩ : Json.ofNat p.line = Json.ofNat q.line ∧
      Json.ofNat p.column = Json.ofNat q.column := by
    simpa [toJson, Json.reread, Json.rereadFields] using h
  cases p
  cases q
  obtain rfl := Json.ofNat_injective hline
  obtain rfl := Json.ofNat_injective hcolumn
  rfl

theorem isWord_of_offset? {t : Text} {e : LineBreak} {k : Nat}
    (h : p.offset? (e.split t) e.text.length = some k) (ht : t.length ≤ maxWord64) : p.IsWord := by
  have hk := (offset?_le h).trans ht
  obtain ⟨line, hline, hcolumn, rfl⟩ := (offset?_eq_some_iff e).mp h
  obtain ⟨hlt, -⟩ := List.getElem?_eq_some_iff.mp hline
  have hlines := e.length_le_length_ended ((e.split t).take p.line)
  rw [List.length_take_of_le (Nat.le_of_lt hlt)] at hlines
  exact ⟨by omega, by omega⟩

end Position

namespace Patch

variable {p q : Patch}

theorem isSpelled_toJson (p : Patch) : Json.IsSpelled (Json.tokens p.toJson) := by
  intro s hs
  have hnumbers : s = Text.ofNat p.start.line ∨ s = Text.ofNat p.start.column ∨
      s = Text.ofNat p.stop.line ∨ s = Text.ofNat p.stop.column := by
    simpa [toJson, Position.toJson, Json.tokens, Json.fieldTokens, Json.ofNat, Json.ofText,
      Text.ofNat] using hs
  rcases hnumbers with rfl | rfl | rfl | rfl <;> exact Json.spells_ofNat _

theorem parse?_pretty (p : Patch) :
    Json.parse? (p.toJson.pretty ++ ['\n']) = some p.toJson.reread :=
  Json.parse?_pretty p.isSpelled_toJson (by simp [Json.isSpace])

theorem parse?_pretty_of_isWord (hstart : p.start.IsWord) (hstop : p.stop.IsWord) :
    parse? (p.toJson.pretty ++ ['\n']) = some p := by
  have hfields : ofJson? p.toJson.reread = (do
      return ⟨← Position.ofJson? p.start.toJson.reread, ← Position.ofJson? p.stop.toJson.reread,
        ← (Json.ofText p.newText).reread.text?⟩) := rfl
  rw [parse?, parse?_pretty, Option.bind_some, hfields, Position.ofJson?_reread hstart,
    Position.ofJson?_reread hstop, Json.text?_reread_ofText]
  rfl

theorem eq_of_pretty (h : p.toJson.pretty ++ ['\n'] = q.toJson.pretty ++ ['\n']) : p = q := by
  have hreread : p.toJson.reread = q.toJson.reread :=
    Option.some.inj (p.parse?_pretty.symm.trans ((congrArg Json.parse? h).trans q.parse?_pretty))
  obtain ⟨hstart, hstop, hnew⟩ : p.start.toJson.reread = q.start.toJson.reread ∧
      p.stop.toJson.reread = q.stop.toJson.reread ∧
      (Json.ofText p.newText).reread = (Json.ofText q.newText).reread := by
    simpa [toJson, Json.reread, Json.rereadFields] using hreread
  have htext := congrArg Json.text? hnew
  rw [Json.text?_reread_ofText, Json.text?_reread_ofText] at htext
  cases p
  cases q
  obtain rfl := Position.eq_of_reread_toJson hstart
  obtain rfl := Position.eq_of_reread_toJson hstop
  obtain rfl := Option.some.inj htext
  rfl

theorem isWord_of_extent {t : Text} {e : LineBreak} {start stop : Nat}
    (h : p.extent t e = .ok (start, stop)) (ht : t.length ≤ maxWord64) :
    p.start.IsWord ∧ p.stop.IsWord := by
  obtain ⟨hstart, hstop, -⟩ := extent_eq_ok_iff.mp h
  exact ⟨Position.isWord_of_offset? hstart ht, Position.isWord_of_offset? hstop ht⟩

end Patch
end SpriteConfig
