/-!
# Faults

The operations of this library are total. Where one of them has no answer, because a line number,
a range or a cut does not fit the text it is meant for, it says so with a `Fault`, so that "nothing
ever goes wrong" is a statement about values.
-/
namespace SpriteConfig

/-- Why an operation has no answer. -/
inductive Fault
  /-- A line number at or after the number of lines. -/
  | noLine (line : Nat)
  | noLines (start stop : Nat)
  /-- A number of lines that is too great to move others by. -/
  | tooManyLines (count : Nat)
  /-- A cut of a text after its end or inside one of its characters. -/
  | badCut (offset : Nat)
  | badSplice (start stop : Nat)
  /-- A subject for which no number is left. -/
  | tooManySubjects
  /-- A change of a buffer for which no version is left. -/
  | tooManyVersions
  deriving DecidableEq, Repr

/-- A result, or the fault that prevented it. -/
abbrev Checked := Except Fault

namespace Checked

variable {α β : Type}

@[simp] theorem ok_bind (a : α) (f : α → Checked β) : (Except.ok a : Checked α) >>= f = f a := rfl

@[simp] theorem error_bind (e : Fault) (f : α → Checked β) :
    (Except.error e : Checked α) >>= f = .error e := rfl

@[simp] theorem map_ok (f : α → β) (a : α) : f <$> (Except.ok a : Checked α) = .ok (f a) := rfl

@[simp] theorem map_error (f : α → β) (e : Fault) :
    f <$> (Except.error e : Checked α) = .error e := rfl

theorem bind_eq_ok {x : Checked α} {f : α → Checked β} {b : β} :
    x >>= f = .ok b ↔ ∃ a, x = .ok a ∧ f a = .ok b := by
  cases x <;> simp

theorem map_eq_ok {f : α → β} {x : Checked α} {b : β} :
    f <$> x = .ok b ↔ ∃ a, x = .ok a ∧ f a = b := by
  cases x <;> simp

theorem exists_of_isOk {x : Checked α} (h : x.isOk = true) : ∃ a, x = .ok a := by
  cases x with
  | ok a => exact ⟨a, rfl⟩
  | error e => cases h

end Checked

end SpriteConfig
