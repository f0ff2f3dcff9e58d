import SpriteConfig.Text.Basic
/-!
# UTF-8

Bytes become a text one after the other: between two characters a byte starts the next one, and
inside a character it has to lie in the range that the bytes before it allow. The first byte that
does not is the fault, told by the place where its character starts and by the number of bytes
before it that did fit.
-/
namespace SpriteConfig
namespace Utf8

/-- Where bytes stop being UTF-8. -/
inductive Fault
  /-- The `length` bytes from `start` on begin no character. -/
  | invalid (start length : Nat)
  /-- The bytes end inside the character that begins at `start`. -/
  | incomplete (start : Nat)
  deriving DecidableEq, Repr

def Fault.message : Fault → String
  | .invalid start length => s!"invalid utf-8 sequence of {length} bytes from index {start}"
  | .incomplete start => s!"incomplete utf-8 byte sequence from index {start}"

structure Pending where
  /-- The bits read so far. -/
  value : Nat
  /-- The number of bytes read so far. -/
  seen : Nat
  /-- The number of bytes that must still follow the next one. -/
  left : Nat
  /-- The least byte that may come next. -/
  low : Nat
  /-- The greatest byte that may come next. -/
  high : Nat

/-- The character that a byte other than an ASCII one starts, if it starts any. The ranges of the
second byte leave out overlong forms, surrogates and numbers above the last code point. -/
def Pending.start? (b : Nat) : Option Pending :=
  if 0xC2 ≤ b ∧ b ≤ 0xDF then some ⟨b % 32, 1, 0, 0x80, 0xBF⟩
  else if b = 0xE0 then some ⟨b % 16, 1, 1, 0xA0, 0xBF⟩
  else if b = 0xED then some ⟨b % 16, 1, 1, 0x80, 0x9F⟩
  else if 0xE1 ≤ b ∧ b ≤ 0xEF then some ⟨b % 16, 1, 1, 0x80, 0xBF⟩
  else if b = 0xF0 then some ⟨b % 8, 1, 2, 0x90, 0xBF⟩
  else if 0xF1 ≤ b ∧ b ≤ 0xF3 then some ⟨b % 8, 1, 2, 0x80, 0xBF⟩
  else if b = 0xF4 then some ⟨b % 8, 1, 2, 0x80, 0x8F⟩
  else none

/-- Decodes bytes from index `i` on. The character at hand began at `i`, or `p.seen` bytes before
it; `done` holds the characters before it, last first. -/
def decodeFrom (i : Nat) (p : Option Pending) (done : Text) : List UInt8 → Except Fault Text
  | [] =>
    match p with
    | none => .ok done.reverse
    | some p => .error (.incomplete (i - p.seen))
  | b :: bs =>
    match p with
    | none =>
      if b.toNat < 0x80 then decodeFrom (i + 1) none (Char.ofNat b.toNat :: done) bs
      else
        match Pending.start? b.toNat with
        | none => .error (.invalid i 1)
        | some p => decodeFrom (i + 1) (some p) done bs
    | some p =>
      if p.low ≤ b.toNat ∧ b.toNat ≤ p.high then
        let value := p.value * 64 + b.toNat % 64
        match p.left with
        | 0 => decodeFrom (i + 1) none (Char.ofNat value :: done) bs
        | left + 1 => decodeFrom (i + 1) (some ⟨value, p.seen + 1, left, 0x80, 0xBF⟩) done bs
      else .error (.invalid (i - p.seen) p.seen)

/-- The text that bytes stand for, or the first place where they are not UTF-8. -/
def decode (bytes : List UInt8) : Except Fault Text := decodeFrom 0 none [] bytes

def encode (t : Text) : List UInt8 := t.flatMap String.utf8EncodeChar

end Utf8
end SpriteConfig
