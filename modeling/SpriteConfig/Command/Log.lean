import SpriteConfig.Text.Basic
/-!
# Logs

What is reported may hold any character, since it names files. Characters that a terminal could take
for a command are shown by their numbers instead.
-/
namespace SpriteConfig
namespace Text

def hexByte (n : Nat) : Text := [Nat.digitChar (n / 16), Nat.digitChar (n % 16)]

/-- A character as a report shows it. By their numbers it shows the bell, a step back, a new page,
the start of an escape sequence and a deletion, and the control characters after those of ASCII. -/
def showChar (c : Char) : Text :=
  if ['\x07', '\x08', '\x0c', '\x1b', '\x7f'].contains c then '\\' :: 'x' :: hexByte c.toNat
  else if 0x80 ≤ c.toNat ∧ c.toNat ≤ 0x9F then
    '\\' :: 'u' :: '{' :: hexByte c.toNat ++ ['}']
  else [c]

def shown (t : Text) : Text := t.flatMap showChar

end Text
end SpriteConfig
