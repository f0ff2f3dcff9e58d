/-!
# Waiting for a quiet moment

Edits in quick succession are pushed together: once no edit happened for a while.
-/
namespace SpriteConfig

/-- When edits are due. Times are milliseconds of any one clock. -/
structure Debounce where
  delay : Nat
  /-- The time of the latest edit, if one is waiting. -/
  since : Option Nat := none
  deriving DecidableEq, Repr

namespace Debounce

def noteEdit (d : Debounce) (now : Nat) : Debounce := { d with since := some now }

def isWaiting (d : Debounce) : Bool := d.since.isSome

/-- Whether edits are waiting and have waited long enough. A time before the latest edit counts as
the time of that edit. -/
def isDue (d : Debounce) (now : Nat) : Bool := d.since.any fun since => d.delay ≤ now - since

def clear (d : Debounce) : Debounce := { d with since := none }

/-- Whether edits are due, and if so, they wait no longer. -/
def takeIfDue (d : Debounce) (now : Nat) : Debounce × Bool :=
  if d.isDue now then (d.clear, true) else (d, false)

end Debounce
end SpriteConfig
