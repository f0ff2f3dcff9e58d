import SpriteConfig.Limits
import SpriteConfig.Patch
/-!
# Buffers

A buffer is the text that a user edits, with a caret and a history of edits. Every edit is one step
of the history: undoing it brings back the text and the caret from before, and an edit after an
undo forgets the steps that were undone.
-/
namespace SpriteConfig

structure Step where
  start : Nat
  deleted : Text
  inserted : Text
  caretBefore : Nat
  deriving DecidableEq, Repr

/-- A text with a caret and a history. -/
structure Buffer where
  text : Text
  lineBreak : LineBreak
  /-- The steps to undo, the latest first. -/
  past : List Step := []
  /-- The steps to do again, the latest undone first. -/
  future : List Step := []
  /-- How often the text has changed. A program counts that in a word of 64 bits, or stops. -/
  version : Nat := 0
  caret : Nat := 0
  deriving DecidableEq, Repr

namespace Buffer

def maxUndo : Nat := 1000

/-- A buffer for a text. Its line breaks are told from the first one, and stay. -/
def ofText (text : Text) : Buffer := { text, lineBreak := LineBreak.detect text }

def length (b : Buffer) : Nat := b.text.length

def setLineBreak (b : Buffer) (e : LineBreak) : Buffer := { b with lineBreak := e }

/-- The buffer, unless it has changed more often than its version can count. -/
def counted (b : Buffer) : Checked Buffer :=
  if b.version ≤ maxWord64 then .ok b else .error .tooManyVersions

def setCaret (b : Buffer) (offset : Nat) : Buffer := { b with caret := min offset b.length }

/-- Where a place goes when the characters from `start` to `stop` give way to `inserted` others. A
place at the start stays, one at the end stays at the end, and one inside goes to the end. -/
def offsetAfter (offset start stop inserted : Nat) : Nat :=
  if offset ≤ start then offset
  else if stop ≤ offset then offset - (stop - start) + inserted
  else start + inserted

def splice (b : Buffer) (start stop : Nat) (new : Text) : Except OutOfRange Buffer :=
  if start ≤ stop ∧ stop ≤ b.length then
    .ok
      { b with
        text := Text.splice start stop new b.text
        caret := offsetAfter b.caret start stop new.length
        version := b.version + 1 }
  else .error ⟨start, stop, b.length⟩

/-- Replaces the characters from `start` to `stop` as one step. The oldest step is forgotten when
there are too many. -/
def replace (b : Buffer) (start stop : Nat) (new : Text) : Except OutOfRange Buffer := do
  let changed ← b.splice start stop new
  let step : Step := ⟨start, (b.text.take stop).drop start, new, b.caret⟩
  return { changed with past := (step :: b.past).take maxUndo, future := [] }

def replay (b : Buffer) (start stop : Nat) (new : Text) : Checked Buffer :=
  (b.splice start stop new).mapError fun e => .badSplice e.start e.stop

/-- Takes back the last step, and answers whether there was one. -/
def undo (b : Buffer) : Checked (Buffer × Bool) :=
  match b.past with
  | [] => .ok (b, false)
  | step :: past => do
    let changed ← b.replay step.start (step.start + step.inserted.length) step.deleted
    return ({ changed with
      caret := min step.caretBefore changed.length
      past
      future := step :: b.future }, true)

/-- Does the last undone step again, and answers whether there was one. -/
def redo (b : Buffer) : Checked (Buffer × Bool) :=
  match b.future with
  | [] => .ok (b, false)
  | step :: future => do
    let changed ← b.replay step.start (step.start + step.deleted.length) step.inserted
    return ({ changed with past := step :: b.past, future }, true)

def applyPatch (b : Buffer) (p : Patch) : Except OutOfRange Buffer := do
  let (start, stop) ← p.extent b.text b.lineBreak
  b.replace start stop p.newText

end Buffer
end SpriteConfig
