import SpriteConfig.Limits
import SpriteConfig.Line
import SpriteConfig.Subject.Basic
/-!
# The registry of subjects

The registry keeps the subjects of a document in the order of their lines. It is built once from
the lines; after that every insertion and every deletion of lines is reported to it, so that each
subject stays on its own line.
-/
namespace SpriteConfig

structure Registry where
  /-- The subjects in the order of their lines. -/
  subjects : List Subject := []
  /-- The number of the next subject: a counter that never goes back. -/
  nextId : SubjectId := 0
  deriving DecidableEq, Repr

namespace Registry

def isSheetLine (l : Line) : Bool := l.level = 0 && l.definition = SubjectKind.sheet.token

/-- The subjects of lines from number `n` on, below the latest sheet and the latest input, with
numbers from `id` on. A sprite line before any input is no subject. -/
def subjectsFrom (n : Nat) (id : SubjectId) (sheet input : Option SubjectId) :
    List Line → List Subject
  | [] => []
  | l :: ls =>
    if isSheetLine l then
      ⟨id, .sheet, .line n, none⟩ :: subjectsFrom (n + 1) (id + 1) (some id) input ls
    else if l.definition = SubjectKind.input.token then
      ⟨id, .input, .line n, sheet⟩ :: subjectsFrom (n + 1) (id + 1) sheet (some id) ls
    else if l.definition = SubjectKind.sprite.token ∧ input.isSome then
      ⟨id, .sprite, .line n, input⟩ :: subjectsFrom (n + 1) (id + 1) sheet input ls
    else subjectsFrom (n + 1) id sheet input ls

/-- The subjects of lines. Without a sheet among them, the first subject is a sheet of its own
before all lines. -/
def ofLines (lines : List Line) : Registry :=
  let subjects :=
    if lines.any isSheetLine then subjectsFrom 0 0 none none lines
    else ⟨0, .sheet, .root, none⟩ :: subjectsFrom 0 1 (some 0) none lines
  { subjects, nextId := subjects.length }

def find? (r : Registry) (id : SubjectId) : Option Subject := r.subjects.find? fun s => s.id = id

def handle? (r : Registry) (id : SubjectId) : Option Handle := (r.find? id).map Subject.handle

def line? (r : Registry) (id : SubjectId) : Option Nat := (r.handle? id).bind Handle.line?

def kind? (r : Registry) (id : SubjectId) : Option SubjectKind := (r.find? id).map Subject.kind

def parent? (r : Registry) (id : SubjectId) : Option SubjectId := (r.find? id).bind Subject.parent

def ofKind (r : Registry) (kind : SubjectKind) : List SubjectId :=
  (r.subjects.filter fun s => s.kind = kind).map Subject.id

def sheets (r : Registry) : List SubjectId := r.ofKind .sheet

def inputs (r : Registry) : List SubjectId := r.ofKind .input

def sprites (r : Registry) (input : SubjectId) : List SubjectId :=
  (r.subjects.filter fun s => s.kind = .sprite && s.parent = some input).map Subject.id

/-- Puts a subject before the first one that stands after it. -/
def insertOrdered (s : Subject) : List Subject → List Subject
  | [] => [s]
  | a :: as => if s.handle.before a.handle then s :: a :: as else a :: insertOrdered s as

/-- The registry with a new subject, whose number is the old `nextId`. The line of the subject is
already accounted for. -/
def add (r : Registry) (kind : SubjectKind) (handle : Handle) (parent : Option SubjectId) :
    Registry :=
  { subjects := insertOrdered ⟨r.nextId, kind, handle, parent⟩ r.subjects
    nextId := r.nextId + 1 }

/-- Whether the counter has not run over: `nextId` is a word of 32 bits. -/
def IsNumbered (r : Registry) : Prop := r.nextId ≤ maxWord32

instance (r : Registry) : Decidable r.IsNumbered := inferInstanceAs (Decidable (_ ≤ _))

/-- Adds a subject as `add` does, unless the counter would run over. -/
def register (r : Registry) (kind : SubjectKind) (handle : Handle) (parent : Option SubjectId) :
    Checked Registry :=
  if r.nextId < maxWord32 then .ok (r.add kind handle parent) else .error .tooManySubjects

def shiftAfter (r : Registry) (after : Handle) (delta : Int) : Registry :=
  { r with subjects := r.subjects.map fun s => { s with handle := s.handle.moved after delta } }

/-- Moves all subjects as `shiftAfter` does, but none beyond the greatest number of 64 bits. -/
def shiftAfterCapped (r : Registry) (after : Handle) (delta : Int) : Registry :=
  { r with
    subjects := (r.shiftAfter after delta).subjects.map fun s =>
      match s.handle with
      | .root => s
      | .line n => { s with handle := .line (min n maxWord64) } }

def standsIn (start stop : Nat) (s : Subject) : Bool :=
  match s.handle with
  | .root => false
  | .line n => start ≤ n && n < stop

/-- A subject after the lines before `stop` and the subjects `gone` on them are deleted: its line
moves by `move` if it stood after them, and it belongs to nothing if what it belonged to is gone. -/
def moveAfter (stop : Nat) (gone : List SubjectId) (move : Nat → Nat) (s : Subject) : Subject :=
  { s with
    handle :=
      match s.handle with
      | .root => .root
      | .line n => if stop ≤ n then .line (move n) else .line n
    parent := s.parent.filter fun p => !gone.contains p }

/-- The registry without the subjects from line `start` to before `stop`, the lines after them
moved by `move`. -/
def withoutLines (r : Registry) (start stop : Nat) (move : Nat → Nat) : Registry :=
  let gone := (r.subjects.filter (standsIn start stop)).map Subject.id
  { r with
    subjects := (r.subjects.filter fun s => !gone.contains s.id).map (moveAfter stop gone move) }

/-- Accounts for the deletion of the lines from `start` to before `stop`. -/
def deleteLines (r : Registry) (start stop : Nat) : Registry :=
  if start < stop then r.withoutLines start stop (· - (stop - start)) else r

/-- Accounts for a deletion as `deleteLines` does, with a count of lines in signed numbers of 64
bits. There a count from `signBit64` on stands for an insertion of what it lacks to `maxWord64 + 1`,
and `signBit64` itself has no opposite to move a subject by. -/
def deleteLinesSigned (r : Registry) (start stop : Nat) : Checked Registry :=
  let count := stop - start
  if count < signBit64 then .ok (r.deleteLines start stop)
  else if count = signBit64 ∧ r.subjects.any (fun s => s.handle.line?.any (stop ≤ ·)) then
    .error (.tooManyLines count)
  else .ok (r.withoutLines start stop fun n => min (n + (maxWord64 + 1 - count)) maxWord64)

end Registry
end SpriteConfig
