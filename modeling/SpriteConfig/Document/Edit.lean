import SpriteConfig.Document.Lookup
/-!
# Editing documents

Every edit inserts, changes or deletes lines, and tells the registry about it in the same step.
An edit answers whether it found what it was meant for; for a deletion or a change of layout, this
is whether it changed anything.
-/
namespace SpriteConfig
namespace Document

/-- The indentation of a new line of the subject at a handle: the one of its first definition, or
else its own and one unit more. -/
def indentBelow (d : Document) : Handle → Checked Text
  | .root => .ok []
  | .line n => do
    let (_, block) ← d.block (.line n)
    match block.find? Line.isDefinition with
    | some child => return child.indent
    | none =>
      let l ← d.line n
      let unit := if l.indent.contains '\t' then d.options.tabIndentUnit else d.options.indentUnit
      return l.indent ++ unit

def insertLine (d : Document) (h : Handle) (l : Line) : Checked Document :=
  let index := (h.line?.map (· + 1)).getD 0
  if index ≤ d.lines.length then
    .ok
      { d with
        lines := d.lines.take index ++ l :: d.lines.drop index
        registry := d.registry.shiftAfter h 1 }
  else .error (.noLine index)

/-- Inserts a property as the first line of the subject at a handle. -/
def addProperty (d : Document) (h : Handle) (name : Text) (values : List Text) :
    Checked Document := do
  let indent ← d.indentBelow h
  d.insertLine h (Line.make indent name values)

def changeLine (d : Document) (n : Nat) (values : List Text) : Checked Document := do
  let l ← d.line n
  let l ← l.setParameters values
  return { d with lines := d.lines.set n l }

def deleteLines (d : Document) (start stop : Nat) : Checked Document :=
  if start ≤ stop ∧ stop ≤ d.lines.length then
    .ok
      { d with
        lines := d.lines.take start ++ d.lines.drop stop
        registry := d.registry.deleteLines start stop }
  else .error (.noLines start stop)

def writeSubject (d : Document) (s : SubjectId) (values : List Text) :
    Checked (Document × Bool) :=
  match d.registry.line? s with
  | none => .ok (d, false)
  | some n => do
    let d ← d.changeLine n values
    return (d, true)

/-- Sets a direct property: changes its line, or inserts it as the first one of the subject. -/
def writeProperty (d : Document) (s : SubjectId) (name : Text) (values : List Text) :
    Checked (Document × Bool) :=
  match d.registry.handle? s with
  | none => .ok (d, false)
  | some h => do
    match ← d.findDirect? h name with
    | some (_, n) =>
      let d ← d.changeLine n values
      return (d, true)
    | none =>
      let d ← d.addProperty h name values
      return (d, true)

def deleteProperty (d : Document) (s : SubjectId) (name : Text) : Checked (Document × Bool) := do
  match ← d.directLine? s name with
  | some (_, n) =>
    let d ← d.deleteLines n (n + 1)
    return (d, true)
  | none => return (d, false)

/-- The end of a deletion up to before line `stop`, which takes a blank line there along. -/
def withBlankLine (d : Document) (stop : Nat) : Nat :=
  if d.lines[stop]?.any Line.isBlank then stop + 1 else stop

/-- Deletes the block of a subject, and with it a blank line right after the block. The sheet
before the first line keeps its block. -/
def deleteBlock (d : Document) (s : SubjectId) : Checked (Document × Bool) :=
  match d.registry.handle? s with
  | none | some .root => .ok (d, false)
  | some (.line n) => do
    let (start, block) ← d.block (.line n)
    let stop := d.withBlankLine (start + block.length)
    if start = stop then return (d, false)
    else
      let cleared ← d.deleteLines start stop
      return (cleared, true)

def deleteSubject (d : Document) (s : SubjectId) : Checked (Document × Bool) :=
  match d.registry.line? s with
  | none => .ok (d, false)
  | some n => do
    let (d, _) ← d.deleteBlock s
    let d ← d.deleteLines n (n + 1)
    return (d, true)

/-- Inserts a plain `sprite` line as the first one of an input, and registers its sprite. -/
def insertSprite (d : Document) (input : SubjectId) (h : Handle) (values : List Text) :
    Checked Document := do
  let inserted ← d.addProperty h Layout.sprite.token values
  let n := (h.line?.map (· + 1)).getD 0
  return { inserted with registry := inserted.registry.add .sprite (.line n) (some input) }

/-- Writes a layout with its default parameters as a direct property of an input. The plain layout
is written as a sprite, if the input has none; a layout without parameters is written only if the
input lists sprites. -/
def writeLayout (d : Document) (input : SubjectId) (h : Handle) (new : Layout) :
    Checked (Document × Bool) :=
  let isListing := !(d.registry.sprites input).isEmpty
  let values := new.initialParameters d.options
  if new = .sprite then
    if isListing then .ok (d, false)
    else do
      let inserted ← d.insertSprite input h values
      return (inserted, true)
  else if values.isEmpty && !isListing then .ok (d, false)
  else do
    match ← d.findDirect? h new.token with
    | some (l, n) =>
      let changed ← d.changeLine n values
      let new ← changed.line n
      return (changed, l.text ≠ new.text)
    | none =>
      let inserted ← d.addProperty h new.token values
      return (inserted, true)

/-- Writes a layout in place of the current one. The property of the current layout is deleted; the
sprites of an input that lists more than one stay. -/
def replaceLayout (d : Document) (input : SubjectId) (h : Handle) (current new : Layout) :
    Checked (Document × Bool) := do
  let (written, isWritten) ← d.writeLayout input h new
  if current ≠ .sprite ∨ (d.registry.sprites input).length = 1 then
    let (removed, isRemoved) ← written.deleteProperty input current.token
    return (removed, isWritten || isRemoved)
  else return (written, isWritten)

/-- Gives an input another layout. Subjects that are no inputs have none. -/
def setLayout (d : Document) (input : SubjectId) (new : Layout) : Checked (Document × Bool) :=
  match d.registry.find? input with
  | none => .ok (d, false)
  | some s =>
    if s.kind = .input then do
      let current ← d.layout input
      if current = new then return (d, false)
      else d.replaceLayout input s.handle current new
    else .ok (d, false)

def renameSprite (d : Document) (sprite : SubjectId) (name : Text) : Checked (Document × Bool) :=
  d.writeSubject sprite [name]

end Document

inductive Edit
  | writeProperty (subject : SubjectId) (name : Text) (values : List Text)
  | deleteProperty (subject : SubjectId) (name : Text)
  | deleteBlock (subject : SubjectId)
  | deleteSubject (subject : SubjectId)
  | writeSubject (subject : SubjectId) (values : List Text)
  | renameSprite (sprite : SubjectId) (name : Text)
  | setLayout (input : SubjectId) (new : Layout)
  deriving DecidableEq, Repr

namespace Document

/-- Performs an edit, and answers whether it applied. -/
def perform (d : Document) : Edit → Checked (Document × Bool)
  | .writeProperty s name values => d.writeProperty s name values
  | .deleteProperty s name => d.deleteProperty s name
  | .deleteBlock s => d.deleteBlock s
  | .deleteSubject s => d.deleteSubject s
  | .writeSubject s values => d.writeSubject s values
  | .renameSprite s name => d.renameSprite s name
  | .setLayout s new => d.setLayout s new

end Document
end SpriteConfig
