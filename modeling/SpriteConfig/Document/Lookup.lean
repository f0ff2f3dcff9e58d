import SpriteConfig.Document.Basic
/-!
# Looking up properties

A property of a subject is a definition line. It is *direct* if it stands in the block of the
subject as one of its outermost lines, and *common* if it stands before the subject in a scope
around it. The *effective* property is the direct one, or else the common one.
-/
namespace SpriteConfig

/-- The direct lines of a block, with their numbers: the definitions that are nested no deeper than
any definition of the block before them. -/
def directLines : Option Nat → List (Line × Nat) → List (Line × Nat)
  | _, [] => []
  | least, (l, i) :: rest =>
    if l.isDefinition && least.all (l.level ≤ ·) then (l, i) :: directLines (some l.level) rest
    else directLines least rest

/-- The common lines around a subject, with their numbers, out of the lines before it from the
nearest on: the definitions that are nested less deep than `below`. Beside a line that was found,
lines of the same level count as well. -/
def commonLines : Nat → List (Line × Nat) → List (Line × Nat)
  | _, [] => []
  | below, (l, i) :: rest =>
    if l.isDefinition && l.level < below then (l, i) :: commonLines (l.level + 1) rest
    else commonLines below rest

/-- The first of some lines with a given definition, with its number. -/
def findDefinition? (name : Text) (ls : List (Line × Nat)) : Option (Line × Nat) :=
  ls.find? fun (l, _) => l.definition = name

namespace Document

def directAt (d : Document) (h : Handle) : Checked (List (Line × Nat)) := do
  let (start, block) ← d.block h
  return directLines none (block.zipIdx start)

def commonAt (d : Document) : Handle → Checked (List (Line × Nat))
  | .root => .ok []
  | .line n => do
    let l ← d.line n
    return commonLines l.level (d.lines.take n).zipIdx.reverse

def findDirect? (d : Document) (h : Handle) (name : Text) : Checked (Option (Line × Nat)) :=
  return findDefinition? name (← d.directAt h)

def findCommon? (d : Document) (h : Handle) (name : Text) : Checked (Option (Line × Nat)) :=
  return findDefinition? name (← d.commonAt h)

/-- The line of a direct property of a subject. An unknown subject has no properties. -/
def directLine? (d : Document) (s : SubjectId) (name : Text) :
    Checked (Option (Line × Nat)) :=
  match d.registry.handle? s with
  | none => .ok none
  | some h => d.findDirect? h name

def commonLine? (d : Document) (s : SubjectId) (name : Text) :
    Checked (Option (Line × Nat)) :=
  match d.registry.handle? s with
  | none => .ok none
  | some h => d.findCommon? h name

def hasDirect (d : Document) (s : SubjectId) (name : Text) : Checked Bool :=
  return (← d.directLine? s name).isSome

def hasCommon (d : Document) (s : SubjectId) (name : Text) : Checked Bool :=
  return (← d.commonLine? s name).isSome

/-- Whether a property of a subject is set directly or by a scope around it. -/
def hasEffective (d : Document) (s : SubjectId) (name : Text) : Checked Bool := do
  if ← d.hasDirect s name then return true
  else d.hasCommon s name

/-- The parameters of the line that was found, if one was. -/
def foundParameters : Option (Line × Nat) → Checked (Option (List Text))
  | none => .ok none
  | some (l, _) => l.parameters.map some

def direct? (d : Document) (s : SubjectId) (name : Text) :
    Checked (Option (List Text)) := do
  foundParameters (← d.directLine? s name)

def common? (d : Document) (s : SubjectId) (name : Text) :
    Checked (Option (List Text)) := do
  foundParameters (← d.commonLine? s name)

def effective? (d : Document) (s : SubjectId) (name : Text) :
    Checked (Option (List Text)) := do
  match ← d.direct? s name with
  | some values => return some values
  | none => d.common? s name

def ownLine? (d : Document) (s : SubjectId) : Option Line :=
  (d.registry.line? s).bind (d.lines[·]?)

def ownParameters? (d : Document) (s : SubjectId) : Checked (Option (List Text)) :=
  match d.ownLine? s with
  | none => .ok none
  | some l => l.parameters.map some

def ownParameter? (d : Document) (s : SubjectId) (index : Nat) : Checked (Option Text) :=
  return (← d.ownParameters? s).bind (·[index]?)

def valueColumn? (d : Document) (s : SubjectId) : Option Nat :=
  (d.ownLine? s).map fun l => l.level + Text.byteLength l.definition + 1

/-- The layout of an input: the most important one that is a direct property, or else the most
important one that is a common property. An input without any is laid out plainly. -/
def layout (d : Document) (s : SubjectId) : Checked Layout :=
  match d.registry.handle? s with
  | none => .ok .sprite
  | some h => do
    let direct ← d.directAt h
    match Layout.properties.find? fun l => (findDefinition? l.token direct).isSome with
    | some l => return l
    | none =>
      let common ← d.commonAt h
      return (Layout.properties.find? fun l => (findDefinition? l.token common).isSome).getD .sprite

/-- The id of a sprite: the first parameter of its line, unless that is empty, or else the first
parameter of its effective property `id`, or else `sprite`. -/
def spriteName (d : Document) (s : SubjectId) : Checked Text := do
  match ← d.ownParameter? s 0 with
  | some (c :: t) => return c :: t
  | _ =>
    let values ← d.effective? s "id".toList
    return (values.bind List.head?).getD "sprite".toList

end Document
end SpriteConfig
