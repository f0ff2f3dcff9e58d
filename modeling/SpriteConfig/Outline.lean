import SpriteConfig.Line
/-!
# Outlines

The outline of a document is the tree of its structural lines: a line belongs below the nearest
structural line before it that is indented less. It is read off the text of the lines, whatever
their levels are.
-/
namespace SpriteConfig

inductive SymbolKind
  /-- A path, a glob, an output or a description. -/
  | function
  /-- An input. -/
  | field
  /-- A sheet. -/
  | variable
  /-- A group. -/
  | package
  deriving DecidableEq, Repr

def SymbolKind.ofDefinition? (name : Text) : Option SymbolKind :=
  if ["path", "glob", "output", "description"].any (·.toList = name) then some .function
  else if name = "input".toList then some .field
  else if name = "sheet".toList then some .variable
  else if name = "group".toList then some .package
  else none

structure Heading where
  name : Text
  /-- What follows it on the line. -/
  detail : Text
  kind : SymbolKind
  line : Nat
  /-- The number of spaces and tabs before the definition. -/
  level : Nat
  deriving DecidableEq, Repr

def isNameChar (c : Char) : Bool := c.isLower || c = '-'

def Heading.ofText? (n : Nat) (text : Text) : Option Heading :=
  if text.contains '\n' then none
  else
    let body := text.dropWhile Text.isIndent
    let name := body.takeWhile isNameChar
    (SymbolKind.ofDefinition? name).map fun kind =>
      { name, kind, line := n
        detail := (body.dropWhile isNameChar).dropWhile Text.isIndent
        level := (text.takeWhile Text.isIndent).length }

/-- The structural lines in order, the first of the lines having number `n`. -/
def headingsFrom (n : Nat) : List Line → List Heading
  | [] => []
  | l :: ls => (Heading.ofText? n l.text).toList ++ headingsFrom (n + 1) ls

/-- A structural line with those that belong below it. -/
inductive Outline
  | node (heading : Heading) (children : List Outline)

namespace Outline

def heading : Outline → Heading
  | node h _ => h

def children : Outline → List Outline
  | node _ cs => cs

/-- Puts a heading before trees whose lines follow it: the trees at the start that are indented
deeper become its children. -/
def grow (h : Heading) (trees : List Outline) : List Outline :=
  let isDeeper (t : Outline) : Bool := h.level < t.heading.level
  node h (trees.takeWhile isDeeper) :: trees.dropWhile isDeeper

def ofHeadings (hs : List Heading) : List Outline := hs.foldr grow []

def ofLines (lines : List Line) : List Outline := ofHeadings (headingsFrom 0 lines)

mutual
def preorder : Outline → List Heading
  | node h cs => h :: preorderAll cs
def preorderAll : List Outline → List Heading
  | [] => []
  | t :: ts => preorder t ++ preorderAll ts
end

theorem preorderAll_append (ts us : List Outline) :
    preorderAll (ts ++ us) = preorderAll ts ++ preorderAll us := by
  induction ts with
  | nil => simp [preorderAll]
  | cons t ts ih => simp [preorderAll, ih]

theorem preorderAll_grow (h : Heading) (trees : List Outline) :
    preorderAll (grow h trees) = h :: preorderAll trees := by
  simp only [grow, preorderAll, preorder, List.cons_append, ← preorderAll_append,
    List.takeWhile_append_dropWhile]

mutual
/-- The lines of a tree with their depth and the number of trees right below them. -/
def entries (depth : Nat) : Outline → List (Nat × Heading × Nat)
  | node h cs => (depth, h, cs.length) :: entriesAll (depth + 1) cs
def entriesAll (depth : Nat) : List Outline → List (Nat × Heading × Nat)
  | [] => []
  | t :: ts => entries depth t ++ entriesAll depth ts
end

end Outline
end SpriteConfig
