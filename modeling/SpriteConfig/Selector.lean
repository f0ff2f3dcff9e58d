import SpriteConfig.Document.Basic
/-!
# Selectors

A selector names a subject by its place among the others: `sheet:N`, `input:N`, or `sprite:I.J` for
a sprite of an input, all counted from zero in the order of their lines. `root` is the first sheet.
-/
namespace SpriteConfig

/-- The place of a subject among the others. -/
inductive Selector
  | sheet (n : Nat)
  | input (n : Nat)
  | sprite (input sprite : Nat)
  deriving DecidableEq, Repr

inductive SelectorError
  | malformed (text : Text)
  | notFound (selector : Selector)
  deriving DecidableEq, Repr

namespace Selector

def display : Selector → Text
  | sheet n => "sheet:".toList ++ Text.ofNat n
  | input n => "input:".toList ++ Text.ofNat n
  | sprite i j => "sprite:".toList ++ Text.ofNat i ++ '.' :: Text.ofNat j

/-- Reads an index of 64 bits: digits, after a plus sign or none. -/
def readIndex? (t : Text) : Option Nat :=
  let digits :=
    match t with
    | '+' :: t => t
    | t => t
  if digits.isEmpty || !digits.all Char.isDigit then none
  else
    let n := Nat.ofDigitChars 10 digits 0
    if n ≤ maxWord64 then some n else none

def parse? (t : Text) : Option Selector :=
  if t = "root".toList then some (sheet 0)
  else do
    let (kind, index) ← Text.splitOnce? ':' t
    if kind = "sheet".toList then return sheet (← readIndex? index)
    else if kind = "input".toList then return input (← readIndex? index)
    else if kind = "sprite".toList then
      let (i, j) ← Text.splitOnce? '.' index
      return sprite (← readIndex? i) (← readIndex? j)
    else none

def parse (t : Text) : Except SelectorError Selector :=
  match parse? t with
  | some s => .ok s
  | none => .error (.malformed t)

def find? (r : Registry) : Selector → Option SubjectId
  | sheet n => r.sheets[n]?
  | input n => r.inputs[n]?
  | sprite i j => (r.inputs[i]?).bind fun input => (r.sprites input)[j]?

/-- The subject of a document that a selector names, or that there is none. -/
def resolve (s : Selector) (d : Document) : Except SelectorError SubjectId :=
  match s.find? d.registry with
  | some id => .ok id
  | none => .error (.notFound s)

/-- The sprites of the `i`-th input with their selectors, from the `j`-th on. -/
def spriteRows (i j : Nat) : List SubjectId → List (Selector × SubjectId)
  | [] => []
  | s :: ss => (sprite i j, s) :: spriteRows i (j + 1) ss

/-- The inputs with their selectors, each followed by its sprites, from the `i`-th on. -/
def inputRows (r : Registry) (i : Nat) : List SubjectId → List (Selector × SubjectId)
  | [] => []
  | s :: ss => (input i, s) :: spriteRows i 0 (r.sprites s) ++ inputRows r (i + 1) ss

def sheetRows (n : Nat) : List SubjectId → List (Selector × SubjectId)
  | [] => []
  | s :: ss => (sheet n, s) :: sheetRows (n + 1) ss

/-- The subjects in the order of a listing, with their selectors: first the sheets, then the inputs,
each with its sprites. -/
def rows (r : Registry) : List (Selector × SubjectId) :=
  sheetRows 0 r.sheets ++ inputRows r 0 r.inputs

end Selector

def SelectorError.message : SelectorError → Text
  | malformed t =>
    "invalid subject selector '".toList ++ t ++
      "' (expected sheet:N, input:N or sprite:I.J)".toList
  | notFound s => "no subject matches '".toList ++ s.display ++ ['\'']

end SpriteConfig
