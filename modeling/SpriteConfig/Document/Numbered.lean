import SpriteConfig.Document.Edit
/-!
# Documents with numbered subjects

The counter that subjects get their numbers from is a word of 32 bits. Reading a text and performing
an edit take no notice of that; a program reads and edits with the operations here, which stop with a
fault where the counter would run over. The counter never goes back, so it is enough to look at it
after each of them. A program that does not look at it has a counter that starts again at zero.
-/
namespace SpriteConfig
namespace Document

/-- The document, unless it has registered more subjects than there are numbers for. -/
def numbered (d : Document) : Checked Document :=
  if d.registry.IsNumbered then .ok d else .error .tooManySubjects

def read (source : Text) (options : Options := {}) : Checked Document :=
  (parse source options).numbered

/-- Performs an edit, unless there is no number for the subject that it registers. -/
def apply (d : Document) (e : Edit) : Checked (Document × Bool) := do
  let (d, answer) ← d.perform e
  let d ← d.numbered
  return (d, answer)

def applyAll (d : Document) (es : List Edit) : Checked Document :=
  es.foldlM (fun d e => Prod.fst <$> d.apply e) d

/-- Performs an edit with a counter that starts again at zero where it runs over. An edit registers
one subject at most. -/
def applyWrapping (d : Document) (e : Edit) : Checked (Document × Bool) := do
  let (d, answer) ← d.perform e
  let nextId := d.registry.nextId % (maxWord32 + 1)
  return ({ d with registry := { d.registry with nextId } }, answer)

def applyAllWrapping (d : Document) (es : List Edit) : Checked Document :=
  es.foldlM (fun d e => Prod.fst <$> d.applyWrapping e) d

def run (source : Text) (options : Options) (es : List Edit) : Checked Document := do
  (← read source options).applyAll es

end Document
end SpriteConfig
