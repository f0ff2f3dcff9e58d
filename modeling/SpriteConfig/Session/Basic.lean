import SpriteConfig.Document.Numbered
import SpriteConfig.Session.Debounce
import SpriteConfig.Session.Host
/-!
# Sessions

A session keeps a document and the text of a host in step. When the text has changed, the document
is read anew, unless it is what the text says already. When the document has changed, the
difference goes to the host as one patch, at once or after a quiet moment.
-/
namespace SpriteConfig

/-- A document in step with a text. -/
structure Session where
  document : Document
  /-- The text that the document was last known to stand for, with line feeds between its lines. -/
  synced : Option Text
  options : Options
  debounce : Debounce
  deriving DecidableEq, Repr

structure Committed (β : Type) where
  session : Session
  host : β
  /-- The patch that was applied, nothing if none was needed, or why the host refused it. -/
  outcome : Except OutOfRange (Option Patch)

namespace Session

def empty (options : Options) : Session :=
  { document := Document.parse [] options, synced := none, options
    debounce := { delay := options.commitDelay } }

def isWaiting (s : Session) : Bool := s.debounce.isWaiting

/-- The session, unless its document has registered more subjects than there are numbers for. -/
def numbered (s : Session) : Checked Session := do
  let document ← s.document.numbered
  return { s with document }

/-- Reads the text of a host anew, unless the document stands for it already, and answers whether
it was read. Edits that were waiting are dropped then. -/
def reread (s : Session) (text : Text) : Session × Bool :=
  let normalized := (LineBreak.detect text).normalize text
  if s.synced = some normalized then (s, false)
  else
    ({ s with
      document := Document.parse normalized s.options
      synced := some normalized
      debounce := s.debounce.clear }, true)

/-- Reads the bytes of a text anew. Bytes that are no text change nothing. -/
def rereadBytes (s : Session) (bytes : List UInt8) : Session × Bool :=
  match Utf8.decode bytes with
  | .ok text => s.reread text
  | .error _ => (s, false)

def ofHost [Host β] (host : β) (options : Options) : Session :=
  ((empty options).reread (Host.text host)).1

/-- Pushes the document to the host as one patch of its text. If the host refuses the patch, the
session stays as it is. -/
def commit [Host β] (s : Session) (host : β) : Checked (Committed β) := do
  let proposed := s.document.source
  let settled := { s with synced := some proposed, debounce := s.debounce.clear }
  match ← Patch.computeWith (Host.text host) (Host.lineBreak host) proposed with
  | none => return ⟨settled, host, .ok none⟩
  | some patch =>
    match Host.applyPatch host patch with
    | .ok host => return ⟨settled, host, .ok (some patch)⟩
    | .error e => return ⟨s, host, .error e⟩

def edit [Host β] (s : Session) (host : β) (change : Document → Checked (Document × α)) :
    Checked (Committed β × α) := do
  let (document, answer) ← change s.document
  let committed ← { s with document }.commit host
  return (committed, answer)

def editLater (s : Session) (now : Nat) (change : Document → Checked (Document × α)) :
    Checked (Session × α) := do
  let (document, answer) ← change s.document
  return ({ s with document, debounce := s.debounce.noteEdit now }, answer)

/-- Commits staged changes if they are due. They wait no longer even if the host refuses them. -/
def commitDue [Host β] (s : Session) (now : Nat) (host : β) : Checked (Committed β) :=
  match s.debounce.takeIfDue now with
  | (_, false) => .ok ⟨s, host, .ok none⟩
  | (debounce, true) => { s with debounce }.commit host

end Session
end SpriteConfig
