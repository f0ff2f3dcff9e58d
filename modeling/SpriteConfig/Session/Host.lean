import SpriteConfig.Buffer
/-!
# Hosts

A host holds the text that a session keeps in step with a document. The session reads the text and
hands back patches; a host may refuse a patch, and then stays as it is.
-/
namespace SpriteConfig

/-- What a session needs from the holder of a text. -/
class Host (β : Type) where
  text : β → Text
  lineBreak : β → LineBreak := fun host => LineBreak.detect (text host)
  applyPatch : β → Patch → Except OutOfRange β

instance : Host Buffer where
  text := Buffer.text
  lineBreak := Buffer.lineBreak
  applyPatch := Buffer.applyPatch

/-- A host with a text and nothing else. It can be locked, and then refuses every patch. -/
structure PlainHost where
  text : Text
  isLocked : Bool := false
  deriving DecidableEq, Repr

instance : Host PlainHost where
  text := PlainHost.text
  applyPatch host p :=
    if host.isLocked then .error ⟨0, 0, 0⟩
    else (p.apply host.text (LineBreak.detect host.text)).map fun text => { host with text }

end SpriteConfig
