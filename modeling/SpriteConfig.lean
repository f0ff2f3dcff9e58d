import SpriteConfig.Main
import SpriteConfig.Proofs.Echo
import SpriteConfig.Proofs.Rebuild
import SpriteConfig.Proofs.Tagged
import SpriteConfig.Proofs.Unedited
import SpriteConfig.Proofs.Exact
import SpriteConfig.Proofs.Synced
import SpriteConfig.Proofs.Safety
import SpriteConfig.Proofs.Visible
import SpriteConfig.Proofs.Frame
import SpriteConfig.Proofs.Overwrite
import SpriteConfig.Proofs.Staged
import SpriteConfig.Proofs.Laminar
import SpriteConfig.Proofs.Restored
import SpriteConfig.Proofs.Beside
import SpriteConfig.Proofs.Commute
import SpriteConfig.Proofs.Unindented
import SpriteConfig.Proofs.Cleared
import SpriteConfig.Proofs.Relayout
import SpriteConfig.Proofs.Truthful
import SpriteConfig.Proofs.Rewritten
import SpriteConfig.Proofs.Outline
import SpriteConfig.Proofs.Remark
import SpriteConfig.Proofs.OneLine
import SpriteConfig.Proofs.Caret
import SpriteConfig.Proofs.Applied
import SpriteConfig.Proofs.InputLines
import SpriteConfig.Proofs.Inherited
import SpriteConfig.Proofs.Listing
import SpriteConfig.Proofs.Journal
import SpriteConfig.Proofs.Offset
import SpriteConfig.Proofs.Comment
import SpriteConfig.Proofs.Replacement
import SpriteConfig.Proofs.Quoting
import SpriteConfig.Proofs.BlankLines
