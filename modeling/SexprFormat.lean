import SexprFormat.Command.Log
import SexprFormat.Command.Options
import SexprFormat.Command.Run
import SexprFormat.Command.Selection
import SexprFormat.Doc.Print
import SexprFormat.FileTree
import SexprFormat.Main
import SexprFormat.Node.Edit
import SexprFormat.Node.Visitor
import SexprFormat.Proofs.Form
import SexprFormat.Settings
import SexprFormat.Text.Builder
import SexprFormat.Text.Utf8
import SexprFormat.Proofs.Grammar
import SexprFormat.Proofs.Cell
import SexprFormat.Proofs.Document
import SexprFormat.Proofs.Extent
import SexprFormat.Proofs.Scan
import SexprFormat.Proofs.Visible
import SexprFormat.Proofs.Print
import SexprFormat.Proofs.Word
import SexprFormat.Proofs.Rescan
import SexprFormat.Proofs.Legible
import SexprFormat.Proofs.Reread
import SexprFormat.Proofs.Source
import SexprFormat.Proofs.Spelling
import SexprFormat.Proofs.Preserve
import SexprFormat.Proofs.Faults
import SexprFormat.Proofs.Stable
import SexprFormat.Proofs.Idempotent
import SexprFormat.Proofs.Partition
import SexprFormat.Proofs.Signature
import SexprFormat.Proofs.Compose
import SexprFormat.Proofs.Fit
import SexprFormat.Proofs.Width
import SexprFormat.Proofs.Site
import SexprFormat.Proofs.Normal
import SexprFormat.Proofs.Remarks
import SexprFormat.Proofs.Depth
import SexprFormat.Proofs.Shape
import SexprFormat.Proofs.Wider
import SexprFormat.Proofs.Promise
import SexprFormat.Proofs.Blame
import SexprFormat.Proofs.Caret
import SexprFormat.Proofs.FileTree
import SexprFormat.Proofs.Files
import SexprFormat.Proofs.Flags
import SexprFormat.Proofs.Interchange
import SexprFormat.Proofs.Outcome
import SexprFormat.Proofs.Session
import SexprFormat.Proofs.Glue
import SexprFormat.Proofs.Span
import SexprFormat.Proofs.Tree
import SexprFormat.Proofs.Offset
import SexprFormat.Proofs.Prune
import SexprFormat.Proofs.Literal
