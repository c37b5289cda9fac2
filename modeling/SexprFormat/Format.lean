import SexprFormat.Doc.Layout
import SexprFormat.Node.Document
import SexprFormat.Node.Parse

/-!
Formatting a source text: read it as a tree, and set the document of the tree in a given width.
Trees may nest to any depth; there is no bound on nested calls.
-/

namespace SexprFormat

inductive FormatError where
  | parse (diagnostic : Diagnostic)
  | build (error : BuildError)
  | render (error : RenderError)
  deriving DecidableEq, Repr

def FormatError.message : FormatError → List Char
  | parse diagnostic => diagnostic.message
  | build error => error.message.toList
  | render error => error.message.toList

/-- The text of a tree. -/
def Node.render (width : Int) (node : Node) : Except FormatError (List Char) := do
  let doc ← node.document.mapError .build
  (doc.render width).mapError .render

/-- The formatted text of a source. -/
def format (file? : Option String) (width : Int) (source : List Char) :
    Except FormatError (List Char) := do
  let tree ← (Node.parse file? source).mapError .parse
  tree.render width

/-- The formatted text, and whether it differs from the source. -/
def formatStatus (file? : Option String) (width : Int) (source : List Char) :
    Except FormatError (List Char × Bool) := do
  let text ← format file? width source
  pure (text, text ≠ source)

/-- Whether the source is formatted already. -/
def isFormatted (file? : Option String) (width : Int) (source : List Char) :
    Except FormatError Bool := do
  let (_, changed) ← formatStatus file? width source
  pure (!changed)

end SexprFormat
