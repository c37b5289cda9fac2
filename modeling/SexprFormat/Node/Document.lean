import SexprFormat.Doc
import SexprFormat.Node

/-!
The layout document of a tree. Lists are groups with their children indented; what stands between
two children depends on these two alone.
-/

namespace SexprFormat

/-- There is no document for a node. -/
inductive BuildError where
  | unknownNode (kind : String)
  deriving DecidableEq, Repr

def BuildError.message : BuildError → String
  | unknownNode kind => s!"cannot build a document for {kind}"

namespace Node

/-- What stands before a child, given the one before it, in a list or in a program. -/
def separator (inProgram : Bool) (previous? : Option Node) (child : Node) : Doc :=
  match previous?, child with
  | none, comment _ _ .leading _ => if inProgram then .empty else .hardLine
  | none, _ => .empty
  | some previous, _ =>
    if previous.endsLine || previous.isBlank then .empty
    else match child with
      | comment _ _ .trailing _ => .space
      | comment _ _ .leading _ | blank _ => .hardLine
      | _ => if inProgram then .hardLine else .line

mutual

def document : Node → Except BuildError Doc
  | atom _ s | string _ s => .ok (.text s)
  | comment _ s _ _ | directive _ _ s => .ok (.append [.text s, .hardLine])
  | blank _ => .ok .hardLine
  | quoted _ _ lead inner => do
    let d ← document inner
    pure (.append [.text lead, d])
  | list _ shape children => do
    let body ← sequence false none children
    let inner := Doc.grouped (.indent Doc.indentWidth (.append body))
    pure (.append [.text [shape.opener], inner, .text [shape.closer]])
  | program _ children => do
    let body ← sequence true none children
    let finished := (children.getLast?.map endsLine).getD true
    pure (if finished then .append body else .append [.append body, .hardLine])
  | unknown _ kind => .error (.unknownNode kind)

/-- The documents of children with what stands between them. -/
def sequence (inProgram : Bool) (previous? : Option Node) :
    List Node → Except BuildError (List Doc)
  | [] => .ok []
  | child :: rest => do
    let d ← document child
    let ds ← sequence inProgram (some child) rest
    pure (separator inProgram previous? child :: d :: ds)

end

end Node

end SexprFormat
