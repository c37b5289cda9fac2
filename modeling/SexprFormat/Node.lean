import SexprFormat.Token

/-!
The tree of a source text. Comments, directives and blank lines are nodes like any other, so the
tree holds all that is to be printed.
-/

namespace SexprFormat

/-- Whether a comment stands behind something on its line, or on a line of its own. -/
inductive Attachment where
  | trailing
  | leading
  deriving DecidableEq, Repr

inductive Node where
  | atom (loc : Location) (text : List Char)
  | string (loc : Location) (text : List Char)
  | comment (loc : Location) (text : List Char) (attachment : Attachment) (block : Bool)
  | directive (loc : Location) (tag? : Option Token.Tag) (text : List Char)
  | quoted (loc : Location) (tag? : Option Token.Tag) (lead : List Char) (inner : Node)
  | list (loc : Location) (shape : Delimiter) (children : List Node)
  /-- A whole source text. -/
  | program (loc : Location) (children : List Node)
  /-- An empty line. -/
  | blank (loc : Location)
  /-- A node of a kind that is not part of the language, known by its name alone. It may have no
  place. -/
  | unknown (loc? : Option Location) (kind : String)
  deriving Repr, Inhabited

namespace Node

def loc? : Node → Option Location
  | atom loc _ | string loc _ | comment loc _ _ _ | directive loc _ _ | quoted loc _ _ _
  | list loc _ _ | program loc _ | blank loc => some loc
  | unknown loc? _ => loc?

/-- The place of a node; the start of the source for one that has none. -/
def loc (node : Node) : Location :=
  node.loc?.getD { line := 1, column := 1 }

def isBlank : Node → Bool
  | blank _ => true
  | _ => false

/-- Comments and directives end their line. -/
def endsLine : Node → Bool
  | comment _ _ _ _ | directive _ _ _ => true
  | _ => false

end Node

end SexprFormat
