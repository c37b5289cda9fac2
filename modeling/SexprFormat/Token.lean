import SexprFormat.Delimiter
import SexprFormat.Location
import SexprFormat.QuoteMark
import SexprFormat.Text.Quoted

/-!
Tokens: the pieces a source text is cut into, each with the place it was found at.
-/

namespace SexprFormat

/-- A line that tells how to run or read the file, in front of the program. -/
inductive DirectiveKind where
  | shebang
  | lang
  deriving DecidableEq, Repr, Inhabited

namespace Token

inductive Kind where
  | eof
  | whitespace
  /-- White space with an empty line in it. -/
  | blankLine
  | opening
  | closing
  | atom
  | string
  | quoteMark
  | lineComment
  | blockComment
  | directive
  deriving DecidableEq, Repr, Inhabited

def Kind.name : Kind → String
  | eof => "EOF"
  | whitespace => "WHITESPACE"
  | blankLine => "BLANK_LINE"
  | opening => "OPEN"
  | closing => "CLOSE"
  | atom => "ATOM"
  | string => "STRING"
  | quoteMark => "QUOTE_PREFIX"
  | lineComment => "LINE_COMMENT"
  | blockComment => "BLOCK_COMMENT"
  | directive => "DIRECTIVE"

/-- Which bracket, mark or directive a token is. -/
inductive Tag where
  | bracket (shape : Delimiter)
  | mark (mark : QuoteMark)
  | directive (kind : DirectiveKind)
  deriving DecidableEq, Repr, Inhabited

end Token

structure Token where
  kind : Token.Kind
  tag? : Option Token.Tag := none
  text : List Char
  loc : Location
  /-- False when the input ended inside of the token. -/
  closed : Bool := true
  deriving DecidableEq, Repr, Inhabited

namespace Token

/-- The line on which the token ends. -/
def endLine (t : Token) : Int :=
  t.loc.endLine?.getD t.loc.line

/-- The pair that a bracket belongs to. -/
def shape? (t : Token) : Option Delimiter :=
  match t.tag? with
  | some (.bracket shape) => some shape
  | _ => none

/-- A text cut to a length that suits a message. -/
def shorten (s : List Char) : List Char :=
  if 20 < s.length then s.take 17 ++ ['.', '.', '.'] else s

/-- A token in messages. -/
def describe (t : Token) : String :=
  let text := String.ofList (Text.quoted (shorten t.text))
  s!"Token({t.kind.name}, {text}, {t.loc.line}:{t.loc.column})"

end Token

end SexprFormat
