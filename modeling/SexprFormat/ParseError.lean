import SexprFormat.Token

/-!
What can be wrong with a list of tokens, which token is to blame, and how it is said.
-/

namespace SexprFormat

/-- The rules that a list of tokens can break. -/
inductive Fault where
  | mismatchedDelimiter
  | unexpectedClose
  | unclosedList
  | danglingMark
  | unterminatedString
  | unterminatedComment
  deriving DecidableEq, Repr

def Fault.text : Fault → String
  | mismatchedDelimiter => "mismatched delimiter"
  | unexpectedClose => "unexpected closing delimiter"
  | unclosedList => "unclosed list"
  | danglingMark => "dangling quote prefix"
  | unterminatedString => "unterminated string"
  | unterminatedComment => "unterminated block comment"

inductive ParseError where
  /-- The bracket that closes a list does not fit the one that opened it. -/
  | mismatched (opener closer : Token)
  | unexpectedClose (closer : Token)
  | unclosed (opener : Token)
  /-- No datum follows a quote mark in its list. -/
  | dangling (mark : Token)
  | unterminatedString (literal : Token)
  | unterminatedComment (comment : Token)
  deriving DecidableEq, Repr

namespace ParseError

def fault : ParseError → Fault
  | mismatched _ _ => .mismatchedDelimiter
  | unexpectedClose _ => .unexpectedClose
  | unclosed _ => .unclosedList
  | dangling _ => .danglingMark
  | unterminatedString _ => .unterminatedString
  | unterminatedComment _ => .unterminatedComment

/-- The token that a message points at. -/
def token : ParseError → Token
  | mismatched _ closer => closer
  | unexpectedClose closer => closer
  | unclosed opener => opener
  | dangling mark => mark
  | unterminatedString literal => literal
  | unterminatedComment comment => comment

def quotedText (s : List Char) : String :=
  String.ofList (Text.quoted s)

/-- The bracket that opened a list, as messages show it. -/
def openerText (opener : Token) : String :=
  quotedText (opener.shape?.map (·.opener)).toList

/-- The bracket that a list has to end with, as messages show it. -/
def closerText (opener : Token) : String :=
  quotedText (opener.shape?.map (·.closer)).toList

/-- The message without the place. -/
def detail : ParseError → String
  | mismatched opener closer =>
    let place := s!"{opener.loc.line}:{opener.loc.column}"
    s!"expected {closerText opener} to close {openerText opener} at {place}, " ++
      s!"found {quotedText closer.text}"
  | unexpectedClose closer => s!"unexpected closing delimiter {quotedText closer.text}"
  | unclosed opener =>
    s!"unclosed {openerText opener}: expected {closerText opener} before end of input"
  | dangling mark => s!"prefix {quotedText mark.text} is not followed by a datum"
  | unterminatedString _ => s!"{Fault.unterminatedString.text} reaches end of input"
  | unterminatedComment _ => s!"{Fault.unterminatedComment.text} reaches end of input"

end ParseError

end SexprFormat
