/-!
The marks that turn the datum after them into a quoted form.
-/

namespace SexprFormat

inductive QuoteMark where
  | quote
  | quasiquote
  | unquote
  | unquoteSplicing
  | syntaxQuote
  | syntaxQuasiquote
  | syntaxUnquote
  | syntaxUnquoteSplicing
  | datumComment
  /-- A `#` with letters or digits after it, such as the `#u8` in front of a byte vector. -/
  | hash
  deriving DecidableEq, Repr, Inhabited

namespace QuoteMark

/-- The usual spelling of a mark. A hash mark has others too. -/
def text : QuoteMark → List Char
  | quote => ['\'']
  | quasiquote => ['`']
  | unquote => [',']
  | unquoteSplicing => [',', '@']
  | syntaxQuote => ['#', '\'']
  | syntaxQuasiquote => ['#', '`']
  | syntaxUnquote => ['#', ',']
  | syntaxUnquoteSplicing => ['#', ',', '@']
  | datumComment => ['#', ';']
  | hash => ['#']

/-- The marks that need a datum right after them, longer spellings first. -/
def plain : List QuoteMark :=
  [unquoteSplicing, quote, quasiquote, unquote]

/-- The same marks with a `#` before them. -/
def hashed : List QuoteMark :=
  [syntaxUnquoteSplicing, syntaxQuote, syntaxQuasiquote, syntaxUnquote]

end QuoteMark

end SexprFormat
