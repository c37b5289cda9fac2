/-!
The three pairs of brackets that enclose a list.
-/

namespace SexprFormat

inductive Delimiter where
  | paren
  | bracket
  | brace
  deriving DecidableEq, Repr, Inhabited

namespace Delimiter

def opener : Delimiter → Char
  | paren => '('
  | bracket => '['
  | brace => '\x7b'

def closer : Delimiter → Char
  | paren => ')'
  | bracket => ']'
  | brace => '\x7d'

def ofOpener? (c : Char) : Option Delimiter :=
  [paren, bracket, brace].find? (·.opener = c)

def ofCloser? (c : Char) : Option Delimiter :=
  [paren, bracket, brace].find? (·.closer = c)

/-- The pair that a bracket belongs to, whichever of the two it is. -/
def ofChar? (c : Char) : Option Delimiter :=
  (ofOpener? c).or (ofCloser? c)

/-- The pair of the one bracket that makes up a text. -/
def ofText? : List Char → Option Delimiter
  | [c] => ofChar? c
  | _ => none

end Delimiter

end SexprFormat
