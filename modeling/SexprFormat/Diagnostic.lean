import SexprFormat.ParseError
import SexprFormat.Text.Blank
import SexprFormat.Text.Lines

/-!
A parse error as it is shown: the place, what is wrong, and the line with a caret below the
character that is to blame.
-/

namespace SexprFormat

structure Diagnostic where
  fault : Fault
  detail : String
  line? : Option Int := none
  column? : Option Int := none
  file? : Option String := none
  sourceLine? : Option (List Char) := none
  deriving DecidableEq, Repr

namespace Diagnostic

/-- The first name unless it is missing or empty, else the second. -/
def firstFile (a b : Option String) : Option String :=
  match a with
  | some file => if file.isEmpty then b else a
  | none => b

/-- What to show for an error in the tokens of a source text. -/
def ofParseError (file? : Option String) (source? : Option (List Char)) (e : ParseError) :
    Diagnostic where
  fault := e.fault
  detail := e.detail
  line? := some e.token.loc.line
  column? := some e.token.loc.column
  file? := firstFile file? e.token.loc.file?
  sourceLine? := source?.map (Text.lineAt · e.token.loc.offset)

/-- The parts of the place that are known, each with a colon after it. A column is told only with
its line. -/
def placeParts (d : Diagnostic) : List Char :=
  let number (n : Int) : List Char := Text.ofInt n ++ [':']
  let lines := match d.line?, d.column? with
    | some line, some column => number line ++ number column
    | some line, none => number line
    | none, _ => []
  Location.filePart d.file? ++ lines

/-- The place, with a space in place of the colons at its end. -/
def place (d : Diagnostic) : List Char :=
  match d.placeParts with
  | [] => []
  | parts => (parts.reverse.dropWhile (· = ':')).reverse ++ [' ']

/-- What stands in front of the caret: a tab for each tab of the line and a space for any other
character. -/
def margin (line : List Char) (column : Int) : List Char :=
  (line.take (Text.cutLength line (column - 1))).map fun c => if c = '\t' then '\t' else ' '

/-- The source line and the line with the caret. -/
def excerpt (line : List Char) (column : Int) : List Char :=
  "\n    ".toList ++ Text.trimEnd line ++ "\n    ".toList ++ margin line column ++ ['^']

def message (d : Diagnostic) : List Char :=
  let quote := match d.sourceLine?, d.column? with
    | some line, some column => excerpt line column
    | _, _ => []
  d.place ++ d.detail.toList ++ quote

end Diagnostic

end SexprFormat
