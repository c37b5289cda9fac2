import SexprFormat.Text.Numeral

/-!
Where something stands in a text. Lines and columns count from one, offsets from zero; all count
characters.
-/

namespace SexprFormat

structure Location where
  line : Int
  column : Int
  offset : Int := 0
  endOffset : Int := 0
  endLine? : Option Int := none
  endColumn? : Option Int := none
  file? : Option String := none
  deriving DecidableEq, Repr, Inhabited

namespace Location

/-- A position that was never set is zero; the fallback stands in for it. -/
def orElse (position fallback : Int) : Int :=
  if position = 0 then fallback else position

/-- From the start of one location to the end of another. An end that was never set is taken from
the start of the last one. -/
def spanTo (first last : Location) : Location :=
  { first with
    endOffset := orElse last.endOffset last.offset
    endLine? := some (orElse (last.endLine?.getD 0) last.line)
    endColumn? := some (orElse (last.endColumn?.getD 0) last.column) }

/-- The name of a file with a colon after it, and nothing for a missing or empty name. -/
def filePart : Option String → List Char
  | none => []
  | some file => if file.isEmpty then [] else file.toList ++ [':']

/-- A location in messages: file, line and column. -/
def text (loc : Location) : List Char :=
  filePart loc.file? ++ Text.ofInt loc.line ++ ':' :: Text.ofInt loc.column

end Location

end SexprFormat
