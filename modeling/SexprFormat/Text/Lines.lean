/-!
Lines of a text. A line feed is the only line end; carriage returns are brought to it by one of
two conventions.
-/

namespace SexprFormat.Text

/-- Writes every carriage return and line feed pair as a line feed. A lone carriage return stays. -/
def joinLineEnds : List Char → List Char
  | '\r' :: '\n' :: rest => '\n' :: joinLineEnds rest
  | c :: rest => c :: joinLineEnds rest
  | [] => []

/-- Writes every carriage return, paired with a line feed or not, as a line feed. -/
def unifyLineEnds : List Char → List Char
  | '\r' :: '\n' :: rest => '\n' :: unifyLineEnds rest
  | '\r' :: rest => '\n' :: unifyLineEnds rest
  | c :: rest => c :: unifyLineEnds rest
  | [] => []

/-- The characters after the last line feed. -/
def lastLine (s : List Char) : List Char :=
  (s.reverse.takeWhile (· ≠ '\n')).reverse

/-- The characters before the first line feed. -/
def firstLine (s : List Char) : List Char :=
  s.takeWhile (· ≠ '\n')

/-- How many characters an index stands for as the end of a cut: a negative index counts from the
end of the text, and an index outside of it means the nearer end. -/
def cutLength (s : List Char) (index : Int) : Nat :=
  if index < 0 then (s.length + index).toNat else min index.toNat s.length

/-- The line around an index. -/
def lineAt (s : List Char) (index : Int) : List Char :=
  let n := cutLength s index
  lastLine (s.take n) ++ firstLine (s.drop n)

end SexprFormat.Text
