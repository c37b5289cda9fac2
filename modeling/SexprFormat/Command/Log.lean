/-!
The names under which messages are logged, and the lines that a log holds.
-/

namespace SexprFormat.Command

namespace Log

/-- The name above all others. -/
def root : String := "schemat"

/-- A name below the root; one that is the root or below it already stays. -/
def qualify (name : String) : String :=
  if name = root || (root ++ ".").isPrefixOf name then name else root ++ "." ++ name

/-- A message that helps to follow a run. -/
def debugLine (name : String) (message : List Char) : List Char :=
  s!"DEBUG {qualify name}: ".toList ++ message ++ ['\n']

end Log

end SexprFormat.Command
