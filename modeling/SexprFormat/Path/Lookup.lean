/-!
Looking paths up: what a path leads to, and how long names and paths may be.
-/

namespace SexprFormat

inductive Entry where
  | file
  | directory
  deriving DecidableEq, Repr

/-- What comes of looking a path up. -/
inductive Lookup where
  | found (entry : Entry)
  | missing
  /-- The path is too long, or it comes to a name that is too long. -/
  | tooLong
  deriving DecidableEq, Repr

namespace Lookup

def isFound : Lookup → Bool
  | found _ => true
  | missing | tooLong => false

def ofOption : Option Entry → Lookup
  | some entry => found entry
  | none => missing

end Lookup

/-- A name has at most 255 bytes. -/
def isLongName (name : String) : Bool :=
  255 < name.utf8ByteSize

/-- A path has at most 4095 bytes. -/
def isLongPath (path : String) : Bool :=
  4095 < path.utf8ByteSize

/-- How to look at files. The empty path is the current directory for `entries` and leads nowhere
for `lookup`. -/
structure FileView (m : Type → Type) where
  lookup : String → m Lookup
  /-- The names in a directory with what they are, none if the path leads to no directory. -/
  entries : String → m (List (String × Entry))

end SexprFormat
