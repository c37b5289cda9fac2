/-!
Paths in a normal form: no empty and no `.` components, and no slash at the end. `..` components
stay.
-/

namespace SexprFormat

structure Path where
  /-- Empty for a relative path; two slashes in front stay two, any other number means one. -/
  root : String := ""
  parts : List String := []
  deriving DecidableEq, Repr, Inhabited

namespace Path

def rootOf (s : String) : String :=
  match (s.toList.takeWhile (· = '/')).length with
  | 0 => ""
  | 2 => "//"
  | _ => "/"

/-- What stands between the slashes of a path, empty components among it. -/
def components (s : String) : List String :=
  (s.toList.splitOn '/').map String.ofList

def ofString (s : String) : Path where
  root := rootOf s
  parts := (components s).filter fun part => part ≠ "" && part ≠ "."

def toString (p : Path) : String :=
  match p.root ++ "/".intercalate p.parts with
  | "" => "."
  | s => s

/-- The last component; empty if there is none. -/
def name (p : Path) : String :=
  p.parts.getLast?.getD ""

/-- The directories that the path leads through, the nearest first. -/
def parents (p : Path) : List Path :=
  (List.range p.parts.length).reverse.map fun n => { p with parts := p.parts.take n }

end Path

end SexprFormat
