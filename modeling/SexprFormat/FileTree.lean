import SexprFormat.Path
import SexprFormat.Path.Lookup

/-!
The files and directories below the current directory, as a value.
-/

namespace SexprFormat

structure FileTree where
  /-- The contents of each file, by the components of its path. -/
  files : List (List String × List UInt8) := []
  /-- Directories beside those that hold a file. -/
  directories : List (List String) := []
  deriving DecidableEq, Repr, Inhabited

namespace FileTree

/-- All that the tree knows a path for. -/
def paths (t : FileTree) : List (List String) :=
  t.files.map (·.1) ++ t.directories

def isFile (t : FileTree) (path : List String) : Bool :=
  (t.files.lookup path).isSome

def isDirectory (t : FileTree) (path : List String) : Bool :=
  path.isEmpty || t.directories.any path.isPrefixOf ||
    t.files.any fun (file, _) => file ≠ path && path.isPrefixOf file

def entryAt? (t : FileTree) (path : List String) : Option Entry :=
  if t.isFile path then some .file else if t.isDirectory path then some .directory else none

/-- Where a path leads. -/
inductive Place where
  /-- The components of a path in the tree, perhaps of one that leads to nothing. -/
  | inside (path : List String)
  /-- A directory above the tree, of which nothing more is known. -/
  | above
  | nowhere
  | tooLong
  deriving DecidableEq, Repr

/-- Follows one component. Nothing is found outside of the tree. -/
def step (t : FileTree) (place : Place) (component : String) : Place :=
  let isHere := component.isEmpty || component = "."
  match place with
  | .inside path =>
    if t.entryAt? path ≠ some .directory then .nowhere
    else if isHere then .inside path
    else if component = ".." then if path.isEmpty then .above else .inside path.dropLast
    else if isLongName component then .tooLong
    else .inside (path ++ [component])
  | .above =>
    if isHere || component = ".." then .above
    else if isLongName component then .tooLong
    else .nowhere
  | .nowhere => .nowhere
  | .tooLong => .tooLong

/-- Follows the components of a path. -/
def follow (t : FileTree) (path : String) : Place :=
  if path.isEmpty then .nowhere
  else if isLongPath path then .tooLong
  else
    let start : Place := if path.toList.head? = some '/' then .above else .inside []
    (Path.components path).foldl t.step start

def lookup (t : FileTree) (path : String) : Lookup :=
  match t.follow path with
  | .inside found => .ofOption (t.entryAt? found)
  | .above => .found .directory
  | .nowhere => .missing
  | .tooLong => .tooLong

/-- The components of the file or directory that a path leads to. -/
def resolve (t : FileTree) (path : String) : Option (List String) :=
  match t.follow path with
  | .inside found => if (t.entryAt? found).isSome then some found else none
  | .above | .nowhere | .tooLong => none

/-- The names in a directory, each once, with what they are. -/
def entries (t : FileTree) (path : String) : List (String × Entry) :=
  match if path.isEmpty then some [] else t.resolve path with
  | none => []
  | some found =>
    let here := t.paths.filter fun p => found.length < p.length && found.isPrefixOf p
    let names := (here.filterMap (·[found.length]?)).eraseDups
    names.filterMap fun name => (t.entryAt? (found ++ [name])).map (name, ·)

def view (t : FileTree) : FileView Id where
  lookup := t.lookup
  entries := t.entries

/-- A depth that no path of the tree exceeds. -/
def depth (t : FileTree) : Nat :=
  t.paths.foldl (fun n p => max n p.length) 0 + 1

/-- The contents of the file that a path leads to. -/
def read? (t : FileTree) (path : Path) : Option (List UInt8) :=
  (t.resolve path.toString).bind fun found => t.files.lookup found

/-- The tree with new contents for the file that a path leads to. -/
def write (t : FileTree) (path : Path) (contents : List UInt8) : FileTree :=
  match t.resolve path.toString with
  | none => t
  | some found =>
    { t with
      files := t.files.map fun (file, old) => (file, if file = found then contents else old) }

end FileTree

end SexprFormat
