import SexprFormat.Path
import SexprFormat.Path.Lookup
import SexprFormat.Path.Pattern

/-!
The paths that a pattern stands for. The components of a pattern are matched one after another
against the names in the directories found so far; `**` leads through any number of directories,
and through none of them, so that it also stands for the path in front of it.
Names that start with a dot are found only by a component that starts with one.
-/

namespace SexprFormat

namespace Glob

def isSpecial (c : Char) : Bool :=
  c = '*' || c = '?' || c = '['

def hasSpecial (s : String) : Bool :=
  s.toList.any isSpecial

def isHidden (name : String) : Bool :=
  name.toList.head? = some '.'

/-- A path that goes on from a directory. -/
def join (directory name : String) : String :=
  if directory.isEmpty || directory.toList.getLast? = some '/' then directory ++ name
  else directory ++ "/" ++ name

/-- The directory before the first special component, and the components from there on. Empty
components are dropped, but for one at the end. -/
def split (pattern : String) : String × List String :=
  let all := Path.components pattern
  let plain := all.takeWhile (!hasSpecial ·)
  let special := all.drop plain.length
  let front := (plain.map (· ++ "/")).foldl (· ++ ·) ""
  let base :=
    if front.all (· = '/') then front
    else String.ofList (front.toList.reverse.dropWhile (· = '/')).reverse
  let kept := special.dropLast.filter (!·.isEmpty)
  (base, kept ++ special.getLast?.toList)

/-- The directory that a pattern starts from has no name, for there is a NUL in it. -/
def startsAtNul (pattern : String) : Bool :=
  hasSpecial pattern && (split pattern).1.contains '\x00'

section

variable {m : Type → Type} [Monad m]

/-- The names in a directory, or only those of directories. -/
def namesIn (view : FileView m) (directory : String) (onlyDirectories : Bool) :
    m (List String) := do
  let entries ← view.entries directory
  let kept := if onlyDirectories then entries.filter (·.2 = .directory) else entries
  pure (kept.map (·.1))

/-- The paths below a directory, down to a given depth. -/
def below (view : FileView m) (onlyDirectories : Bool) : (depth : Nat) → String → m (List String)
  | 0, _ => pure []
  | depth + 1, directory => do
    let names ← namesIn view directory onlyDirectories
    let found ← (names.filter (!isHidden ·)).mapM fun name => do
      let deeper ← below view onlyDirectories depth (join directory name)
      pure (name :: deeper.map (join name))
    pure found.flatten

/-- The paths that one component of a pattern leads to from a directory. -/
def matchComponent (view : FileView m) (depth : Nat) (onlyDirectories : Bool) (component : String)
    (directory : String) : m (List String) := do
  if component = "**" then
    pure ("" :: (← below view onlyDirectories depth directory))
  else if hasSpecial component then
    let names ← namesIn view directory onlyDirectories
    pure (names.filter fun name =>
      (isHidden component || !isHidden name) && Pattern.matches component name)
  else if component.isEmpty then
    pure (if (← view.lookup directory) = .found .directory then [""] else [])
  else
    pure (if (← view.lookup (join directory component)).isFound then [component] else [])

/-- The paths that the components of a pattern lead to from some directories. -/
def matchComponents (view : FileView m) (depth : Nat) :
    List String → List String → m (List String)
  | [], found => pure found
  | component :: rest, directories => do
    let found ← directories.mapM fun directory => do
      let names ← matchComponent view depth (!rest.isEmpty) component directory
      pure (names.map (join directory))
    matchComponents view depth rest found.flatten

/-- The paths that a pattern stands for. One without special characters stands for itself, if it
leads to something. -/
def expand (view : FileView m) (depth : Nat) (pattern : String) : m (List String) := do
  if hasSpecial pattern then
    let (base, components) := split pattern
    matchComponents view depth components [base]
  else
    pure (if (← view.lookup pattern).isFound then [pattern] else [])

end

end Glob

end SexprFormat
