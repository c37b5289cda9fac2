import SexprFormat.Path
import SexprFormat.Path.Glob
import SexprFormat.Text.Quoted

/-!
Which files a run works on: those that the patterns of the command line stand for, each once, less
the ones that are to be ignored.
-/

namespace SexprFormat.Command

/-- The texts of a path that a pattern for ignored files is held against: its own and its
directories' names and full paths. -/
def ignoreCandidates (path : Path) : List String :=
  let directories := path.parents.filter (· ≠ Path.ofString ".")
  (path :: directories).flatMap fun p => [p.name, p.toString]

/-- Whether a path, its name or a directory of it matches a pattern. -/
def isIgnoredBy (path : Path) (pattern : String) : Bool :=
  (ignoreCandidates path).any (Pattern.matches pattern)

def isIgnored (patterns : List String) (path : Path) : Bool :=
  patterns.any (isIgnoredBy path)

/-- Why the choice of files is given up. -/
inductive SelectionError where
  | pathTooLong (path : Path)
  | nulInPath
  /-- A file was to be held against a pattern, and none is given. -/
  | noPattern
  deriving DecidableEq, Repr

def SelectionError.message : SelectionError → String
  | pathTooLong path =>
    "[Errno 36] File name too long: " ++ String.ofList (Text.quoted path.toString.toList)
  | nulInPath => "embedded null byte"
  | noPattern => "expected str, bytes or os.PathLike object, not list"

/-- Whether a path is ignored by the first of some patterns that it matches. One of the patterns
may not be given; then there is an answer only from those before it. -/
def verdict (path : Path) : List (Option String) → Except SelectionError Bool
  | [] => .ok false
  | none :: _ => .error .noPattern
  | some pattern :: rest => if isIgnoredBy path pattern then .ok true else verdict path rest

/-- The files met so far, latest first, and whether each is selected. -/
structure Selection where
  verdicts : List (Path × Bool) := []
  /-- Nothing is met after an error. -/
  error? : Option SelectionError := none
  deriving DecidableEq, Repr, Inhabited

namespace Selection

def selected (s : Selection) : List Path :=
  (s.verdicts.reverse.filter (·.2)).map (·.1)

def ignored (s : Selection) : List Path :=
  (s.verdicts.reverse.filter (!·.2)).map (·.1)

def stop (s : Selection) (error : SelectionError) : Selection :=
  { s with error? := some error }

/-- Takes note of a file. -/
def meet (ignore : List (Option String)) (s : Selection) (path : Path) : Selection :=
  match verdict path ignore with
  | .ok isIgnored => { s with verdicts := (path, !isIgnored) :: s.verdicts }
  | .error e => s.stop e

section

variable {m : Type → Type} [Monad m]

/-- Takes note of what a path leads to, if that is a file and was not met before. -/
def addPath (view : FileView m) (ignore : List (Option String)) (s : Selection) (path : Path) :
    m Selection := do
  if s.error?.isSome || (s.verdicts.lookup path).isSome then pure s
  else match ← view.lookup path.toString with
    | .found .file => pure (s.meet ignore path)
    | .found .directory | .missing => pure s
    | .tooLong => pure (s.stop (.pathTooLong path))

/-- Takes note of the files that a pattern stands for, in the order of their texts. -/
def addPattern (view : FileView m) (depth : Nat) (ignore : List (Option String)) (s : Selection)
    (pattern : String) : m Selection := do
  if s.error?.isSome then pure s
  else if Glob.startsAtNul pattern then pure (s.stop .nulInPath)
  else
    let found ← Glob.expand view depth pattern
    ((found.mergeSort (· ≤ ·)).map Path.ofString).foldlM (addPath view ignore) s

/-- What the patterns select, one after another. -/
def ofPatterns (view : FileView m) (depth : Nat) (patterns : List String)
    (ignore : List (Option String)) : m Selection :=
  patterns.foldlM (addPattern view depth ignore) {}

end

end Selection

end SexprFormat.Command
