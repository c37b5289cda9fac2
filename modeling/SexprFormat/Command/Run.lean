import SexprFormat.Command.Batch
import SexprFormat.Command.Options
import SexprFormat.Command.Selection
import SexprFormat.FileTree

/-!
A run of the command: from its arguments, its input and the files around it to its exit code, its
output and the files that it leaves.
-/

namespace SexprFormat.Command

/-- What breaks a run off. -/
inductive Failure where
  /-- The input is not UTF-8. -/
  | input (error : Text.Utf8Error)
  | selection (error : SelectionError)
  /-- A width is asked for and not given. -/
  | noWidth
  deriving DecidableEq, Repr

def Failure.message : Failure → String
  | input e => e.message
  | selection e => e.message
  | noWidth => "'<' not supported between instances of 'list' and 'int'"

inductive Exit where
  | code (n : Nat)
  | failed (failure : Failure)
  deriving DecidableEq, Repr

structure Result where
  exit : Exit := .code 0
  stdout : List Char := []
  stderr : List Char := []
  writes : List (Path × List UInt8) := []
  deriving DecidableEq, Repr

def programVersion : String := "schemat 0.4.1"

def usage : String :=
  "usage: schemat [-h] [--check] [--ignore PATTERN] [--verbose] [--width WIDTH]\n" ++
  "               [--debug] [--version]\n" ++
  "               [paths ...]\n"

/-- What is told about the command on request. -/
def help : String :=
  usage ++
  "\n" ++
  "Format Scheme, Lisp and other S-expression source\n" ++
  "\n" ++
  "positional arguments:\n" ++
  "  paths                 Glob patterns of files to format or check (default:\n" ++
  "                        stdin)\n" ++
  "\n" ++
  "options:\n" ++
  "  -h, --help            show this help message and exit\n" ++
  "  --check, -c           Check that files are formatted instead of rewriting\n" ++
  "                        them\n" ++
  "  --ignore PATTERN, -i PATTERN\n" ++
  "                        Skip paths matching this pattern (repeatable)\n" ++
  "  --verbose, -v         Report every file, not only failures\n" ++
  "  --width WIDTH, -w WIDTH\n" ++
  "                        Maximum line width (default: 80)\n" ++
  "  --debug               Enable debug logging\n" ++
  "  --version             show program's version number and exit\n" ++
  "\n" ++
  "Command-line front end for schemat.\n" ++
  "\n" ++
  "Formats S-expression files in place, checks that they are formatted, or\n" ++
  "formats standard input to standard output.\n" ++
  "\n" ++
  "Usage:\n" ++
  "    schemat < main.scm                  # Format stdin to stdout\n" ++
  "    schemat 'src/**/*.scm'              # Format files in place\n" ++
  "    schemat --check 'src/**/*.scm'      # Report unformatted files\n" ++
  "    schemat -i 'vendor/*' '**/*.scm'    # Skip paths matching a pattern\n" ++
  "\n" ++
  "Exit Codes:\n" ++
  "    0 - Every input formatted (or already formatted with --check)\n" ++
  "    1 - Some input failed to parse, could not be read, or is unformatted\n"

/-- What is told when a command line ends a run early. -/
def Options.Stop.result : Options.Stop → Result
  | help => { stdout := Command.help.toList }
  | version => { stdout := (programVersion ++ "\n").toList }
  | noWidth => { exit := .failed .noWidth }
  | error e =>
    { exit := .code 2, stderr := (usage ++ s!"schemat: error: {e.message}\n").toList }

/-- The name of the input in messages. -/
def inputName : String := "<stdin>"

/-- Formats the input. -/
def formatInput (o : Options) (input : List UInt8) : Result :=
  match readText input with
  | .error e => { exit := .failed (.input e) }
  | .ok source =>
    let log := if o.debug then Log.parsed inputName source else []
    match format (some inputName) o.width source with
    | .error e => { exit := .code 1, stderr := log ++ e.message ++ ['\n'] }
    | .ok text => { stdout := text, stderr := log }

def refuseToCheckInput : Result :=
  { exit := .code 1, stderr := "cannot check stdin\n".toList }

namespace Log

/-- What is logged about the files that are ignored. -/
def ignored (s : Selection) : List Char :=
  s.ignored.flatMap fun path =>
    debugLine "schemat.cli" ("ignoring ".toList ++ path.toString.toList)

/-- What is logged about the choice of files. -/
def selection (patterns : List String) (s : Selection) : List Char :=
  ignored s ++ debugLine "schemat.cli"
    s!"resolved {s.selected.length} file(s) from {patterns.length} pattern(s)".toList

end Log

/-- Formats or checks the selected files, given with their contents. -/
def runFiles (o : Options) (s : Selection) (files : List (Path × Option (List UInt8))) : Result :=
  let task := if o.check then .check else .format
  let batch := Batch.ofFiles task o.width files
  let log :=
    if o.debug then
      let worked := files.zip batch.outcomes
      Log.selection o.paths s ++ worked.flatMap fun ((path, bytes?), (_, outcome)) =>
        Log.file task path bytes? outcome
    else []
  { exit := .code batch.exitCode, stderr := log ++ batch.report o.verbose, writes := batch.writes }

/-- What is told when the choice of files is given up. -/
def giveUp (o : Options) (s : Selection) (e : SelectionError) : Result :=
  { exit := .failed (.selection e), stderr := if o.debug then Log.ignored s else [] }

/-- A whole run in a tree of files. -/
def run (arguments : List String) (input : List UInt8) (tree : FileTree) : Result :=
  match Options.parse arguments with
  | .error stop => stop.result
  | .ok o =>
    if o.paths.isEmpty then
      if o.check then refuseToCheckInput else formatInput o input
    else
      let selection := Id.run (Selection.ofPatterns tree.view tree.depth o.paths o.ignore)
      match selection.error? with
      | some e => giveUp o selection e
      | none => runFiles o selection (selection.selected.map fun path => (path, tree.read? path))

/-- The files that a run leaves. -/
def Result.apply (r : Result) (tree : FileTree) : FileTree :=
  r.writes.foldl (fun t (path, contents) => t.write path contents) tree

end SexprFormat.Command
