import SexprFormat.Command.Log
import SexprFormat.Format
import SexprFormat.Path
import SexprFormat.Text.Utf8

/-!
Formatting or checking many files. What becomes of a file depends on its own contents alone; a
file that cannot be formatted is reported and left as it is.
-/

namespace SexprFormat.Command

inductive Task where
  | format
  | check
  deriving DecidableEq, Repr

/-- What is found about a file. -/
inductive Outcome where
  | failed (message : List Char)
  /-- It is formatted already. -/
  | kept
  /-- It is not formatted yet; this is its formatted text. -/
  | changed (text : List Char)
  deriving DecidableEq, Repr

/-- The text of a file: UTF-8, with every line end written as a line feed. -/
def readText (bytes : List UInt8) : Except Text.Utf8Error (List Char) :=
  (Text.decodeUtf8 bytes).map Text.unifyLineEnds

/-- What is found about a file with the given contents. -/
def judge (width : Int) (path : Path) (bytes : List UInt8) : Outcome :=
  match readText bytes with
  | .error e => .failed e.message.toList
  | .ok source =>
    match formatStatus (some path.toString) width source with
    | .error e => .failed e.message
    | .ok (text, changed) => if changed then .changed text else .kept

/-- What is found about a file, which may be gone. -/
def judge? (width : Int) (path : Path) : Option (List UInt8) → Outcome
  | some bytes => judge width path bytes
  | none =>
    let name := Text.quoted path.toString.toList
    .failed ("[Errno 2] No such file or directory: ".toList ++ name)

namespace Outcome

/-- Whether it makes a run fail. -/
def fails (task : Task) : Outcome → Bool
  | failed _ => true
  | kept => false
  | changed _ => task = .check

/-- The line that tells it. -/
def report (task : Task) (verbose : Bool) (path : Path) (outcome : Outcome) : List Char :=
  let name := path.toString.toList
  let told (word : String) (rest : List Char) : List Char :=
    word.toList ++ '\t' :: name ++ rest ++ ['\n']
  match task, outcome with
  | _, failed message => told "ERROR" ('\t' :: message)
  | .check, changed _ => told "FAIL" []
  | .check, kept => if verbose then told "OK" [] else []
  | .format, _ => if verbose then told "FORMAT" [] else []

end Outcome

/-- What is found about each file of a run, in order. -/
structure Batch where
  task : Task
  outcomes : List (Path × Outcome)
  deriving DecidableEq, Repr

namespace Batch

def ofFiles (task : Task) (width : Int) (files : List (Path × Option (List UInt8))) : Batch where
  task := task
  outcomes := files.map fun (path, bytes?) => (path, judge? width path bytes?)

def failures (b : Batch) : Nat :=
  b.outcomes.countP fun (_, outcome) => outcome.fails b.task

/-- The last line of a report, if a file failed. -/
def summary (b : Batch) : List Char :=
  let verb := match b.task with
    | .check => "failed"
    | .format => "failed to format"
  if b.failures = 0 then []
  else s!"{b.failures} / {b.outcomes.length} file(s) {verb}\n".toList

def report (b : Batch) (verbose : Bool) : List Char :=
  (b.outcomes.flatMap fun (path, outcome) => outcome.report b.task verbose path) ++ b.summary

def exitCode (b : Batch) : Nat :=
  if b.failures = 0 then 0 else 1

/-- The files to write, with their new contents. Checking writes none. -/
def writes (b : Batch) : List (Path × List UInt8) :=
  match b.task with
  | .check => []
  | .format => b.outcomes.filterMap fun
    | (path, .changed text) => some (path, Text.encodeUtf8 text)
    | _ => none

end Batch

namespace Log

/-- Tells that a source was read as a tree; nothing if it was not. -/
def parsed (file : String) (source : List Char) : List Char :=
  let tokens := Token.scan (some file) source
  match Node.ofTokens tokens with
  | .error _ => []
  | .ok nodes =>
    debugLine root s!"parsed {file}: {tokens.length} tokens, {nodes.length} top-level nodes".toList

/-- What is logged while a file is worked on. -/
def file (task : Task) (path : Path) (bytes? : Option (List UInt8)) (outcome : Outcome) :
    List Char :=
  let read := match bytes?.map readText with
    | some (.ok source) => parsed path.toString source
    | _ => []
  let written := match task, outcome with
    | .format, .changed _ => debugLine "schemat.cli" ("rewrote ".toList ++ path.toString.toList)
    | _, _ => []
  read ++ written

end Log

end SexprFormat.Command
