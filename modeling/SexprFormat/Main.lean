import SexprFormat.Command.Run

/-!
The command itself: it looks at the real files and streams and leaves all else to the run.
-/

namespace SexprFormat.Command

/-- No path has more components than this. -/
def maxDepth : Nat := 4096

/-- The place in the file system that a path leads to; the empty path leads to the current
directory. -/
def place (path : String) : IO.FS.DirEntry :=
  { root := if path.isEmpty then "." else path, fileName := "" }

def entryOf (info : IO.FS.Metadata) : Entry :=
  if info.type == .dir then .directory else .file

/-- What an entry of a directory is. One that leads nowhere counts as a file. -/
def kindOf (entry : IO.FS.DirEntry) : IO Entry := do
  try pure (entryOf (← entry.path.metadata)) catch _ => pure .file

/-- The files of the system. No argument holds a NUL, so a path is invalid only by its length. -/
def systemView : FileView IO where
  lookup path := do
    if path.isEmpty then pure .missing
    else try
      pure (.found (entryOf (← (place path).root.metadata)))
    catch e =>
      match e with
      | .invalidArgument _ _ _ => pure .tooLong
      | _ => pure .missing
  entries path := do
    try
      let found ← (place path).root.readDir
      found.toList.mapM fun entry => do pure (entry.fileName, ← kindOf entry)
    catch _ => pure []

def readFile? (path : Path) : IO (Option (List UInt8)) := do
  try
    pure (some (← IO.FS.readBinFile path.toString).toList)
  catch _ => pure none

def writeText (stream : IO.FS.Stream) (text : List Char) : IO Unit := do
  stream.putStr (String.ofList text)
  stream.flush

end SexprFormat.Command

open SexprFormat SexprFormat.Command in
def main (arguments : List String) : IO UInt32 := do
  let result ← match Options.parse arguments with
    | .error stop => pure stop.result
    | .ok o =>
      if !o.paths.isEmpty then do
        let selection ← Selection.ofPatterns systemView maxDepth o.paths o.ignore
        match selection.error? with
        | some e => pure (giveUp o selection e)
        | none =>
          let files ← selection.selected.mapM fun path => do pure (path, ← readFile? path)
          pure (runFiles o selection files)
      else if o.check then pure refuseToCheckInput
      else do pure (formatInput o (← (← IO.getStdin).readBinToEnd).toList)
  for (path, contents) in result.writes do
    IO.FS.writeBinFile path.toString (ByteArray.mk contents.toArray)
  writeText (← IO.getStdout) result.stdout
  writeText (← IO.getStderr) result.stderr
  match result.exit with
  | .code n => pure n.toUInt32
  | .failed failure =>
    writeText (← IO.getStderr) (failure.message.toList ++ ['\n'])
    pure 1
