import SexprFormat.Diagnostic
import SexprFormat.Frame
import SexprFormat.Token.Scan

/-!
Reading tokens as a tree. Each token changes the open frames or is refused; the tree is what the
frame of the program holds in the end.
-/

namespace SexprFormat

/-- Where reading stands between two tokens. -/
structure Reading where
  frames : Frames := {}
  /-- The line on which the last token other than white space ended; zero before any. -/
  lastLine : Int := 0
  /-- Only directives have been met so far. -/
  atHead : Bool := true
  deriving Repr, Inhabited

namespace Reading

/-- A comment trails if it starts on the line where the token before it ended. -/
def attachment (r : Reading) (t : Token) : Attachment :=
  if r.frames.current.marks.isEmpty && r.lastLine ≠ 0 && t.loc.line = r.lastLine then .trailing
  else .leading

/-- A comment goes in its place, or is held while a mark waits for its datum. -/
def comment (r : Reading) (t : Token) : Frames :=
  let node := Node.comment t.loc (Text.trimEnd t.text) (r.attachment t) (t.kind = .blockComment)
  r.frames.update fun f => if f.marks.isEmpty then f.addTrivia node else f.hold node

/-- Closes the innermost list and adds it to the one around it. -/
def close (r : Reading) (t : Token) : Except ParseError Frames :=
  match r.frames.pop with
  | .error _ => .error (.unexpectedClose t)
  | .ok (list, outer) =>
    match list.frame.marks, list.opener.shape? with
    | mark :: _, _ => .error (.dangling mark)
    | [], none => .error (.mismatched list.opener t)
    | [], some shape =>
      if t.shape? = some shape then
        let node := Node.list (list.opener.loc.spanTo t.loc) shape list.frame.trim.children
        .ok (outer.update (·.add node))
      else .error (.mismatched list.opener t)

/-- The frames after a token. -/
def accept (r : Reading) (t : Token) : Except ParseError Frames :=
  match t.kind with
  | .opening => .ok (r.frames.push t)
  | .closing => r.close t
  | .atom =>
    if t.closed then .ok (r.frames.update (·.add (.atom t.loc t.text)))
    else .error (.unterminatedString t)
  | .string =>
    if t.closed then .ok (r.frames.update (·.add (.string t.loc t.text)))
    else .error (.unterminatedString t)
  | .quoteMark => .ok (r.frames.update (·.addMark t))
  | .lineComment | .blockComment =>
    if t.closed then .ok (r.comment t) else .error (.unterminatedComment t)
  | .directive =>
    if r.atHead then .ok (r.frames.update (·.addTrivia (.directive t.loc t.tag? t.text)))
    else .ok (r.comment t)
  | .blankLine =>
    .ok (r.frames.update fun f => if f.marks.isEmpty then f.addBlank t.loc else f)
  | .whitespace | .eof => .ok r.frames

/-- White space says nothing, nor do empty lines before the first other token. -/
def ignores (r : Reading) (t : Token) : Bool :=
  t.kind = .whitespace || (t.kind = .blankLine && r.lastLine = 0)

def step (r : Reading) (t : Token) : Except ParseError Reading :=
  if r.ignores t then .ok r
  else do
    let atHead := r.atHead && t.kind = Token.Kind.directive
    let r := { r with atHead }
    let frames ← r.accept t
    pure { r with frames, lastLine := if t.kind = .blankLine then r.lastLine else t.endLine }

/-- The nodes of the program, when no mark and no list is left open. -/
def finish (r : Reading) : Except ParseError (List Node) :=
  match r.frames.current.marks, r.frames.lists with
  | mark :: _, _ => .error (.dangling mark)
  | [], list :: _ => .error (.unclosed list.opener)
  | [], [] => .ok r.frames.program.trim.children

end Reading

namespace Node

/-- The nodes of a list of tokens, read up to the first end mark. -/
def ofTokens (tokens : List Token) : Except ParseError (List Node) := do
  let r ← (tokens.takeWhile (·.kind ≠ .eof)).foldlM Reading.step {}
  r.finish

/-- The tree of a source text. -/
def parse (file? : Option String) (source : List Char) : Except Diagnostic Node :=
  let text := Text.joinLineEnds source
  match ofTokens (Token.scan file? source) with
  | .ok nodes =>
    .ok (.program { line := 1, column := 1, endOffset := text.length, file? } nodes)
  | .error e => .error (.ofParseError file? (some text) e)

end Node

end SexprFormat
