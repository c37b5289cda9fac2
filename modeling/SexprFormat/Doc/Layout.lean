import SexprFormat.Doc
import SexprFormat.Text.Builder
import SexprFormat.Text.Lines

/-!
Setting a document in a given width. The layout is a list of pieces that tells texts, spaces of
unbroken lines, new lines and margins apart and records how each group was set. A group is flat if
the line on which it starts, up to the first place where that line can end, fits in the width.
What cannot be set is a piece too, so that a layout tells what comes before it; the text of a layout
is that of its pieces if all of them can be set.
-/

namespace SexprFormat

inductive Mode where
  | flat
  | broken
  deriving DecidableEq, Repr

/-- What rendering cannot do. -/
inductive RenderError where
  | unknownDoc (kind : String)
  deriving DecidableEq, Repr

def RenderError.message : RenderError → String
  | unknownDoc kind => s!"unknown document node: {kind}"

/-- Documents that are still to be set, one after another, with the same indentation and mode. -/
structure Pending where
  indent : Int
  mode : Mode
  docs : List Doc
  deriving Repr

/-- What is known of the rest of a line. -/
inductive Probe where
  /-- It is too long. -/
  | overflow
  /-- It ends within the width. -/
  | ends
  /-- It goes on with so many columns left. -/
  | left (columns : Int)
  deriving DecidableEq, Repr

/-- Takes columns from those that are left. -/
def Probe.spend (columns used : Int) : Probe :=
  if columns - used < 0 then overflow else left (columns - used)

namespace Doc

mutual

/-- Follows a line through a document. -/
def probe (mode : Mode) (columns : Int) : Doc → Except RenderError Probe
  | text s =>
    match Probe.spend columns (Text.firstLine s).length with
    | .left columns => .ok (if s.contains '\n' then .ends else .left columns)
    | result => .ok result
  | concat ds => probeAll mode columns ds
  | indent _ d => probe mode columns d
  | line => .ok (if mode = .flat then .spend columns 1 else .ends)
  | hardLine => .ok .ends
  | group breaks d => probe (if breaks then .broken else mode) columns d
  | unknown kind => .error (.unknownDoc kind)

def probeAll (mode : Mode) (columns : Int) : List Doc → Except RenderError Probe
  | [] => .ok (.left columns)
  | d :: ds =>
    match probe mode columns d with
    | .ok (.left columns) => probeAll mode columns ds
    | result => result

end

/-- Follows a line through all that is still to be set. -/
def probePending (columns : Int) : List Pending → Except RenderError Probe
  | [] => .ok (.left columns)
  | p :: ps =>
    match probeAll p.mode columns p.docs with
    | .ok (.left columns) => probePending columns ps
    | result => result

/-- Whether a document fits, flat, in the columns that are left, with what follows it on its
line. -/
def fits (columns : Int) (d : Doc) (after : List Pending) : Except RenderError Bool :=
  if columns < 0 then .ok false
  else (probePending columns ({ indent := 0, mode := .flat, docs := [d] } :: after)).map
    (· ≠ .overflow)

/-- How a group is set: flat inside of a flat group, else flat only if it need not break and
fits. -/
def groupMode (columns : Int) (mode : Mode) (breaks : Bool) (d : Doc) (after : List Pending) :
    Except RenderError Mode :=
  if mode = .flat then .ok .flat
  else if breaks then .ok .broken
  else (fits columns d after).map fun fit => if fit then .flat else .broken

end Doc

/-- A piece of a layout. -/
inductive Piece where
  | text (s : List Char)
  /-- The space of a line that is not broken. -/
  | space
  | newline
  /-- The indentation of a line, in front of what is first on it. -/
  | margin (width : Int)
  /-- A group starts that is set in this mode. -/
  | group (mode : Mode)
  /-- Something cannot be set here, and what follows is of no account. -/
  | failed (error : RenderError)
  deriving DecidableEq, Repr

def Piece.chars : Piece → List Char
  | text s => s
  | space => [' ']
  | newline => ['\n']
  | margin width => List.replicate width.toNat ' '
  | group _ | failed _ => []

def Piece.error? : Piece → Option RenderError
  | failed e => some e
  | text _ | space | newline | margin _ | group _ => none

/-- The text of some pieces, each of them written behind the last one. -/
def Piece.write (ps : List Piece) : List Char :=
  (Text.Builder.appendAll {} (ps.map chars)).build

theorem Piece.write_eq (ps : List Piece) : write ps = ps.flatMap chars := by
  rw [write, Text.Builder.build_appendAll, ← List.flatMap_def]
  rfl

/-- Where a layout stands. -/
structure Position where
  column : Int := 0
  /-- Indentation that is due before the next text. -/
  margin : Int := 0
  deriving DecidableEq, Repr

namespace Position

/-- The margin, if one is due. -/
def marginPieces (pos : Position) : List Piece :=
  if pos.margin = 0 then [] else [.margin pos.margin]

/-- The position behind a text. -/
def pass (pos : Position) (s : List Char) : Position :=
  if s.contains '\n' then { column := (Text.lastLine s).length }
  else { column := pos.column + s.length }

/-- The start of a new line. -/
def newline (indent : Int) : Position :=
  { column := indent, margin := indent }

end Position

namespace Doc

mutual

/-- The pieces of a document, and the position behind them. `after` is what follows it. -/
def layout (width indent : Int) (mode : Mode) (after : List Pending) (pos : Position) :
    Doc → List Piece × Position
  | text [] => ([], pos)
  | text s => (pos.marginPieces ++ [.text s], pos.pass s)
  | concat ds => layoutAll width indent mode after pos ds
  | .indent extra d => layout width (indent + extra) mode after pos d
  | line =>
    match mode with
    | .flat => (pos.marginPieces ++ [.space], pos.pass [' '])
    | .broken => ([.newline], .newline indent)
  | hardLine => ([.newline], .newline indent)
  | group breaks d =>
    match groupMode (width - pos.column) mode breaks d after with
    | .ok inner =>
      let (pieces, pos) := layout width indent inner after pos d
      (.group inner :: pieces, pos)
    | .error e => ([.failed e], pos)
  | unknown kind => ([.failed (.unknownDoc kind)], pos)

def layoutAll (width indent : Int) (mode : Mode) (after : List Pending) (pos : Position) :
    List Doc → List Piece × Position
  | [] => ([], pos)
  | d :: ds =>
    let (first, pos) := layout width indent mode ({ indent, mode, docs := ds } :: after) pos d
    let (rest, pos) := layoutAll width indent mode after pos ds
    (first ++ rest, pos)

end

/-- The pieces of a whole document. -/
def pieces (width : Int) (d : Doc) : List Piece :=
  (layout width 0 .broken [] {} d).1

/-- The text of a document in a given width. -/
def render (width : Int) (d : Doc) : Except RenderError (List Char) :=
  let pieces := d.pieces width
  match pieces.findSome? Piece.error? with
  | some e => .error e
  | none => .ok (Piece.write pieces)

end Doc

end SexprFormat
