import SexprFormat.Node
import SexprFormat.ParseError

/-!
The lists that are open while a source text is read, each with what was collected for it so far.
-/

namespace SexprFormat

/-- What a frame refuses. -/
inductive FrameError where
  /-- There is no open list to leave. -/
  | noOpenList
  /-- A mark is put before a node that has no place. -/
  | noPlace (kind : String)
  deriving DecidableEq, Repr

def FrameError.message : FrameError → String
  | noOpenList => "cannot pop the module frame"
  | noPlace kind => s!"'{kind}' object has no attribute 'location'"

/-- What was collected for one list. The latest comes first in all three. -/
structure Frame where
  nodes : List Node := []
  /-- Quote marks that wait for their datum. -/
  marks : List Token := []
  /-- Comments met while a mark waits. -/
  held : List Node := []
  deriving Repr, Inhabited

namespace Frame

def children (f : Frame) : List Node :=
  f.nodes.reverse

/-- A node behind a quote mark. -/
def wrap (node : Node) (mark : Token) : Node :=
  .quoted (mark.loc.spanTo node.loc) mark.tag? mark.text node

/-- Adds a datum behind all marks that wait, and the comments that were held before it. -/
def add (f : Frame) (node : Node) : Frame :=
  { nodes := f.marks.foldl wrap node :: (f.held ++ f.nodes) }

/-- Adds a datum, unless it has no place and a mark waits for it. Then the mark is lost, and the
comments that were held are added alone. -/
def addAny (f : Frame) (node : Node) : Option FrameError × Frame :=
  match f.marks, node with
  | _ :: marks, .unknown none kind =>
    (some (.noPlace kind), { nodes := f.held ++ f.nodes, marks })
  | _, _ => (none, f.add node)

/-- Adds a comment or a directive in its place. -/
def addTrivia (f : Frame) (node : Node) : Frame :=
  { f with nodes := node :: f.nodes }

def addMark (f : Frame) (mark : Token) : Frame :=
  { f with marks := mark :: f.marks }

def hold (f : Frame) (comment : Node) : Frame :=
  { f with held := comment :: f.held }

theorem children_add (f : Frame) (node : Node) :
    (f.add node).children = f.children ++ f.held.reverse ++ [f.marks.foldl wrap node] := by
  simp [add, children]

/-- Adds an empty line, unless there is nothing before it or another one. -/
def addBlank (f : Frame) (loc : Location) : Frame :=
  match f.nodes with
  | [] => f
  | last :: _ => if last.isBlank then f else { f with nodes := .blank loc :: f.nodes }

/-- Drops the empty lines at the end. -/
def trim (f : Frame) : Frame :=
  { f with nodes := f.nodes.dropWhile Node.isBlank }

end Frame

/-- A list that is not closed yet. -/
structure OpenList where
  opener : Token
  frame : Frame := {}
  deriving Repr, Inhabited

/-- The open lists, innermost first, and the frame of the program around them. -/
structure Frames where
  lists : List OpenList := []
  program : Frame := {}
  deriving Repr, Inhabited

namespace Frames

/-- The innermost frame. -/
def current (fs : Frames) : Frame :=
  match fs.lists with
  | [] => fs.program
  | list :: _ => list.frame

def atTopLevel (fs : Frames) : Bool :=
  fs.lists.isEmpty

/-- What opened the innermost list. -/
def tag? (fs : Frames) : Option Token.Tag :=
  fs.lists.head?.bind (·.opener.tag?)

/-- Changes the innermost frame. -/
def update (fs : Frames) (f : Frame → Frame) : Frames :=
  match fs.lists with
  | [] => { fs with program := f fs.program }
  | list :: outer => { fs with lists := { list with frame := f list.frame } :: outer }

def push (fs : Frames) (opener : Token) : Frames :=
  { fs with lists := { opener } :: fs.lists }

/-- Leaves the innermost list. -/
def pop (fs : Frames) : Except FrameError (OpenList × Frames) :=
  match fs.lists with
  | [] => .error .noOpenList
  | list :: outer => .ok (list, { fs with lists := outer })

end Frames

end SexprFormat
