/-!
Layout documents: texts, places where a line may or must end, indentation, and groups that are set
on one line if they fit.
-/

namespace SexprFormat

inductive Doc where
  | text (s : List Char)
  | concat (parts : List Doc)
  /-- Lines that start inside are indented by so many more columns. -/
  | indent (width : Int) (inner : Doc)
  /-- A space, or a new line in a group that does not fit. -/
  | line
  /-- A new line in any case. -/
  | hardLine
  /-- Set on one line if it fits, unless `breaks`. -/
  | group (breaks : Bool) (inner : Doc)
  /-- A document of a kind that is not part of the language, known by its name alone. -/
  | unknown (kind : String)
  deriving Repr, Inhabited

namespace Doc

def empty : Doc := text []

def space : Doc := text [' ']

/-- The columns by which the children of a list are indented. -/
def indentWidth : Int := 2

/-- The parts that a document adds to a concatenation: none if it is an empty text, its own parts
if it is a concatenation. -/
def parts : Doc → List Doc
  | text [] => []
  | concat ds => ds
  | d => [d]

/-- A concatenation in which concatenations are spliced and empty texts dropped. A single part
stands for itself. -/
def append (ds : List Doc) : Doc :=
  match ds.flatMap parts with
  | [d] => d
  | flat => concat flat

/-- The documents with a separator between them. -/
def join (separator : Doc) (ds : List Doc) : Doc :=
  append (ds.intersperse separator)

mutual

/-- Whether a new line is unavoidable. A group answers by its flag. -/
def mustBreak : Doc → Bool
  | hardLine => true
  | group breaks _ => breaks
  | concat ds => anyMustBreak ds
  | indent _ d => mustBreak d
  | text _ | line | unknown _ => false

def anyMustBreak : List Doc → Bool
  | [] => false
  | d :: ds => mustBreak d || anyMustBreak ds

end

/-- A group that breaks if it has to. -/
def grouped (d : Doc) : Doc :=
  group (mustBreak d) d

end Doc

end SexprFormat
