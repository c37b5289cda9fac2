import SexprFormat.Doc.Layout

/-!
Writing out a layout whose margins are given from outside. A margin is written only if its width is
a 64-bit number; when all of them are, the text is that of the document. There is no bound on the
memory that a text may take.
-/

namespace SexprFormat

/-- What writing a document cannot do. -/
inductive PrintError where
  | render (error : RenderError)
  | marginOutOfRange
  deriving DecidableEq, Repr

def PrintError.message : PrintError → String
  | render e => e.message
  | marginOutOfRange => "cannot fit 'int' into an index-sized integer"

/-- Why a margin of some width cannot be written. -/
def marginError? (width : Int) : Option PrintError :=
  if width < -0x8000000000000000 || 0x8000000000000000 ≤ width then some .marginOutOfRange
  else none

/-- Why a piece cannot be written. -/
def Piece.printError? : Piece → Option PrintError
  | failed e => some (.render e)
  | margin width => marginError? width
  | text _ | space | newline | group _ => none

/-- Writes a document in a given width, up to the first piece that cannot be written. -/
def Doc.print (width : Int) (d : Doc) : Except PrintError (List Char) :=
  let pieces := d.pieces width
  match pieces.findSome? Piece.printError? with
  | some e => .error e
  | none => .ok (Piece.write pieces)

/-- A piece that can be written can be set. -/
theorem Piece.error_of_printError {p : Piece} (h : p.printError? = none) : p.error? = none := by
  cases p with
  | failed e => cases h
  | text | space | newline | margin | group => rfl

/-- What is written is the text of the document. -/
theorem Doc.render_of_print {width : Int} {d : Doc} {s : List Char}
    (h : d.print width = .ok s) : d.render width = .ok s := by
  cases hp : (d.pieces width).findSome? Piece.printError? with
  | some e =>
    simp only [Doc.print, hp] at h
    cases h
  | none =>
    simp only [Doc.print, hp] at h
    have he : (d.pieces width).findSome? Piece.error? = none := by
      rw [List.findSome?_eq_none_iff] at hp ⊢
      intro p mem
      exact Piece.error_of_printError (hp p mem)
    simp only [Doc.render, he]
    exact congrArg Except.ok (Except.ok.inj h)

end SexprFormat
