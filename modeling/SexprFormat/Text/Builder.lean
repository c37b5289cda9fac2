/-!
A text that grows at its end.
-/

namespace SexprFormat.Text

/-- The parts of the text, the last one first. -/
structure Builder where
  parts : List (List Char) := []
  deriving DecidableEq, Repr, Inhabited

namespace Builder

/-- Adds a part, unless it is empty. -/
def append (b : Builder) (part : List Char) : Builder :=
  if part.isEmpty then b else { parts := part :: b.parts }

/-- Adds one part after another. -/
def appendAll (b : Builder) (parts : List (List Char)) : Builder :=
  parts.foldl append b

def build (b : Builder) : List Char :=
  b.parts.reverse.flatten

theorem build_append (b : Builder) (part : List Char) :
    (b.append part).build = b.build ++ part := by
  unfold append
  cases part with
  | nil => simp
  | cons c part => simp [build]

theorem build_appendAll (b : Builder) (parts : List (List Char)) :
    (b.appendAll parts).build = b.build ++ parts.flatten := by
  induction parts generalizing b with
  | nil => simp [appendAll]
  | cons part parts ih =>
    rw [List.flatten_cons, ← List.append_assoc, ← build_append]
    exact ih (b.append part)

/-- The text before the first part is added, and after each. -/
def states (b : Builder) : List (List Char) → List (List Char)
  | [] => [b.build]
  | part :: rest => b.build :: (b.append part).states rest

end Builder

end SexprFormat.Text
