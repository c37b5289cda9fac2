import SexprFormat.Proofs.Document

/-!
A tree as it is printed: words, which are the texts of tokens, and the white space between them.
`Node.cellsAll_prints`: these are the cells of the tree, when its blank lines stand between other
nodes and no two of them in a row.
-/

namespace SexprFormat

/-- White space between two words. -/
inductive Gap where
  | space
  /-- A space or a new line. -/
  | soft (indent : Int)
  | line (indent : Int)
  /-- Two new lines, so that an empty line stands between the words. -/
  | blank (indent : Int)
  deriving DecidableEq, Repr

/-- A token without its place. -/
structure Word where
  kind : Token.Kind
  tag? : Option Token.Tag := none
  text : List Char
  deriving DecidableEq, Repr

inductive Print where
  | word (w : Word)
  | gap (g : Gap)
  deriving DecidableEq, Repr

namespace Word

def atom (text : List Char) : Word := { kind := .atom, text }

def string (text : List Char) : Word := { kind := .string, text }

def opening (shape : Delimiter) : Word :=
  { kind := .opening, tag? := some (.bracket shape), text := [shape.opener] }

def closing (shape : Delimiter) : Word :=
  { kind := .closing, tag? := some (.bracket shape), text := [shape.closer] }

def directive (kind : DirectiveKind) (text : List Char) : Word :=
  { kind := .directive, tag? := some (.directive kind), text }

/-- What the text of a comment is when it is read again. The text of a directive may stand there,
too. -/
def remark (block : Bool) (text : List Char) : Word :=
  if block then { kind := .blockComment, text }
  else match text with
    | '#' :: '!' :: _ => directive .shebang text
    | '#' :: _ => directive .lang text
    | _ => { kind := .lineComment, text }

@[simp] theorem text_remark (block : Bool) (text : List Char) :
    (remark block text).text = text := by
  unfold remark
  split
  · rfl
  · split <;> rfl

end Word

namespace Gap

def cells : Gap → List Cell
  | space => [.char ' ']
  | soft indent => [.soft indent]
  | line indent => [.hard indent]
  | blank indent => [.hard indent, .hard indent]

end Gap

namespace Print

def cells : Print → List Cell
  | word w => w.text.map .char
  | gap g => g.cells

def cellsAll (ps : List Print) : List Cell :=
  ps.flatMap cells

@[simp] theorem cellsAll_nil : cellsAll [] = [] := rfl

@[simp] theorem cellsAll_cons (p : Print) (ps : List Print) :
    cellsAll (p :: ps) = p.cells ++ cellsAll ps := List.flatMap_cons

@[simp] theorem cellsAll_append (a b : List Print) : cellsAll (a ++ b) = cellsAll a ++ cellsAll b :=
  List.flatMap_append

/-- What stands before a child that is no blank line, in a list or in a program; `emptyLine` tells
that a blank line stands before it. -/
def between (indent : Int) (inProgram : Bool) (previous? : Option Node) (emptyLine : Bool)
    (child : Node) : List Print :=
  match previous?, child with
  | none, .comment _ _ .leading _ => if inProgram then [] else [gap (.line indent)]
  | none, _ => []
  | some previous, _ =>
    if emptyLine then [gap (.blank indent)]
    else if previous.endsLine then [gap (.line indent)]
    else match child with
      | .comment _ _ .trailing _ => [gap .space]
      | .comment _ _ .leading _ => [gap (.line indent)]
      | _ => if inProgram then [gap (.line indent)] else [gap (.soft indent)]

/-- What stands behind the last child. -/
def atEnd (indent : Int) (inProgram : Bool) (previous? : Option Node) : List Print :=
  match previous? with
  | none => []
  | some previous => if inProgram || previous.endsLine then [gap (.line indent)] else []

end Print

namespace Node

mutual

def prints (indent : Int) : Node → List Print
  | atom _ s => [.word (.atom s)]
  | string _ s => [.word (.string s)]
  | comment _ s _ block => [.word (.remark block s)]
  | directive _ _ s => [.word (.remark false s)]
  | quoted _ tag? lead inner => .word { kind := .quoteMark, tag?, text := lead } ::
      prints indent inner
  | list _ shape children =>
    .word (.opening shape) ::
      (printsAll (indent + Doc.indentWidth) false none false children ++ [.word (.closing shape)])
  | program _ children => printsAll indent true none false children
  | blank _ | unknown _ _ => []

def printsAll (indent : Int) (inProgram : Bool) (previous? : Option Node) (emptyLine : Bool) :
    List Node → List Print
  | [] => Print.atEnd indent inProgram previous?
  | child :: rest =>
    if child.isBlank then printsAll indent inProgram previous? true rest
    else
      Print.between indent inProgram previous? emptyLine child ++
        (prints indent child ++ printsAll indent inProgram (some child) false rest)

end

/-- A node that can stand behind a quote mark. -/
def isDatum : Node → Bool
  | atom _ _ | string _ _ | quoted _ _ _ _ | list _ _ _ => true
  | _ => false

theorem exists_of_isBlank {node : Node} (h : node.isBlank) : ∃ loc, node = .blank loc := by
  cases node with
  | blank loc => exact ⟨loc, rfl⟩
  | atom | string | quoted | list | comment | directive | program | unknown => cases h

/-- A blank line stands between two other nodes. A comment behind it is on a line of its own, and so
is the first one of a program. No list has a directive. -/
def follows (inProgram : Bool) (previous? : Option Node) : Node → Bool
  | blank _ => previous?.any (!·.isBlank)
  | directive _ _ _ => inProgram
  | comment _ _ .trailing _ => previous?.all (!·.isBlank) && (!inProgram || previous?.isSome)
  | _ => true

mutual

/-- Blank lines, comments and directives stand where reading can put them, at every depth. -/
def tidy : Node → Bool
  | quoted _ _ _ inner => isDatum inner && tidy inner
  | list _ _ children => tidyAll false none children
  | program _ children => tidyAll true none children
  | _ => true

def tidyAll (inProgram : Bool) (previous? : Option Node) : List Node → Bool
  | [] => previous?.all (!·.isBlank)
  | child :: rest =>
    follows inProgram previous? child && tidy child && tidyAll inProgram (some child) rest

end

/-- The new line that a comment or a directive brings with it. -/
def lineEnd (indent : Int) (node? : Option Node) : List Cell :=
  if node?.any endsLine then [.hard indent] else []

/-- The new line behind the last node of a program. -/
def lastLineEnd (indent : Int) (inProgram : Bool) (last? : Option Node) : List Cell :=
  if inProgram && !(last?.map endsLine).getD true then [.hard indent] else []

theorem cells_between (indent : Int) (inProgram : Bool) (previous? : Option Node) {child : Node}
    (h : child.isBlank = false) (hp : previous?.all (!·.isBlank)) :
    Print.cellsAll (Print.between indent inProgram previous? false child) =
      lineEnd indent previous? ++ (separator inProgram previous? child).cells indent := by
  cases previous? with
  | none =>
    cases child <;> try rfl
    rename_i attachment _
    cases attachment <;> cases inProgram <;> rfl
  | some previous =>
    have noBlank : previous.isBlank = false := by simpa using hp
    cases ends : previous.endsLine with
    | true => simp [Print.between, lineEnd, separator, ends, Print.cells, Gap.cells]; rfl
    | false =>
      cases child with
      | comment _ _ attachment _ =>
        cases attachment <;> simp [Print.between, lineEnd, separator, ends, noBlank,
          Print.cells] <;> rfl
      | blank => cases h
      | _ =>
        cases inProgram <;> simp [Print.between, lineEnd, separator, ends, noBlank,
          Print.cells] <;> rfl

theorem lastLineEnd_cons (indent : Int) (inProgram : Bool) (previous? : Option Node) (child : Node)
    (rest : List Node) :
    lastLineEnd indent inProgram ((child :: rest).getLast?.or previous?) =
      lastLineEnd indent inProgram (rest.getLast?.or (some child)) := by
  cases rest <;> simp [List.getLast?_cons]

mutual

theorem cells_prints (indent : Int) : ∀ node : Node, node.tidy → node.isBlank = false →
    Print.cellsAll (node.prints indent) ++ lineEnd indent (some node) = node.cells indent
  | atom _ s, _, _ => by simp [prints, cells, Print.cells, Word.atom, lineEnd, endsLine]
  | string _ s, _, _ => by simp [prints, cells, Print.cells, Word.string, lineEnd, endsLine]
  | comment _ s _ block, _, _ => by simp [prints, cells, Print.cells, lineEnd, endsLine]
  | directive _ _ s, _, _ => by simp [prints, cells, Print.cells, lineEnd, endsLine]
  | blank _, _, h => by cases h
  | quoted _ tag? lead inner, h, _ => by
    simp only [tidy, Bool.and_eq_true] at h
    have noBlank : inner.isBlank = false := by cases inner <;> simp_all [isDatum, isBlank]
    have noLine : inner.endsLine = false := by cases inner <;> simp_all [isDatum, endsLine]
    have rest := cells_prints indent inner h.2 noBlank
    simp only [lineEnd, Option.any_some, noLine, Bool.false_eq_true, if_false, List.append_nil]
      at rest
    simp [prints, cells, Print.cells, lineEnd, endsLine, rest]
  | list _ shape children, h, _ => by
    have body :=
      cells_printsAll (indent + Doc.indentWidth) false none children (by simpa [tidy] using h) rfl
    simp [prints, cells, Print.cells, Word.opening, Word.closing, lineEnd, endsLine,
      body, lastLineEnd]
  | program _ children, h, _ => by
    have body := cells_printsAll indent true none children (by simpa [tidy] using h) rfl
    simp [prints, cells, lineEnd, endsLine, body, lastLineEnd]
    cases (Option.map endsLine children.getLast?).getD true <;> rfl
  | unknown _ _, _, _ => rfl

theorem cells_printsAll (indent : Int) (inProgram : Bool) (previous? : Option Node) :
    ∀ nodes : List Node, tidyAll inProgram previous? nodes → previous?.all (!·.isBlank) →
      Print.cellsAll (printsAll indent inProgram previous? false nodes) =
        lineEnd indent previous? ++ (cellsAll indent inProgram previous? nodes ++
          lastLineEnd indent inProgram (nodes.getLast?.or previous?))
  | [], _, _ => by
    cases previous? with
    | none => cases inProgram <;> rfl
    | some previous =>
      cases ends : previous.endsLine <;> cases inProgram <;>
        simp [printsAll, Print.atEnd, lineEnd, lastLineEnd, cellsAll, ends, Print.cells, Gap.cells]
  | child :: rest, ht, hp => by
    simp only [tidyAll, Bool.and_eq_true] at ht
    obtain ⟨⟨hf, hc⟩, hr⟩ := ht
    cases hb : child.isBlank with
    | true =>
      obtain ⟨loc, rfl⟩ := exists_of_isBlank hb
      obtain ⟨previous, rfl, noBlank⟩ : ∃ p, previous? = some p ∧ p.isBlank = false := by
        cases previous? <;> simp_all [follows]
      have body := cells_printsAll_blank indent inProgram previous loc rest hr
      rw [printsAll, hb, if_pos rfl, body, cellsAll, cells, lastLineEnd_cons]
      cases ends : previous.endsLine <;> simp [lineEnd, separator, ends, noBlank] <;> rfl
    | false =>
      have body := cells_printsAll indent inProgram (some child) rest hr (by simp [hb])
      rw [printsAll, hb, if_neg Bool.false_ne_true, Print.cellsAll_append,
        Print.cellsAll_append, body,
        cells_between indent inProgram previous? hb hp, cellsAll, ← cells_prints indent child hc hb,
        lastLineEnd_cons]
      simp

theorem cells_printsAll_blank (indent : Int) (inProgram : Bool) (previous : Node) (loc : Location) :
    ∀ nodes : List Node, tidyAll inProgram (some (.blank loc)) nodes →
      Print.cellsAll (printsAll indent inProgram (some previous) true nodes) =
        .hard indent :: .hard indent :: (cellsAll indent inProgram (some (.blank loc)) nodes ++
          lastLineEnd indent inProgram (nodes.getLast?.or (some (.blank loc))))
  | [], h => by simp [tidyAll, isBlank] at h
  | child :: rest, ht => by
    simp only [tidyAll, Bool.and_eq_true] at ht
    obtain ⟨⟨hf, hc⟩, hr⟩ := ht
    cases hb : child.isBlank with
    | true => cases child <;> simp_all [isBlank, follows]
    | false =>
      have body := cells_printsAll indent inProgram (some child) rest hr (by simp [hb])
      rw [printsAll, hb, if_neg Bool.false_ne_true, Print.cellsAll_append,
        Print.cellsAll_append, body,
        cellsAll, ← cells_prints indent child hc hb, lastLineEnd_cons]
      simp [Print.between, separator, isBlank, Print.cells, Gap.cells]
      rfl

end

/-- The cells of a program are those of its words and the white space between them. -/
theorem cellsAll_prints (indent : Int) {loc : Location} {children : List Node}
    (h : (program loc children).tidy) :
    Print.cellsAll ((program loc children).prints indent) =
      (program loc children).cells indent := by
  have all := cells_prints indent (program loc children) h rfl
  simpa [lineEnd, endsLine] using all

end Node

end SexprFormat
