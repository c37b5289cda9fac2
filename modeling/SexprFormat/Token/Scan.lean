import SexprFormat.Text.Lines
import SexprFormat.Token
import SexprFormat.Token.Extent

/-!
Cutting a source text into tokens. Each token starts with one character that decides, together
with what follows and with the cursor, which kind it is and how many more characters it takes. The
tokens hold every character of the text once, in order.
-/

namespace SexprFormat.Token

/-- A place in the source, and how many lists are open there. -/
structure Cursor where
  offset : Nat := 0
  line : Nat := 1
  column : Nat := 1
  depth : Nat := 0
  deriving DecidableEq, Repr

namespace Cursor

def next (cur : Cursor) (c : Char) : Cursor :=
  if c = '\n' then { cur with offset := cur.offset + 1, line := cur.line + 1, column := 1 }
  else { cur with offset := cur.offset + 1, column := cur.column + 1 }

/-- The cursor behind a text. -/
def pass (cur : Cursor) (s : List Char) : Cursor :=
  s.foldl next cur

theorem pass_append (cur : Cursor) (s t : List Char) :
    cur.pass (s ++ t) = (cur.pass s).pass t := by
  simp [pass]

theorem offset_pass (cur : Cursor) (s : List Char) :
    (cur.pass s).offset = cur.offset + s.length := by
  induction s generalizing cur with
  | nil => rfl
  | cons c s ih =>
    have step : (cur.next c).offset = cur.offset + 1 := by unfold next; split <;> rfl
    rw [List.length_cons, show cur.pass (c :: s) = (cur.next c).pass s from rfl, ih, step]
    omega

theorem line_pass (cur : Cursor) (s : List Char) :
    (cur.pass s).line = cur.line + s.count '\n' := by
  induction s generalizing cur with
  | nil => rfl
  | cons c s ih =>
    rw [show cur.pass (c :: s) = (cur.next c).pass s from rfl, ih, List.count_cons]
    by_cases h : c = '\n'
    · simp [next, h]; omega
    · simp [next, h]

theorem depth_pass (cur : Cursor) (s : List Char) : (cur.pass s).depth = cur.depth := by
  induction s generalizing cur with
  | nil => rfl
  | cons c s ih =>
    rw [show cur.pass (c :: s) = (cur.next c).pass s from rfl, ih]
    unfold next; split <;> rfl

/-- Brackets open and close lists; one that closes no list changes nothing. -/
def nest (cur : Cursor) : Kind → Cursor
  | .opening => { cur with depth := cur.depth + 1 }
  | .closing => { cur with depth := cur.depth - 1 }
  | _ => cur

/-- The location of a token between two cursors. -/
def locate (file? : Option String) (first last : Cursor) : Location where
  line := first.line
  column := first.column
  offset := first.offset
  endOffset := last.offset
  endLine? := some last.line
  file? := file?

end Cursor

/-- What a token is and how many characters it takes after its first one. -/
structure Lexeme where
  kind : Kind
  tag? : Option Tag := none
  more : Nat
  closed : Bool := true
  deriving DecidableEq, Repr

namespace Lexeme

def blank (first : Char) (rest : List Char) : Lexeme :=
  let tail := rest.takeWhile Text.isBlank
  let kind := if 2 ≤ (first :: tail).count '\n' then .blankLine else .whitespace
  { kind, more := tail.length }

def string (rest : List Char) : Lexeme :=
  let e := Extent.segment (.inside '"') rest
  { kind := .string, more := e.size, closed := e.closed }

def atom (first : Char) (rest : List Char) : Lexeme :=
  let e := Extent.atom (Quoting.outside.next first) rest
  { kind := .atom, more := e.size, closed := e.closed }

/-- A block comment; `rest` starts with the second character of its opening mark. -/
def blockComment (rest : List Char) : Lexeme :=
  let e := Extent.blockComment 1 (rest.drop 1)
  { kind := .blockComment, more := 1 + e.size, closed := e.closed }

/-- A directive takes its line without the white space at the end. -/
def directive (kind : DirectiveKind) (rest : List Char) : Lexeme :=
  let line := Text.trimEnd (Text.firstLine rest)
  { kind := .directive, tag? := some (.directive kind), more := line.length }

def quoteMark (mark : QuoteMark) : Lexeme :=
  { kind := .quoteMark, tag? := some (.mark mark), more := mark.text.length - 1 }

/-- Whether the input goes on with something other than white space. -/
def datumFollows : List Char → Bool
  | [] => false
  | c :: _ => !Text.isBlank c

/-- The first of the marks that the input starts with and that a datum follows. -/
def markIn? (marks : List QuoteMark) (input : List Char) : Option QuoteMark :=
  marks.find? fun mark =>
    mark.text.isPrefixOf input && datumFollows (input.drop mark.text.length)

/-- Whether the line names a language: `#lang` at the start of a line outside of all lists, with a
space or a tab after it. `rest` is what stands after the `#`. -/
def namesLanguage (cur : Cursor) (rest : List Char) : Bool :=
  cur.depth = 0 && cur.column = 1 && "lang".toList.isPrefixOf rest &&
    (rest[4]? = some ' ' || rest[4]? = some '\t')

/-- A run that starts with `#` is a mark when a list is glued to it and it is free of escapes and
segments. -/
def hashRun (rest : List Char) : Lexeme :=
  let run := atom '#' rest
  let glued := (rest[run.more]?.bind Delimiter.ofOpener?).isSome
  if glued && !(rest.take run.more).any (fun c => c = '\\' || c = '"' || c = '|') then
    { kind := .quoteMark, tag? := some (.mark .hash), more := run.more }
  else run

/-- A token that starts with `#`. -/
def hash (cur : Cursor) (rest : List Char) : Lexeme :=
  if rest.head? = some '|' then blockComment rest
  else if rest.head? = some '!' && cur.offset = 0 then directive .shebang rest
  else if namesLanguage cur rest then directive .lang rest
  else if rest.head? = some ';' then quoteMark .datumComment
  else match markIn? QuoteMark.hashed ('#' :: rest) with
    | some mark => quoteMark mark
    | none => hashRun rest

/-- The token that starts at the cursor with the given character. -/
def read (cur : Cursor) (first : Char) (rest : List Char) : Lexeme :=
  if Text.isBlank first then blank first rest
  else if first = ';' then { kind := .lineComment, more := (Text.firstLine rest).length }
  else if first = '"' then string rest
  else if first = '#' then hash cur rest
  else match Delimiter.ofOpener? first, Delimiter.ofCloser? first with
    | some d, _ => { kind := .opening, tag? := some (.bracket d), more := 0 }
    | none, some d => { kind := .closing, tag? := some (.bracket d), more := 0 }
    | none, none =>
      match markIn? QuoteMark.plain (first :: rest) with
      | some mark => quoteMark mark
      | none => atom first rest

end Lexeme

/-- The tokens of the text at a cursor. The last one marks the end and is empty. -/
def scanFrom (file? : Option String) (cur : Cursor) : List Char → List Token
  | [] => [{ kind := .eof, text := [], loc := cur.locate file? cur }]
  | first :: rest =>
    let lexeme := Lexeme.read cur first rest
    let text := first :: rest.take lexeme.more
    let last := (cur.nest lexeme.kind).pass text
    { kind := lexeme.kind, tag? := lexeme.tag?, text, loc := cur.locate file? last
      closed := lexeme.closed } :: scanFrom file? last (rest.drop lexeme.more)
termination_by input => input.length

/-- The tokens hold every character of the text once, in order. -/
theorem flatMap_text_scanFrom (file? : Option String) (cur : Cursor) (input : List Char) :
    (scanFrom file? cur input).flatMap (·.text) = input := by
  fun_induction scanFrom file? cur input with
  | case1 => rfl
  | case2 cur first rest lexeme text last ih =>
    rw [List.flatMap_cons, ih]
    simp [text]

/-- The tokens of a source text. -/
def scan (file? : Option String) (source : List Char) : List Token :=
  scanFrom file? {} (Text.joinLineEnds source)

end SexprFormat.Token
