/-!
Patterns for names: `*` stands for any text, `?` for any character, and brackets for one of the
characters in them, or for one that is not in them after `!`.
-/

namespace SexprFormat

namespace Pattern

inductive Item where
  /-- Any text. -/
  | star
  /-- Any character. -/
  | any
  | one (c : Char)
  /-- A character in one of the closed ranges, or in none of them. -/
  | oneOf (negated : Bool) (ranges : List (Char × Char))
  deriving DecidableEq, Repr

/-- What stands between brackets: a character, or the dash of a range. -/
inductive Element where
  | char (c : Char)
  | dash
  deriving DecidableEq, Repr

/-- The text between brackets, given what follows the opening one. A closing bracket in front, or
behind `!`, is part of the text. -/
def bracketed? (s : List Char) : Option (List Char) :=
  let lead := match s with
    | '!' :: ']' :: _ => 2
    | '!' :: _ | ']' :: _ => 1
    | _ => 0
  let body := s.take lead ++ (s.drop lead).takeWhile (· ≠ ']')
  if body.length < s.length then some body else none

/-- Cuts the text between brackets at the dashes that make ranges. The first `skip` characters of
each part hold no such dash, nor does a dash at the end make a range. -/
def chunks (skip : Nat) : List Char → List (List Char)
  | [] => []
  | c :: cs =>
    let s := c :: cs
    let chunk := s.take skip ++ (s.drop skip).takeWhile (· ≠ '-')
    if s.length ≤ chunk.length then [s]
    else if cs.length ≤ chunk.length then [chunk ++ ['-']]
    else chunk :: chunks 2 (cs.drop chunk.length)
termination_by s => s.length
decreasing_by
  rw [List.length_drop, List.length_cons]
  omega

/-- Joins two chunks when the range between them is empty: its ends are lost. -/
def mergeChunks : List (List Char) → List (List Char)
  | [] => []
  | chunk :: rest =>
    match mergeChunks rest with
    | [] => [chunk]
    | next :: others =>
      match chunk.getLast?, next.head? with
      | some low, some high =>
        if high < low then (chunk.dropLast ++ next.drop 1) :: others else chunk :: next :: others
      | _, _ => chunk :: next :: others

/-- The chunks with the dashes between them. -/
def elements (parts : List (List Char)) : List Element :=
  [Element.dash].intercalate (parts.map (·.map .char))

def ranges : List Element → List (Char × Char)
  | .char low :: .dash :: .char high :: rest => (low, high) :: ranges rest
  | .char c :: rest => (c, c) :: ranges rest
  | .dash :: rest => ('-', '-') :: ranges rest
  | [] => []

/-- What the text between brackets stands for. -/
def charClass (body : List Char) : Item :=
  let skip := if body.head? = some '!' then 2 else 1
  match elements (mergeChunks (chunks skip body)) with
  | .char '!' :: rest => .oneOf true (ranges rest)
  | all => .oneOf false (ranges all)

/-- The items of a pattern. An opening bracket that is never closed stands for itself. -/
def items : List Char → List Item
  | [] => []
  | '*' :: rest => .star :: items rest
  | '?' :: rest => .any :: items rest
  | '[' :: rest =>
    match bracketed? rest with
    | some body => charClass body :: items (rest.drop (body.length + 1))
    | none => .one '[' :: items rest
  | c :: rest => .one c :: items rest
termination_by s => s.length

/-- Whether an item stands for a single character. -/
def Item.accepts : Item → Char → Bool
  | star, _ => false
  | any, _ => true
  | one c, d => c = d
  | oneOf negated ranges, c => (ranges.any fun (low, high) => low ≤ c && c ≤ high) != negated

/-- A text and all that is left of it when characters are taken from its front. -/
def suffixes : List Char → List (List Char)
  | [] => [[]]
  | c :: cs => (c :: cs) :: suffixes cs

/-- What an item leaves of the texts that may follow the items before it, longest first. -/
def leave (rests : List (List Char)) (item : Item) : List (List Char) :=
  match item, rests with
  | .star, [] => []
  | .star, longest :: _ => suffixes longest
  | item, rests => rests.filterMap fun
    | [] => none
    | c :: cs => if item.accepts c then some cs else none

def matchesItems (items : List Item) (s : List Char) : Bool :=
  (items.foldl leave [s]).contains []

end Pattern

/-- Whether a pattern stands for the whole of a text. -/
def Pattern.matches (pattern text : String) : Bool :=
  matchesItems (items pattern.toList) text.toList

end SexprFormat
