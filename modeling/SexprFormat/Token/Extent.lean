import SexprFormat.Delimiter
import SexprFormat.Text.Blank

/-!
How far strings, atoms and block comments reach. An extent counts characters of the input and
tells whether the literal was closed before the input ended.
-/

namespace SexprFormat.Token

/-- What separates atoms: white space, brackets and the start of a line comment. -/
def isBoundary (c : Char) : Bool :=
  Text.isBlank c || c = ';' || (Delimiter.ofChar? c).isSome

/-- Where a scan stands with respect to segments in quotes or bars and to escapes. -/
structure Quoting where
  /-- The mark that closes the open segment. -/
  mark? : Option Char := none
  /-- The last character was a backslash that escapes the next one. -/
  escaped : Bool := false
  deriving DecidableEq, Repr

namespace Quoting

/-- Outside of any segment. -/
def outside : Quoting := {}

/-- Just inside of a segment. -/
def inside (mark : Char) : Quoting := { mark? := some mark }

def next (q : Quoting) (c : Char) : Quoting :=
  if q.escaped then { q with escaped := false }
  else if c = '\\' then { q with escaped := true }
  else match q.mark? with
    | some mark => if c = mark then outside else q
    | none => if c = '"' || c = '|' then inside c else q

end Quoting

structure Extent where
  size : Nat
  closed : Bool
  deriving DecidableEq, Repr

namespace Extent

/-- The same extent with characters in front of it. -/
def after (n : Nat) (e : Extent) : Extent :=
  { e with size := n + e.size }

/-- The rest of a segment, to the mark that closes it. -/
def segment (q : Quoting) : List Char → Extent
  | [] => ⟨0, false⟩
  | c :: rest =>
    if q.next c = .outside then ⟨1, true⟩ else (segment (q.next c) rest).after 1

/-- The rest of an atom: to a boundary outside of any segment. Only an open segment leaves it
unclosed. -/
def atom (q : Quoting) : List Char → Extent
  | [] => ⟨0, q.mark?.isNone⟩
  | c :: rest =>
    if q = .outside && isBoundary c then ⟨0, true⟩ else (atom (q.next c) rest).after 1

/-- The rest of a block comment in which `depth` comments are open. -/
def blockComment : (depth : Nat) → List Char → Extent
  | 0, _ => ⟨0, true⟩
  | _ + 1, [] => ⟨0, false⟩
  | depth + 1, '#' :: '|' :: rest => (blockComment (depth + 2) rest).after 2
  | depth + 1, '|' :: '#' :: rest => (blockComment depth rest).after 2
  | depth + 1, _ :: rest => (blockComment (depth + 1) rest).after 1

end Extent

end SexprFormat.Token
