import SexprFormat.Text.Blank
import SexprFormat.Text.DecimalDigit

/-!
Reading an integer: white space around it, one sign, decimal digits of any script, and single
underscores between digits.
-/

namespace SexprFormat.Text

/-- The most digits an integer may be written with. -/
def maxDigits : Nat := 4300

/-- White space that may stand around an integer: all but the four information separators. -/
def isNumeralMargin (c : Char) : Bool :=
  isBlank c && !(0x1c ≤ c.toNat && c.toNat ≤ 0x1f)

/-- The values of the digits, when each underscore stands between two digits. `start` tells that no
digit stands just before. -/
def digitValues? (start : Bool) : List Char → Option (List Nat)
  | [] => if start then none else some []
  | '_' :: rest => if start then none else digitValues? true rest
  | c :: rest => do
    let d ← digitValue? c
    let ds ← digitValues? false rest
    pure (d :: ds)

def natural? (s : List Char) : Option Nat := do
  let ds ← digitValues? true s
  if ds.length ≤ maxDigits then pure (ds.foldl (fun n d => 10 * n + d) 0) else none

def integer? (s : List Char) : Option Int :=
  let inner := (s.dropWhile isNumeralMargin).reverse.dropWhile isNumeralMargin |>.reverse
  match inner with
  | '+' :: rest => (natural? rest).map Int.ofNat
  | '-' :: rest => (natural? rest).map fun n => -Int.ofNat n
  | rest => (natural? rest).map Int.ofNat

/-- An integer in decimal digits. -/
def ofInt (n : Int) : List Char :=
  (toString n).toList

end SexprFormat.Text
