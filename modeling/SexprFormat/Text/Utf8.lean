/-!
Strict reading of UTF-8. A text is refused at the first byte from which no character can be read.
-/

namespace SexprFormat.Text

inductive Utf8Fault where
  | invalidStart
  | invalidContinuation
  | unexpectedEnd
  deriving DecidableEq, Repr

def Utf8Fault.text : Utf8Fault → String
  | invalidStart => "invalid start byte"
  | invalidContinuation => "invalid continuation byte"
  | unexpectedEnd => "unexpected end of data"

/-- Bytes that are no character: the first of them, its position, and how many there are. -/
structure Utf8Error where
  fault : Utf8Fault
  byte : UInt8
  position : Nat
  size : Nat
  deriving DecidableEq, Repr

def hexByte (b : UInt8) : String :=
  let digits := Nat.toDigits 16 b.toNat
  String.ofList (if digits.length < 2 then '0' :: digits else digits)

def Utf8Error.message (e : Utf8Error) : String :=
  let place :=
    if e.size = 1 then s!"byte 0x{hexByte e.byte} in position {e.position}"
    else s!"bytes in position {e.position}-{e.position + e.size - 1}"
  s!"'utf-8' codec can't decode {place}: {e.fault.text}"

/-- What a first byte says: the bits that it adds, and the ranges of the bytes that have to follow.
The ranges leave out longer forms than needed, surrogates and numbers that are too large. -/
def utf8Lead? (b : Nat) : Option (Nat × List (Nat × Nat)) :=
  let tail := (0x80, 0xbf)
  if b < 0x80 then some (b, [])
  else if b < 0xc2 then none
  else if b < 0xe0 then some (b - 0xc0, [tail])
  else if b = 0xe0 then some (0, [(0xa0, 0xbf), tail])
  else if b = 0xed then some (0xd, [(0x80, 0x9f), tail])
  else if b < 0xf0 then some (b - 0xe0, [tail, tail])
  else if b = 0xf0 then some (0, [(0x90, 0xbf), tail, tail])
  else if b < 0xf4 then some (b - 0xf0, [tail, tail, tail])
  else if b = 0xf4 then some (4, [(0x80, 0x8f), tail, tail])
  else none

/-- Reads the bytes that have to follow. Fails with the fault and how many bytes were right. -/
def utf8Tail (value : Nat) : List (Nat × Nat) → List UInt8 → Except (Utf8Fault × Nat) Nat
  | [], _ => .ok value
  | _ :: _, [] => .error (.unexpectedEnd, 0)
  | (low, high) :: ranges, b :: rest =>
    if low ≤ b.toNat && b.toNat ≤ high then
      let tail := utf8Tail (value * 64 + (b.toNat - 0x80)) ranges rest
      tail.mapError fun (fault, right) => (fault, right + 1)
    else .error (.invalidContinuation, 0)

/-- Reads all characters from a position on. -/
def decodeFrom (position : Nat) : List UInt8 → Except Utf8Error (List Char)
  | [] => .ok []
  | b :: rest =>
    match utf8Lead? b.toNat with
    | none => .error { fault := .invalidStart, byte := b, position, size := 1 }
    | some (value, ranges) =>
      match utf8Tail value ranges rest with
      | .error (fault, right) => .error { fault, byte := b, position, size := 1 + right }
      | .ok code =>
        let size := ranges.length
        (decodeFrom (position + 1 + size) (rest.drop size)).map (Char.ofNat code :: ·)
termination_by bytes => bytes.length

def decodeUtf8 (bytes : List UInt8) : Except Utf8Error (List Char) :=
  decodeFrom 0 bytes

def encodeUtf8 (s : List Char) : List UInt8 :=
  s.flatMap String.utf8EncodeChar

end SexprFormat.Text
