import Mathlib.Data.List.Forall2
import SexprFormat.Text.Utf8

/-!
Reading UTF-8 is strict: bytes are read as a text exactly if they are the ones that the text is
written with. Main statement: `decodeUtf8_eq_ok_iff`.
-/

namespace SexprFormat.Text

/-- A first byte, by the number of bytes behind it: the bits that it adds and the ranges of those
bytes. Only the second byte can have a range of its own. -/
inductive Lead (b : Nat) : Nat → List (Nat × Nat) → Prop where
  | one : b < 0x80 → Lead b b []
  | two : 0xc2 ≤ b → b < 0xe0 → Lead b (b - 0xc0) [(0x80, 0xbf)]
  | three : 0xe0 ≤ b → b < 0xf0 → Lead b (b - 0xe0)
      [(if b = 0xe0 then 0xa0 else 0x80, if b = 0xed then 0x9f else 0xbf), (0x80, 0xbf)]
  | four : 0xf0 ≤ b → b < 0xf5 → Lead b (b - 0xf0)
      [(if b = 0xf0 then 0x90 else 0x80, if b = 0xf4 then 0x8f else 0xbf),
        (0x80, 0xbf), (0x80, 0xbf)]

namespace Lead

theorem utf8Lead {b value : Nat} {ranges : List (Nat × Nat)} (h : Lead b value ranges) :
    utf8Lead? b = some (value, ranges) := by
  cases h <;> grind [utf8Lead?]

theorem of_utf8Lead {b value : Nat} {ranges : List (Nat × Nat)}
    (h : utf8Lead? b = some (value, ranges)) : Lead b value ranges := by
  have same {value' : Nat} {ranges' : List (Nat × Nat)} (lead : Lead b value' ranges') :
      Lead b value ranges := by
    obtain ⟨rfl, rfl⟩ : value' = value ∧ ranges' = ranges := by simpa [lead.utf8Lead] using h
    exact lead
  by_cases two : b < 0xc2
  · by_cases one : b < 0x80
    · exact same (.one one)
    · grind [utf8Lead?]
  by_cases three : b < 0xe0
  · exact same (.two (by omega) three)
  by_cases four : b < 0xf0
  · exact same (.three (by omega) four)
  by_cases five : b < 0xf5
  · exact same (.four (by omega) five)
  · grind [utf8Lead?]

end Lead

def InRange (range : Nat × Nat) (b : UInt8) : Prop :=
  range.1 ≤ b.toNat ∧ b.toNat ≤ range.2

/-- The number that a first byte and those behind it stand for. -/
def codeOf (value : Nat) (tail : List UInt8) : Nat :=
  tail.foldl (fun v b => v * 64 + (b.toNat - 0x80)) value

theorem codeOf_nil (value : Nat) : codeOf value [] = value := List.foldl_nil

theorem codeOf_cons (value : Nat) (b : UInt8) (tail : List UInt8) :
    codeOf value (b :: tail) = codeOf (value * 64 + (b.toNat - 0x80)) tail := List.foldl_cons ..

theorem utf8Tail_eq_ok_iff {value : Nat} {ranges : List (Nat × Nat)} {bytes : List UInt8}
    {code : Nat} :
    utf8Tail value ranges bytes = .ok code ↔
      ∃ tail rest, bytes = tail ++ rest ∧ List.Forall₂ InRange ranges tail ∧
      codeOf value tail = code := by
  induction ranges generalizing value bytes with
  | nil => simp [utf8Tail, codeOf_nil]
  | cons range ranges ih =>
    cases bytes with
    | nil => simp [utf8Tail, List.forall₂_cons_left_iff]
    | cons b bytes =>
      have first : (∃ tail rest, b :: bytes = tail ++ rest ∧
          List.Forall₂ InRange (range :: ranges) tail ∧ codeOf value tail = code) ↔
          InRange range b ∧ utf8Tail (value * 64 + (b.toNat - 0x80)) ranges bytes = .ok code := by
        rw [ih]
        constructor
        · rintro ⟨tail, rest, split, fits, sum⟩
          cases fits with
          | cons fit fits =>
            obtain ⟨rfl, rfl⟩ := List.cons_eq_cons.mp split
            exact ⟨fit, _, rest, rfl, fits, by rwa [codeOf_cons] at sum⟩
        · rintro ⟨fit, tail, rest, rfl, fits, sum⟩
          exact ⟨b :: tail, rest, rfl, .cons fit fits, by rwa [codeOf_cons]⟩
      rw [first, utf8Tail]
      by_cases h : InRange range b
      · rw [if_pos (by simpa [InRange] using h)]
        cases utf8Tail (value * 64 + (b.toNat - 0x80)) ranges bytes <;> simp [Except.mapError, h]
      · rw [if_neg (by simpa [InRange] using h)]
        simp [h]

/-- A character starts with a byte that asks for the ones behind it. -/
theorem exists_lead (c : Char) : ∃ b tail value ranges, String.utf8EncodeChar c = b :: tail ∧
    Lead b.toNat value ranges ∧ List.Forall₂ InRange ranges tail ∧ codeOf value tail = c.toNat := by
  have valid : c.toNat < 0xd800 ∨ 0xdfff < c.toNat ∧ c.toNat < 0x110000 := c.valid
  have same : c.val.toNat = c.toNat := rfl
  rw [String.utf8EncodeChar, same]
  generalize c.toNat = v at valid
  by_cases one : v ≤ 127
  · refine ⟨_, [], _, _, if_pos one, .one ?_, .nil, ?_⟩
    all_goals simp only [codeOf_nil, UInt8.toNat_ofNat']; omega
  rw [if_neg one]
  by_cases two : v ≤ 2047
  · refine ⟨_, _, _, _, if_pos two, .two ?_ ?_, .cons ⟨?_, ?_⟩ .nil, ?_⟩
    all_goals simp only [codeOf_nil, codeOf_cons, UInt8.toNat_ofNat']; omega
  rw [if_neg two]
  by_cases three : v ≤ 65535
  · refine ⟨_, _, _, _, if_pos three, .three ?_ ?_, .cons ⟨?low, ?high⟩ (.cons ⟨?_, ?_⟩ .nil), ?_⟩
    all_goals simp only [codeOf_nil, codeOf_cons, UInt8.toNat_ofNat']
    case low | high => split <;> omega
    all_goals omega
  · refine ⟨_, _, _, _, if_neg three, .four ?_ ?_,
      .cons ⟨?low, ?high⟩ (.cons ⟨?_, ?_⟩ (.cons ⟨?_, ?_⟩ .nil)), ?_⟩
    all_goals simp only [codeOf_nil, codeOf_cons, UInt8.toNat_ofNat']
    case low | high => split <;> omega
    all_goals omega

theorem toNat_ofNat {n : Nat} (h : n.isValidChar) : (Char.ofNat n).val.toNat = n := by
  rw [Char.ofNat, dif_pos h]
  rfl

theorem ofNat_eq_byte {n : Nat} {b : UInt8} (h : n = b.toNat) : UInt8.ofNat n = b := by
  rw [h, UInt8.ofNat_toNat]

/-- The bytes that a first byte asks for are those of a character. -/
theorem Lead.encode {b : UInt8} {tail : List UInt8} {value : Nat} {ranges : List (Nat × Nat)}
    (lead : Lead b.toNat value ranges) (h : List.Forall₂ InRange ranges tail) :
    String.utf8EncodeChar (Char.ofNat (codeOf value tail)) = b :: tail := by
  cases lead with
  | one small =>
    cases h
    have valid : b.toNat.isValidChar := .inl (by omega)
    rw [codeOf_nil, String.utf8EncodeChar, toNat_ofNat valid, if_pos (by omega), UInt8.ofNat_toNat]
  | two low high =>
    obtain _ | @⟨_, c, _, _, ⟨hc, hc'⟩, _ | _⟩ := h
    simp only [codeOf_cons, codeOf_nil]
    have valid : ((b.toNat - 0xc0) * 64 + (c.toNat - 0x80)).isValidChar := .inl (by omega)
    rw [String.utf8EncodeChar, toNat_ofNat valid, if_neg (by omega), if_pos (by omega)]
    rw [ofNat_eq_byte (b := b) (by omega), ofNat_eq_byte (b := c) (by omega)]
  | three low high =>
    obtain _ | @⟨_, c, _, _, ⟨hc, hc'⟩, _ | @⟨_, d, _, _, ⟨hd, hd'⟩, _ | _⟩⟩ := h
    simp only at hc hc'
    simp only [codeOf_cons, codeOf_nil]
    have low' : 0x80 ≤ c.toNat ∧ (b.toNat = 0xe0 → 0xa0 ≤ c.toNat) := by split at hc <;> omega
    have high' : c.toNat ≤ 0xbf ∧ (b.toNat = 0xed → c.toNat ≤ 0x9f) := by split at hc' <;> omega
    have valid :
        (((b.toNat - 0xe0) * 64 + (c.toNat - 0x80)) * 64 + (d.toNat - 0x80)).isValidChar := by
      rw [Nat.isValidChar]
      omega
    rw [String.utf8EncodeChar, toNat_ofNat valid, if_neg (by omega), if_neg (by omega),
      if_pos (by omega)]
    rw [ofNat_eq_byte (b := b) (by omega), ofNat_eq_byte (b := c) (by omega),
      ofNat_eq_byte (b := d) (by omega)]
  | four low high =>
    obtain _ | @⟨_, c, _, _, ⟨hc, hc'⟩,
      _ | @⟨_, d, _, _, ⟨hd, hd'⟩, _ | @⟨_, e, _, _, ⟨he, he'⟩, _ | _⟩⟩⟩ := h
    simp only at hc hc'
    simp only [codeOf_cons, codeOf_nil]
    have low' : 0x80 ≤ c.toNat ∧ (b.toNat = 0xf0 → 0x90 ≤ c.toNat) := by split at hc <;> omega
    have high' : c.toNat ≤ 0xbf ∧ (b.toNat = 0xf4 → c.toNat ≤ 0x8f) := by split at hc' <;> omega
    have valid : ((((b.toNat - 0xf0) * 64 + (c.toNat - 0x80)) * 64 + (d.toNat - 0x80)) * 64 +
        (e.toNat - 0x80)).isValidChar := by
      rw [Nat.isValidChar]
      omega
    rw [String.utf8EncodeChar, toNat_ofNat valid, if_neg (by omega), if_neg (by omega),
      if_neg (by omega)]
    rw [ofNat_eq_byte (b := b) (by omega), ofNat_eq_byte (b := c) (by omega),
      ofNat_eq_byte (b := d) (by omega), ofNat_eq_byte (b := e) (by omega)]

theorem decodeFrom_append {b : UInt8} {tail : List UInt8} {value : Nat} {ranges : List (Nat × Nat)}
    (lead : Lead b.toNat value ranges) (fits : List.Forall₂ InRange ranges tail) (position : Nat)
    (rest : List UInt8) :
    decodeFrom position (b :: (tail ++ rest)) =
      (decodeFrom (position + 1 + ranges.length) rest).map
        (Char.ofNat (codeOf value tail) :: ·) := by
  have read : utf8Tail value ranges (tail ++ rest) = .ok (codeOf value tail) :=
    utf8Tail_eq_ok_iff.mpr ⟨tail, rest, rfl, fits, rfl⟩
  rw [decodeFrom, lead.utf8Lead]
  simp only [read]
  rw [fits.length_eq, List.drop_left]

theorem decodeFrom_encode (s : List Char) (position : Nat) :
    decodeFrom position (encodeUtf8 s) = .ok s := by
  induction s generalizing position with
  | nil => rw [encodeUtf8, List.flatMap_nil, decodeFrom]
  | cons c s ih =>
    obtain ⟨b, tail, value, ranges, bytes, lead, fits, code⟩ := exists_lead c
    rw [encodeUtf8, List.flatMap_cons, bytes, List.cons_append, decodeFrom_append lead fits, code,
      Char.ofNat_toNat]
    change (decodeFrom _ (encodeUtf8 s)).map _ = _
    rw [ih]
    rfl

theorem encode_of_decodeFrom {position : Nat} {bytes : List UInt8} {s : List Char}
    (h : decodeFrom position bytes = .ok s) : encodeUtf8 s = bytes := by
  fun_induction decodeFrom position bytes generalizing s with
  | case1 =>
    cases h
    rfl
  | case2 | case3 => cases h
  | case4 position b bytes value ranges found code read size =>
    rename_i ih
    obtain ⟨tail, rest, rfl, fits, rfl⟩ := utf8Tail_eq_ok_iff.mp read
    have behind : (tail ++ rest).drop size = rest := by
      rw [show size = tail.length from fits.length_eq, List.drop_left]
    rw [behind] at h ih
    cases later : decodeFrom (position + 1 + size) rest with
    | error e =>
      rw [later] at h
      cases h
    | ok s' =>
      rw [later] at h
      cases h
      rw [encodeUtf8, List.flatMap_cons, (Lead.of_utf8Lead found).encode fits, List.cons_append]
      exact congrArg (b :: tail ++ ·) (ih later)

/-- Bytes are read as a text exactly if they are the ones that it is written with. -/
theorem decodeUtf8_eq_ok_iff {bytes : List UInt8} {s : List Char} :
    decodeUtf8 bytes = .ok s ↔ encodeUtf8 s = bytes :=
  ⟨encode_of_decodeFrom, fun h => h ▸ decodeFrom_encode s 0⟩

end SexprFormat.Text
