import SexprFormat.Text.Lines

/-!
Offsets in a text: the line and the column of a character, and the text between two of them.
-/

namespace SexprFormat.Text

/-- The line on which the character at an offset stands, counted from one. -/
def lineOf (s : List Char) (offset : Nat) : Nat :=
  1 + (s.take offset).count '\n'

/-- The column of the character at an offset, counted from one. -/
def columnOf (s : List Char) (offset : Nat) : Nat :=
  1 + (lastLine (s.take offset)).length

theorem lineOf_pos (s : List Char) (offset : Nat) : 0 < lineOf s offset := by
  unfold lineOf
  omega

theorem columnOf_pos (s : List Char) (offset : Nat) : 0 < columnOf s offset := by
  unfold columnOf
  omega

/-- The text between two offsets. -/
def slice (s : List Char) (first last : Nat) : List Char :=
  (s.take last).drop first

theorem take_append_slice (s : List Char) {first last : Nat} (h : first ≤ last) :
    s.take first ++ slice s first last = s.take last := by
  rw [slice, List.drop_take, ← List.take_add, Nat.add_sub_of_le h]

theorem length_slice {s : List Char} {first last : Nat} (h : last ≤ s.length) :
    (slice s first last).length = last - first := by
  rw [slice, List.length_drop, List.length_take, Nat.min_eq_left h]

theorem slice_append (s : List Char) {a b c : Nat} (hab : a ≤ b) (hbc : b ≤ c) :
    slice s a b ++ slice s b c = slice s a c := by
  have joined : s.take a ++ (slice s a b ++ slice s b c) = s.take a ++ slice s a c := by
    rw [← List.append_assoc, take_append_slice s hab, take_append_slice s hbc,
      take_append_slice s (Nat.le_trans hab hbc)]
  exact List.append_cancel_left joined

theorem getElem_of_slice {s text : List Char} {c : Char} {first last : Nat}
    (h : slice s first last = text ++ [c]) (le : first ≤ last) (bound : last ≤ s.length) :
    s[last - 1]? = some c := by
  have front := take_append_slice s le
  rw [h, ← List.append_assoc] at front
  have length := congrArg List.length front
  rw [List.length_append, List.length_singleton, List.length_take, Nat.min_eq_left bound] at length
  have here : last - 1 = (s.take first ++ text).length := by omega
  have char : (s.take last)[last - 1]? = some c := by
    rw [← front, here, List.getElem?_concat_length]
  rwa [List.getElem?_take_of_lt (by omega)] at char

/-- The line behind a character is its own unless it is a line feed. -/
theorem lineOf_eq_iff {s : List Char} {last : Nat} (positive : 0 < last) (bound : last ≤ s.length) :
    lineOf s last = lineOf s (last - 1) ↔ s[last - 1]? ≠ some '\n' := by
  obtain ⟨n, rfl⟩ : ∃ n, last = n + 1 := ⟨last - 1, by omega⟩
  have inside : n < s.length := bound
  rw [Nat.add_sub_cancel, lineOf, lineOf, List.take_add_one, List.getElem?_eq_getElem inside,
    Option.toList_some, List.count_append, List.count_singleton]
  by_cases feed : s[n] = '\n' <;> simp [feed]

theorem lineOf_eq (s : List Char) {first last : Nat} (h : first ≤ last) :
    lineOf s last = lineOf s first + (slice s first last).count '\n' := by
  rw [lineOf, lineOf, ← take_append_slice s h, List.count_append, Nat.add_assoc]

end SexprFormat.Text
