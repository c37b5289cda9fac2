import SexprFormat.Token.Extent

/-!
What an extent depends on. A segment and a block comment that are closed end where they end whatever
follows; an atom also needs that the input ends behind it or goes on with a boundary. `Enclosed` and
`CommentText` are the grammars of the first two, which do not mention the scan.
-/

namespace SexprFormat.Token

namespace Quoting

/-- Where a scan stands behind a text. -/
def run (q : Quoting) (s : List Char) : Quoting :=
  s.foldl next q

@[simp] theorem run_nil (q : Quoting) : q.run [] = q := rfl

@[simp] theorem run_cons (q : Quoting) (c : Char) (s : List Char) :
    q.run (c :: s) = (q.next c).run s := rfl

theorem run_append (q : Quoting) (s t : List Char) : q.run (s ++ t) = (q.run s).run t := by
  simp [run]

/-- A backslash opens an escape unless it is escaped itself. -/
theorem escaped_next (q : Quoting) (c : Char) : (q.next c).escaped = (!q.escaped && c = '\\') := by
  obtain ⟨mark?, escaped⟩ := q
  cases escaped <;> cases mark? <;> grind [next, outside, inside]

theorem next_escaped {q : Quoting} {c : Char} (h : (q.next c).escaped) : c = '\\' := by
  rw [escaped_next, Bool.and_eq_true] at h
  exact of_decide_eq_true h.2

/-- An escape is open only behind a backslash. -/
theorem getLast_of_escaped {q : Quoting} {s : List Char} (h : (q.run s).escaped) (hs : s ≠ []) :
    s.getLast? = some '\\' := by
  induction s generalizing q with
  | nil => exact absurd rfl hs
  | cons c s ih =>
    cases s with
    | nil => simp [next_escaped h]
    | cons d s => simpa using ih h (List.cons_ne_nil d s)

theorem run_escape {q : Quoting} (h : q.escaped = false) (c : Char) (s : List Char) :
    q.run ('\\' :: c :: s) = q.run s := by
  obtain ⟨mark?, escaped⟩ := q
  obtain rfl : escaped = false := h
  rfl

theorem next_inside {mark c : Char} (hb : c ≠ '\\') (hm : c ≠ mark) :
    (inside mark).next c = inside mark := by
  simp [next, inside, hb, hm]

theorem next_mark {mark : Char} (hb : mark ≠ '\\') : (inside mark).next mark = outside := by
  simp [next, inside, hb]

theorem inside_ne_outside (mark : Char) : inside mark ≠ outside := by
  simp [inside, outside]

end Quoting

/-- What may stand between two marks: escape pairs, and characters that are neither a backslash nor
the mark. -/
inductive Enclosed (mark : Char) : List Char → Prop where
  | nil : Enclosed mark []
  | escape (c : Char) {s : List Char} : Enclosed mark s → Enclosed mark ('\\' :: c :: s)
  | char {c : Char} {s : List Char} : c ≠ '\\' → c ≠ mark → Enclosed mark s → Enclosed mark (c :: s)

/-- The rest of a block comment in which `depth` comments are open, up to where all of them are
closed. A character that starts a mark together with the next one does not stand alone. -/
inductive CommentText : (depth : Nat) → List Char → Prop where
  | done : CommentText 0 []
  | opens {depth : Nat} {s : List Char} : CommentText (depth + 2) s →
      CommentText (depth + 1) ('#' :: '|' :: s)
  | closes {depth : Nat} {s : List Char} : CommentText depth s →
      CommentText (depth + 1) ('|' :: '#' :: s)
  | char {depth : Nat} {c : Char} {s : List Char} : ¬['#', '|'] <+: c :: s →
      ¬['|', '#'] <+: c :: s →
      CommentText (depth + 1) s → CommentText (depth + 1) (c :: s)

namespace Extent

@[simp] theorem size_after (n : Nat) (e : Extent) : (e.after n).size = n + e.size := rfl

@[simp] theorem closed_after (n : Nat) (e : Extent) : (e.after n).closed = e.closed := rfl

theorem eq_mk {e : Extent} {n : Nat} {b : Bool} (size : e.size = n) (closed : e.closed = b) :
    e = ⟨n, b⟩ := by
  subst size closed
  rfl

theorem after_eq {n m : Nat} {b : Bool} {e : Extent} (h : e.after n = ⟨m, b⟩) :
    e = ⟨m - n, b⟩ ∧ n ≤ m := by
  obtain ⟨size, closed⟩ := e
  simp only [after, mk.injEq] at h
  obtain ⟨rfl, rfl⟩ := h
  simp

end Extent

open Quoting

namespace Enclosed

variable {mark : Char} {s : List Char}

theorem run_eq (h : Enclosed mark s) : (inside mark).run s = inside mark := by
  induction h with
  | nil => rfl
  | escape c _ ih => rw [run_escape rfl, ih]
  | char hb hm _ ih => rw [run_cons, next_inside hb hm, ih]

theorem segment_append (h : Enclosed mark s) (rest : List Char) :
    Extent.segment (inside mark) (s ++ rest) =
      (Extent.segment (inside mark) rest).after s.length := by
  induction h with
  | nil => simp [Extent.after]
  | @escape c s _ ih =>
    have opened : (inside mark).next '\\' = ⟨some mark, true⟩ := rfl
    have passed : next ⟨some mark, true⟩ c = inside mark := rfl
    rw [List.cons_append, List.cons_append, Extent.segment, opened, if_neg (by simp [outside]),
      Extent.segment, passed, if_neg (inside_ne_outside mark), ih]
    simp [Extent.after]
    omega
  | char hb hm _ ih =>
    rw [List.cons_append, Extent.segment, next_inside hb hm, if_neg (inside_ne_outside mark), ih]
    simp [Extent.after]
    omega

/-- A segment goes on to the first mark behind what it encloses. -/
theorem segment_eq (h : Enclosed mark s) (hb : mark ≠ '\\') (rest : List Char) :
    Extent.segment (inside mark) (s ++ mark :: rest) = ⟨s.length + 1, true⟩ := by
  rw [h.segment_append, Extent.segment, if_pos (next_mark hb)]
  rfl

end Enclosed

/-- The text ends before a mark closes what was opened. -/
def StaysOpen (mark : Char) (s : List Char) : Prop :=
  (Extent.segment (inside mark) s).closed = false ∧ ((inside mark).run s).mark? = some mark

theorem Enclosed.staysOpen {mark : Char} {s rest : List Char} (h : Enclosed mark s)
    (opened : StaysOpen mark rest) : StaysOpen mark (s ++ rest) := by
  rw [StaysOpen, h.segment_append, run_append, h.run_eq]
  exact opened

theorem enclosed_or_staysOpen (mark : Char) : ∀ s : List Char,
    (∃ body rest, Enclosed mark body ∧ mark ≠ '\\' ∧ s = body ++ mark :: rest) ∨ StaysOpen mark s
  | [] => .inr ⟨rfl, rfl⟩
  | c :: s => by
    by_cases hb : c = '\\'
    · subst hb
      cases s with
      | nil => exact .inr ⟨rfl, rfl⟩
      | cons d s =>
        rcases enclosed_or_staysOpen mark s with ⟨body, rest, enclosed, hm, rfl⟩ | opened
        · exact .inl ⟨'\\' :: d :: body, rest, enclosed.escape d, hm, rfl⟩
        · exact .inr ((Enclosed.nil.escape d).staysOpen opened)
    · by_cases hm : c = mark
      · subst hm
        exact .inl ⟨[], s, .nil, hb, rfl⟩
      · rcases enclosed_or_staysOpen mark s with ⟨body, rest, enclosed, hm', rfl⟩ | opened
        · exact .inl ⟨c :: body, rest, enclosed.char hb hm, hm', rfl⟩
        · exact .inr ((Enclosed.nil.char hb hm).staysOpen opened)

/-- A segment is closed by the first mark that is not escaped. -/
theorem segment_eq_iff {mark : Char} {s : List Char} {n : Nat} :
    Extent.segment (inside mark) s = ⟨n, true⟩ ↔
      ∃ body rest, Enclosed mark body ∧ mark ≠ '\\' ∧ s = body ++ mark :: rest ∧
      n = body.length + 1 := by
  constructor
  · intro closed
    rcases enclosed_or_staysOpen mark s with ⟨body, rest, enclosed, hb, rfl⟩ | ⟨opened, _⟩
    · rw [enclosed.segment_eq hb, Extent.mk.injEq] at closed
      exact ⟨body, rest, enclosed, hb, rfl, closed.1.symm⟩
    · rw [closed] at opened
      cases opened
  · rintro ⟨body, rest, enclosed, hb, rfl, rfl⟩
    exact enclosed.segment_eq hb rest

theorem CommentText.exists_cons {depth : Nat} {s : List Char} (h : CommentText (depth + 1) s) :
    ∃ c rest, s = c :: rest := by
  cases h with
  | opens _ | closes _ | char _ _ _ => exact ⟨_, _, rfl⟩

theorem CommentText.blockComment_eq {depth : Nat} {s : List Char} (h : CommentText depth s)
    (rest : List Char) : Extent.blockComment depth (s ++ rest) = ⟨s.length, true⟩ := by
  induction h with
  | done =>
    rw [Extent.blockComment]
    rfl
  | opens _ ih | closes _ ih =>
    rw [List.cons_append, List.cons_append, Extent.blockComment, ih]
    simp [Extent.after]
    omega
  | char notOpening notClosing goesOn ih =>
    -- The comment goes on, so the mark would have to stand in its own text.
    obtain ⟨d, s, rfl⟩ := goesOn.exists_cons
    rw [List.cons_append, Extent.blockComment, ih]
    · simp [Extent.after]
      omega
    · rintro _ rfl same
      obtain ⟨rfl, _⟩ := List.cons.inj same
      exact notOpening ⟨s, rfl⟩
    · rintro _ rfl same
      obtain ⟨rfl, _⟩ := List.cons.inj same
      exact notClosing ⟨s, rfl⟩

theorem commentText_of_blockComment {depth : Nat} {s : List Char} {n : Nat}
    (h : Extent.blockComment depth s = ⟨n, true⟩) :
    n ≤ s.length ∧ CommentText depth (s.take n) := by
  fun_induction Extent.blockComment depth s generalizing n with
  | case1 s =>
    obtain rfl : 0 = n := congrArg Extent.size h
    exact ⟨Nat.zero_le _, .done⟩
  | case2 => simp at h
  | case3 depth s ih =>
    obtain ⟨h, hn⟩ := Extent.after_eq h
    obtain ⟨n, rfl⟩ : ∃ m, n = m + 2 := ⟨n - 2, by omega⟩
    obtain ⟨bound, text⟩ := ih h
    exact ⟨by simpa using bound, .opens text⟩
  | case4 depth s ih =>
    obtain ⟨h, hn⟩ := Extent.after_eq h
    obtain ⟨n, rfl⟩ : ∃ m, n = m + 2 := ⟨n - 2, by omega⟩
    obtain ⟨bound, text⟩ := ih h
    exact ⟨by simpa using bound, .closes text⟩
  | case5 depth c s notOpening notClosing ih =>
    obtain ⟨h, hn⟩ := Extent.after_eq h
    obtain ⟨n, rfl⟩ : ∃ m, n = m + 1 := ⟨n - 1, by omega⟩
    obtain ⟨bound, text⟩ := ih h
    refine ⟨by simpa using bound, .char ?_ ?_ text⟩
    · intro mark
      obtain ⟨rest, split⟩ := mark.trans (List.cons_prefix_cons.mpr ⟨rfl, List.take_prefix n s⟩)
      obtain ⟨rfl, rfl⟩ := List.cons.inj split
      exact notOpening _ rfl rfl
    · intro mark
      obtain ⟨rest, split⟩ := mark.trans (List.cons_prefix_cons.mpr ⟨rfl, List.take_prefix n s⟩)
      obtain ⟨rfl, rfl⟩ := List.cons.inj split
      exact notClosing _ rfl rfl

theorem CommentText.getLast {depth : Nat} {s : List Char} (h : CommentText depth s) :
    s.getLast?.all (· = '#') := by
  induction h with
  | done => rfl
  | @opens depth s goesOn ih =>
    obtain ⟨c, rest, rfl⟩ := goesOn.exists_cons
    simpa using ih
  | @closes depth s _ ih =>
    cases s with
    | nil => rfl
    | cons c rest => simpa using ih
  | char _ _ goesOn ih =>
    obtain ⟨c, rest, rfl⟩ := goesOn.exists_cons
    simpa using ih

namespace Extent

/-- A segment that is closed does not depend on what follows it. -/
theorem segment_take {mark : Char} {s : List Char} {n : Nat}
    (h : segment (inside mark) s = ⟨n, true⟩)
    (rest : List Char) : n ≤ s.length ∧ segment (inside mark) (s.take n ++ rest) = ⟨n, true⟩ := by
  obtain ⟨body, tail, enclosed, hb, rfl, rfl⟩ := segment_eq_iff.mp h
  refine ⟨by simp, segment_eq_iff.mpr ⟨body, rest, enclosed, hb, ?_, rfl⟩⟩
  rw [List.take_length_add_append]
  simp

/-- A closed segment ends with its mark. -/
theorem getLast_of_segment {mark : Char} {s : List Char}
    (h : segment (inside mark) s = ⟨s.length, true⟩) :
    s.getLast? = some mark := by
  obtain ⟨body, tail, _, _, rfl, length⟩ := segment_eq_iff.mp h
  have none : tail = [] := by simpa using length
  simp [none]

/-- A block comment that is closed does not depend on what follows it. -/
theorem blockComment_take {depth : Nat} {s : List Char} {n : Nat}
    (h : blockComment depth s = ⟨n, true⟩) (rest : List Char) :
    n ≤ s.length ∧ blockComment depth (s.take n ++ rest) = ⟨n, true⟩ := by
  obtain ⟨bound, text⟩ := commentText_of_blockComment h
  refine ⟨bound, ?_⟩
  rw [text.blockComment_eq, List.length_take, Nat.min_eq_left bound]

/-- The last character of a block comment that is closed. -/
theorem getLast_of_blockComment {depth : Nat} {s : List Char}
    (h : blockComment (depth + 1) s = ⟨s.length, true⟩) : s.getLast? = some '#' := by
  have text := (commentText_of_blockComment h).2
  rw [List.take_length] at text
  obtain ⟨c, rest, rfl⟩ := text.exists_cons
  simpa [List.getLast?_cons] using text.getLast

/-- No boundary stands outside of the segments of a text. -/
def solid (q : Quoting) : List Char → Bool
  | [] => true
  | c :: s => !(q = .outside && isBoundary c) && solid (q.next c) s

theorem solid_append (q : Quoting) (s t : List Char) :
    solid q (s ++ t) = (solid q s && solid (q.run s) t) := by
  induction s generalizing q with
  | nil => rfl
  | cons c s ih => simp [solid, ih, Bool.and_assoc]

theorem atom_append {q : Quoting} {s : List Char} (h : solid q s) (rest : List Char) :
    atom q (s ++ rest) = (atom (q.run s) rest).after s.length := by
  induction s generalizing q with
  | nil => simp [after]
  | cons c s ih =>
    simp only [solid, Bool.and_eq_true, Bool.not_eq_true'] at h
    rw [List.cons_append, atom, h.1, ih h.2]
    simp [after]
    omega

/-- Outside of any segment an atom ends with the input or at a boundary. -/
theorem atom_of_boundary {rest : List Char} (h : rest.head?.all isBoundary) :
    atom .outside rest = ⟨0, true⟩ := by
  cases rest with
  | nil => rfl
  | cons c rest =>
    have boundary : isBoundary c := h
    simp [atom, boundary]

/-- An atom reaches to the end of the input or to the first boundary outside of its segments. -/
theorem atom_cases {q : Quoting} {s : List Char} {n : Nat} {closed : Bool}
    (h : atom q s = ⟨n, closed⟩) :
    n ≤ s.length ∧ solid q (s.take n) ∧
      ((s.drop n = [] ∧ closed = (q.run (s.take n)).mark?.isNone) ∨
        (q.run (s.take n) = .outside ∧ closed = true ∧
          ∃ c rest, s.drop n = c :: rest ∧ isBoundary c)) := by
  induction s generalizing q n with
  | nil =>
    simp only [atom, mk.injEq] at h
    obtain ⟨rfl, rfl⟩ := h
    simp [solid]
  | cons c s ih =>
    unfold atom at h
    split at h
    · rename_i ends
      simp only [mk.injEq] at h
      obtain ⟨rfl, rfl⟩ := h
      simp only [Bool.and_eq_true, decide_eq_true_eq] at ends
      exact ⟨Nat.zero_le _, rfl, .inr ⟨ends.1, rfl, c, s, rfl, ends.2⟩⟩
    · rename_i goes
      obtain ⟨h, hn⟩ := after_eq h
      obtain ⟨hlen, hsolid, hend⟩ := ih h
      obtain ⟨n, rfl⟩ : ∃ m, n = m + 1 := ⟨n - 1, by omega⟩
      simp only [Nat.add_sub_cancel] at hlen hsolid hend
      refine ⟨by simpa using hlen, ?_, by simpa using hend⟩
      simp [solid, hsolid, goes]

end Extent

end SexprFormat.Token
