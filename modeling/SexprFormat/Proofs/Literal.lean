import Mathlib.Data.List.DropRight
import SexprFormat.Proofs.Extent
import SexprFormat.Proofs.Offset

/-!
The own text of a literal tells where it ends. `AtomText` is the grammar of atoms, beside those of
segments and block comments, and `atomText_iff` says that scanning follows it. Main statement:
`literals_delimited`, for literals at any offset of a text.
-/

namespace SexprFormat

namespace Text

/-- The second text has the characters of the first one between two offsets. -/
def AgreesOn (first last : Nat) (s t : List Char) : Prop :=
  ∀ k < last, first ≤ k → t[k]? = s[k]?

instance (first last : Nat) (s t : List Char) : Decidable (AgreesOn first last s t) :=
  inferInstanceAs (Decidable (∀ k < last, first ≤ k → t[k]? = s[k]?))

theorem slice_append_drop (s : List Char) {first last : Nat} (h : first ≤ last) :
    slice s first last ++ s.drop last = s.drop first := by
  have all : s.take first ++ (slice s first last ++ s.drop last) =
      s.take first ++ s.drop first := by
    rw [← List.append_assoc, take_append_slice s h, List.take_append_drop, List.take_append_drop]
  exact List.append_cancel_left all

theorem slice_add (s : List Char) (first n : Nat) :
    slice s first (first + n) = (s.drop first).take n := by
  rw [slice, List.drop_take, Nat.add_sub_cancel_left]

theorem lt_of_slice {s rest : List Char} {c : Char} {first last : Nat}
    (h : slice s first last = c :: rest) : first < last := by
  have length := congrArg List.length h
  rw [slice, List.length_drop, List.length_take, List.length_cons] at length
  omega

theorem AgreesOn.slice_eq {first last : Nat} {s t : List Char} (h : AgreesOn first last s t) :
    slice t first last = slice s first last := by
  apply List.ext_getElem?
  intro k
  rw [slice, slice, List.getElem?_drop, List.getElem?_drop, List.getElem?_take, List.getElem?_take]
  by_cases inside : first + k < last
  · rw [if_pos inside, if_pos inside, h _ inside (Nat.le_add_right ..)]
  · rw [if_neg inside, if_neg inside]

/-- What a text goes on with is what the other one does, up to where they agree. -/
theorem AgreesOn.drop_eq {first n : Nat} {s t : List Char} (h : AgreesOn first (first + n) s t) :
    t.drop first = (s.drop first).take n ++ t.drop (first + n) := by
  rw [← slice_append_drop t (Nat.le_add_right first n), h.slice_eq, slice_add]

theorem AgreesOn.mono {first first' last : Nat} {s t : List Char} (h : AgreesOn first last s t)
    (le : first ≤ first') : AgreesOn first' last s t :=
  fun k inside hk => h k inside (Nat.le_trans le hk)

theorem AgreesOn.bound {first last : Nat} {s t : List Char} (h : AgreesOn first last s t)
    (lt : first < last) (le : last ≤ s.length) : last ≤ t.length := by
  have same := h (last - 1) (by omega) (by omega)
  rw [List.getElem?_eq_getElem (by omega : last - 1 < s.length)] at same
  have inside := (List.getElem?_eq_some_iff.mp same).1
  omega

end Text

namespace Token

/-- A text between two marks, together with them. -/
def IsSegment (mark : Char) (text : List Char) : Prop :=
  ∃ body, Enclosed mark body ∧ text = mark :: (body ++ [mark])

/-- Escape pairs, closed segments, and characters that neither separate atoms nor quote anything. -/
inductive AtomText : List Char → Prop where
  | nil : AtomText []
  | escape (c : Char) {s : List Char} : AtomText s → AtomText ('\\' :: c :: s)
  | segment {mark : Char} {segment s : List Char} : mark = '"' ∨ mark = '|' →
      IsSegment mark segment →
      AtomText s → AtomText (segment ++ s)
  | char {c : Char} {s : List Char} : isBoundary c = false → c ≠ '\\' → c ≠ '"' → c ≠ '|' →
      AtomText s → AtomText (c :: s)

/-- The text ends in a backslash that is not escaped itself. -/
def EndsInEscape (text : List Char) : Prop :=
  (text.rtakeWhile (· = '\\')).length % 2 = 1

instance : DecidablePred EndsInEscape :=
  fun text => inferInstanceAs (Decidable ((text.rtakeWhile (· = '\\')).length % 2 = 1))

namespace Quoting

theorem escaped_run {q : Quoting} (h : q.escaped = false) (s : List Char) :
    (q.run s).escaped ↔ EndsInEscape s := by
  induction s using List.reverseRecOn with
  | nil => simp [h, EndsInEscape]
  | append_singleton s c ih =>
    rw [run_append, run_cons, run_nil, escaped_next, EndsInEscape, List.rtakeWhile_concat]
    by_cases backslash : c = '\\'
    · rw [EndsInEscape] at ih
      cases escaped : (q.run s).escaped <;> simp [escaped, backslash] at ih ⊢ <;> omega
    · simp [backslash]

theorem next_outside {c : Char} (hb : c ≠ '\\') (hq : c ≠ '"') (hv : c ≠ '|') :
    outside.next c = outside := by
  simp [next, outside, hb, hq, hv]

theorem next_opening {mark : Char} (h : mark = '"' ∨ mark = '|') :
    outside.next mark = inside mark := by
  rcases h with rfl | rfl <;> rfl

theorem eq_outside {q : Quoting} (mark : q.mark? = none) (escaped : q.escaped = false) :
    q = outside := by
  obtain ⟨_, _⟩ := q
  subst mark escaped
  rfl

end Quoting

open Quoting

theorem Enclosed.solid {mark : Char} {s : List Char} (h : Enclosed mark s) :
    Extent.solid (inside mark) s := by
  induction h with
  | nil => rfl
  | escape c _ ih => simpa [Extent.solid, inside, next, outside] using ih
  | char hb hm _ ih =>
    rw [Extent.solid, next_inside hb hm, ih]
    simp [inside_ne_outside]

namespace IsSegment

variable {mark : Char} {s : List Char}

theorem run_eq (h : IsSegment mark s) (hm : mark = '"' ∨ mark = '|') : outside.run s = outside := by
  obtain ⟨body, enclosed, rfl⟩ := h
  have hb : mark ≠ '\\' := by rcases hm with rfl | rfl <;> decide
  rw [run_cons, next_opening hm, run_append, enclosed.run_eq, run_cons, next_mark hb, run_nil]

theorem solid (h : IsSegment mark s) (hm : mark = '"' ∨ mark = '|') : Extent.solid .outside s := by
  obtain ⟨body, enclosed, rfl⟩ := h
  have first : isBoundary mark = false := by rcases hm with rfl | rfl <;> decide
  rw [Extent.solid, first, next_opening hm, Extent.solid_append, enclosed.solid, enclosed.run_eq]
  simp [Extent.solid, inside_ne_outside]

end IsSegment

theorem AtomText.solid_and_run {s : List Char} (h : AtomText s) :
    Extent.solid .outside s ∧ outside.run s = outside := by
  induction h with
  | nil => exact ⟨rfl, rfl⟩
  | escape c _ ih =>
    refine ⟨?_, by rw [run_escape rfl, ih.2]⟩
    have opened : outside.next '\\' = ⟨none, true⟩ := rfl
    have passed : next ⟨none, true⟩ c = outside := rfl
    rw [Extent.solid, opened, Extent.solid, passed, ih.1]
    simp [outside]
    decide
  | segment hm isSegment _ ih =>
    rw [Extent.solid_append, run_append, isSegment.solid hm, isSegment.run_eq hm]
    exact ih
  | char boundary hb hq hv _ ih =>
    rw [Extent.solid, run_cons, next_outside hb hq hv, boundary]
    simpa using ih

theorem atomText_of_solid :
    ∀ s : List Char, Extent.solid .outside s → outside.run s = outside → AtomText s
  | [], _, _ => .nil
  | c :: s, solid, closed => by
    rw [Extent.solid, Bool.and_eq_true] at solid
    obtain ⟨first, solid⟩ := solid
    have boundary : isBoundary c = false := by simpa using first
    rw [run_cons] at closed
    by_cases hb : c = '\\'
    · subst hb
      cases s with
      | nil => cases closed
      | cons d s =>
        have passed : (outside.next '\\').next d = outside := rfl
        rw [Extent.solid, passed, Bool.and_eq_true] at solid
        rw [run_cons, passed] at closed
        exact (atomText_of_solid s solid.2 closed).escape d
    · by_cases hm : c = '"' ∨ c = '|'
      · rw [next_opening hm] at solid closed
        rcases enclosed_or_staysOpen c s with ⟨body, rest, enclosed, _, rfl⟩ | ⟨_, opened⟩
        · -- Behind the mark that closes the segment the scan is outside again.
          rw [Extent.solid_append, enclosed.run_eq, Extent.solid, next_mark hb, Bool.and_eq_true,
            Bool.and_eq_true] at solid
          rw [run_append, enclosed.run_eq, run_cons, next_mark hb] at closed
          have text := AtomText.segment hm ⟨body, enclosed, rfl⟩
            (atomText_of_solid rest solid.2.2 closed)
          simpa using text
        · rw [closed] at opened
          cases opened
      · obtain ⟨hq, hv⟩ := not_or.mp hm
        rw [next_outside hb hq hv] at solid closed
        exact (atomText_of_solid s solid closed).char boundary hb hq hv
termination_by s => s.length

theorem atomText_iff {s : List Char} :
    AtomText s ↔ Extent.solid .outside s ∧ outside.run s = outside :=
  ⟨AtomText.solid_and_run, fun h => atomText_of_solid s h.1 h.2⟩

instance : DecidablePred AtomText :=
  fun _ => decidable_of_iff _ atomText_iff.symm

example : AtomText "#\\(|a b|".toList ∧ ¬AtomText "a b".toList ∧ ¬AtomText "a\\".toList := by decide

namespace Extent

/-- Where an extent ends that starts at an offset, if it is closed. -/
def end? (first : Nat) (e : Extent) : Option Nat :=
  if e.closed then some (first + e.size) else none

theorem end_eq_some_iff {first last : Nat} {e : Extent} :
    e.end? first = some last ↔ ∃ n, e = ⟨n, true⟩ ∧ first + n = last := by
  obtain ⟨size, closed⟩ := e
  cases closed <;> simp [end?]

end Extent

/-- Where the segment ends whose mark stands at an offset. -/
def segmentEnd? (s : List Char) (first : Nat) : Option Nat :=
  s[first]?.bind fun mark => (Extent.segment (inside mark) (s.drop (first + 1))).end? (first + 1)

/-- Where the atom ends that starts at an offset. -/
def atomEnd? (s : List Char) (first : Nat) : Option Nat :=
  (Extent.atom outside (s.drop first)).end? first

/-- Where the block comment ends whose first mark stands at an offset. -/
def commentEnd? (s : List Char) (first : Nat) : Option Nat :=
  (Extent.blockComment 1 (s.drop (first + 2))).end? (first + 2)

open Text

theorem segmentEnd_of_drop {s input : List Char} {first : Nat} {mark : Char}
    (h : s.drop first = mark :: input) :
    segmentEnd? s first = (Extent.segment (inside mark) input).end? (first + 1) := by
  have here : s[first]? = some mark := by rw [← List.head?_drop, h, List.head?_cons]
  have behind : s.drop (first + 1) = input := by rw [← List.tail_drop, h, List.tail_cons]
  rw [segmentEnd?, here, Option.bind_some, behind]

theorem segmentEnd_eq_some_iff {s : List Char} {first last : Nat} :
    segmentEnd? s first = some last ↔
      last ≤ s.length ∧ ∃ mark, mark ≠ '\\' ∧ IsSegment mark (slice s first last) := by
  constructor
  · intro h
    cases text : s.drop first with
    | nil =>
      rw [segmentEnd?, ← List.head?_drop, text] at h
      cases h
    | cons mark input =>
      rw [segmentEnd_of_drop text] at h
      obtain ⟨n, closed, rfl⟩ := Extent.end_eq_some_iff.mp h
      obtain ⟨body, rest, enclosed, hb, rfl, rfl⟩ := segment_eq_iff.mp closed
      have length := congrArg List.length text
      simp only [List.length_drop, List.length_cons, List.length_append] at length
      refine ⟨by omega, mark, hb, body, enclosed, ?_⟩
      rw [show first + 1 + (body.length + 1) = first + (body.length + 1 + 1) by omega,
        slice_add, text,
        List.take_succ_cons, List.take_length_add_append]
      rfl
  · rintro ⟨bound, mark, hb, body, enclosed, text⟩
    have length : (slice s first last).length = last - first := length_slice bound
    rw [text, List.length_cons, List.length_append, List.length_singleton] at length
    have whole : s.drop first = mark :: (body ++ mark :: s.drop last) := by
      rw [← slice_append_drop s (by omega : first ≤ last), text]
      simp
    rw [segmentEnd_of_drop whole]
    exact Extent.end_eq_some_iff.mpr ⟨_, enclosed.segment_eq hb _, by omega⟩

theorem segmentEnd_of_agreesOn {s t : List Char} {first last : Nat}
    (agree : AgreesOn first last s t)
    (h : segmentEnd? s first = some last) : segmentEnd? t first = some last := by
  obtain ⟨bound, mark, hb, body, enclosed, text⟩ := segmentEnd_eq_some_iff.mp h
  refine segmentEnd_eq_some_iff.mpr ⟨agree.bound (lt_of_slice text) bound, mark, hb,
    body, enclosed, ?_⟩
  rw [agree.slice_eq, text]

theorem commentEnd_eq_some_iff {s : List Char} {first last : Nat} :
    commentEnd? s first = some last ↔
      last ≤ s.length ∧ CommentText 1 (slice s (first + 2) last) := by
  constructor
  · intro h
    obtain ⟨n, comment, rfl⟩ := Extent.end_eq_some_iff.mp h
    obtain ⟨bound, text⟩ := commentText_of_blockComment comment
    rw [← slice_add] at text
    obtain ⟨c, rest, cut⟩ := text.exists_cons
    have positive := lt_of_slice cut
    rw [List.length_drop] at bound
    exact ⟨by omega, text⟩
  · rintro ⟨bound, text⟩
    obtain ⟨c, rest, cut⟩ := text.exists_cons
    have le : first + 2 ≤ last := Nat.le_of_lt (lt_of_slice cut)
    have comment := text.blockComment_eq (s.drop last)
    rw [slice_append_drop s le, length_slice bound] at comment
    exact Extent.end_eq_some_iff.mpr ⟨_, comment, by omega⟩

theorem commentEnd_of_agreesOn {s t : List Char} {first last : Nat}
    (agree : AgreesOn first last s t)
    (h : commentEnd? s first = some last) : commentEnd? t first = some last := by
  obtain ⟨bound, text⟩ := commentEnd_eq_some_iff.mp h
  have inner := agree.mono (Nat.le_add_right first 2)
  obtain ⟨c, rest, cut⟩ := text.exists_cons
  refine commentEnd_eq_some_iff.mpr ⟨inner.bound (lt_of_slice cut) bound, ?_⟩
  rwa [inner.slice_eq]

/-- A text of the right kind is taken as an atom, exactly, if the input ends behind it or goes on
with a boundary. -/
theorem atomEnd_of_atomText {s text rest : List Char} {first : Nat} (isText : AtomText text)
    (h : s.drop first = text ++ rest) (boundary : rest.head?.all isBoundary) :
    atomEnd? s first = some (first + text.length) := by
  obtain ⟨solid, closed⟩ := isText.solid_and_run
  rw [atomEnd?, h, Extent.atom_append solid, closed, Extent.atom_of_boundary boundary]
  rfl

theorem atomText_of_atomEnd {s : List Char} {first last : Nat} (h : atomEnd? s first = some last)
    (lone : ¬(last = s.length ∧ EndsInEscape (slice s first last))) :
    AtomText (slice s first last) := by
  obtain ⟨n, atom, rfl⟩ := Extent.end_eq_some_iff.mp h
  obtain ⟨bound, solid, ⟨ends, opened⟩ | ⟨closed, _⟩⟩ := Extent.atom_cases atom
  · rw [slice_add] at lone ⊢
    have plain : (outside.run ((s.drop first).take n)).escaped = false := by
      rw [← Bool.not_eq_true, escaped_run rfl]
      intro escape
      have positive : n ≠ 0 := by
        rintro rfl
        cases escape
      have length := congrArg List.length ends
      rw [List.length_drop, List.length_drop, List.length_nil] at length
      rw [List.length_drop] at bound
      exact lone ⟨by omega, escape⟩
    exact atomText_of_solid _ solid (eq_outside (Option.isNone_iff_eq_none.mp opened.symm) plain)
  · rw [slice_add]
    exact atomText_of_solid _ solid closed

theorem atomEnd_of_agreesOn {s t : List Char} {first last : Nat} (agree : AgreesOn first last s t)
    (h : atomEnd? s first = some last) (isText : AtomText (slice s first last))
    (boundary : t[last]?.all isBoundary) : atomEnd? t first = some last := by
  obtain ⟨n, atom, rfl⟩ := Extent.end_eq_some_iff.mp h
  have bound := (Extent.atom_cases atom).1
  rw [slice_add] at isText
  have same := atomEnd_of_atomText isText agree.drop_eq (by rwa [List.head?_drop])
  rwa [List.length_take, Nat.min_eq_left bound] at same

/-- The text of a literal tells where it ends. A segment or a block comment is closed exactly where
its text follows the grammar, and it ends there whatever comes behind. An atom has a text of its
kind, unless an escape is still open at the end of the input; it ends where that text does as soon
as the input ends there too or goes on with a boundary. -/
theorem literals_delimited (s : List Char) (first last : Nat) :
    (segmentEnd? s first = some last ↔
      last ≤ s.length ∧ ∃ mark, mark ≠ '\\' ∧ IsSegment mark (slice s first last)) ∧
    (segmentEnd? s first = some last →
      ∀ t, AgreesOn first last s t → segmentEnd? t first = some last) ∧
    (atomEnd? s first = some last → ¬(last = s.length ∧ EndsInEscape (slice s first last)) →
      AtomText (slice s first last) ∧
        ∀ t, AgreesOn first last s t → t[last]?.all isBoundary → atomEnd? t first = some last) ∧
    (∀ text rest, AtomText text → s.drop first = text ++ rest → rest.head?.all isBoundary →
      atomEnd? s first = some (first + text.length)) ∧
    (commentEnd? s first = some last ↔
      last ≤ s.length ∧ CommentText 1 (slice s (first + 2) last)) ∧
    (commentEnd? s first = some last →
      ∀ t, AgreesOn first last s t → commentEnd? t first = some last) := by
  refine ⟨segmentEnd_eq_some_iff, ?_, ?_, ?_, commentEnd_eq_some_iff, ?_⟩
  · intro closed t agree
    exact segmentEnd_of_agreesOn agree closed
  · intro atom lone
    have isText := atomText_of_atomEnd atom lone
    refine ⟨isText, ?_⟩
    intro t agree boundary
    exact atomEnd_of_agreesOn agree atom isText boundary
  · intro text rest isText split boundary
    exact atomEnd_of_atomText isText split boundary
  · intro closed t agree
    exact commentEnd_of_agreesOn agree closed

theorem literals_delimited_nested :
    let s := "x\\ |a b|\"c\" #|d#|#e|#|#".toList
    let t := "x\\ |a b|\"c\")".toList
    let u := "(\\ |a b| \"c(#|d#|#e|#|#|#".toList
    (∃ mark, mark ≠ '\\' ∧ IsSegment mark (slice s 3 8)) ∧ segmentEnd? u 3 = some 8 ∧
      AtomText (slice s 0 11) ∧ atomEnd? t 0 = some 11 ∧ commentEnd? u 12 = some 23 := by
  intro s t u
  obtain ⟨segment, segmentStays, _⟩ := literals_delimited s 3 8
  obtain ⟨_, _, atom, _⟩ := literals_delimited s 0 11
  obtain ⟨_, _, _, _, _, commentStays⟩ := literals_delimited s 12 23
  have closed : segmentEnd? s 3 = some 8 := by decide
  obtain ⟨isText, atomStays⟩ := atom (by decide) (by decide)
  exact ⟨(segment.mp closed).2, segmentStays closed u (by decide), isText,
    atomStays t (by decide) (by decide), commentStays (by decide) u (by decide)⟩

end Token

end SexprFormat
