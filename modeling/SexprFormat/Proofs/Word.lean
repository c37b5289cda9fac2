import Mathlib.Data.List.DropRight
import SexprFormat.Proofs.Print
import SexprFormat.Proofs.Scan

/-!
How words are spelled, and where a word is read again. `Word.Sound` lists the spellings that
scanning gives, kind by kind (`Token.ReadAt.sound`). A sound word is read at a cursor under
conditions on what stands behind it, one lemma for each kind (`readAt_atom` and those beside it).
-/

namespace SexprFormat

namespace QuoteMark

/-- The first characters of the marks that need a datum right after them. -/
def isStart (c : Char) : Bool :=
  c = '\'' || c = '`' || c = ','

/-- The same mark with a `#` before it. -/
def withHash : QuoteMark → QuoteMark
  | quote => syntaxQuote
  | quasiquote => syntaxQuasiquote
  | unquote => syntaxUnquote
  | unquoteSplicing => syntaxUnquoteSplicing
  | mark => mark

theorem text_withHash {mark : QuoteMark} (h : mark ∈ plain) :
    mark.withHash.text = '#' :: mark.text := by
  simp only [plain, List.mem_cons, List.not_mem_nil, or_false] at h
  rcases h with rfl | rfl | rfl | rfl <;> rfl

end QuoteMark

namespace Token.Lexeme

open QuoteMark

theorem markIn_hashed (input : List Char) :
    markIn? hashed ('#' :: input) = (markIn? plain input).map withHash := by
  have all : hashed = plain.map withHash := rfl
  unfold markIn?
  rw [all, List.find?_map]
  congr 1

theorem markIn_plain_eq_none {c : Char} {rest : List Char} :
    markIn? plain (c :: rest) = none ↔ (isStart c → datumFollows rest = false) := by
  simp only [markIn?, plain, List.find?_eq_none, List.forall_mem_cons, QuoteMark.text, isStart]
  simp [List.isPrefixOf]
  constructor
  · rintro ⟨_, quote, quasiquote, unquote⟩ ((rfl | rfl) | rfl)
    · exact quote rfl
    · exact quasiquote rfl
    · exact unquote rfl
  · intro h
    refine ⟨?_, fun hc => h (by simp [← hc]), fun hc => h (by simp [← hc]),
      fun hc => h (by simp [← hc])⟩
    rintro rfl ⟨tail, rfl⟩
    have none := h (by simp)
    cases none

theorem eq_append_of_markIn {marks : List QuoteMark} {input : List Char} {mark : QuoteMark}
    (h : markIn? marks input = some mark) :
    mark ∈ marks ∧ ∃ rest, input = mark.text ++ rest ∧ datumFollows rest := by
  have found := List.find?_some h
  simp only [Bool.and_eq_true, List.isPrefixOf_iff_prefix] at found
  obtain ⟨⟨rest, rfl⟩, follows⟩ := found
  exact ⟨List.mem_of_find?_eq_some h, rest, rfl, by simpa using follows⟩

theorem text_of_append {c : Char} {mark : QuoteMark} {input tail s : List Char}
    (h : c :: input = mark.text ++ tail) (taken : input.take (mark.text.length - 1) = s) :
    c :: s = mark.text := by
  cases text : mark.text with
  | nil => cases mark <;> cases text
  | cons d rest =>
    rw [text, List.cons_append] at h
    obtain ⟨rfl, rfl⟩ := List.cons.inj h
    rw [← taken, text]
    simp

theorem markIn_plain {mark : QuoteMark} (h : mark ∈ plain) {rest : List Char}
    (follows : datumFollows rest)
    (splices : mark = .unquote → ∀ r, rest = '@' :: r → datumFollows r = false) :
    markIn? plain (mark.text ++ rest) = some mark := by
  simp only [plain, List.mem_cons, List.not_mem_nil, or_false] at h
  rcases h with rfl | rfl | rfl | rfl
  · simp [markIn?, plain, QuoteMark.text, follows]
  · simp [markIn?, plain, QuoteMark.text, follows]
  · simp [markIn?, plain, QuoteMark.text, follows, List.isPrefixOf]
  · cases rest with
    | nil => cases follows
    | cons c r =>
      simp [markIn?, plain, QuoteMark.text, follows, List.isPrefixOf]
      by_cases hc : '@' = c
      · exact .inr (splices rfl r (by rw [hc]))
      · exact .inl hc

end Token.Lexeme

theorem Token.Lexeme.namesLanguage_iff {cur : Cursor} {rest : List Char} :
    namesLanguage cur rest ↔ cur.depth = 0 ∧ cur.column = 1 ∧
      ∃ c tail, rest = "lang".toList ++ c :: tail ∧ (c = ' ' ∨ c = '\t') := by
  constructor
  · intro h
    simp only [namesLanguage, Bool.and_eq_true, Bool.or_eq_true, decide_eq_true_eq,
      List.isPrefixOf_iff_prefix] at h
    obtain ⟨⟨⟨depth, column⟩, ⟨tail, rfl⟩⟩, next⟩ := h
    cases tail with
    | nil => simp at next
    | cons c tail => exact ⟨depth, column, c, tail, rfl, by simpa using next⟩
  · rintro ⟨depth, column, c, tail, rfl, next⟩
    simpa [namesLanguage, depth, column] using next

namespace Word

open Token Token.Lexeme

/-- The word is what is read at the cursor, with the given text behind it. -/
def ReadAt (w : Word) (cur : Cursor) (rest : List Char) : Prop :=
  ∃ c s, w.text = c :: s ∧
    Lexeme.Rule cur c (s ++ rest) { kind := w.kind, tag? := w.tag?, more := s.length }

/-- The marks that are atoms when white space follows them. -/
def lone : List (List Char) :=
  [.quote, .quasiquote, .unquote, .syntaxQuote, .syntaxQuasiquote,
    .syntaxUnquote].map QuoteMark.text

theorem mem_lone {text : List Char} :
    text ∈ lone ↔ ∃ d, QuoteMark.isStart d ∧ (text = [d] ∨ text = ['#', d]) := by
  simp only [lone, List.map_cons, List.map_nil, QuoteMark.text, List.mem_cons, List.not_mem_nil,
    or_false, QuoteMark.isStart, Bool.or_eq_true, decide_eq_true_eq]
  constructor
  · rintro (rfl | rfl | rfl | rfl | rfl | rfl)
    · exact ⟨'\'', by simp⟩
    · exact ⟨'`', by simp⟩
    · exact ⟨',', by simp⟩
    · exact ⟨'\'', by simp⟩
    · exact ⟨'`', by simp⟩
    · exact ⟨',', by simp⟩
  · rintro ⟨d, (rfl | rfl) | rfl, rfl | rfl⟩ <;> simp

/-- What stands behind a hash that starts an atom or a hash mark. -/
def isHashTail (s : List Char) : Bool :=
  s.head?.all fun c => c ≠ '|' && c ≠ ';' && !QuoteMark.isStart c

/-- The first characters of an atom that is no lone mark. -/
def startsAtom : List Char → Bool
  | [] => false
  | c :: s => if c = '#' then isHashTail s else isOrdinary c && !QuoteMark.isStart c

structure IsAtom (text : List Char) : Prop where
  starts : text ∈ lone ∨ startsAtom text
  solid : Extent.solid .outside text
  closed : Quoting.outside.run text = .outside

theorem IsAtom.not_escaped {text : List Char} (h : IsAtom text) :
    (Quoting.outside.run text).escaped = false := by
  rw [h.closed]
  rfl

/-- A hash mark up to the list that is glued to it, without its hash. -/
structure IsHash (s : List Char) : Prop where
  tail : isHashTail s
  solid : Extent.solid .outside s
  closed : Quoting.outside.run s = .outside
  plain : s.any (fun c => c = '\\' || c = '"' || c = '|') = false

/-- The text of a comment or a directive that takes the rest of its line. -/
structure IsLine (text : List Char) : Prop where
  oneLine : '\n' ∉ text
  trimmed : Text.trimEnd text = text

/-- How the words of each kind are spelled. -/
inductive Sound : Word → Prop where
  | opening (shape : Delimiter) : Sound (opening shape)
  | closing (shape : Delimiter) : Sound (closing shape)
  | string {s : List Char} : Extent.segment (.inside '"') s = ⟨s.length, true⟩ →
      Sound (string ('"' :: s))
  | lineComment {s : List Char} : IsLine (';' :: s) →
      Sound { kind := .lineComment, text := ';' :: s }
  | blockComment {s : List Char} : Extent.blockComment 1 s = ⟨s.length, true⟩ →
      Sound { kind := .blockComment, text := '#' :: '|' :: s }
  | shebang {s : List Char} : IsLine ('!' :: s) → Sound (directive .shebang ('#' :: '!' :: s))
  | lang {s : List Char} : IsLine ("lang".toList ++ s) → s.head? ∈ [none, some ' ', some '\t'] →
      Sound (directive .lang ('#' :: ("lang".toList ++ s)))
  | mark {mark : QuoteMark} : mark ∈ .datumComment :: (QuoteMark.plain ++ QuoteMark.hashed) →
      Sound { kind := .quoteMark, tag? := some (.mark mark), text := mark.text }
  | hash {s : List Char} : IsHash s →
      Sound { kind := .quoteMark, tag? := some (.mark .hash), text := '#' :: s }
  | atom {text : List Char} : IsAtom text → Sound (atom text)

theorem readAt_opening (shape : Delimiter) (cur : Cursor) (rest : List Char) :
    (opening shape).ReadAt cur rest :=
  ⟨shape.opener, [], rfl, .opening shape⟩

theorem readAt_closing (shape : Delimiter) (cur : Cursor) (rest : List Char) :
    (closing shape).ReadAt cur rest :=
  ⟨shape.closer, [], rfl, .closing shape⟩

theorem readAt_string {s : List Char} (h : Extent.segment (.inside '"') s = ⟨s.length, true⟩)
    (cur : Cursor) (rest : List Char) : (string ('"' :: s)).ReadAt cur rest := by
  obtain ⟨_, segment⟩ := Extent.segment_take h rest
  rw [List.take_length] at segment
  have lexeme : Lexeme.string (s ++ rest) = { kind := .string, more := s.length } := by
    simp [Lexeme.string, segment]
  exact ⟨'"', s, rfl, lexeme ▸ Rule.string⟩

theorem readAt_blockComment {s : List Char} (h : Extent.blockComment 1 s = ⟨s.length, true⟩)
    (cur : Cursor) (rest : List Char) :
    ReadAt { kind := .blockComment, text := '#' :: '|' :: s } cur rest := by
  obtain ⟨_, comment⟩ := Extent.blockComment_take h rest
  rw [List.take_length] at comment
  have lexeme : Lexeme.blockComment ('|' :: (s ++ rest)) =
      { kind := .blockComment, more := ('|' :: s).length } := by
    simp [Lexeme.blockComment, comment, Nat.add_comm]
  exact ⟨'#', '|' :: s, rfl, lexeme ▸ Rule.blockComment⟩

/-- The line of a text goes on to where the text behind it breaks the line. -/
theorem firstLine_append {s rest : List Char} (h : '\n' ∉ s) (hr : rest.head?.all (· = '\n')) :
    Text.firstLine (s ++ rest) = s := by
  have line : rest.takeWhile (fun c => decide (c ≠ '\n')) = [] := by
    cases rest with
    | nil => rfl
    | cons c rest =>
      have hc : c = '\n' := by simpa using hr
      simp [hc]
  have own (c : Char) (hc : c ∈ s) : decide (c ≠ '\n') = true := by
    simpa using ne_of_mem_of_not_mem hc h
  rw [Text.firstLine, List.takeWhile_append_of_pos own, line, List.append_nil]

theorem readAt_lineComment {s : List Char} (h : IsLine (';' :: s)) (cur : Cursor) {rest : List Char}
    (hr : rest.head?.all (· = '\n')) :
    ReadAt { kind := .lineComment, text := ';' :: s } cur rest := by
  have line := firstLine_append (fun e => h.oneLine (List.mem_cons_of_mem _ e)) hr
  have rule : Rule cur ';' (s ++ rest) _ := Rule.lineComment
  rw [line] at rule
  exact ⟨';', s, rfl, rule⟩

theorem directive_append {s rest : List Char} (kind : DirectiveKind) (h : IsLine s)
    (hr : rest.head?.all (· = '\n')) :
    Lexeme.directive kind (s ++ rest) =
      { kind := .directive, tag? := some (.directive kind), more := s.length } := by
  simp [Lexeme.directive, firstLine_append h.oneLine hr, h.trimmed]

theorem readAt_shebang {s : List Char} (h : IsLine ('!' :: s)) {cur : Cursor} {rest : List Char}
    (first : cur.offset = 0) (hr : rest.head?.all (· = '\n')) :
    (directive .shebang ('#' :: '!' :: s)).ReadAt cur rest := by
  have rule : Rule cur '#' ('!' :: (s ++ rest)) _ := Rule.shebang first
  have lexeme := directive_append .shebang h hr
  rw [List.cons_append] at lexeme
  rw [lexeme] at rule
  exact ⟨'#', '!' :: s, rfl, rule⟩

theorem readAt_lang {s : List Char} (h : IsLine ("lang".toList ++ s))
    (hs : s.head? = some ' ' ∨ s.head? = some '\t') {cur : Cursor} {rest : List Char}
    (depth : cur.depth = 0) (column : cur.column = 1) (hr : rest.head?.all (· = '\n')) :
    (directive .lang ('#' :: ("lang".toList ++ s))).ReadAt cur rest := by
  have names : namesLanguage cur ("lang".toList ++ s ++ rest) := by
    cases s with
    | nil => simp at hs
    | cons c s => simpa [namesLanguage, depth, column] using hs
  have rule : Rule cur '#' ("lang".toList ++ s ++ rest) _ := Rule.lang names
  rw [directive_append .lang h hr] at rule
  exact ⟨'#', _, rfl, rule⟩

theorem readAt_datumComment (cur : Cursor) (rest : List Char) :
    ReadAt { kind := .quoteMark, tag? := some (.mark .datumComment), text := ['#', ';'] }
      cur rest :=
  ⟨'#', [';'], rfl, .datumComment⟩

/-- A mark is read where a datum follows it, and `,` only where `,@` is not read. -/
theorem readAt_plain {mark : QuoteMark} (h : mark ∈ QuoteMark.plain) (cur : Cursor)
    {rest : List Char} (follows : datumFollows rest)
    (splices : mark = .unquote → ∀ r, rest = '@' :: r → datumFollows r = false) :
    ReadAt { kind := .quoteMark, tag? := some (.mark mark), text := mark.text } cur rest := by
  have found := markIn_plain h follows splices
  obtain ⟨c, s, text, ordinary⟩ : ∃ c s, mark.text = c :: s ∧ isOrdinary c := by
    simp only [QuoteMark.plain, List.mem_cons, List.not_mem_nil, or_false] at h
    rcases h with rfl | rfl | rfl | rfl
    · exact ⟨',', ['@'], rfl, by decide⟩
    · exact ⟨'\'', [], rfl, by decide⟩
    · exact ⟨'`', [], rfl, by decide⟩
    · exact ⟨',', [], rfl, by decide⟩
  rw [text, List.cons_append] at found
  have rule : Rule cur c (s ++ rest) (quoteMark mark) := Rule.mark ordinary found
  refine ⟨c, s, text, ?_⟩
  simpa [quoteMark, text] using rule

theorem readAt_hashed {mark : QuoteMark} (h : mark ∈ QuoteMark.plain) (cur : Cursor)
    {rest : List Char} (follows : datumFollows rest)
    (splices : mark = .unquote → ∀ r, rest = '@' :: r → datumFollows r = false) :
    ReadAt { kind := .quoteMark, tag? := some (.mark mark.withHash), text := '#' :: mark.text } cur
      rest := by
  have found := markIn_plain h follows splices
  have hashed : markIn? QuoteMark.hashed ('#' :: (mark.text ++ rest)) = some mark.withHash := by
    rw [markIn_hashed, found]
    rfl
  have tail : isPlainHash cur (mark.text ++ rest) := by
    simp only [QuoteMark.plain, List.mem_cons, List.not_mem_nil, or_false] at h
    rcases h with rfl | rfl | rfl | rfl <;>
      simp [isPlainHash, namesLanguage, QuoteMark.text, List.isPrefixOf]
  have rule : Rule cur '#' (mark.text ++ rest) (quoteMark mark.withHash) :=
    Rule.hashMark tail hashed
  refine ⟨'#', mark.text, rfl, ?_⟩
  simpa [quoteMark, QuoteMark.text_withHash h] using rule

/-- What may stand behind an atom of a printed text: white space or the end of a list. -/
def endsDatum (rest : List Char) : Bool :=
  rest.head?.all fun c => Text.isBlank c || (Delimiter.ofCloser? c).isSome

theorem blank_or_bracket {rest : List Char} (h : endsDatum rest) :
    rest.head?.all fun c => Text.isBlank c || (Delimiter.ofChar? c).isSome := by
  cases rest with
  | nil => rfl
  | cons c rest =>
    simp only [endsDatum, List.head?_cons, Option.all_some, Bool.or_eq_true] at h ⊢
    rcases h with blank | closer
    · exact .inl blank
    · exact .inr (by simp [Delimiter.ofChar?, closer])

theorem atom_of_endsDatum {rest : List Char} (h : endsDatum rest) :
    Extent.atom .outside rest = ⟨0, true⟩ := by
  apply Extent.atom_of_boundary
  cases rest with
  | nil => rfl
  | cons c rest =>
    have next := blank_or_bracket h
    simp only [List.head?_cons, Option.all_some, Bool.or_eq_true, isBoundary] at next ⊢
    rcases next with blank | bracket
    · exact .inl (.inl blank)
    · exact .inr bracket

theorem ne_of_blank_or_bracket {c : Char} (h : Text.isBlank c || (Delimiter.ofChar? c).isSome) :
    c ≠ '|' ∧ c ≠ ';' ∧ c ≠ '!' ∧ QuoteMark.isStart c = false := by
  refine ⟨?_, ?_, ?_, ?_⟩
  · rintro rfl
    revert h
    decide
  · rintro rfl
    revert h
    decide
  · rintro rfl
    revert h
    decide
  · cases start : QuoteMark.isStart c with
    | false => rfl
    | true =>
      simp only [QuoteMark.isStart, Bool.or_eq_true, decide_eq_true_eq] at start
      rcases start with (rfl | rfl) | rfl <;> (revert h; decide)

/-- A hash with its tail starts an atom or a hash mark, when white space or a bracket follows. -/
theorem isPlainHash_append {s rest : List Char} (h : isHashTail s) {cur : Cursor}
    (next : rest.head?.all fun c => Text.isBlank c || (Delimiter.ofChar? c).isSome)
    (first : cur.offset = 0 → s.head? ≠ some '!') (lang : namesLanguage cur (s ++ rest) = false) :
    isPlainHash cur (s ++ rest) ∧ markIn? QuoteMark.hashed ('#' :: (s ++ rest)) = none := by
  have tail : isHashTail (s ++ rest) ∧ (cur.offset = 0 → (s ++ rest).head? ≠ some '!') := by
    cases s with
    | cons c s => exact ⟨h, first⟩
    | nil =>
      cases rest with
      | nil => exact ⟨rfl, by simp⟩
      | cons c rest =>
        have other := ne_of_blank_or_bracket (c := c) (by simpa using next)
        exact ⟨by simp [isHashTail, other.1, other.2.1, other.2.2.2], by simp [other.2.2.1]⟩
  generalize s ++ rest = input at tail lang
  obtain ⟨tail, noShebang⟩ := tail
  rw [markIn_hashed, Option.map_eq_none_iff]
  cases input with
  | nil => exact ⟨by simp [isPlainHash, namesLanguage], rfl⟩
  | cons c input =>
    simp only [isHashTail, List.head?_cons, Option.all_some, Bool.and_eq_true, decide_eq_true_eq,
      Bool.not_eq_true'] at tail
    refine ⟨?_, markIn_plain_eq_none.mpr fun start => ?_⟩
    · simp [isPlainHash, lang, tail.1.1, tail.1.2]
      by_cases zero : cur.offset = 0
      · exact .inl (by simpa using noShebang zero)
      · exact .inr zero
    · rw [tail.2] at start
      cases start

theorem readAt_hash {s : List Char} (h : IsHash s) {cur : Cursor} {rest : List Char}
    {shape : Delimiter} (next : rest.head? = some shape.opener)
    (first : cur.offset = 0 → s.head? ≠ some '!') (lang : namesLanguage cur (s ++ rest) = false) :
    ReadAt { kind := .quoteMark, tag? := some (.mark .hash), text := '#' :: s } cur rest := by
  obtain ⟨rest, rfl⟩ := List.head?_eq_some_iff.mp next
  have bracket : (Delimiter.ofChar? shape.opener).isSome := by cases shape <;> rfl
  obtain ⟨plain, none⟩ := isPlainHash_append h.tail (by simp [bracket]) first lang
  have ends : Extent.atom .outside (shape.opener :: rest) = ⟨0, true⟩ := by
    simp [Extent.atom, isBoundary, bracket]
  have run : Lexeme.atom '#' (s ++ shape.opener :: rest) = { kind := .atom, more := s.length } := by
    have own : Quoting.outside.next '#' = .outside := rfl
    simp [Lexeme.atom, own, Extent.atom_append h.solid, h.closed, ends]
  have opener : Delimiter.ofOpener? shape.opener = some shape := Delimiter.ofOpener_eq_some.mpr rfl
  have lexeme : Lexeme.hashRun (s ++ shape.opener :: rest) =
      { kind := .quoteMark, tag? := some (.mark .hash), more := s.length } := by
    simp [Lexeme.hashRun, run, opener, h.plain]
  exact ⟨'#', s, rfl, lexeme ▸ Rule.hashRun plain none⟩

theorem ofOpener_of_endsDatum {rest : List Char} (h : endsDatum rest) :
    rest.head?.bind Delimiter.ofOpener? = none := by
  cases rest with
  | nil => rfl
  | cons c rest =>
    simp only [List.head?_cons, Option.bind_some]
    cases opener : Delimiter.ofOpener? c with
    | none => rfl
    | some shape =>
      rw [Delimiter.ofOpener_eq_some.mp opener] at h
      cases shape <;> cases h

/-- A hash run that white space or the end of a list follows is an atom. -/
theorem hashRun_append {s rest : List Char} (next : endsDatum rest)
    (solid : Extent.solid .outside s) (closed : Quoting.outside.run s = .outside) :
    Lexeme.hashRun (s ++ rest) = { kind := .atom, more := s.length } := by
  have own : Quoting.outside.next '#' = .outside := rfl
  have run : Lexeme.atom '#' (s ++ rest) = { kind := .atom, more := s.length } := by
    simp [Lexeme.atom, own, Extent.atom_append solid, closed, atom_of_endsDatum next]
  have loose : (s ++ rest)[s.length]?.bind Delimiter.ofOpener? = none := by
    rw [List.getElem?_append_right (Nat.le_refl _), Nat.sub_self, ← List.head?_eq_getElem?]
    exact ofOpener_of_endsDatum next
  simp [Lexeme.hashRun, run, loose]

/-- An atom is read where white space or the end of a list follows it. A lone mark needs white
space. -/
theorem readAt_atom {text : List Char} (h : IsAtom text) {cur : Cursor} {rest : List Char}
    (next : endsDatum rest) (alone : text ∈ lone → rest.head?.all Text.isBlank)
    (first : cur.offset = 0 → ¬['#', '!'] <+: text)
    (lang : ∀ s, text = '#' :: s → namesLanguage cur (s ++ rest) = false) :
    (atom text).ReadAt cur rest := by
  have noDatum : text ∈ lone → datumFollows rest = false := by
    intro hl
    have blank := alone hl
    cases rest with
    | nil => rfl
    | cons c rest => simpa [datumFollows] using blank
  obtain ⟨starts, solid, closed⟩ := h
  cases text with
  | nil => simp [startsAtom, lone, QuoteMark.text] at starts
  | cons c s =>
    simp only [Extent.solid, Bool.and_eq_true] at solid
    by_cases hash : c = '#'
    · subst hash
      have lexeme := hashRun_append next solid.2 closed
      refine ⟨'#', s, rfl, lexeme ▸ ?_⟩
      rcases starts with isLone | tail
      · obtain ⟨d, start, text | text⟩ := mem_lone.mp isLone
        · obtain ⟨rfl, rfl⟩ := List.cons.inj text
          cases start
        · obtain rfl : s = [d] := (List.cons.inj text).2
          have none : markIn? QuoteMark.hashed ('#' :: ([d] ++ rest)) = none := by
            rw [markIn_hashed, Option.map_eq_none_iff]
            exact markIn_plain_eq_none.mpr fun _ => noDatum isLone
          have noLang : namesLanguage cur (d :: rest) = false := lang [d] rfl
          refine Rule.hashRun ?_ none
          simp only [QuoteMark.isStart, Bool.or_eq_true, decide_eq_true_eq] at start
          rcases start with (rfl | rfl) | rfl <;> simp [isPlainHash, noLang]
      · have tail : isHashTail s := by simpa [startsAtom] using tail
        have noShebang : cur.offset = 0 → s.head? ≠ some '!' := by
          intro zero hs
          obtain ⟨line, rfl⟩ := List.head?_eq_some_iff.mp hs
          exact first zero ⟨line, rfl⟩
        obtain ⟨plain, none⟩ :=
          isPlainHash_append tail (blank_or_bracket next) noShebang (lang s rfl)
        exact Rule.hashRun plain none
    · have lexeme : Lexeme.atom c (s ++ rest) = { kind := .atom, more := s.length } := by
        have run : (Quoting.outside.next c).run s = .outside := closed
        simp [Lexeme.atom, Extent.atom_append solid.2, run, atom_of_endsDatum next]
      refine ⟨c, s, rfl, lexeme ▸ ?_⟩
      rcases starts with isLone | ordinary
      · obtain ⟨d, start, text | text⟩ := mem_lone.mp isLone
        · obtain ⟨rfl, rfl⟩ := List.cons.inj text
          have ordinary : isOrdinary c := by
            simp only [QuoteMark.isStart, Bool.or_eq_true, decide_eq_true_eq] at start
            rcases start with (rfl | rfl) | rfl <;> decide
          exact Rule.atom ordinary (markIn_plain_eq_none.mpr fun _ => noDatum isLone)
        · exact absurd (List.cons.inj text).1 hash
      · simp only [startsAtom, if_neg hash, Bool.and_eq_true, Bool.not_eq_true'] at ordinary
        exact Rule.atom ordinary.1
          (markIn_plain_eq_none.mpr fun start => by simp [ordinary.2] at start)

end Word

namespace Text

theorem trimEnd_prefix (s : List Char) : trimEnd s <+: s := List.rdropWhile_prefix _ _

theorem trimEnd_trimEnd (s : List Char) : trimEnd (trimEnd s) = trimEnd s :=
  List.rdropWhile_idempotent _ _

theorem getLast_trimEnd (s : List Char) : (trimEnd s).getLast?.all (!isBlank ·) := by
  rw [trimEnd, List.getLast?_reverse]
  have first := List.head?_dropWhile_not isBlank s.reverse
  cases hd : (s.reverse.dropWhile isBlank).head? with
  | none => rfl
  | some c => simpa [hd] using first

theorem trimEnd_eq_self {s : List Char} {c : Char} (h : s.getLast? = some c)
    (hc : isBlank c = false) :
    trimEnd s = s := by
  refine List.rdropWhile_eq_self_iff.mpr fun nonempty => ?_
  rw [List.getLast?_eq_some_getLast nonempty, Option.some.injEq] at h
  simp [h, hc]

/-- What stands up to a visible character stays when a text is trimmed. -/
theorem trimEnd_append {c : Char} (hc : isBlank c = false) (a s : List Char) :
    trimEnd (a ++ c :: s) = a ++ c :: trimEnd s := by
  induction s using List.reverseRecOn with
  | nil => simp [trimEnd, hc]
  | append_singleton s d ih =>
    cases hd : isBlank d <;> simp_all [trimEnd]

theorem trimEnd_cons {c : Char} (hc : isBlank c = false) (s : List Char) :
    trimEnd (c :: s) = c :: trimEnd s := trimEnd_append hc [] s

end Text

/-- What is printed of a token. -/
def Token.word (t : Token) : Word :=
  if t.isRemark then .remark (t.kind = .blockComment) (Text.trimEnd t.text)
  else { kind := t.kind, tag? := t.tag?, text := t.text }

namespace Word

open Token Token.Lexeme

theorem isLine_trimEnd {s : List Char} (h : '\n' ∉ s) : IsLine (Text.trimEnd s) :=
  ⟨fun e => h ((Text.trimEnd_prefix s).mem e), Text.trimEnd_trimEnd s⟩

theorem not_mem_firstLine (s : List Char) : '\n' ∉ Text.firstLine s := by
  intro h
  simpa using List.all_eq_true.mp List.all_takeWhile _ h

theorem isLine_directive {kind : DirectiveKind} {input s : List Char}
    (h : input.take (Lexeme.directive kind input).more = s) :
    s = Text.trimEnd (Text.firstLine input) ∧ IsLine s ∧ Text.trimEnd ('#' :: s) = '#' :: s := by
  have own : Text.trimEnd (Text.firstLine input) <+: input :=
    (Text.trimEnd_prefix _).trans (List.takeWhile_prefix _)
  obtain rfl : s = Text.trimEnd (Text.firstLine input) :=
    h.symm.trans (List.prefix_iff_eq_take.mp own).symm
  refine ⟨rfl, isLine_trimEnd (not_mem_firstLine _), ?_⟩
  rw [Text.trimEnd_cons (show Text.isBlank '#' = false from rfl), Text.trimEnd_trimEnd]

/-- The text behind an atom ends it: there is a boundary, or nothing and no open escape. -/
theorem solid_of_atom {q : Quoting} {s rest : List Char}
    (h : Extent.atom q (s ++ rest) = ⟨s.length, true⟩)
    (hs : rest = [] → (q.run s).escaped = false) :
    Extent.solid q s ∧ q.run s = .outside := by
  obtain ⟨_, solid, ends⟩ := Extent.atom_cases h
  simp only [List.take_left, List.drop_left] at solid ends
  refine ⟨solid, ?_⟩
  rcases ends with ⟨none, closed⟩ | ⟨outside, _⟩
  · have escaped := hs none
    generalize q.run s = r at closed escaped
    obtain ⟨mark?, escaped?⟩ := r
    simp_all [Quoting.outside]
  · exact outside

/-- Nothing that is glued to a mark can be white space. -/
theorem eq_nil_of_not_datumFollows {s rest : List Char} (solid : Extent.solid .outside s)
    (h : datumFollows (s ++ rest) = false) : s = [] := by
  cases s with
  | nil => rfl
  | cons d s =>
    have blank : Text.isBlank d := by simpa [datumFollows] using h
    simp [Extent.solid, isBoundary, blank] at solid

theorem next_of_isStart {c : Char} (h : QuoteMark.isStart c) :
    Quoting.outside.next c = .outside := by
  simp only [QuoteMark.isStart, Bool.or_eq_true, decide_eq_true_eq] at h
  rcases h with (rfl | rfl) | rfl <;> rfl

theorem inner_of_isOrdinary {c : Char} (h : isOrdinary c) : isBoundary c = false ∧ c ≠ '#' := by
  refine ⟨?_, ?_⟩
  · simp only [isOrdinary, Bool.and_eq_true, Bool.not_eq_true', decide_eq_true_eq,
      Option.isNone_iff_eq_none] at h
    simp [isBoundary, h]
  · rintro rfl
    cases h

theorem isAtom_of_ordinary {c : Char} {s rest : List Char} (ordinary : isOrdinary c)
    (none : markIn? QuoteMark.plain (c :: (s ++ rest)) = none)
    (h : Extent.atom (Quoting.outside.next c) (s ++ rest) = ⟨s.length, true⟩)
    (escape : rest = [] → (Quoting.outside.run (c :: s)).escaped = false) : IsAtom (c :: s) := by
  obtain ⟨solid, closed⟩ := solid_of_atom h escape
  obtain ⟨inner, noHash⟩ := inner_of_isOrdinary ordinary
  refine ⟨?_, by simp [Extent.solid, inner, solid], closed⟩
  cases start : QuoteMark.isStart c with
  | false => exact .inr (by simp [startsAtom, noHash, ordinary, start])
  | true =>
    rw [next_of_isStart start] at solid
    have empty := eq_nil_of_not_datumFollows solid (markIn_plain_eq_none.mp none start)
    exact .inl (mem_lone.mpr ⟨c, start, .inl (by rw [empty])⟩)

theorem lone_or_isHashTail {cur : Cursor} {s rest : List Char} (plain : isPlainHash cur (s ++ rest))
    (none : markIn? QuoteMark.hashed ('#' :: (s ++ rest)) = none)
    (solid : Extent.solid .outside s) :
    ('#' :: s ∈ lone ∧ datumFollows rest = false) ∨ isHashTail s := by
  cases s with
  | nil => exact .inr rfl
  | cons d s =>
    rw [markIn_hashed, Option.map_eq_none_iff] at none
    simp only [isPlainHash, List.cons_append, List.head?_cons, Bool.and_eq_true, decide_eq_true_eq,
      ne_eq, Option.some.injEq] at plain
    cases start : QuoteMark.isStart d with
    | false => exact .inr (by simp [isHashTail, plain, start])
    | true =>
      have noDatum := markIn_plain_eq_none.mp none start
      simp only [Extent.solid, next_of_isStart start, Bool.and_eq_true] at solid
      obtain rfl : s = [] := eq_nil_of_not_datumFollows solid.2 noDatum
      exact .inl ⟨mem_lone.mpr ⟨d, start, .inr rfl⟩, noDatum⟩

/-- A run behind a hash is a hash mark when a list is glued to it, and else an atom. -/
theorem sound_hashRun {cur : Cursor} {s rest : List Char} (plain : isPlainHash cur (s ++ rest))
    (none : markIn? QuoteMark.hashed ('#' :: (s ++ rest)) = none)
    (more : (Lexeme.hashRun (s ++ rest)).more = s.length)
    (closed : (Lexeme.hashRun (s ++ rest)).closed)
    (escape : rest = [] → (Lexeme.hashRun (s ++ rest)).kind = .atom →
      (Quoting.outside.run ('#' :: s)).escaped = false) :
    Sound
      { kind := (Lexeme.hashRun (s ++ rest)).kind, tag? := (Lexeme.hashRun (s ++ rest)).tag?,
        text := '#' :: s } := by
  rcases Lexeme.hashRun_cases (s ++ rest) with ⟨run, opens, unquoted⟩ | run
  · rw [Lexeme.more_hashRun] at more
    rw [more, List.getElem?_append_right (Nat.le_refl _), Nat.sub_self, ← List.head?_eq_getElem?]
      at opens
    rw [more, List.take_left] at unquoted
    -- A list stands behind the run, so the run ends there.
    obtain ⟨opener, rest, rfl⟩ : ∃ c r, rest = c :: r := by
      cases rest with
      | nil => cases opens
      | cons c r => exact ⟨c, r, rfl⟩
    obtain ⟨_, solid, hend⟩ := Extent.atom_cases (Extent.eq_mk more rfl)
    simp only [List.take_left, List.drop_left, List.cons_ne_nil, false_and, false_or] at solid hend
    rw [run]
    refine Sound.hash ⟨?_, solid, hend.1, unquoted⟩
    rcases lone_or_isHashTail plain none solid with ⟨_, noDatum⟩ | tail
    · obtain ⟨shape, hshape⟩ := Option.isSome_iff_exists.mp opens
      rw [Delimiter.ofOpener_eq_some.mp hshape] at noDatum
      cases shape <;> cases noDatum
    · exact tail
  · rw [run] at more closed escape ⊢
    obtain ⟨solid, ends⟩ := solid_of_atom (Extent.eq_mk more closed) fun none => escape none rfl
    refine Sound.atom ⟨?_, solid, ends⟩
    rcases lone_or_isHashTail plain none solid with ⟨lone, _⟩ | tail
    · exact .inl lone
    · exact .inr (by simpa [startsAtom] using tail)

/-- What is left of a line that starts with a blank starts with it, or is nothing. -/
theorem head_trimEnd_firstLine {c : Char} (hc : c = ' ' ∨ c = '\t') (tail : List Char) :
    (Text.trimEnd (Text.firstLine (c :: tail))).head? ∈ [none, some ' ', some '\t'] := by
  have line : Text.firstLine (c :: tail) = c :: Text.firstLine tail := by
    rcases hc with rfl | rfl <;> rfl
  have kept := Text.trimEnd_prefix (c :: Text.firstLine tail)
  rw [line]
  cases ht : Text.trimEnd (c :: Text.firstLine tail) with
  | nil => simp
  | cons d r =>
    rw [ht, List.cons_prefix_cons] at kept
    rw [kept.1]
    rcases hc with rfl | rfl <;> simp

end Word

/-- A block comment is closed by its own last characters. -/
theorem Token.Lexeme.eq_of_blockComment {tail s rest : List Char} (h : '|' :: tail = s ++ rest)
    (more : 1 + (Extent.blockComment 1 tail).size = s.length)
    (closed : (Extent.blockComment 1 tail).closed) :
    ∃ s', s = '|' :: s' ∧ Extent.blockComment 1 s' = ⟨s'.length, true⟩ := by
  obtain ⟨s, rfl⟩ : ∃ s', s = '|' :: s' := by
    cases s with
    | nil => simp at more
    | cons d s => exact ⟨s, by rw [(List.cons.inj h).1]⟩
  obtain rfl : tail = s ++ rest := (List.cons.inj h).2
  rw [List.length_cons] at more
  have comment : Extent.blockComment 1 (s ++ rest) = ⟨s.length, true⟩ :=
    Extent.eq_mk (by omega) closed
  obtain ⟨_, own⟩ := Extent.blockComment_take comment []
  rw [List.take_left, List.append_nil] at own
  exact ⟨s, rfl, own⟩

/-- The word of a token is sound, unless an escape is open at the end of the text. -/
theorem Token.ReadAt.sound {t : Token} {cur : Cursor} {rest : List Char} (h : t.ReadAt cur rest)
    (closed : t.closed) (hk : t.kind ≠ .whitespace ∧ t.kind ≠ .blankLine)
    (escape : rest = [] → t.kind = .atom → (Quoting.outside.run t.text).escaped = false) :
    t.word.Sound := by
  obtain ⟨c, s, input, lexeme, text, hin, rule, kind, tag, more, closed'⟩ := h.rule
  obtain ⟨tkind, ttag, ttext, tloc, tclosed⟩ := t
  simp only at text kind tag closed' closed hk escape
  subst text kind tag
  have taken : input.take lexeme.more = s := by rw [more, hin, List.take_left]
  have line : Text.firstLine input <+: input := List.takeWhile_prefix _
  cases rule with
  | blank =>
    rcases Lexeme.kind_blank c input with e | e
    · exact absurd e hk.1
    · exact absurd e hk.2
  | lineComment =>
    have own : s = Text.firstLine input := taken.symm.trans (List.prefix_iff_eq_take.mp line).symm
    have oneLine : '\n' ∉ ';' :: s := by simpa [own] using Word.not_mem_firstLine input
    have trimmed := Text.trimEnd_cons (show Text.isBlank ';' = false from rfl) s
    change Word.Sound (.remark false (Text.trimEnd (';' :: s)))
    rw [trimmed]
    exact .lineComment (trimmed ▸ Word.isLine_trimEnd oneLine)
  | string =>
    have segment := Extent.eq_mk more (closed'.trans closed)
    obtain ⟨_, own⟩ := Extent.segment_take segment []
    rw [hin, List.take_left, List.append_nil] at own
    exact .string own
  | @blockComment tail =>
    obtain ⟨s, rfl, own⟩ := Lexeme.eq_of_blockComment hin more (closed'.trans closed)
    have last : ('#' :: '|' :: s).getLast? = some '#' := by
      have inner := Extent.getLast_of_blockComment own
      cases s with
      | nil => cases inner
      | cons d s => simpa using inner
    change Word.Sound (.remark true (Text.trimEnd ('#' :: '|' :: s)))
    rw [Text.trimEnd_eq_self last rfl]
    exact .blockComment own
  | @shebang tail first =>
    obtain ⟨own, isLine, trimmed⟩ := Word.isLine_directive taken
    have starts : s = '!' :: Text.trimEnd (Text.firstLine tail) := by
      rw [own, ← Text.trimEnd_cons (show Text.isBlank '!' = false from rfl)]
      rfl
    change Word.Sound (.remark false (Text.trimEnd ('#' :: s)))
    rw [trimmed]
    rw [starts] at isLine ⊢
    exact .shebang isLine
  | lang names =>
    obtain ⟨own, isLine, trimmed⟩ := Word.isLine_directive taken
    obtain ⟨_, _, c, tail, hinput, hc⟩ := Lexeme.namesLanguage_iff.mp names
    have starts : s = "lang".toList ++ Text.trimEnd (Text.firstLine (c :: tail)) := by
      rw [own, hinput]
      change Text.trimEnd ('l' :: 'a' :: 'n' :: 'g' :: Text.firstLine (c :: tail)) = _
      rw [Text.trimEnd_cons rfl, Text.trimEnd_cons rfl, Text.trimEnd_cons rfl,
        Text.trimEnd_cons rfl]
      rfl
    change Word.Sound (.remark false (Text.trimEnd ('#' :: s)))
    rw [trimmed]
    rw [starts] at isLine ⊢
    exact .lang isLine (Word.head_trimEnd_firstLine hc tail)
  | datumComment =>
    obtain rfl : s = [';'] := taken.symm
    exact @Word.Sound.mark .datumComment (by decide)
  | @hashMark _ mark plain found =>
    obtain ⟨mem, tail, split, _⟩ := Lexeme.eq_append_of_markIn found
    have text : '#' :: s = mark.text := Lexeme.text_of_append split taken
    change Word.Sound { kind := .quoteMark, tag? := some (.mark mark), text := '#' :: s }
    rw [text]
    exact .mark (by simp [mem])
  | hashRun plain none =>
    subst hin
    have sound := Word.sound_hashRun plain none more (closed'.trans closed) escape
    rcases Lexeme.kind_hashRun (s ++ rest) with e | e <;> simpa [Token.word, Token.isRemark, e]
      using sound
  | opening shape =>
    obtain rfl : s = [] := taken.symm
    exact .opening shape
  | closing shape =>
    obtain rfl : s = [] := taken.symm
    exact .closing shape
  | @mark _ _ mark ordinary found =>
    obtain ⟨mem, tail, split, _⟩ := Lexeme.eq_append_of_markIn found
    have text : c :: s = mark.text := Lexeme.text_of_append split taken
    change Word.Sound { kind := .quoteMark, tag? := some (.mark mark), text := c :: s }
    rw [text]
    exact .mark (by simp [mem])
  | atom ordinary none =>
    subst hin
    exact .atom (Word.isAtom_of_ordinary ordinary none (Extent.eq_mk more (closed'.trans closed))
      fun none => escape none rfl)

end SexprFormat
