import SexprFormat.Proofs.Extent
import SexprFormat.Token.Scan

/-!
What one token is, and what the tokens of a text are. `Lexeme.Rule` lists the rules by which a token
is read, one for each way it can start; `Lexeme.rule_iff` says that reading follows them. Every
token of a text is read in this way at its cursor, in front of the text of the tokens behind it
(`readAt_of_scanFrom`), and texts that are read one after another are scanned as such
(`scanFrom_cons`).
-/

namespace SexprFormat

theorem Text.joinLineEnds_eq_self {s : List Char} (h : '\r' ∉ s) : joinLineEnds s = s := by
  fun_induction joinLineEnds s with
  | case1 => simp at h
  | case2 c rest _ ih =>
    rw [ih fun hr => h (List.mem_cons_of_mem _ hr)]
  | case3 => rfl

namespace Delimiter

theorem ofOpener_eq_some {c : Char} {d : Delimiter} : ofOpener? c = some d ↔ c = d.opener := by
  constructor
  · intro h
    have found := List.find?_some h
    simpa [eq_comm] using found
  · rintro rfl
    cases d <;> rfl

theorem ofCloser_eq_some {c : Char} {d : Delimiter} : ofCloser? c = some d ↔ c = d.closer := by
  constructor
  · intro h
    have found := List.find?_some h
    simpa [eq_comm] using found
  · rintro rfl
    cases d <;> rfl

end Delimiter

namespace Token

namespace Lexeme

/-- A character that starts neither white space, a comment, a string, a hash nor a bracket. -/
def isOrdinary (c : Char) : Bool :=
  !Text.isBlank c && c ≠ ';' && c ≠ '"' && c ≠ '#' && (Delimiter.ofChar? c).isNone

/-- A hash that starts no comment, directive or datum comment, given what stands after it. -/
def isPlainHash (cur : Cursor) (rest : List Char) : Bool :=
  rest.head? ≠ some '|' && !(rest.head? = some '!' && cur.offset = 0) && !namesLanguage cur rest &&
    rest.head? ≠ some ';'

/-- The rules by which a token is read from its first character and the rest of the input. -/
inductive Rule (cur : Cursor) : Char → List Char → Lexeme → Prop where
  | blank {c : Char} {rest : List Char} : Text.isBlank c → Rule cur c rest (blank c rest)
  | lineComment {rest : List Char} :
      Rule cur ';' rest { kind := .lineComment, more := (Text.firstLine rest).length }
  | string {rest : List Char} : Rule cur '"' rest (string rest)
  | blockComment {rest : List Char} : Rule cur '#' ('|' :: rest) (blockComment ('|' :: rest))
  | shebang {rest : List Char} : cur.offset = 0 →
      Rule cur '#' ('!' :: rest) (directive .shebang ('!' :: rest))
  | lang {rest : List Char} : namesLanguage cur rest → Rule cur '#' rest (directive .lang rest)
  | datumComment {rest : List Char} : Rule cur '#' (';' :: rest) (quoteMark .datumComment)
  | hashMark {rest : List Char} {mark : QuoteMark} : isPlainHash cur rest →
      markIn? QuoteMark.hashed ('#' :: rest) = some mark → Rule cur '#' rest (quoteMark mark)
  | hashRun {rest : List Char} : isPlainHash cur rest →
      markIn? QuoteMark.hashed ('#' :: rest) = none → Rule cur '#' rest (hashRun rest)
  | opening {rest : List Char} (d : Delimiter) :
      Rule cur d.opener rest { kind := .opening, tag? := some (.bracket d), more := 0 }
  | closing {rest : List Char} (d : Delimiter) :
      Rule cur d.closer rest { kind := .closing, tag? := some (.bracket d), more := 0 }
  | mark {c : Char} {rest : List Char} {mark : QuoteMark} : isOrdinary c →
      markIn? QuoteMark.plain (c :: rest) = some mark → Rule cur c rest (quoteMark mark)
  | atom {c : Char} {rest : List Char} : isOrdinary c →
      markIn? QuoteMark.plain (c :: rest) = none → Rule cur c rest (atom c rest)

theorem rule_hash (cur : Cursor) (rest : List Char) : Rule cur '#' rest (hash cur rest) := by
  unfold hash
  split
  · rename_i h
    obtain ⟨tail, rfl⟩ := List.head?_eq_some_iff.mp h
    exact .blockComment
  · rename_i noBlock
    split
    · rename_i h
      simp only [Bool.and_eq_true, decide_eq_true_eq] at h
      obtain ⟨tail, rfl⟩ := List.head?_eq_some_iff.mp h.1
      exact .shebang h.2
    · rename_i noShebang
      split
      · exact .lang ‹_›
      · rename_i noLang
        split
        · rename_i h
          obtain ⟨tail, rfl⟩ := List.head?_eq_some_iff.mp h
          exact .datumComment
        · rename_i noDatum
          have plain : isPlainHash cur rest := by grind [isPlainHash]
          split
          · exact .hashMark plain ‹_›
          · exact .hashRun plain ‹_›

theorem rule_read (cur : Cursor) (c : Char) (rest : List Char) :
    Rule cur c rest (read cur c rest) := by
  unfold read
  split
  · exact .blank ‹_›
  · rename_i noBlank
    split
    · rename_i h
      exact h ▸ .lineComment
    · rename_i noComment
      split
      · rename_i h
        exact h ▸ .string
      · rename_i noString
        split
        · rename_i h
          exact h ▸ rule_hash cur rest
        · rename_i noHash
          split
          · rename_i h
            exact Delimiter.ofOpener_eq_some.mp h ▸ .opening _
          · rename_i h
            exact Delimiter.ofCloser_eq_some.mp h ▸ .closing _
          · rename_i noOpener noCloser
            have ordinary : isOrdinary c := by
              simp_all [isOrdinary, Delimiter.ofChar?]
            split
            · exact .mark ordinary ‹_›
            · exact .atom ordinary ‹_›

theorem hash_eq_of_isPlainHash {cur : Cursor} {rest : List Char} (h : isPlainHash cur rest) :
    hash cur rest = match markIn? QuoteMark.hashed ('#' :: rest) with
      | some mark => quoteMark mark
      | none => Lexeme.hashRun rest := by
  simp only [isPlainHash, Bool.and_eq_true, decide_eq_true_eq, Bool.not_eq_true',
    ne_eq] at h
  obtain ⟨⟨⟨noBlock, noShebang⟩, noLang⟩, noDatum⟩ := h
  unfold hash
  rw [if_neg noBlock, noShebang, noLang, if_neg noDatum]
  rfl

theorem read_eq_of_isOrdinary {cur : Cursor} {c : Char} {rest : List Char} (h : isOrdinary c) :
    read cur c rest = match markIn? QuoteMark.plain (c :: rest) with
      | some mark => quoteMark mark
      | none => Lexeme.atom c rest := by
  simp only [isOrdinary, Bool.and_eq_true, Bool.not_eq_true', decide_eq_true_eq, ne_eq,
    Option.isNone_iff_eq_none, Delimiter.ofChar?, Option.or_eq_none_iff] at h
  obtain ⟨⟨⟨⟨noBlank, noComment⟩, noString⟩, noHash⟩, noOpener, noCloser⟩ := h
  unfold read
  rw [noBlank, if_neg noComment, if_neg noString, if_neg noHash, noOpener, noCloser]
  rfl

/-- Reading a token follows the rules, and no two of them apply at once. -/
theorem rule_iff {cur : Cursor} {c : Char} {rest : List Char} {lexeme : Lexeme} :
    Rule cur c rest lexeme ↔ read cur c rest = lexeme := by
  constructor
  · intro h
    cases h with
    | blank h => simp [read, h]
    | lineComment | string | blockComment => rfl
    | datumComment => simp [read, hash, namesLanguage, show Text.isBlank '#' = false from rfl]
    | shebang h => simp [read, hash, h, show Text.isBlank '#' = false from rfl]
    | lang h =>
      obtain ⟨tail, rfl⟩ : ∃ tail, rest = 'l' :: tail := by
        cases rest with
        | nil => simp [namesLanguage] at h
        | cons c tail =>
          simp [namesLanguage] at h
          exact ⟨tail, by rw [h.1.2.1]⟩
      simp [read, hash, h, show Text.isBlank '#' = false from rfl]
    | hashMark h hm =>
      simp [read, hash_eq_of_isPlainHash h, hm, show Text.isBlank '#' = false from rfl]
    | hashRun h hm =>
      simp [read, hash_eq_of_isPlainHash h, hm, show Text.isBlank '#' = false from rfl]
    | opening d => cases d <;> rfl
    | closing d => cases d <;> rfl
    | mark h hm => rw [read_eq_of_isOrdinary h, hm]
    | atom h hm => rw [read_eq_of_isOrdinary h, hm]
  · rintro rfl
    exact rule_read cur c rest

theorem length_text_le {mark : QuoteMark} {marks : List QuoteMark} {c : Char} {rest : List Char}
    (h : markIn? marks (c :: rest) = some mark) : mark.text.length - 1 ≤ rest.length := by
  have found := List.find?_some h
  simp only [Bool.and_eq_true, List.isPrefixOf_iff_prefix] at found
  have := found.1.length_le
  simp only [List.length_cons] at this
  omega

theorem size_segment_le (q : Quoting) (s : List Char) : (Extent.segment q s).size ≤ s.length := by
  induction s generalizing q with
  | nil => simp [Extent.segment]
  | cons c s ih =>
    have := ih (q.next c)
    unfold Extent.segment
    split
    · simp
    · simp
      omega

theorem size_atom_le (q : Quoting) (s : List Char) : (Extent.atom q s).size ≤ s.length :=
  (Extent.atom_cases rfl).1

theorem size_blockComment_le (depth : Nat) (s : List Char) :
    (Extent.blockComment depth s).size ≤ s.length := by
  fun_induction Extent.blockComment depth s with
  | case1 | case2 => simp
  | case3 _ _ ih | case4 _ _ ih | case5 _ _ _ _ _ ih => simp; omega

theorem length_trimEnd_le (s : List Char) : (Text.trimEnd s).length ≤ s.length := by
  have := (List.dropWhile_suffix Text.isBlank (l := s.reverse)).length_le
  simpa [Text.trimEnd] using this

theorem length_firstLine_le (s : List Char) : (Text.firstLine s).length ≤ s.length :=
  (List.takeWhile_prefix _).length_le

/-- A run behind a hash is a mark where a list is glued to it, and otherwise an atom. -/
theorem hashRun_cases (rest : List Char) :
    (hashRun rest =
      { kind := .quoteMark, tag? := some (.mark .hash), more := (atom '#' rest).more } ∧
      (rest[(atom '#' rest).more]?.bind Delimiter.ofOpener?).isSome ∧
      (rest.take (atom '#' rest).more).any (fun c => c = '\\' || c = '"' || c = '|') = false) ∨
    hashRun rest = atom '#' rest := by
  simp only [hashRun]
  split
  · rename_i glued
    rw [Bool.and_eq_true, Bool.not_eq_true'] at glued
    exact .inl ⟨rfl, glued⟩
  · exact .inr rfl

/-- Either way the run goes on as far as an atom. -/
theorem more_hashRun (rest : List Char) : (hashRun rest).more = (atom '#' rest).more := by
  rcases hashRun_cases rest with ⟨run, _⟩ | run <;> rw [run]

/-- A token does not reach behind the end of the input. -/
theorem more_le (cur : Cursor) (c : Char) (rest : List Char) :
    (read cur c rest).more ≤ rest.length := by
  have directive (kind : DirectiveKind) (rest : List Char) :
      (directive kind rest).more ≤ rest.length :=
    Nat.le_trans (length_trimEnd_le _) (length_firstLine_le rest)
  generalize hl : read cur c rest = lexeme
  cases rule_iff.mpr hl with
  | blank => exact (List.takeWhile_prefix _).length_le
  | lineComment => exact length_firstLine_le rest
  | string => exact size_segment_le _ rest
  | @blockComment rest =>
    have := size_blockComment_le 1 rest
    simp [blockComment]
    omega
  | shebang => exact directive _ _
  | lang => exact directive _ _
  | datumComment => simp [quoteMark, QuoteMark.text]
  | hashMark _ hm => exact length_text_le hm
  | hashRun =>
    rw [more_hashRun]
    exact size_atom_le _ rest
  | opening | closing => exact Nat.zero_le _
  | mark _ hm => exact length_text_le hm
  | atom => exact size_atom_le _ rest

theorem kind_blank (c : Char) (rest : List Char) :
    (blank c rest).kind = .whitespace ∨ (blank c rest).kind = .blankLine := by
  simp only [blank]
  split <;> simp

theorem kind_hashRun (rest : List Char) :
    (hashRun rest).kind = .quoteMark ∨ (hashRun rest).kind = .atom := by
  rcases hashRun_cases rest with ⟨run, _⟩ | run <;> simp [run, atom]

theorem kind_read_ne_eof (cur : Cursor) (c : Char) (rest : List Char) :
    (read cur c rest).kind ≠ .eof := by
  generalize hl : read cur c rest = lexeme
  cases rule_iff.mpr hl with
  | @blank c rest => rcases kind_blank c rest with h | h <;> simp [h]
  | @hashRun rest => rcases kind_hashRun rest with h | h <;> simp [h]
  | lineComment | opening | closing => simp
  | string => simp [string]
  | blockComment => simp [blockComment]
  | shebang | lang => simp [directive]
  | datumComment | hashMark | mark => simp [quoteMark]
  | atom => simp [atom]

end Lexeme

/-- The cursor behind some tokens. -/
def Cursor.passAll (cur : Cursor) (ts : List Token) : Cursor :=
  ts.foldl (fun cur t => (cur.nest t.kind).pass t.text) cur

theorem Cursor.passAll_append (cur : Cursor) (a b : List Token) :
    cur.passAll (a ++ b) = (cur.passAll a).passAll b := List.foldl_append

/-- The token is what is read at the cursor, with the given text behind it. -/
def ReadAt (t : Token) (cur : Cursor) (rest : List Char) : Prop :=
  ∃ c s, t.text = c :: s ∧ Lexeme.read cur c (s ++ rest) =
    { kind := t.kind, tag? := t.tag?, more := s.length, closed := t.closed }

theorem ReadAt.rule {t : Token} {cur : Cursor} {rest : List Char} (h : t.ReadAt cur rest) :
    ∃ c s input lexeme, t.text = c :: s ∧ input = s ++ rest ∧ Lexeme.Rule cur c input lexeme ∧
      lexeme.kind = t.kind ∧ lexeme.tag? = t.tag? ∧ lexeme.more = s.length ∧
      lexeme.closed = t.closed := by
  obtain ⟨c, s, ht, hr⟩ := h
  exact ⟨c, s, _, _, ht, rfl, Lexeme.rule_iff.mpr hr, rfl, rfl, rfl, rfl⟩

/-- One step of a scan, forwards: a text that is read as a token comes first. -/
theorem scanFrom_cons (file? : Option String) (cur : Cursor) {t : Token} {rest : List Char}
    (h : t.ReadAt cur rest)
    (hloc : t.loc = cur.locate file? ((cur.nest t.kind).pass t.text)) :
    scanFrom file? cur (t.text ++ rest) =
      t :: scanFrom file? ((cur.nest t.kind).pass t.text) rest := by
  obtain ⟨c, s, ht, hr⟩ := h
  obtain ⟨kind, tag?, text, loc, closed⟩ := t
  simp only at ht hr hloc
  subst ht hloc
  rw [List.cons_append, scanFrom, hr]
  simp

/-- One step of a scan, backwards. -/
theorem scanFrom_eq_cons {file? : Option String} {cur : Cursor} {input : List Char} {t : Token}
    {ts : List Token} (h : scanFrom file? cur input = t :: ts) (hts : ts ≠ []) :
    t.ReadAt cur (ts.flatMap (·.text)) ∧
      t.loc = cur.locate file? ((cur.nest t.kind).pass t.text) ∧
      ts = scanFrom file? ((cur.nest t.kind).pass t.text) (ts.flatMap (·.text)) := by
  cases input with
  | nil =>
    rw [scanFrom] at h
    exact absurd (List.cons.inj h).2.symm hts
  | cons c rest =>
    rw [scanFrom] at h
    obtain ⟨rfl, hrest⟩ := List.cons.inj h
    have more := Lexeme.more_le cur c rest
    have texts : ts.flatMap (·.text) = rest.drop (Lexeme.read cur c rest).more := by
      rw [← hrest, flatMap_text_scanFrom]
    rw [texts]
    refine ⟨⟨c, _, rfl, ?_⟩, rfl, hrest.symm⟩
    rw [List.take_append_drop, List.length_take, Nat.min_eq_left more]

/-- Behind any of the tokens of a text, the rest of the text is scanned. -/
theorem scanFrom_of_append {file? : Option String} {cur : Cursor} {input : List Char}
    {before ts : List Token} (h : scanFrom file? cur input = before ++ ts) (hts : ts ≠ []) :
    scanFrom file? (cur.passAll before) (ts.flatMap (·.text)) = ts := by
  induction before generalizing cur input with
  | nil =>
    rw [List.nil_append] at h
    rw [← h, flatMap_text_scanFrom]
    rfl
  | cons t before ih =>
    obtain ⟨_, _, hrest⟩ := scanFrom_eq_cons h (by simp [hts])
    exact ih hrest.symm

/-- Each token of a text but the last is read at its place. -/
theorem readAt_of_scanFrom {file? : Option String} {cur : Cursor} {input : List Char}
    {before after : List Token} {t : Token} (h : scanFrom file? cur input = before ++ t :: after)
    (hafter : after ≠ []) : t.ReadAt (cur.passAll before) (after.flatMap (·.text)) :=
  (scanFrom_eq_cons (scanFrom_of_append h (by simp)) hafter).1

/-- A scan ends with the only end mark. -/
theorem scanFrom_eq_concat (file? : Option String) (cur : Cursor) (input : List Char) :
    ∃ ts eof, scanFrom file? cur input = ts ++ [eof] ∧ eof.kind = .eof ∧ eof.text = [] ∧
      (∀ t ∈ ts, t.kind ≠ .eof) ∧ ts.flatMap (·.text) = input := by
  fun_induction scanFrom file? cur input with
  | case1 cur => exact ⟨[], _, rfl, rfl, rfl, by simp, rfl⟩
  | case2 cur first rest lexeme text last ih =>
    obtain ⟨ts, eof, hscan, hk, ht, hts, texts⟩ := ih
    refine ⟨_ :: ts, eof, by rw [hscan]; rfl, hk, ht, ?_, ?_⟩
    · intro t hmem
      rcases List.mem_cons.mp hmem with rfl | hmem
      · exact Lexeme.kind_read_ne_eof cur first rest
      · exact hts t hmem
    · simp [texts, text]

/-- What is read of a scan is all of it but the end mark. -/
theorem takeWhile_scanFrom {file? : Option String} {cur : Cursor} {input : List Char}
    {ts : List Token} {eof : Token} (h : scanFrom file? cur input = ts ++ [eof]) :
    (scanFrom file? cur input).takeWhile (·.kind ≠ .eof) = ts ∧ eof.kind = .eof ∧
      eof.text = [] := by
  obtain ⟨us, last, scan, isEof, empty, noEof, _⟩ := scanFrom_eq_concat file? cur input
  obtain ⟨rfl, rfl⟩ := List.append_inj' (scan.symm.trans h) rfl |>.imp_right List.singleton_inj.mp
  refine ⟨?_, isEof, empty⟩
  rw [scan, List.takeWhile_append_of_pos (by simpa using noEof)]
  simp [isEof]

end Token

end SexprFormat
