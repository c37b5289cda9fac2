import SexprFormat.Proofs.Order

/-!
The tokens of a text are its pieces, each with its true place. `Token.Cursor.Behind` says which
place a cursor stands for, and scanning keeps it; main statement: `scan_partition`.
-/

namespace SexprFormat

theorem Text.lastLine_concat (s : List Char) (c : Char) :
    lastLine (s ++ [c]) = if c = '\n' then [] else lastLine s ++ [c] := by
  by_cases hc : c = '\n'
  · simp [lastLine, hc]
  · simp [lastLine, hc]

namespace Token

namespace Cursor

/-- The offset, the line and the column of a cursor are those behind a text. -/
structure Behind (cur : Cursor) (s : List Char) : Prop where
  offset : cur.offset = s.length
  line : cur.line = 1 + s.count '\n'
  column : cur.column = 1 + (Text.lastLine s).length

theorem behind_start : Behind {} [] := ⟨rfl, rfl, rfl⟩

theorem Behind.next {cur : Cursor} {s : List Char} (h : cur.Behind s) (c : Char) :
    (cur.next c).Behind (s ++ [c]) := by
  obtain ⟨offset, line, column⟩ := h
  unfold Cursor.next
  by_cases hc : c = '\n'
  · rw [if_pos hc]
    refine ⟨?_, ?_, ?_⟩
    · simp [offset]
    · simp only [line, hc, List.count_append, List.count_singleton_self]
      omega
    · simp [Text.lastLine_concat, hc]
  · rw [if_neg hc]
    refine ⟨?_, ?_, ?_⟩
    · simp [offset]
    · simp [line, hc]
    · simp only [column, Text.lastLine_concat, hc, ↓reduceIte, List.length_append,
        List.length_singleton]
      omega

theorem Behind.pass {cur : Cursor} {s : List Char} (h : cur.Behind s) (t : List Char) :
    (cur.pass t).Behind (s ++ t) := by
  induction t generalizing cur s with
  | nil => simpa [Cursor.pass] using h
  | cons c t ih =>
    have rest := ih (h.next c)
    rwa [List.append_assoc] at rest

theorem Behind.nest {cur : Cursor} {s : List Char} (h : cur.Behind s) (kind : Kind) :
    (cur.nest kind).Behind s := by
  cases kind <;> exact ⟨h.offset, h.line, h.column⟩

theorem Behind.passAll {cur : Cursor} {s : List Char} (h : cur.Behind s) (ts : List Token) :
    (cur.passAll ts).Behind (s ++ ts.flatMap (·.text)) := by
  induction ts generalizing cur s with
  | nil => simpa [Cursor.passAll] using h
  | cons t ts ih =>
    have rest := ih ((h.nest t.kind).pass t.text)
    rwa [List.append_assoc] at rest

end Cursor

/-- Every token of a text has the place that it was found at, the end mark included. -/
theorem loc_of_scanFrom {file? : Option String} {cur : Cursor} {input : List Char}
    {before after : List Token} {t : Token} (h : scanFrom file? cur input = before ++ t :: after) :
    t.loc = (cur.passAll before).locate file? (((cur.passAll before).nest t.kind).pass t.text) := by
  have found := scanFrom_of_append h (by simp)
  cases after with
  | cons u after => exact (scanFrom_eq_cons found (by simp)).2.1
  | nil =>
    obtain ⟨_, isEof, empty⟩ := takeWhile_scanFrom h
    have last : scanFrom file? (cur.passAll before) [] = [t] := by simpa [empty] using found
    rw [scanFrom] at last
    obtain rfl := List.singleton_inj.mp last
    rfl

/-- White space of either kind. -/
def isWhite (t : Token) : Bool :=
  t.kind = .whitespace || t.kind = .blankLine

theorem isWhite_iff {t : Token} : t.isWhite ↔ t.kind = .whitespace ∨ t.kind = .blankLine := by
  simp [isWhite]

/-- A token is the piece of a text between two offsets, and its lines and its column are the ones
there. -/
structure Placed (s : List Char) (t : Token) (first last : Nat) : Prop where
  offset : t.loc.offset = first
  endOffset : t.loc.endOffset = last
  bound : last ≤ s.length
  text : t.text = (s.take last).drop first
  line : t.loc.line = 1 + (s.take first).count '\n'
  column : t.loc.column = 1 + (Text.lastLine (s.take first)).length
  endLine : t.endLine = t.loc.line + t.text.count '\n'

theorem placed_of_scan {file? : Option String} {source : List Char} {before after : List Token}
    {t : Token} (h : scan file? source = before ++ t :: after) :
    t.Placed (Text.joinLineEnds source) (before.flatMap (·.text)).length
      ((before.flatMap (·.text)).length + t.text.length) := by
  have loc := loc_of_scanFrom h
  have start := Cursor.behind_start.passAll before
  have stop := (start.nest t.kind).pass t.text
  have split : Text.joinLineEnds source =
      before.flatMap (·.text) ++ (t.text ++ after.flatMap (·.text)) := by
    rw [← flatMap_text_scanFrom file? {} (Text.joinLineEnds source), ← scan, h]
    simp
  rw [List.nil_append] at start stop
  refine ⟨?_, ?_, ?_, ?_, ?_, ?_, ?_⟩
  · rw [loc]
    simp [Cursor.locate, start.offset]
  · rw [loc]
    simp [Cursor.locate, stop.offset]
  · rw [split]
    simp
  · rw [split, List.take_length_add_append, List.take_left, List.drop_left]
  · rw [loc, split, List.take_left]
    simp [Cursor.locate, start.line]
  · rw [loc, split, List.take_left]
    simp [Cursor.locate, start.column]
  · rw [Token.endLine, loc]
    simp only [Cursor.locate, Option.getD_some, stop.line, start.line, List.count_append]
    omega

namespace Extent

/-- A segment that is not closed takes all of the input. -/
theorem size_of_segment {q : Quoting} {s : List Char} (h : (segment q s).closed = false) :
    (segment q s).size = s.length := by
  induction s generalizing q with
  | nil => rfl
  | cons c s ih =>
    unfold segment at h ⊢
    split
    · rename_i ends
      rw [if_pos ends] at h
      cases h
    · rename_i goes
      rw [if_neg goes] at h
      rw [size_after, ih h, List.length_cons]
      omega

/-- A block comment that is not closed takes all of the input. -/
theorem size_of_blockComment {depth : Nat} {s : List Char}
    (h : (blockComment depth s).closed = false) :
    (blockComment depth s).size = s.length := by
  fun_induction blockComment depth s with
  | case1 => cases h
  | case2 => rfl
  | case3 _ _ ih | case4 _ _ ih | case5 _ _ _ _ _ ih =>
    rw [size_after, ih h]
    simp only [List.length_cons]
    omega

/-- An atom that is not closed takes all of the input. -/
theorem size_of_atom {q : Quoting} {s : List Char} (h : (atom q s).closed = false) :
    (atom q s).size = s.length := by
  obtain ⟨le, _, ends⟩ := atom_cases (eq_mk rfl h)
  rcases ends with ⟨none, _⟩ | ⟨_, closed, _⟩
  · exact Nat.le_antisymm le (List.drop_eq_nil_iff.mp none)
  · cases closed

end Extent

/-- A token is left open only by the end of the text. -/
theorem ReadAt.eq_nil_of_open {t : Token} {cur : Cursor} {rest : List Char} (h : t.ReadAt cur rest)
    (hc : t.closed = false) : rest = [] := by
  obtain ⟨c, s, input, lexeme, _, hin, rule, _, _, more, closed⟩ := h.rule
  rw [hc] at closed
  have none (all : lexeme.more = input.length) : rest = [] := by
    rw [more, hin, List.length_append] at all
    exact List.length_eq_zero_iff.mp (by omega)
  cases rule with
  | string => exact none (Extent.size_of_segment closed)
  | @blockComment tail =>
    have all : (Extent.blockComment 1 tail).size = tail.length := Extent.size_of_blockComment closed
    refine none ?_
    simp only [Lexeme.blockComment, List.drop_succ_cons, List.drop_zero, List.length_cons, all]
    omega
  | atom => exact none (Extent.size_of_atom closed)
  | hashRun =>
    rcases Lexeme.hashRun_cases input with ⟨run, _⟩ | run <;> rw [run] at closed none
    · cases closed
    · exact none (Extent.size_of_atom closed)
  | _ => cases closed

/-- Behind white space stands something else. -/
theorem ReadAt.not_white {t u : Token} {cur cur' : Cursor} {rest : List Char}
    (h : t.ReadAt cur (u.text ++ rest)) (hu : u.ReadAt cur' rest) (white : t.isWhite) :
    u.isWhite = false := by
  by_contra other
  rw [Bool.not_eq_false] at other
  obtain ⟨c, s, _, _, tail, _⟩ := h.white (isWhite_iff.mp white)
  obtain ⟨d, r, text, blank, _⟩ := hu.white (isWhite_iff.mp other)
  have split : ∀ e ∈ s, Text.isBlank e := by
    intro e he
    rw [← tail] at he
    exact List.all_eq_true.mp List.all_takeWhile e he
  rw [List.takeWhile_append_of_pos split, text] at tail
  simp [blank] at tail

/-- How the tokens of a text cover it. -/
structure Partition (s : List Char) (ts : List Token) : Prop where
  texts : ts.flatMap (·.text) = s
  starts : ts.head?.map (·.loc.offset) = some 0
  placed : ∀ t ∈ ts, ∃ first last, t.Placed s first last
  /-- Each token starts where the one before it ends, and white space is not cut in two. -/
  adjacent : ∀ before t u after, ts = before ++ t :: u :: after →
    u.loc.offset = t.loc.endOffset ∧ ¬(t.isWhite ∧ u.isWhite)
  /-- The end mark is the only token without a text. -/
  ends : ∃ init eof, ts = init ++ [eof] ∧ eof.kind = .eof ∧ eof.text = [] ∧
    ∀ t ∈ init, t.kind ≠ .eof ∧ t.text ≠ []
  white : ∀ t ∈ ts, t.isWhite → (t.kind = .blankLine ↔ 2 ≤ t.text.count '\n')
  /-- A token that is not closed has the end mark behind it. -/
  unclosed : ∀ before t after, ts = before ++ t :: after → t.closed = false →
    (t.kind = .atom ∨ t.kind = .string ∨ t.kind = .blockComment) ∧
      ∃ eof, after = [eof] ∧ eof.kind = .eof
  unclosed_le : (ts.filter (!·.closed)).length ≤ 1

variable {file? : Option String} {source : List Char}

/-- A token of a source is the end mark or is read at its place. -/
theorem eof_or_readAt {before after : List Token} {t : Token}
    (h : scan file? source = before ++ t :: after) :
    (after = [] ∧ t.kind = .eof ∧ t.text = [] ∧ t.closed) ∨
      (after ≠ [] ∧ t.ReadAt (Cursor.passAll {} before) (after.flatMap (·.text))) := by
  cases after with
  | cons u after => exact .inr ⟨by simp, readAt_of_scanFrom h (by simp)⟩
  | nil =>
    obtain ⟨_, isEof, empty⟩ := takeWhile_scanFrom h
    have last := scanFrom_of_append h (by simp)
    rw [List.flatMap_singleton, empty, scanFrom] at last
    obtain rfl := List.singleton_inj.mp last
    exact .inl ⟨rfl, rfl, rfl, rfl⟩

theorem adjacent_of_scan {before after : List Token} {t u : Token}
    (h : scan file? source = before ++ t :: u :: after) :
    u.loc.offset = t.loc.endOffset ∧ ¬(t.isWhite ∧ u.isWhite) := by
  have next : scan file? source = (before ++ [t]) ++ u :: after := by rw [h]; simp
  refine ⟨?_, ?_⟩
  · rw [(placed_of_scan next).offset, (placed_of_scan h).endOffset]
    simp
  · rintro ⟨white, other⟩
    have read := readAt_of_scanFrom h (by simp)
    rcases eof_or_readAt next with ⟨_, isEof, _⟩ | ⟨_, readNext⟩
    · simp [isWhite, isEof] at other
    · rw [List.flatMap_cons] at read
      rw [read.not_white readNext white] at other
      cases other

theorem unclosed_of_scan {before after : List Token} {t : Token}
    (h : scan file? source = before ++ t :: after) (hc : t.closed = false) :
    (t.kind = .atom ∨ t.kind = .string ∨ t.kind = .blockComment) ∧
      ∃ eof, after = [eof] ∧ eof.kind = .eof := by
  rcases eof_or_readAt h with ⟨_, _, _, closed⟩ | ⟨more, read⟩
  · rw [hc] at closed
    cases closed
  · refine ⟨?_, ?_⟩
    · by_contra other
      rw [not_or, not_or] at other
      rw [read.closed_of_kind other] at hc
      cases hc
    · cases after with
      | nil => exact absurd rfl more
      | cons u after =>
        have next : scan file? source = (before ++ [t]) ++ u :: after := by rw [h]; simp
        rcases eof_or_readAt next with ⟨rfl, isEof, _⟩ | ⟨_, readNext⟩
        · exact ⟨u, rfl, isEof⟩
        · have none := read.eq_nil_of_open hc
          rw [List.flatMap_cons, List.append_eq_nil_iff] at none
          exact absurd none.1 readNext.text_ne_nil

/-- There is one place for a token that is not closed. -/
theorem unclosed_le_of_scan : ((scan file? source).filter (!·.closed)).length ≤ 1 := by
  by_cases all : ∀ t ∈ scan file? source, t.closed
  · have none : (scan file? source).filter (!·.closed) = [] := by
      simpa [List.filter_eq_nil_iff] using all
    rw [none]
    exact Nat.zero_le 1
  · obtain ⟨t, ht, hc⟩ : ∃ t ∈ scan file? source, t.closed = false := by simpa using all
    obtain ⟨before, after, split⟩ := List.append_of_mem ht
    obtain ⟨_, eof, rfl, isEof⟩ := unclosed_of_scan split hc
    have others : before.filter (!·.closed) = [] := by
      rw [List.filter_eq_nil_iff]
      intro u hu unclosed
      obtain ⟨a, b, rfl⟩ := List.append_of_mem hu
      have place : scan file? source = a ++ u :: (b ++ t :: [eof]) := by rw [split]; simp
      obtain ⟨_, _, one, _⟩ := unclosed_of_scan place (by simpa using unclosed)
      have length := congrArg List.length one
      simp only [List.length_append, List.length_cons, List.length_nil] at length
      omega
    have last : eof.closed := by
      have place : scan file? source = (before ++ [t]) ++ eof :: [] := by rw [split]; simp
      rcases eof_or_readAt place with ⟨_, _, _, closed⟩ | ⟨more, _⟩
      · exact closed
      · exact absurd rfl more
    rw [split, List.filter_append, others]
    simp [hc, last]

end Token

/-- Tokens partition the source, line ends joined, and carry true places. -/
theorem scan_partition (file? : Option String) (source : List Char) :
    Token.Partition (Text.joinLineEnds source) (Token.scan file? source) := by
  obtain ⟨ts, eof, scan, isEof, empty, noEof, _⟩ :=
    Token.scanFrom_eq_concat file? {} (Text.joinLineEnds source)
  refine {
    texts := Token.flatMap_text_scanFrom file? {} (Text.joinLineEnds source)
    starts := ?_
    placed := ?_
    adjacent := fun _ _ _ _ h => Token.adjacent_of_scan h
    ends := ⟨ts, eof, scan, isEof, empty, ?_⟩
    white := ?_
    unclosed := fun _ _ _ h => Token.unclosed_of_scan h
    unclosed_le := Token.unclosed_le_of_scan }
  · cases first : Token.scan file? source with
    | nil => simp [Token.scan, scan] at first
    | cons t after =>
      have place : Token.scan file? source = [] ++ t :: after := first
      simpa using (Token.placed_of_scan place).offset
  · intro t ht
    obtain ⟨before, after, split⟩ := List.append_of_mem ht
    exact ⟨_, _, Token.placed_of_scan split⟩
  · intro t ht
    obtain ⟨_, _, read⟩ := Token.scanned_of_scan scan ht
    exact ⟨noEof t ht, read.text_ne_nil⟩
  · intro t ht white
    obtain ⟨before, after, split⟩ := List.append_of_mem ht
    rcases Token.eof_or_readAt split with ⟨_, isEof, _⟩ | ⟨_, read⟩
    · simp [Token.isWhite, isEof] at white
    · obtain ⟨_, _, _, _, _, kind⟩ := read.white (Token.isWhite_iff.mp white)
      rw [kind]
      split <;> simp_all

end SexprFormat
