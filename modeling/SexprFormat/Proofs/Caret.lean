import SexprFormat.Proofs.Blame
import SexprFormat.Proofs.Fit
import SexprFormat.Proofs.Partition
import SexprFormat.Proofs.Spelling

/-!
Where a message points. The line and the column of a token are counted while the text is scanned,
the line that is quoted is cut out around the offset of the token, and the caret is set below by a
third rule. `Text.getElem_splitOn` brings the first two together: a place is on the line that the
line feeds before it count. Main statement: `pointsAt_of_parse`, the caret stands below the first
character of the token that is to blame.
-/

namespace SexprFormat

namespace Text

theorem length_splitOn (s : List Char) : (s.splitOn '\n').length = s.count '\n' + 1 := by
  induction s with
  | nil => rfl
  | cons c s ih =>
    rw [List.splitOn_cons_eq_if_modifyHead]
    by_cases hc : c = '\n'
    · simp [hc, ih]
    · simp [hc, ih]

theorem head_splitOn (s : List Char) : (s.splitOn '\n').head? = some (firstLine s) := by
  by_cases h : '\n' ∈ s
  · obtain ⟨line, rest, rfl, inLine⟩ := List.eq_append_cons_of_mem h
    rw [List.splitOn_append_cons_self_of_not_mem inLine, firstLine_append_newline,
      firstLine_eq_self inLine]
    rfl
  · rw [List.splitOn_eq_singleton h, firstLine_eq_self h]
    rfl

/-- A place of a text is on the line that the line feeds before it count. -/
theorem getElem_splitOn (before after : List Char) :
    ((before ++ after).splitOn '\n')[before.count '\n']? =
      some (lastLine before ++ firstLine after) := by
  -- from the end of the text before the place, which moves the place back
  induction before using List.reverseRecOn generalizing after with
  | nil =>
    rw [List.nil_append, List.count_nil, ← List.head?_eq_getElem?, head_splitOn]
    rfl
  | append_singleton before c ih =>
    rw [List.append_assoc, List.singleton_append, List.count_append, lastLine_concat]
    by_cases hc : c = '\n'
    · rw [hc, List.splitOn_append_cons_self, List.count_singleton_self, ← length_splitOn,
        List.getElem?_append_right (Nat.le_refl _), Nat.sub_self,
        ← List.head?_eq_getElem?, head_splitOn]
      rfl
    · simpa [hc, firstLine] using ih (c :: after)

theorem cutLength_append (before after : List Char) :
    cutLength (before ++ after) before.length = before.length := by
  rw [cutLength, if_neg (by omega), Int.toNat_natCast, List.length_append]
  omega

theorem lineAt_append (before after : List Char) :
    lineAt (before ++ after) before.length = lastLine before ++ firstLine after := by
  rw [lineAt, cutLength_append, List.take_left, List.drop_left]

theorem not_mem_lastLine (s : List Char) : '\n' ∉ lastLine s := by
  have first := Word.not_mem_firstLine s.reverse
  exact fun h => first (List.mem_reverse.mp h)

end Text

namespace Diagnostic

/-- A line of an excerpt, four columns in. -/
def inset (s : List Char) : List Char :=
  List.replicate 4 ' ' ++ s

theorem not_mem_inset {s : List Char} (h : '\n' ∉ s) : '\n' ∉ inset s := by
  simpa [inset] using h

theorem not_mem_margin (line : List Char) (column : Int) : '\n' ∉ margin line column := by
  intro h
  obtain ⟨c, _, same⟩ := List.mem_map.mp h
  split at same <;> cases same

/-- The line and the caret are the last two lines of a message. -/
theorem splitOn_message {d : Diagnostic} {line : List Char} {column : Int}
    (hline : d.sourceLine? = some line)
    (hcolumn : d.column? = some column) (single : '\n' ∉ line) :
    d.message.splitOn '\n' = (d.place ++ d.detail.toList).splitOn '\n' ++
      [inset (Text.trimEnd line), inset (margin line column ++ ['^'])] := by
  have quoted : '\n' ∉ inset (Text.trimEnd line) :=
    not_mem_inset fun h => single ((Text.trimEnd_prefix line).mem h)
  have below : '\n' ∉ inset (margin line column ++ ['^']) :=
    not_mem_inset (by simp [not_mem_margin])
  have start : "\n    ".toList = '\n' :: List.replicate 4 ' ' := rfl
  have message : d.message = (d.place ++ d.detail.toList) ++
      '\n' :: (inset (Text.trimEnd line) ++ '\n' :: inset (margin line column ++ ['^'])) := by
    simp only [Diagnostic.message, hline, hcolumn]
    unfold excerpt inset
    simp only [start, List.append_assoc, List.cons_append]
  rw [message, List.splitOn_append_cons_self, List.splitOn_append_cons_self_of_not_mem quoted,
    List.splitOn_eq_singleton below]

/-- A diagnostic points at the first character of a token of a text. Lines and columns are counted
from zero here. -/
structure PointsAt (d : Diagnostic) (s : List Char) (t : Token) (c : Char) (line column : Nat)
    (own : List Char) : Prop where
  atLine : d.line? = some (line + 1 : Int)
  atColumn : d.column? = some (column + 1 : Int)
  quotes : d.sourceLine? = some own
  numbered : (s.splitOn '\n')[line]? = some own
  inside : column < own.length
  char : own[column]? = some c
  first : t.text.head? = some c
  visible : Text.isBlank c = false
  /-- The token stands there. -/
  starts : ∃ before after, s = before ++ t.text ++ after ∧ line = before.count '\n' ∧
    column = (Text.lastLine before).length
  /-- The message ends in the line and, below it, tabs and spaces up to the caret. -/
  shown : ∃ front below, d.message.splitOn '\n' = front ++ [inset (Text.trimEnd own), below] ∧
    (inset (Text.trimEnd own))[column + 4]? = some c ∧ below[column + 4]? = some '^' ∧
    below.length = column + 5 ∧
    ∀ i < column + 4, below[i]? =
      some (if (inset (Text.trimEnd own))[i]? = some '\t' then '\t' else ' ')

/-- The caret stands below a visible character if the column is that of the character. -/
theorem inset_margin {a b : List Char} {c : Char} (hc : Text.isBlank c = false) :
    ∃ rest, inset (Text.trimEnd (a ++ c :: b)) = inset a ++ c :: rest ∧
      inset (margin (a ++ c :: b) (a.length + 1) ++ ['^']) =
        (inset a).map (fun c => if c = '\t' then '\t' else ' ') ++ ['^'] := by
  refine ⟨Text.trimEnd b, ?_, ?_⟩
  · rw [Text.trimEnd_append hc]
    simp [inset]
  · rw [margin, Int.add_sub_cancel, Text.cutLength_append, List.take_left]
    simp [inset]

/-- The caret comes out right if the line and the column are those of the place. -/
theorem pointsAt_of_place {d : Diagnostic} {t : Token} {c : Char} {s before rest after : List Char}
    (split : s = before ++ (t.text ++ after)) (text : t.text = c :: rest)
    (visible : Text.isBlank c = false)
    (line : d.line? = some (1 + before.count '\n' : Int))
    (column : d.column? = some (1 + (Text.lastLine before).length : Int))
    (quotes : d.sourceLine? = some (Text.lineAt s before.length)) :
    d.PointsAt s t c (before.count '\n') (Text.lastLine before).length
      (Text.lineAt s before.length) := by
  subst split
  have noNewline : '\n' ∉ [c] := by
    rw [List.mem_singleton]
    rintro rfl
    cases visible
  have own : Text.lineAt (before ++ (t.text ++ after)) before.length =
      Text.lastLine before ++ c :: Text.firstLine (rest ++ after) := by
    have goesOn := Text.firstLine_append_of_not_mem noNewline (rest ++ after)
    rw [Text.lineAt_append, text, List.cons_append, ← List.singleton_append, goesOn,
      List.singleton_append]
  have single : '\n' ∉ Text.lineAt (before ++ (t.text ++ after)) before.length := by
    rw [Text.lineAt_append, List.mem_append, not_or]
    exact ⟨Text.not_mem_lastLine before, Word.not_mem_firstLine _⟩
  rw [Int.add_comm] at line column
  refine {
    atLine := line
    atColumn := column
    quotes := quotes
    numbered := ?_
    inside := ?_
    char := ?_
    first := by rw [text]; rfl
    visible := visible
    starts := ⟨before, after, by rw [List.append_assoc], rfl, rfl⟩
    shown := ⟨_, _, splitOn_message quotes column single, ?_⟩ }
  · rw [Text.getElem_splitOn, Text.lineAt_append]
  · rw [own]
    simp
  · rw [own]
    simp
  · rw [own]
    obtain ⟨more, quoted, below⟩ := inset_margin (a := Text.lastLine before)
      (b := Text.firstLine (rest ++ after)) visible
    have size : (inset (Text.lastLine before)).length = (Text.lastLine before).length + 4 := by
      rw [inset, List.length_append, List.length_replicate, Nat.add_comm]
    rw [quoted, below, ← size]
    refine ⟨by simp, by simp, by simp [size], fun i hi => ?_⟩
    rw [List.getElem?_append_left (by simpa using hi), List.getElem?_append_left hi,
      List.getElem?_map,
      List.getElem?_eq_getElem hi]
    simp

end Diagnostic

/-- A token with a text divides its source. -/
theorem Token.Placed.split {s : List Char} {t : Token} {first last : Nat}
    (h : t.Placed s first last)
    (nonempty : t.text ≠ []) :
    s = s.take first ++ (t.text ++ s.drop last) ∧ (s.take first).length = first := by
  have before : first < last := by
    by_contra back
    refine nonempty ?_
    rw [h.text, List.drop_eq_nil_iff, List.length_take]
    omega
  have bound := h.bound
  refine ⟨?_, by rw [List.length_take]; omega⟩
  have front : s.take first = (s.take last).take first := by
    rw [List.take_take, Nat.min_eq_left (by omega)]
  rw [front, h.text, ← List.append_assoc, List.take_append_drop, List.take_append_drop]

/-- White space is never refused. -/
theorem Reading.not_white_of_refused {r : Reading} {t : Token} {e : ParseError}
    (h : r.step t = .error e) :
    t.isWhite = false := by
  by_contra white
  rw [Bool.not_eq_false, Token.isWhite_iff] at white
  obtain ⟨l, around, rfl⟩ := r.exists_within
  have trivia : t.isTrivia := by
    rcases white with kind | kind <;> simp [Token.isTrivia, kind]
  rw [l.step_within around (by simp [trivia])] at h
  cases h

theorem Token.LastWaiting.mem {ts : List Token} {mark : Token} (h : LastWaiting ts mark) :
    mark ∈ ts ∧ mark.isWhite = false := by
  obtain ⟨before, after, rfl, kind, _⟩ := h
  exact ⟨by simp, by simp [isWhite, kind]⟩

/-- The token that an error names is one of those that are read, and it is not white space. -/
theorem Node.blamed_of_ofTokens {tokens : List Token} {e : ParseError}
    (h : ofTokens tokens = .error e) :
    e.token ∈ tokens ∧ e.token.kind ≠ .eof ∧ e.token.isWhite = false := by
  obtain ⟨cut, hcut, ended, cases⟩ := error_cases h
  suffices named : e.token ∈ cut ∧ e.token.isWhite = false by
    have taken : cut <+: tokens := hcut ▸ List.takeWhile_prefix _
    exact ⟨taken.mem named.1, ended e.token named.1, named.2⟩
  rcases cases with ⟨before, t, after, r, rfl, read, refused⟩ | ⟨r, read, failed⟩
  · rcases Reading.error_of_step refused with ⟨token, _⟩ | ⟨mark, waits, rfl⟩
    · rw [token]
      exact ⟨by simp, Reading.not_white_of_refused refused⟩
    · obtain ⟨mem, white⟩ :=
        (lastWaiting_of_read (fun u hu => ended u (by simp [hu])) read waits).mem
      exact ⟨List.mem_append_left _ mem, white⟩
  · rcases Reading.error_of_finish failed with ⟨list, innermost, rfl⟩ | ⟨mark, waits, rfl⟩
    · have led := Reading.foldlM_unfinished (.program Frame.gathers_nil) read ended
      obtain ⟨mem, kind⟩ := led.opener_mem list (List.mem_of_mem_head? innermost)
      exact ⟨by simpa [ParseError.token] using mem, by simp [Token.isWhite, ParseError.token, kind]⟩
    · exact (lastWaiting_of_read ended read waits).mem

/-- Every error of a source is shown at the first character of a token that is to blame. -/
theorem pointsAt_of_parse {file? : Option String} {source : List Char} {d : Diagnostic}
    (h : Node.parse file? source = .error d) :
    ∃ e c line column own, Node.ofTokens (Token.scan file? source) = .error e ∧
      e.token ∈ Token.scan file? source ∧
      d = .ofParseError file? (some (Text.joinLineEnds source)) e ∧
      d.PointsAt (Text.joinLineEnds source) e.token c line column own := by
  unfold Node.parse at h
  split at h
  · cases h
  · rename_i e failed
    obtain rfl := Except.error.inj h
    obtain ⟨mem, kind, white⟩ := Node.blamed_of_ofTokens failed
    obtain ⟨before, after, scan⟩ := List.append_of_mem mem
    have placed := Token.placed_of_scan scan
    rcases Token.eof_or_readAt scan with ⟨_, isEof, _⟩ | ⟨_, read⟩
    · exact absurd isEof kind
    · obtain ⟨c, rest, text⟩ := List.exists_cons_of_ne_nil read.text_ne_nil
      have visible : Text.isBlank c = false := by
        refine read.visible_of_kind ?_ (by rw [text]; rfl)
        rw [← not_or, ← Token.isWhite_iff, white]
        simp
      obtain ⟨split, size⟩ := placed.split read.text_ne_nil
      have quotes :
          (Diagnostic.ofParseError file? (some (Text.joinLineEnds source)) e).sourceLine? =
          some (Text.lineAt (Text.joinLineEnds source)
            ((Text.joinLineEnds source).take (before.flatMap (·.text)).length).length) := by
        rw [size, ← placed.offset]
        rfl
      exact ⟨e, c, _, _, _, failed, mem, rfl, Diagnostic.pointsAt_of_place split text visible
        (congrArg some placed.line) (congrArg some placed.column) quotes⟩

/-- The bracket stands behind the second line of a comment and a tab, and its line ends in white
space. -/
theorem pointsAt_of_parse_tab :
    ∃ d t, Node.parse none "#|a\r\nb|#\t(c \t \r\n".toList = .error d ∧
      d.PointsAt "#|a\nb|#\t(c \t \n".toList t '(' 1 4 "b|#\t(c \t ".toList := by
  have joined : Text.joinLineEnds "#|a\r\nb|#\t(c \t \r\n".toList =
      "#|a\nb|#\t(c \t \n".toList := by
    cbv
  have quoted : Text.lineAt "#|a\nb|#\t(c \t \n".toList 8 = "b|#\t(c \t ".toList := by
    cbv
  have failed : (Node.ofTokens (Token.scan none "#|a\r\nb|#\t(c \t \r\n".toList)).mapError
      (fun e => (e.token.loc.line, e.token.loc.column, e.token.loc.offset)) = .error (2, 5, 8) := by
    cbv
  cases h : Node.parse none "#|a\r\nb|#\t(c \t \r\n".toList with
  | ok node =>
    obtain ⟨_, _, _, read⟩ := Node.parse_eq_ok h
    rw [read] at failed
    cases failed
  | error d =>
    obtain ⟨e, c, line, column, own, refused, _, rfl, points⟩ := pointsAt_of_parse h
    rw [refused, Except.mapError, Except.error.injEq, Prod.mk.injEq, Prod.mk.injEq] at failed
    obtain ⟨onLine, inColumn, offset⟩ := failed
    have isLine := Option.some.inj points.atLine
    have isColumn := Option.some.inj points.atColumn
    have isOwn := Option.some.inj points.quotes
    simp only [joined, offset, quoted] at isOwn
    obtain rfl : line = 1 := by omega
    obtain rfl : column = 4 := by omega
    subst isOwn
    obtain rfl : '(' = c := Option.some.inj points.char
    rw [joined] at points
    exact ⟨_, e.token, rfl, points⟩

end SexprFormat
