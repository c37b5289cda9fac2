import SexprFormat.Proofs.Caret
import SexprFormat.Proofs.Depth

/-!
Quote marks are glued to what they mark. Scanning takes a mark only where something visible stands
behind it, and a hash mark only where a bracket does, and reading cannot come between the two. Main
statement: `marks_glued`, which goes from the tokens of a source to its tree and to its errors.
-/

namespace SexprFormat

/-- A hash, and nothing that ends an atom or quotes a part of it. -/
structure Word.HashText (lead : List Char) : Prop where
  starts : lead.head? = some '#'
  plain : ∀ c ∈ lead, Token.isBoundary c = false ∧ c ≠ '\\' ∧ c ≠ '"' ∧ c ≠ '|'

theorem Word.IsHash.hashText {s : List Char} (h : IsHash s) : HashText ('#' :: s) := by
  refine ⟨rfl, fun c hc => ?_⟩
  rcases List.mem_cons.mp hc with rfl | hc
  · decide
  · have plain := List.any_eq_false.mp h.plain c hc
    simp only [Bool.or_eq_true, decide_eq_true_eq, not_or] at plain
    exact ⟨h.not_isBoundary c hc, plain.1.1, plain.1.2, plain.2⟩

theorem Word.Sound.hashText {w : Word} (h : w.Sound) (hash : w.tag? = some (.mark .hash)) :
    HashText w.text := by
  cases h with
  | hash isHash => exact isHash.hashText
  | mark mem =>
    cases hash
    exact absurd mem (by decide)
  | _ => cases hash

namespace Token

variable {file? : Option String} {source : List Char}

/-- Something visible stands behind a mark, unless it is a datum comment. -/
theorem ReadAt.datumFollows_of_mark {t : Token} {cur : Cursor} {rest : List Char}
    (h : t.ReadAt cur rest)
    (hk : t.kind = .quoteMark) (ht : t.tag? ≠ some (.mark .datumComment)) :
    Lexeme.datumFollows rest := by
  by_cases hash : t.tag? = some (.mark .hash)
  · obtain ⟨shape, opener⟩ := h.opener_of_hash hash
    obtain ⟨tail, rfl⟩ := List.head?_eq_some_iff.mp opener
    cases shape <;> rfl
  · obtain ⟨c, s, input, lexeme, _, hin, rule, kind, tag, more, _⟩ := h.rule
    rw [hk] at kind
    have follows {marks : List QuoteMark} {mark : QuoteMark}
        (size : mark.text.length - 1 = s.length)
        (found : Lexeme.markIn? marks (c :: input) = some mark) : Lexeme.datumFollows rest := by
      obtain ⟨_, tail, split, datum⟩ := Lexeme.eq_append_of_markIn found
      have own : c :: s = mark.text :=
        Lexeme.text_of_append split (by rw [size, hin, List.take_left])
      rw [← own, hin, List.cons_append, List.cons.injEq] at split
      rwa [List.append_cancel_left split.2]
    cases rule with
    | hashMark _ found => exact follows more found
    | mark _ found => exact follows more found
    | datumComment => exact absurd tag.symm ht
    | hashRun =>
      rcases Lexeme.hashRun_cases input with ⟨run, _⟩ | run
      · rw [run] at tag
        exact absurd tag.symm hash
      · rw [run] at kind
        cases kind
    | blank => rcases Lexeme.kind_blank c input with e | e <;> rw [e] at kind <;> cases kind
    | _ => cases kind

/-- Behind a mark comes another token, and no white space. -/
theorem next_of_mark {before after : List Token} {mark : Token}
    (split : scan file? source = before ++ mark :: after) (hk : mark.kind = .quoteMark)
    (ht : mark.tag? ≠ some (.mark .datumComment)) :
    ∃ next rest cur, after = next :: rest ∧ next.ReadAt cur (rest.flatMap (·.text)) ∧
      next.isWhite = false := by
  rcases eof_or_readAt split with ⟨_, isEof, _⟩ | ⟨_, read⟩
  · simp [hk] at isEof
  · have follows := read.datumFollows_of_mark hk ht
    cases after with
    | nil => cases follows
    | cons next rest =>
      have place : scan file? source = (before ++ [mark]) ++ next :: rest := by rw [split]; simp
      rcases eof_or_readAt place with ⟨rfl, _, empty, _⟩ | ⟨_, readNext⟩
      · simp [empty, Lexeme.datumFollows] at follows
      · refine ⟨next, rest, _, rfl, readNext, ?_⟩
        by_contra white
        rw [Bool.not_eq_false, isWhite_iff] at white
        obtain ⟨c, s, text, blank, _⟩ := readNext.white white
        simp [text, Lexeme.datumFollows, blank] at follows

/-- Behind a hash mark a list opens. -/
theorem opening_of_hash {before after : List Token} {mark : Token}
    (split : scan file? source = before ++ mark :: after) (hk : mark.kind = .quoteMark)
    (hash : mark.tag? = some (.mark .hash)) :
    ∃ next rest, after = next :: rest ∧ next.kind = .opening := by
  obtain ⟨next, rest, cur, rfl, read, _⟩ := next_of_mark split hk (by simp [hash])
  have glued := readAt_of_scanFrom split (by simp)
  obtain ⟨shape, opener⟩ := glued.opener_of_hash hash
  rw [List.flatMap_cons, read.head_append] at opener
  exact ⟨next, rest, rfl, read.kind_of_opener opener⟩

/-- The word of a hash mark is spelled as such. -/
theorem hashText_of_scan {t : Token} (ht : t ∈ scan file? source) (eof : t.kind ≠ .eof)
    (closed : t.closed)
    (hk : t.kind ≠ .whitespace ∧ t.kind ≠ .blankLine) (mark : t.word.kind = .quoteMark)
    (hash : t.word.tag? = some (.mark .hash)) : Word.HashText t.word.text := by
  obtain ⟨before, after, split⟩ := List.append_of_mem ht
  rcases eof_or_readAt split with ⟨_, isEof, _⟩ | ⟨_, read⟩
  · exact absurd isEof eof
  · rw [read.kind_word] at mark
    exact (sound_of_scan ht eof closed hk (by simp [escapes, mark])).hashText hash

end Token

namespace Node

/-- A mark that waits in vain is the last one, and the token that cannot be taken behind it opens no
list. -/
theorem lastWaiting_of_dangling {tokens : List Token} {mark : Token}
    (h : ofTokens tokens = .error (.dangling mark)) :
    ∃ before after, tokens.takeWhile (·.kind ≠ .eof) = before ++ after ∧
      Token.LastWaiting before mark ∧
      ∀ t ∈ after.head?, t.kind ≠ .opening := by
  obtain ⟨cut, hcut, ended, cases⟩ := error_cases h
  rw [hcut]
  rcases cases with ⟨before, t, after, r, rfl, read, refused⟩ | ⟨r, read, failed⟩
  · refine ⟨before, t :: after, rfl, ?_, ?_⟩
    · rcases Reading.error_of_step refused with ⟨_, blames⟩ | ⟨_, waits, same⟩
      · obtain ⟨inside, ⟨_, ⟨_, opened⟩, _⟩ | ⟨rfl, _⟩, _, _, marked, _⟩ := blames []
        · simp at opened
        · simp at marked
      · cases same
        exact lastWaiting_of_read (fun u hu => ended u (by simp [hu])) read waits
    · intro u hu opening
      obtain rfl : t = u := by simpa using hu
      obtain ⟨l, around, rfl⟩ := r.exists_within
      rw [Form.step_opening l around opening] at refused
      cases refused
  · refine ⟨cut, [], (List.append_nil _).symm, ?_, by simp⟩
    rcases Reading.error_of_finish failed with ⟨_, _, other⟩ | ⟨_, waits, same⟩
    · cases other
    · cases same
      exact lastWaiting_of_read ended read waits

/-- A list opens behind a hash mark, so that it never waits in vain. -/
theorem not_hash_of_dangling {file? : Option String} {source : List Char} {mark : Token}
    (h : ofTokens (Token.scan file? source) = .error (.dangling mark)) :
    mark.kind = .quoteMark ∧ mark.tag? ≠ some (.mark .hash) := by
  obtain ⟨ts, eof, scan, isEof, _⟩ := Token.scanFrom_eq_concat file? {} (Text.joinLineEnds source)
  obtain ⟨front, after, cut, ⟨before, between, rfl, kind, trivia⟩, noList⟩ :=
    lastWaiting_of_dangling h
  refine ⟨kind, fun hash => ?_⟩
  have taken := (Token.takeWhile_scanFrom scan).1
  have split : Token.scan file? source = before ++ mark :: (between ++ (after ++ [eof])) := by
    rw [Token.scan, scan, ← taken, ← Token.scan, cut]
    simp
  obtain ⟨next, rest, behind, opening⟩ := Token.opening_of_hash split kind hash
  cases between with
  | cons t between =>
    obtain ⟨rfl, _⟩ := List.cons_eq_cons.mp behind
    have quiet := trivia t (List.mem_cons_self ..)
    simp [Token.isTrivia, opening] at quiet
  | nil =>
    cases after with
    | cons t after =>
      obtain ⟨rfl, _⟩ := List.cons_eq_cons.mp behind
      exact noList t rfl opening
    | nil =>
      obtain ⟨rfl, _⟩ := List.cons_eq_cons.mp behind
      simp [isEof] at opening

/-- A list stands behind every hash mark of a tree. -/
theorem list_of_hash {file? : Option String} {source : List Char} {tree : Node}
    (h : parse file? source = .ok tree) {loc : Location} {lead : List Char} {inner : Node}
    (hn : .quoted loc (some (.mark .hash)) lead inner ∈ tree.subtrees) :
    inner.isList ∧ Word.HashText lead := by
  obtain ⟨place, nodes, rfl, _⟩ := parse_eq_ok h
  have spelled : SpelledAll (fun w => w.kind = .quoteMark → w.tag? = some (.mark .hash) →
      Word.HashText w.text) false nodes :=
    spelled_of_parse h fun t ht eof closed hk => Token.hashText_of_scan ht eof closed hk
  rw [subtrees, List.mem_cons] at hn
  rcases hn with other | hn
  · cases other
  · obtain ⟨_, word, _, _, list⟩ := spelled_of_mem_subtreesAll nodes false spelled hn
    exact ⟨list rfl, word rfl rfl⟩

end Node

/-- Behind a hash mark comes the bracket of a list, and behind any other mark but a datum comment a
token that is no white space. So a list stands behind every hash mark of the tree, and an error of a
mark that waits in vain names no hash mark. -/
theorem marks_glued (file? : Option String) (source : List Char) :
    (∀ before mark after, Token.scan file? source = before ++ mark :: after →
      mark.kind = .quoteMark →
      (mark.tag? = some (.mark .hash) → ∃ next rest, after = next :: rest ∧ next.kind = .opening) ∧
      (mark.tag? ≠ some (.mark .hash) → mark.tag? ≠ some (.mark .datumComment) →
        ∃ next rest, after = next :: rest ∧ next.kind ≠ .whitespace ∧ next.kind ≠ .blankLine ∧
          next.kind ≠ .eof)) ∧
    (∀ tree, Node.parse file? source = .ok tree → ∀ loc lead inner,
      .quoted loc (some (.mark .hash)) lead inner ∈ tree.subtrees →
        inner.isList ∧ Word.HashText lead) ∧
    ∀ d, Node.parse file? source = .error d → d.fault = .danglingMark →
      ∃ mark, Node.ofTokens (Token.scan file? source) = .error (.dangling mark) ∧
        d = .ofParseError file? (some (Text.joinLineEnds source)) (.dangling mark) ∧
        mark.kind = .quoteMark ∧ mark.tag? ≠ some (.mark .hash) := by
  refine ⟨?_, fun tree parsed loc lead inner hn => Node.list_of_hash parsed hn, ?_⟩
  · intro before mark after split kind
    refine ⟨Token.opening_of_hash split kind, fun _ other => ?_⟩
    obtain ⟨next, rest, cur, rfl, read, visible⟩ := Token.next_of_mark split kind other
    simp only [Token.isWhite, Bool.or_eq_false_iff, decide_eq_false_iff_not] at visible
    exact ⟨next, rest, rfl, visible.1, visible.2, read.kind_ne_eof⟩
  · intro d failed dangling
    unfold Node.parse at failed
    split at failed
    · cases failed
    · rename_i e refused
      obtain rfl := Except.error.inj failed
      cases e with
      | dangling mark => exact ⟨mark, refused, rfl, Node.not_hash_of_dangling refused⟩
      | _ => cases dangling

/-- A hash mark behind another mark, and one in a list in which a datum comment waits. -/
theorem marks_glued_vector :
    (∃ before mark after, Token.scan none "'#u8(a)\n".toList = before ++ mark :: after ∧
      mark.kind = .quoteMark ∧ mark.tag? = some (.mark .hash) ∧
      ∃ next rest, after = next :: rest ∧ next.kind = .opening) ∧
    (∃ tree loc lead inner, Node.parse none "'#u8(a)\n".toList = .ok tree ∧
      .quoted loc (some (.mark .hash)) lead inner ∈ tree.subtrees ∧ inner.isList ∧
      Word.HashText lead) ∧
    ∃ d mark, Node.parse none "(#u8(a) #;)\n".toList = .error d ∧ d.fault = .danglingMark ∧
      Node.ofTokens (Token.scan none "(#u8(a) #;)\n".toList) = .error (.dangling mark) ∧
      mark.tag? ≠ some (.mark .hash) := by
  obtain ⟨tokens, trees, _⟩ := marks_glued none "'#u8(a)\n".toList
  obtain ⟨_, _, errors⟩ := marks_glued none "(#u8(a) #;)\n".toList
  refine ⟨?_, ?_, ?_⟩
  · have second : ((Token.scan none "'#u8(a)\n".toList).drop 1).head?.any
        (fun t => t.kind = .quoteMark && t.tag? = some (.mark .hash)) := by cbv
    have split := List.take_append_drop 1 (Token.scan none "'#u8(a)\n".toList)
    cases behind : (Token.scan none "'#u8(a)\n".toList).drop 1 with
    | nil =>
      rw [behind] at second
      cases second
    | cons mark after =>
      rw [behind] at second split
      simp only [List.head?_cons, Option.any_some, Bool.and_eq_true, decide_eq_true_eq] at second
      obtain ⟨kind, hash⟩ := second
      exact ⟨_, mark, after, split.symm, kind, hash, (tokens _ mark after split.symm kind).1 hash⟩
  · let inner : Node :=
      .list
        { line := 1, column := 5, offset := 4, endOffset := 7, endLine? := some 1
          endColumn? := some 7 }
        .paren
        [.atom { line := 1, column := 6, offset := 5, endOffset := 6, endLine? := some 1 } ['a']]
    let vector : Node :=
      .quoted
        { line := 1, column := 2, offset := 1, endOffset := 7, endLine? := some 1
          endColumn? := some 7 }
        (some (.mark .hash)) ['#', 'u', '8'] inner
    let outer : Node :=
      .quoted { line := 1, column := 1, endOffset := 7, endLine? := some 1, endColumn? := some 7 }
        (some (.mark .quote)) ['\''] vector
    have read : Node.ofTokens (Token.scan none "'#u8(a)\n".toList) = .ok [outer] := by cbv
    obtain ⟨loc, parsed⟩ := Node.parse_of_ok read
    have within : vector ∈ Node.subtrees (.program loc [outer]) :=
      List.mem_cons_of_mem _
        (List.mem_append_left _ (List.mem_cons_of_mem _ (Node.mem_subtrees_self vector)))
    exact ⟨_, _, _, inner, parsed, within, trees _ parsed _ _ _ within⟩
  · have failed : (Node.ofTokens (Token.scan none "(#u8(a) #;)\n".toList)).mapError
        ParseError.fault =
        .error .danglingMark := by cbv
    cases h : Node.ofTokens (Token.scan none "(#u8(a) #;)\n".toList) with
    | ok nodes =>
      rw [h] at failed
      cases failed
    | error e =>
      rw [h, Except.mapError, Except.error.injEq] at failed
      obtain ⟨d, parsed, fault⟩ := Node.parse_of_error h
      obtain ⟨mark, refused, _, _, other⟩ := errors d parsed (fault.trans failed)
      exact ⟨d, mark, parsed, fault.trans failed, h.symm.trans refused, other⟩

end SexprFormat
