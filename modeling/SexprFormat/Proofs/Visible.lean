import SexprFormat.Proofs.Order

/-!
The visible characters of a text, which are all but white space. Main statement: `visible_format`,
formatting prints the visible characters of the tokens of a source, token by token, and moves
nothing but the comments between a quote mark and its datum.
-/

namespace SexprFormat

namespace Text

/-- The characters of a text that are no white space. -/
def visible (s : List Char) : List Char :=
  s.filter (!isBlank ·)

@[simp] theorem visible_append (a b : List Char) : visible (a ++ b) = visible a ++ visible b :=
  List.filter_append ..

theorem visible_eq_nil {s : List Char} (h : ∀ c ∈ s, isBlank c) : visible s = [] := by
  simpa [visible] using h

theorem visible_trimEnd (s : List Char) : visible (trimEnd s) = visible s := by
  have split : s = trimEnd s ++ (s.reverse.takeWhile isBlank).reverse := by
    rw [trimEnd, ← List.reverse_append, List.takeWhile_append_dropWhile, List.reverse_reverse]
  have blank : visible (s.reverse.takeWhile isBlank).reverse = [] :=
    visible_eq_nil fun c hc => List.all_eq_true.mp List.all_takeWhile c (List.mem_reverse.mp hc)
  calc visible (trimEnd s)
      = visible (trimEnd s) ++ visible (s.reverse.takeWhile isBlank).reverse := by simp [blank]
    _ = visible s := by rw [← visible_append, ← split]

/-- A carriage return is white space, so joining line ends changes nothing that is visible. -/
theorem visible_joinLineEnds (s : List Char) : visible (joinLineEnds s) = visible s := by
  fun_induction joinLineEnds s with
  | case1 rest ih =>
    have cr : isBlank '\r' = true := rfl
    simp_all [visible, List.filter_cons]
  | case2 c rest _ ih => simp_all [visible, List.filter_cons]
  | case3 => rfl

end Text

/-- The characters of some cells that are selected. -/
def Cell.select (p : Char → Bool) (cells : List Cell) : List Char :=
  cells.flatMap fun
    | .char c => [c].filter p
    | .soft _ | .hard _ => []

/-- The characters of some words that are selected. -/
def Word.select (p : Char → Bool) (ws : List Word) : List Char :=
  ws.flatMap (·.text.filter p)

section Select

variable {p : Char → Bool}

theorem Cell.select_append (a b : List Cell) : select p (a ++ b) = select p a ++ select p b :=
  List.flatMap_append

theorem Cell.select_chars (s : List Char) : select p (s.map .char) = s.filter p := by
  induction s with
  | nil => rfl
  | cons c s ih =>
    have first : (c :: s).filter p = [c].filter p ++ s.filter p := by
      rw [← List.filter_append, List.singleton_append]
    rw [first, ← ih]
    rfl

theorem Word.select_append (a b : List Word) : select p (a ++ b) = select p a ++ select p b :=
  List.flatMap_append

theorem Word.select_cons (w : Word) (ws : List Word) :
    select p (w :: ws) = w.text.filter p ++ select p ws :=
  List.flatMap_cons

theorem filter_spaces (space : p ' ' = false) (width : Int) : (spaces width).filter p = [] := by
  rw [List.filter_eq_nil_iff]
  intro c hc
  simp [List.eq_of_mem_replicate hc, space]

/-- Whatever the lines, a text of some cells has their characters, white space apart. -/
theorem Written.filter_eq {margin : Int} {cells : List Cell} {s : List Char}
    (h : Written margin cells s) (space : p ' ' = false) (newline : p '\n' = false) :
    s.filter p = Cell.select p cells := by
  have margins := filter_spaces space
  induction h with
  | nil => rfl
  | @char margin c cells s _ ih =>
    rw [List.filter_append, margins, ← List.singleton_append, List.filter_append, ih]
    rfl
  | @space margin indent cells s _ ih =>
    rw [List.filter_append, margins, List.filter_cons_of_neg (by simp [space]), ih]
    rfl
  | @newline margin indent cells s _ ih =>
    rw [List.filter_cons_of_neg (by simp [newline]), ih]
    rfl
  | @hard margin indent cells s _ ih =>
    rw [List.filter_cons_of_neg (by simp [newline]), ih]
    rfl

namespace Node

theorem select_separator (space : p ' ' = false) (indent : Int) (inProgram : Bool)
    (previous? : Option Node) (child : Node) :
    Cell.select p ((separator inProgram previous? child).cells indent) = [] := by
  unfold separator
  repeat' split
  all_goals simp [Cell.select, Doc.cells, Doc.empty, Doc.space, space]

mutual

theorem select_cells (space : p ' ' = false) (indent : Int) : ∀ node : Node,
    Cell.select p (node.cells indent) = Word.select p node.words
  | atom _ s => by simp [cells, words, Word.select, Cell.select_chars, Word.atom]
  | string _ s => by simp [cells, words, Word.select, Cell.select_chars, Word.string]
  | comment _ s _ _ => by
    simp [cells, words, Word.select, Cell.select_append, Cell.select_chars]
    rfl
  | directive _ _ s => by
    simp [cells, words, Word.select, Cell.select_append, Cell.select_chars]
    rfl
  | blank _ => rfl
  | quoted _ _ lead inner => by
    rw [cells, words, Word.select_cons, Cell.select_append, Cell.select_chars,
      select_cells space indent inner]
  | list _ shape children => by
    have body := select_cellsAll space (indent + Doc.indentWidth) false none children
    have bracket (c : Char) : Cell.select p [.char c] = [c].filter p := List.append_nil _
    rw [cells, words, Word.select_cons, Word.select_append, ← body, ← List.singleton_append,
      Cell.select_append, Cell.select_append, bracket, bracket]
    simp [Word.select, Word.opening, Word.closing]
  | program _ children => by
    rw [cells, words, Cell.select_append, select_cellsAll space indent true none children]
    split <;> simp [Cell.select]
  | unknown _ _ => rfl

theorem select_cellsAll (space : p ' ' = false) (indent : Int) (inProgram : Bool)
    (previous? : Option Node) :
    ∀ nodes : List Node,
      Cell.select p (cellsAll indent inProgram previous? nodes) = Word.select p (wordsAll nodes)
  | [] => rfl
  | child :: rest => by
    rw [cellsAll, wordsAll, Cell.select_append, Cell.select_append,
      select_separator space, select_cells space indent child,
      select_cellsAll space indent inProgram (some child) rest, Word.select_append]
    rfl

end

end Node

end Select

namespace Token

theorem visible_word (t : Token) : Text.visible t.word.text = Text.visible t.text := by
  unfold word
  split
  · rw [Word.text_remark, Text.visible_trimEnd]
  · rfl

/-- White space and the end of a text are not visible, so the words of tokens are all there is. -/
theorem visible_words {ts : List Token} (h : ∀ t ∈ ts, t.Scanned ∨ t.text = []) :
    Word.select (!Text.isBlank ·) (words ts) = ts.flatMap fun t => Text.visible t.text := by
  induction ts with
  | nil => rfl
  | cons t ts ih =>
    have later := ih fun u hu => h u (List.mem_cons_of_mem _ hu)
    rw [words_cons, Word.select_append, List.flatMap_cons, later]
    congr 1
    cases isWord : t.isWord with
    | true =>
      have same := visible_word t
      simpa [Word.select, Text.visible] using same
    | false =>
      rcases h t (List.mem_cons_self ..) with ⟨cur, rest, read⟩ | empty
      · have white : t.kind = .whitespace ∨ t.kind = .blankLine := by
          have noEof := read.kind_ne_eof
          cases hk : t.kind <;> simp_all [Token.isWord]
        exact (Text.visible_eq_nil (read.blank_of_kind white)).symm
      · simp [Word.select, empty, Text.visible]

end Token

/-- Formatting prints the visible characters of the tokens of a source, in their order but for the
comments and directives between a mark and its datum. -/
theorem visible_format {file? : Option String} {source : List Char} {tree : Node}
    (h : Node.parse file? source = .ok tree) (width : Int) :
    ∃ text, format file? width source = .ok text ∧
      Text.visible text =
        (Token.hoist [] (Token.scan file? source)).flatMap (fun t => Text.visible t.text) ∧
      (Text.visible text).Perm (Text.visible source) ∧
      (Token.NoneBetween (Token.scan file? source) → Text.visible text = Text.visible source) := by
  obtain ⟨text, formatted, _, written⟩ := format_written h width
  have hoisted := Token.perm_hoist [] (Token.scan file? source)
  have texts : (Token.scan file? source).flatMap (fun t => Text.visible t.text) =
      Text.visible source := by
    have all := Token.flatMap_text_scanFrom file? {} (Text.joinLineEnds source)
    rw [← Text.visible_joinLineEnds, ← all]
    simp [Text.visible, List.filter_flatMap, Token.scan]
  have visible : Text.visible text =
      (Token.hoist [] (Token.scan file? source)).flatMap fun t => Text.visible t.text := by
    rw [Text.visible, written.filter_eq rfl rfl, Node.select_cells rfl, Node.words_of_parse h]
    refine Token.visible_words fun t ht => ?_
    obtain ⟨ts, eof, split, _, empty, _⟩ :=
      Token.scanFrom_eq_concat file? {} (Text.joinLineEnds source)
    have mem : t ∈ ts ++ [eof] := by
      rw [← split]
      exact hoisted.mem_iff.mp ht
    rcases List.mem_append.mp mem with ht | ht
    · exact .inl (Token.scanned_of_scan split ht)
    · exact .inr (by rw [List.mem_singleton.mp ht, empty])
  refine ⟨text, formatted, visible, ?_, fun none => ?_⟩
  · rw [visible, ← texts]
    exact hoisted.flatMap_right _
  · have same : Token.hoist [] (Token.scan file? source) = [] ++ Token.scan file? source :=
      Token.hoist_eq_self (by simpa using none) Form.isLead_nil
    rw [visible, same, List.nil_append, texts]

theorem visible_format_held :
    ∃ text, format none 80 "(';c\nx)".toList = .ok text ∧ Text.visible text = "(;c'x)".toList := by
  have parses : (Node.parse none "(';c\nx)".toList).isOk := by cbv
  cases h : Node.parse none "(';c\nx)".toList with
  | error e =>
    rw [h] at parses
    cases parses
  | ok tree =>
    obtain ⟨text, formatted, visible, _⟩ := visible_format h 80
    refine ⟨text, formatted, visible.trans ?_⟩
    cbv

end SexprFormat
