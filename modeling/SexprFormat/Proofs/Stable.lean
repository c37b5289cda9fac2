import SexprFormat.Proofs.Faults
import SexprFormat.Proofs.Visible

/-!
Texts that are written for their own tree, as every text is that formatting leaves alone. Such a
text has no line end of two characters (`joinLineEnds_of_written`), its quote marks stand before
data (`not_dangles_of_parse`), and it does not end with a datum (`not_leaf_of_written`).
-/

namespace SexprFormat

theorem Text.count_joinLineEnds (s : List Char) :
    (joinLineEnds s).count '\r' ≤ s.count '\r' ∧
      ((joinLineEnds s).count '\r' = s.count '\r' → joinLineEnds s = s) := by
  fun_induction joinLineEnds s with
  | case1 rest ih =>
    simp only [List.count_cons]
    refine ⟨by simp; omega, fun same => ?_⟩
    simp at same
    omega
  | case2 c rest _ ih =>
    simp only [List.count_cons]
    refine ⟨by omega, fun same => ?_⟩
    rw [ih.2 (by omega)]
  | case3 => simp

/-- Printing tokens makes no new characters. -/
theorem Token.length_select_words (p : Char → Bool) (ts : List Token) :
    (Word.select p (words ts)).length ≤ (ts.flatMap (·.text.filter p)).length := by
  induction ts with
  | nil => exact Nat.le_refl _
  | cons t ts ih =>
    have one : (t.word.text.filter p).length ≤ (t.text.filter p).length :=
      ((word_prefix_text t).sublist.filter p).length_le
    rw [words_cons, Word.select_append, List.flatMap_cons, List.length_append, List.length_append]
    cases t.isWord with
    | true =>
      have first : Word.select p [t.word] = t.word.text.filter p := List.append_nil _
      rw [if_pos rfl, first]
      omega
    | false =>
      have none : Word.select p [] = [] := rfl
      rw [if_neg Bool.false_ne_true, none, List.length_nil]
      omega

/-- A text that is written for its own tree has no line end of two characters. -/
theorem joinLineEnds_of_written {file? : Option String} {text : List Char} {tree : Node}
    (parsed : Node.parse file? text = .ok tree) (written : Written 0 (tree.cells 0) text) :
    Text.joinLineEnds text = text := by
  let p : Char → Bool := (· = '\r')
  have count (s : List Char) : s.count '\r' = (s.filter p).length := by
    rw [List.count_eq_length_filter]
    rfl
  have texts : (Token.scan file? text).flatMap (·.text.filter p) =
      (Text.joinLineEnds text).filter p := by
    rw [← Token.flatMap_text_scanFrom file? {} (Text.joinLineEnds text), List.filter_flatMap]
    rfl
  have fewer : text.count '\r' ≤ (Text.joinLineEnds text).count '\r' := by
    have hoisted : (Token.hoist [] (Token.scan file? text)).Perm (Token.scan file? text) :=
      Token.perm_hoist [] _
    rw [count, count, written.filter_eq rfl rfl, Node.select_cells rfl, Node.words_of_parse parsed,
      ← texts, ← (hoisted.flatMap_right _).length_eq]
    exact Token.length_select_words p _
  obtain ⟨le, same⟩ := Text.count_joinLineEnds text
  exact same (by omega)

/-- No list ends while a mark waits for its datum. -/
theorem Reading.not_ok_of_closing {r r' : Reading} {mark closer : Token} {after : List Token}
    (isMark : mark.kind = .quoteMark) (closes : closer.kind = .closing) :
    (mark :: closer :: after).foldlM step r ≠ .ok r' := by
  intro h
  obtain ⟨l, around, rfl⟩ := r.exists_within
  have waits : mark.isMark := by simp [Token.isMark, isMark]
  rw [List.foldlM_cons, l.step_within around (by simp [waits])] at h
  change List.foldlM step ((l.pass mark).within around) (closer :: after) = _ at h
  rw [List.foldlM_cons] at h
  obtain ⟨next, hs, _⟩ := exists_of_bind_eq_ok h
  obtain ⟨_, _, _, _, none, _⟩ := closing_of_step hs closes
  simp [l.pass_mark waits, Frame.addMark] at none

theorem not_dangles_of_parse {file? : Option String} {source : List Char} {tree : Node}
    (parsed : Node.parse file? source = .ok tree) : ¬Token.Dangles (Token.scan file? source) := by
  rintro ⟨before, mark, closer, after, split, isMark, closes⟩
  obtain ⟨_, forms, eof, wf, scan, isEof, _⟩ := Node.parse_forms parsed
  have read := Form.foldlM_step_program wf
  obtain ⟨after, tokens⟩ : ∃ after, Form.tokensAll forms = before ++ mark :: closer :: after := by
    rcases List.append_eq_append_iff.mp (scan.symm.trans split) with ⟨_, _, short⟩
      | ⟨inner, tokens, rest⟩
    · have length := congrArg List.length short
      simp at length
      omega
    · cases inner with
      | nil => simp at rest
      | cons t inner =>
        obtain ⟨rfl, behind⟩ := List.cons.inj rest
        cases inner with
        | nil =>
          obtain ⟨rfl, _⟩ := List.cons.inj behind
          rw [isEof] at closes
          cases closes
        | cons u inner =>
          obtain ⟨rfl, _⟩ := List.cons.inj behind
          exact ⟨inner, tokens⟩
  rw [tokens, List.foldlM_append] at read
  obtain ⟨r, _, behind⟩ := exists_of_bind_eq_ok read
  exact Reading.not_ok_of_closing isMark closes behind

namespace Form

/-- Forms whose last token is a datum end with it. -/
theorem eq_concat_of_leaf {forms : List Form} (wf : ∀ form ∈ forms, form.Wf) {ts : List Token}
    {t : Token} (leaf : t.isLeaf) (h : tokensAll forms = ts ++ [t]) :
    ∃ init lead, forms = init ++ [.leaf lead t] ∧ ts = tokensAll init ++ lead ∧ IsLead lead := by
  rcases List.eq_nil_or_concat' forms with rfl | ⟨init, form, rfl⟩
  · simp [tokensAll] at h
  · rw [tokensAll_append, tokensAll, tokensAll, List.append_nil] at h
    cases wf form (by simp) with
    | @trivia u hu =>
      obtain ⟨_, same⟩ := List.append_inj' h rfl
      obtain rfl := List.singleton_inj.mp same
      cases hk : u.kind <;> simp_all [Token.isTrivia, Token.isLeaf]
    | @leaf lead u hlead hu =>
      rw [tokens, ← List.append_assoc] at h
      obtain ⟨rfl, same⟩ := List.append_inj' h rfl
      obtain rfl := List.singleton_inj.mp same
      exact ⟨init, lead, rfl, rfl, hlead⟩
    | @list lead opener closer body shape hlead ho hs hbody hc hcs =>
      rw [tokens, ← List.cons_append, ← List.append_assoc, ← List.append_assoc] at h
      obtain ⟨_, same⟩ := List.append_inj' h rfl
      obtain rfl := List.singleton_inj.mp same
      simp [Token.isLeaf, hc] at leaf

theorem nodes_of_leaf {init : List Form} {lead : List Token} {t : Token}
    (wf : ∀ form ∈ init ++ [.leaf lead t], form.Wf) :
    (readAll (init ++ [.leaf lead t]) {}).frame.trim.children =
      nodesAll init {} ++ heldNodes lead ++ [wrapped lead t.leafNode] := by
  have children : (readAll (init ++ [.leaf lead t]) {}).frame.children =
      nodesAll init {} ++ heldNodes lead ++ [wrapped lead t.leafNode] := by
    rw [children_readAll wf ⟨rfl, rfl⟩, nodesAll_append]
    simp [nodesAll, nodes, Frame.children]
  have nonblank : (wrapped lead t.leafNode).isBlank = false :=
    Node.isBlank_of_isDatum (isDatum_wrapped lead (isDatum_leafNode t))
  rw [Node.children_trim, children]
  simp [children, nonblank]

theorem prints_wrapped (lead : List Token) (datum : Node) (indent : Int) :
    (wrapped lead datum).prints indent = (lead.filter Token.isMark).map
      (fun t => .word { kind := .quoteMark, tag? := t.tag?, text := t.text }) ++
        datum.prints indent := by
  unfold wrapped
  induction lead.filter Token.isMark with
  | nil => rfl
  | cons t ts ih =>
    rw [List.foldr_cons, Frame.wrap, Node.prints, ih]
    rfl

end Form

theorem Print.between_of_isDatum (indent : Int) (inProgram : Bool) (previous? : Option Node)
    (emptyLine : Bool) {a b : Node} (ha : a.isDatum) (hb : b.isDatum) :
    between indent inProgram previous? emptyLine a =
      between indent inProgram previous? emptyLine b := by
  cases a with
  | atom | string | quoted | list =>
    cases b with
    | atom | string | quoted | list => cases previous? <;> rfl
    | comment | directive | blank | program | unknown => cases hb
  | comment | directive | blank | program | unknown => cases ha

namespace Node

/-- What is printed before a datum does not depend on it. -/
theorem printsRow_concat (previous? : Option Node) (emptyLine : Bool) (nodes : List Node) :
    ∃ ps, ∀ datum : Node, datum.isDatum →
      printsRow 0 true previous? emptyLine (nodes ++ [datum]) = ps ++ datum.prints 0 := by
  induction nodes generalizing previous? emptyLine with
  | nil =>
    refine ⟨Print.between 0 true previous? emptyLine (.atom .nowhere []), fun datum h => ?_⟩
    rw [Print.between_of_isDatum 0 true previous? emptyLine rfl h]
    simp [printsRow, isBlank_of_isDatum h]
  | cons child rest ih =>
    cases hb : child.isBlank with
    | true =>
      obtain ⟨ps, later⟩ := ih previous? true
      exact ⟨ps, fun datum h => by simpa [printsRow, hb] using later datum h⟩
    | false =>
      obtain ⟨ps, later⟩ := ih (some child) false
      refine ⟨Print.between 0 true previous? emptyLine child ++ (child.prints 0 ++ ps),
        fun datum h => ?_⟩
      simp [printsRow, hb, later datum h]

/-- A program that ends with a datum is printed with a new line behind it. -/
theorem cells_concat {loc : Location} {nodes : List Node} {datum : Node} (hd : datum.isDatum)
    (tidy : (program loc (nodes ++ [datum])).tidy) :
    (program loc (nodes ++ [datum])).cells 0 =
      Print.cellsAll (printsRow 0 true none false (nodes ++ [datum])) ++ [.hard 0] := by
  rw [← cellsAll_prints 0 tidy, prints, printsAll_eq_printsRow, Print.cellsAll_append]
  simp [isBlank_of_isDatum hd, Print.atEnd, Print.cells, Gap.cells]

end Node

namespace Written

/-- The text of some cells and then of others. The first ones leave a margin to the others, and
these may be replaced. -/
theorem of_append {margin : Int} {a b : List Cell} {s : List Char} (h : Written margin (a ++ b) s) :
    ∃ (left : Int) (u v : List Char), s = u ++ v ∧ Written left b v ∧
      ∀ b' v', Written left b' v' → Written margin (a ++ b') (u ++ v') := by
  induction a generalizing margin s with
  | nil => exact ⟨margin, [], s, rfl, h, fun _ _ h => h⟩
  | cons cell a ih =>
    cases h with
    | @char _ c _ _ h =>
      obtain ⟨left, u, v, rfl, written, others⟩ := ih h
      refine ⟨left, spaces margin ++ c :: u, v, by simp, written, fun b' v' h => ?_⟩
      simpa using Written.char (others b' v' h)
    | space h =>
      obtain ⟨left, u, v, rfl, written, others⟩ := ih h
      refine ⟨left, spaces margin ++ ' ' :: u, v, by simp, written, fun b' v' h => ?_⟩
      simpa using Written.space (others b' v' h)
    | newline h =>
      obtain ⟨left, u, v, rfl, written, others⟩ := ih h
      exact ⟨left, '\n' :: u, v, rfl, written, fun b' v' h => .newline (others b' v' h)⟩
    | hard h =>
      obtain ⟨left, u, v, rfl, written, others⟩ := ih h
      exact ⟨left, '\n' :: u, v, rfl, written, fun b' v' h => .hard (others b' v' h)⟩

theorem eq_of_word {margin indent : Int} {word s : List Char} (hw : word ≠ [])
    (h : Written margin (word.map .char ++ [.hard indent]) s) :
    s = spaces margin ++ (word ++ ['\n']) := by
  obtain ⟨c, word, rfl⟩ := List.exists_cons_of_ne_nil hw
  cases h with
  | char h =>
    obtain ⟨behind, rfl, last⟩ := h.of_chars
    cases last with
    | hard last =>
      cases last
      rfl

end Written

theorem Token.prints_leafNode (t : Token) (indent : Int) :
    t.leafNode.isDatum ∧ ∃ w : Word, t.leafNode.prints indent = [.word w] ∧ w.text = t.text := by
  unfold leafNode
  split
  · exact ⟨rfl, _, rfl, rfl⟩
  · exact ⟨rfl, _, rfl, rfl⟩

/-- A source that ends with a datum has it as its last node, behind its marks. -/
theorem Node.nodes_of_leaf {file? : Option String} {source : List Char} {loc : Location}
    {nodes : List Node} (parsed : parse file? source = .ok (.program loc nodes)) {ts : List Token}
    {t eof : Token} (scan : Token.scan file? source = ts ++ [t, eof]) (leaf : t.isLeaf) :
    ∃ init lead, (∀ form ∈ init, form.Wf) ∧ Form.IsLead lead ∧ ts = Form.tokensAll init ++ lead ∧
      nodes = Form.nodesAll init {} ++ Form.heldNodes lead ++ [Form.wrapped lead t.leafNode] := by
  obtain ⟨loc', forms, eof', wf, scan', _, _, same⟩ := parse_forms parsed
  obtain ⟨_, rfl⟩ : loc = loc' ∧ nodes = (Form.readAll forms {}).frame.trim.children := by
    simpa using same
  have tokens : Form.tokensAll forms = ts ++ [t] := by
    have split : Form.tokensAll forms ++ [eof'] = (ts ++ [t]) ++ [eof] := by
      rw [← scan', scan]
      simp
    exact (List.append_inj' split rfl).1
  obtain ⟨init, lead, rfl, rfl, hlead⟩ := Form.eq_concat_of_leaf wf leaf tokens
  exact ⟨init, lead, fun form hf => wf form (List.mem_append_left _ hf), hlead, rfl,
    Form.nodes_of_leaf wf⟩

theorem eq_of_cons_eq_concat {c d : Char} {s : List Char} (h : c :: s = s ++ [d]) : c = d := by
  induction s generalizing c with
  | nil => exact List.singleton_inj.mp h
  | cons e s ih =>
    obtain ⟨rfl, rest⟩ := List.cons.inj h
    exact ih rest

/-- A text that is written for its own tree does not end with a datum, but with a new line. -/
theorem not_leaf_of_written {file? : Option String} {text : List Char} {tree : Node}
    (parsed : Node.parse file? text = .ok tree) (written : Written 0 (tree.cells 0) text)
    {ts : List Token} {t eof : Token} (scan : Token.scan file? text = ts ++ [t, eof]) :
    t.isLeaf = false := by
  by_contra leaf
  rw [Bool.not_eq_false] at leaf
  have tidy := Node.tidy_of_parse parsed
  have joined := joinLineEnds_of_written parsed written
  obtain ⟨loc, nodes, rfl, _⟩ := Node.parse_eq_ok parsed
  obtain ⟨init, lead, _, _, _, rfl⟩ := Node.nodes_of_leaf parsed scan leaf
  obtain ⟨isDatum, w, word, sameText⟩ := t.prints_leafNode 0
  have datum := Form.isDatum_wrapped lead isDatum
  have read := Token.readAt_of_scanFrom scan (by simp)
  obtain ⟨c, s, text_eq⟩ := List.exists_cons_of_ne_nil read.text_ne_nil
  have noBlank : t.kind ≠ .whitespace ∧ t.kind ≠ .blankLine := by
    constructor <;> intro e <;> simp [Token.isLeaf, e] at leaf
  have visible := read.visible_of_kind noBlank (by rw [text_eq]; rfl)
  have printed : Print.cellsAll [.word w] = (c :: s).map .char := by
    simp [Print.cells, sameText, text_eq]
  obtain ⟨ps, front⟩ :=
    Node.printsRow_concat none false (Form.nodesAll init {} ++ Form.heldNodes lead)
  rw [Node.cells_concat datum tidy, front _ datum, Form.prints_wrapped, word, ← List.append_assoc,
    Print.cellsAll_append, List.append_assoc, printed] at written
  obtain ⟨left, u, v, split, ends, _⟩ := written.of_append
  rw [ends.eq_of_word (List.cons_ne_nil c s), ← List.append_assoc] at split
  -- The datum stands at the end of the text both with a new line behind it and without.
  have texts : ts.flatMap (·.text) ++ (c :: s) = text := by
    have tokens : Token.scanFrom file? {} (Text.joinLineEnds text) = (ts ++ [t]) ++ [eof] := by
      rw [← Token.scan, scan]
      simp
    have all := Token.flatMap_text_scanFrom file? {} (Text.joinLineEnds text)
    rw [tokens, joined] at all
    simpa [(Token.takeWhile_scanFrom tokens).2.2, text_eq] using all
  have shift : ts.flatMap (·.text) ++ (c :: s) = (u ++ spaces left ++ [c]) ++ (s ++ ['\n']) := by
    rw [texts, split]
    simp
  have newline := eq_of_cons_eq_concat (List.append_inj' shift (by simp)).2
  rw [newline] at visible
  cases visible

end SexprFormat
