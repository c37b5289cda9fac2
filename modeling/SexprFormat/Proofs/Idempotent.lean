import SexprFormat.Proofs.Stable

/-!
When formatting a formatted text gives it back. Main statement: `format_format_iff`, it does exactly
if no word of the tree is read in another way where it is printed; `format_format_splice` is a text
that is refused the second time.
-/

namespace SexprFormat

namespace Token

/-- An escape that is open at the end of a text takes a new line into its atom. -/
theorem ReadAt.isAtom_newline {t : Token} {cur : Cursor} (h : t.ReadAt cur []) (closed : t.closed)
    (he : t.escapes) : Word.IsAtom (t.text ++ ['\n']) := by
  obtain ⟨c, s, input, lexeme, text, hin, rule, kind, _, more, closed'⟩ := h.rule
  obtain rfl : input = s := by simpa using hin
  simp only [escapes, ← kind, text, Bool.and_eq_true, decide_eq_true_eq] at he
  obtain ⟨atom, escaped⟩ := he
  rw [closed] at closed'
  have lone : c :: input ∉ Word.lone := by
    have none : ∀ word ∈ Word.lone, (Quoting.outside.run word).escaped = false := by decide
    intro mem
    rw [none _ mem] at escaped
    cases escaped
  have whole (own : Extent.atom (Quoting.outside.next c) input = ⟨input.length, true⟩)
      (inner : isBoundary c = false)
      (starts : Extent.solid (Quoting.outside.next c) input →
        Word.startsAtom (c :: (input ++ ['\n']))) :
      Word.IsAtom (t.text ++ ['\n']) := by
    obtain ⟨_, solid, ends⟩ := Extent.atom_cases own
    rw [List.take_length] at solid ends
    have unmarked : ((Quoting.outside.next c).run input).mark? = none := by
      rcases ends with ⟨_, unmarked⟩ | ⟨_, _, _, _, more, _⟩
      · simpa using unmarked.symm
      · rw [List.drop_length] at more
        cases more
    have run : Quoting.outside.run (c :: input) = { mark? := none, escaped := true } := by
      change ((Quoting.outside.next c).run input).escaped = true at escaped
      change (Quoting.outside.next c).run input = _
      rw [← unmarked, ← escaped]
    rw [text]
    refine ⟨.inr (starts solid), ?_, ?_⟩
    · rw [Extent.solid_append, run, Extent.solid, inner, solid]
      rfl
    · rw [Quoting.run_append, run]
      rfl
  cases rule with
  | atom ordinary none =>
    obtain ⟨inner, noHash⟩ := Word.inner_of_isOrdinary ordinary
    refine whole (Extent.eq_mk more closed') inner fun solid => ?_
    cases start : QuoteMark.isStart c with
    | false => simp [Word.startsAtom, noHash, ordinary, start]
    | true =>
      rw [Word.next_of_isStart start] at solid
      have follows := Lexeme.markIn_plain_eq_none.mp none start
      have empty := Word.eq_nil_of_not_datumFollows solid (by rwa [List.append_nil])
      exact absurd (Word.mem_lone.mpr ⟨c, start, .inl (by rw [empty])⟩) lone
  | hashRun plain none =>
    have own : Extent.atom .outside input = ⟨input.length, true⟩ := by
      rcases Lexeme.hashRun_cases input with ⟨run, _⟩ | run <;> rw [run] at atom more closed'
      · cases atom
      · exact Extent.eq_mk more closed'
    refine whole own rfl fun solid => ?_
    have tail := (Word.lone_or_isHashTail (by rwa [List.append_nil]) (by rwa [List.append_nil])
      solid).resolve_left fun h => lone h.1
    change Word.isHashTail (input ++ ['\n'])
    cases input with
    | nil => rfl
    | cons d input => exact tail
  | blank => rcases Lexeme.kind_blank c input with e | e <;> rw [e] at atom <;> cases atom
  | _ => cases atom

end Token

/-- An atom with an open escape is the last token. -/
theorem Token.scan_of_escapes {file? : Option String} {source : List Char} {t : Token}
    (ht : t ∈ scan file? source) (he : t.escapes) :
    ∃ ts eof, scan file? source = ts ++ [t, eof] := by
  obtain ⟨before, after, split⟩ := List.append_of_mem ht
  obtain ⟨ts, eof, scanned, isEof, _⟩ := scanFrom_eq_concat file? {} (Text.joinLineEnds source)
  have kind : t.kind = .atom := by
    simp only [escapes, Bool.and_eq_true, decide_eq_true_eq] at he
    exact he.1
  cases after with
  | nil =>
    obtain rfl := List.singleton_inj.mp (List.append_inj' (split.symm.trans scanned) rfl).2
    rw [isEof] at kind
    cases kind
  | cons u after =>
    have none := (readAt_of_scanFrom split (by simp)).eq_nil_of_escapes he
    cases after with
    | nil => exact ⟨before, u, split⟩
    | cons v after =>
      have split' : scanFrom file? {} (Text.joinLineEnds source) =
          (before ++ [t]) ++ u :: v :: after := by
        rw [← scan, split]
        simp
      have read := readAt_of_scanFrom split' (by simp)
      simp [read.text_ne_nil] at none

namespace Node

open Token (Scans)

variable {init : List Form} {lead : List Token} {t : Token}

/-- Another datum may stand in place of the last one. -/
theorem spelled_concat {W : Word → Prop} (wf : ∀ form ∈ init, form.Wf) (hlead : Form.IsLead lead)
    (scans : Scans {} ((Form.tokensAll init ++ lead) ++ [t]) []) (leaf : t.isLeaf)
    (words : Form.AllWords W (Form.tokensAll init ++ lead)) {datum : Node} (hd : datum.isDatum)
    (spelled : datum.Spelled W false) :
    SpelledAll W false (Form.nodesAll init {} ++ Form.heldNodes lead ++
      [Form.wrapped lead datum]) := by
  rw [Token.scans_append, Token.scans_append] at scans
  obtain ⟨⟨initScans, leadScans⟩, read, _⟩ := scans
  have leadWords : Form.AllWords W lead := fun u hu => words u (List.mem_append_right _ hu)
  refine spelledAll_append.mpr ⟨spelledAll_append.mpr ⟨?_, ?_⟩, ?_, trivial⟩
  · exact Form.spelled_nodesAll wf (fun form hf l cur rest => (wf form hf).spelled l cur rest) {}
      initScans (fun u hu => words u (List.mem_append_left _ hu)) (by simp)
  · exact Form.spelled_heldNodes hlead.1 leadScans leadWords (by simp)
  · refine (Form.spelled_wrapped hlead.1 leadScans leadWords hd spelled ?_).2
    rintro ⟨shape, opener⟩
    have opening := read.kind_of_opener (by simpa [read.head_append] using opener)
    simp [Token.isLeaf, opening] at leaf

/-- What an atom starts with decides whether it is spliced. -/
theorem hidesSplice_wrapped {loc : Location} {s : List Char} (hs : s ≠ []) (behind : List Char)
    (h : ∀ n ∈ (Form.wrapped lead (atom loc s)).subtrees, n.hidesSplice = false) :
    ∀ n ∈ (Form.wrapped lead (atom loc (s ++ behind))).subtrees, n.hidesSplice = false := by
  unfold Form.wrapped at h ⊢
  generalize lead.filter Token.isMark = marks at h ⊢
  induction marks with
  | nil => simp [subtrees, hidesSplice]
  | cons mark marks ih =>
    rw [List.foldr_cons, Frame.wrap, subtrees, List.forall_mem_cons] at h ⊢
    refine ⟨?_, ih h.2⟩
    have here := h.1
    cases marks with
    | nil =>
      obtain ⟨c, s, rfl⟩ := List.exists_cons_of_ne_nil hs
      by_cases hc : c = '@'
      · subst hc
        exact here
      · simp [hidesSplice, hc]
    | cons => rfl

theorem text_wrapped_newline {loc : Location} (s : List Char) :
    (Form.wrapped lead (atom loc (s ++ ['\n']))).text? ≠ some "#lang".toList := by
  unfold Form.wrapped
  cases lead.filter Token.isMark with
  | nil =>
    intro same
    have bare : s ++ ['\n'] = "#lang".toList := by simpa [text?] using same
    have newline : '\n' ∈ "#lang".toList := bare ▸ by simp
    exact absurd newline (by decide)
  | cons => simp [Frame.wrap, text?]

theorem startsShebang_wrapped {loc : Location} {s : List Char} (hs : s ≠ [])
    (h : (Form.wrapped lead (atom loc s)).startsShebang = false) :
    (Form.wrapped lead (atom loc (s ++ ['\n']))).startsShebang = false := by
  unfold Form.wrapped at h ⊢
  cases marks : lead.filter Token.isMark with
  | nil =>
    rw [marks] at h
    match s, hs, h with
    | [c], _, _ => simp [startsShebang, List.isPrefixOf]
    | c :: d :: s, _, h => simpa [startsShebang, List.isPrefixOf] using h
  | cons mark marks' =>
    rw [marks] at h
    exact h

/-- The last atom of a program may get another end. -/
theorem Regular.mend {front : List Node} {loc : Location} {s : List Char} (hs : s ≠ [])
    (spelled : SpelledAll Word.Sound false (front ++ [Form.wrapped lead (atom loc (s ++ ['\n']))]))
    (leads : LeadsAll true front)
    (splices : ∀ n ∈ subtreesAll (front ++ [Form.wrapped lead (atom loc s)]), n.hidesSplice = false)
    (lang : ∀ child ∈ front, child.text? ≠ some "#lang".toList)
    (start : ∀ child ∈ (front ++ [Form.wrapped lead (atom loc s)]).head?,
      child.isBlank = false ∧ child.startsShebang = false) :
    Regular true (front ++ [Form.wrapped lead (atom loc (s ++ ['\n']))]) := by
  have datum : (Form.wrapped lead (atom loc (s ++ ['\n']))).isDatum := Form.isDatum_wrapped lead rfl
  refine ⟨spelled, leadsAll_append.mpr ⟨leads, leads_of_isDatum datum _, trivial⟩, ?_,
    ?_, fun _ => ?_⟩
  · rw [subtreesAll_append, List.forall_mem_append] at splices ⊢
    refine ⟨splices.1, ?_⟩
    simpa [subtreesAll] using hidesSplice_wrapped hs _ (by simpa [subtreesAll] using splices.2)
  · rw [List.forall_mem_append]
    exact ⟨lang, by simpa using text_wrapped_newline s⟩
  · cases front with
    | nil =>
      simp only [List.nil_append, List.head?_cons, Option.mem_some_iff, forall_eq'] at start ⊢
      exact ⟨isBlank_of_isDatum datum, startsShebang_wrapped hs start.2⟩
    | cons child front => exact start

theorem Regular.dangles {nodes : List Node} (h : Regular true nodes)
    (unsteady : ¬∀ child ∈ nodes, child.steady false) {tail : List Cell} (breaks : Cell.Breaks tail)
    {text : List Char}
    (written : Written 0 (Print.cellsAll (printsRow 0 true none false nodes) ++ tail) text)
    (file? : Option String) : Token.Dangles (Token.scanFrom file? {} text) := by
  have outer : Outer true {} := ⟨rfl, Nat.le_refl 1, by simp, fun _ => rfl⟩
  exact fails_printsRow none false h unsteady breaks file? {} text outer written

/-- What is printed of a program that ends with an atom ends with the word of the atom. -/
theorem printsRow_atom (front : List Node) (lead : List Token) (loc : Location) :
    ∃ ps, ∀ s, printsRow 0 true none false (front ++ [Form.wrapped lead (atom loc s)]) =
      ps ++ [.word (.atom s)] := by
  obtain ⟨ps, prints⟩ := printsRow_concat none false front
  refine ⟨ps ++ (lead.filter Token.isMark).map
    (fun t => .word { kind := .quoteMark, tag? := t.tag?, text := t.text }), fun s => ?_⟩
  rw [prints _ (Form.isDatum_wrapped lead rfl), Form.prints_wrapped, ← List.append_assoc]
  rfl

end Node

/-- An atom of a source is closed. -/
theorem Form.Wf.isLeaf_of_mem {form : Form} (h : form.Wf) {t : Token} (ht : t ∈ form.tokens)
    (hk : t.kind = .atom) : t.isLeaf := by
  have lead_kind {lead : List Token} (h : ∀ t ∈ lead, t.isMark || t.isTrivia) (mem : t ∈ lead) :
      t.isLeaf := by
    have plain := h t mem
    simp [Token.isMark, Token.isTrivia, hk] at plain
  induction h with
  | trivia hu => simp_all [tokens, Token.isTrivia]
  | leaf hlead hu =>
    rcases List.mem_append.mp ht with ht | ht
    · exact lead_kind hlead.1 ht
    · rw [List.mem_singleton.mp ht]
      exact hu
  | @list lead opener closer body shape hlead ho hs hbody hc hcs ih =>
    rw [tokens, List.mem_append, List.mem_cons, List.mem_append, List.mem_singleton] at ht
    rcases ht with ht | rfl | ht | rfl
    · exact lead_kind hlead.1 ht
    · rw [ho] at hk
      cases hk
    · obtain ⟨form, hf, mem⟩ := mem_tokensAll.mp ht
      exact ih form hf mem
    · rw [hc] at hk
      cases hk

/-- A word at the end of a text may take the new line behind it. -/
theorem Written.newline_word {margin indent : Int} {cells : List Cell} {word s : List Char}
    (hw : word ≠ []) (h : Written margin (cells ++ (word.map .char ++ [.hard indent])) s) :
    Written margin (cells ++ (word ++ ['\n']).map .char) s := by
  obtain ⟨width, u, v, rfl, last, frame⟩ := h.of_append
  rw [last.eq_of_word hw]
  refine frame _ _ ?_
  have all := Written.chars .nil width (word ++ ['\n']) (by simp)
  simpa using all

theorem steady_wrapped (lead : List Token) (glued : Bool) (datum : Node) :
    (Form.wrapped lead datum).steady glued = datum.steady glued := by
  unfold Form.wrapped
  induction lead.filter Token.isMark with
  | nil => rfl
  | cons mark marks ih => exact ih

section Escape

variable {file? : Option String} {source : List Char} {loc : Location} {nodes : List Node}
  (parsed : Node.parse file? source = .ok (.program loc nodes)) {ts : List Token} {t eof : Token}
  (scan : Token.scan file? source = ts ++ [t, eof]) (escapes : t.escapes)

include parsed scan escapes

theorem isLeaf_of_escapes : t.kind = .atom ∧ t.isLeaf := by
  have kind : t.kind = .atom := by
    simp only [Token.escapes, Bool.and_eq_true, decide_eq_true_eq] at escapes
    exact escapes.1
  refine ⟨kind, ?_⟩
  obtain ⟨_, forms, eof', wf, scan', isEof, _⟩ := Node.parse_forms parsed
  have mem : t ∈ Form.tokensAll forms ++ [eof'] := by
    rw [← scan', scan]
    simp
  rcases List.mem_append.mp mem with mem | mem
  · obtain ⟨form, hf, ht⟩ := Form.mem_tokensAll.mp mem
    exact (wf form hf).isLeaf_of_mem ht kind
  · rw [List.mem_singleton.mp mem, isEof] at kind
    cases kind

theorem not_steady_of_escapes : ¬∀ child ∈ nodes, child.steady false := by
  obtain ⟨kind, leaf⟩ := isLeaf_of_escapes parsed scan escapes
  obtain ⟨init, lead, _, _, _, rfl⟩ := Node.nodes_of_leaf parsed scan leaf
  intro steady
  have last := steady _ (List.mem_append_right _ (List.mem_singleton_self _))
  rw [steady_wrapped] at last
  simp [Token.leafNode, kind, Node.steady, Token.escapes] at last escapes
  simp [last] at escapes

/-- The escape takes in the new line at the end of the text, so the text does not end with a new
line when it is read again. -/
theorem not_written_of_escapes (splices : ∀ n ∈ Node.subtreesAll nodes, n.hidesSplice = false)
    (lang : ∀ child ∈ nodes, child.text? ≠ some "#lang".toList)
    (start : ∀ child ∈ nodes.head?, child.isBlank = false ∧ child.startsShebang = false)
    {text : List Char} (written : Written 0 ((Node.program loc nodes).cells 0) text) {tree : Node}
    (again : Node.parse file? text = .ok tree) : ¬Written 0 (tree.cells 0) text := by
  intro own
  have joined := joinLineEnds_of_written again own
  have tidy := Node.tidy_of_parse parsed
  have leads := Node.leads_of_parse parsed
  obtain ⟨kind, leaf⟩ := isLeaf_of_escapes parsed scan escapes
  obtain ⟨init, lead, wf, hlead, rfl, rfl⟩ := Node.nodes_of_leaf parsed scan leaf
  have leafNode : t.leafNode = .atom t.loc t.text := by simp [Token.leafNode, kind]
  have tokens : Token.scanFrom file? {} (Text.joinLineEnds source) =
      ((Form.tokensAll init ++ lead) ++ [t]) ++ [eof] := by
    rw [← Token.scan, scan]
    simp
  have scans := Token.scans_of_scanFrom tokens
  have read : t.ReadAt _ [] := (Token.scans_append.mp scans).2.1
  have nonempty := read.text_ne_nil
  have words : Form.AllWords Word.Sound (Form.tokensAll init ++ lead) := by
    intro u hu closed white
    obtain ⟨before, after, split⟩ := List.append_of_mem hu
    have place : Token.scan file? source = before ++ u :: (after ++ [t, eof]) := by
      rw [scan, split]
      simp
    refine (Token.readAt_of_scanFrom place (by simp)).sound closed white fun none => ?_
    simp [nonempty] at none
  rw [leafNode] at written tidy leads splices lang start
  -- The tree in which the last atom has taken the new line.
  have regular := Node.Regular.mend nonempty
    (Node.spelled_concat wf hlead scans leaf words rfl
      (.atom (read.isAtom_newline (by simpa [Token.isLeaf, kind] using leaf) escapes)))
    (Node.leadsAll_append.mp leads).1 splices (List.forall_mem_append.mp lang).1 start
  obtain ⟨ps, prints⟩ :=
    Node.printsRow_atom (Form.nodesAll init {} ++ Form.heldNodes lead) lead t.loc
  rw [Node.cells_concat (Form.isDatum_wrapped lead rfl) tidy, prints, Print.cellsAll_append,
    List.append_assoc] at written
  have mended :
      Written 0 (Print.cellsAll (ps ++ [.word (.atom (t.text ++ ['\n']))]) ++ []) text := by
    have last := Written.newline_word nonempty (by simpa [Print.cells, Word.atom] using written)
    simpa [Print.cells, Word.atom] using last
  rw [← prints] at mended
  have ended : Cell.Breaks [] := fun s written => by cases written; rfl
  by_cases steady : ∀ child ∈ Form.nodesAll init {} ++ Form.heldNodes lead ++
      [Form.wrapped lead (.atom t.loc (t.text ++ ['\n']))], child.steady false
  · have legible := regular.legibleProgram steady
    have outer : Outer true {} := ⟨rfl, Nat.le_refl 1, by simp, fun _ => rfl⟩
    obtain ⟨us, last, _, found, _, words⟩ :=
      (Node.reads_printsRow none false legible ended).scan outer
      (by simpa using mended) file?
    rw [prints] at words
    obtain ⟨us, _, _, rfl, _, atom⟩ := words.of_append
    obtain ⟨u, rfl, isAtom, _⟩ := atom.of_word
    have reread : Token.scan file? text = us ++ [u, last] := by
      rw [Token.scan, joined, found]
      simp
    have noLeaf := not_leaf_of_written again own reread
    have kind' : u.kind = .atom := isAtom.kind
    simp [Token.isLeaf, kind', isAtom.closed] at noLeaf
  · refine not_dangles_of_parse again ?_
    rw [Token.scan, joined]
    exact regular.dangles steady ended mended file?

end Escape

/-- A text that formatting leaves alone is written for its own tree. -/
theorem written_of_format {file? : Option String} {width : Int} {text : List Char}
    (h : format file? width text = .ok text) :
    ∃ tree, Node.parse file? text = .ok tree ∧ Written 0 (tree.cells 0) text := by
  cases parsed : Node.parse file? text with
  | error e =>
    rw [format, parsed] at h
    cases h
  | ok tree =>
    obtain ⟨text', formatted, _, written⟩ := format_written parsed width
    obtain rfl : text = text' := Except.ok.inj (h.symm.trans formatted)
    exact ⟨tree, rfl, written⟩

theorem Node.cells_program {loc : Location} {nodes : List Node} (tidy : (program loc nodes).tidy) :
    ∃ tail, Cell.Breaks tail ∧
      (program loc nodes).cells 0 = Print.cellsAll (printsRow 0 true none false nodes) ++ tail := by
  rw [← cellsAll_prints 0 tidy, prints, printsAll_eq_printsRow, Print.cellsAll_append]
  exact ⟨_, breaks_atEnd _, rfl⟩

/-- Formatting a formatted text gives it back exactly if the text has no line end of two characters
and no word of the tree is read in another way behind the one or before the other that it is printed
with. -/
theorem format_format_iff {file? : Option String} {source : List Char} {loc : Location}
    {nodes : List Node} (parsed : Node.parse file? source = .ok (.program loc nodes))
    (noSplice : ∀ node ∈ (Node.program loc nodes).subtrees, node.hidesSplice = false)
    (noLang : ∀ child ∈ nodes, child.text? ≠ some "#lang".toList)
    (noShebang : ∀ child ∈ nodes.head?, child.startsShebang = false) (width : Int) :
    ∃ text, format file? width source = .ok text ∧
      (format file? width text = .ok text ↔
        Text.joinLineEnds text = text ∧ ∀ child ∈ nodes, child.steady false) := by
  have tidy := Node.tidy_of_parse parsed
  have leads := Node.leads_of_parse parsed
  have splices (n : Node) (hn : n ∈ Node.subtreesAll nodes) : n.hidesSplice = false :=
    noSplice n (by rw [Node.subtrees]; exact List.mem_cons_of_mem _ hn)
  have start (child : Node) (hc : child ∈ nodes.head?) :
      child.isBlank = false ∧ child.startsShebang = false :=
    ⟨Node.isBlank_of_tidyAll (by simpa [Node.tidy] using tidy) child hc, noShebang child hc⟩
  obtain ⟨text, formatted, _, written⟩ := format_written parsed width
  refine ⟨text, formatted, ?_⟩
  by_cases escape : ∃ t ∈ Token.scan file? source, t.escapes
  · obtain ⟨t, ht, escapes⟩ := escape
    obtain ⟨ts, eof, scan⟩ := Token.scan_of_escapes ht escapes
    constructor
    · intro again
      obtain ⟨tree, reread, own⟩ := written_of_format again
      exact absurd own
        (not_written_of_escapes parsed scan escapes splices noLang start written reread)
    · rintro ⟨_, steady⟩
      exact absurd steady (not_steady_of_escapes parsed scan escapes)
  · have spelled : Node.SpelledAll Word.Sound false nodes := by
      refine Node.spelled_of_parse parsed fun t ht eof closed white => ?_
      exact Token.sound_of_scan ht eof closed white (by simpa using fun h => escape ⟨t, ht, h⟩)
    have regular : Node.Regular true nodes := ⟨spelled, leads, splices, noLang, fun _ => start⟩
    constructor
    · intro again
      obtain ⟨tree, reread, own⟩ := written_of_format again
      have joined := joinLineEnds_of_written reread own
      refine ⟨joined, ?_⟩
      by_contra unsteady
      obtain ⟨tail, breaks, cells⟩ := Node.cells_program tidy
      refine not_dangles_of_parse reread ?_
      rw [Token.scan, joined]
      exact regular.dangles unsteady breaks (cells ▸ written) file?
    · rintro ⟨joined, steady⟩
      obtain ⟨tree, reread, _, document⟩ :=
        Node.document_of_written (regular.legibleProgram steady) tidy written joined file?
      rw [format_eq_of_document reread parsed document, formatted]

theorem format_format_lone :
    ∃ source text, source = "(' )".toList ∧ format none 80 source = .ok text ∧
      format none 80 text ≠ .ok text := by
  have checks : (Node.ofTokens (Token.scan none "(' )".toList)).toOption.any (fun nodes =>
      (Node.subtreesAll nodes).all (!·.hidesSplice) && nodes.all (·.text? ≠ some "#lang".toList) &&
        nodes.head?.all (!·.startsShebang) && nodes.any (!·.steady false)) := by
    cbv
  cases read : Node.ofTokens (Token.scan none "(' )".toList) with
  | error e =>
    rw [read] at checks
    cases checks
  | ok nodes =>
    rw [read] at checks
    simp only [Except.toOption, Option.any_some, Bool.and_eq_true] at checks
    obtain ⟨⟨⟨noSplice, noLang⟩, noShebang⟩, unsteady⟩ := checks
    obtain ⟨loc, parsed⟩ := Node.parse_of_ok read
    obtain ⟨text, formatted, same⟩ := format_format_iff parsed
      (by simpa [Node.subtrees, Node.hidesSplice] using noSplice) (by simpa using noLang)
      (by cases h : nodes.head? <;> simp_all) 80
    refine ⟨_, text, rfl, formatted, fun again => ?_⟩
    obtain ⟨child, mem, lone⟩ := List.any_eq_true.mp unsteady
    simp [(same.mp again).2 child mem] at lone

/-- A `,` and an atom `@` are printed as a mark for splicing, which is refused without a datum. -/
theorem format_format_splice :
    format none 80 "(,@ )".toList = .ok "(,@)\n".toList ∧
      format none 80 "(,@)\n".toList ≠ .ok "(,@)\n".toList := by
  have document : (Node.parse none "(,@ )".toList).toOption.bind (·.document.toOption) =
      some (.concat [.text ['('], .group false (.indent 2 (.concat [.text [','], .text ['@']])),
        .text [')'], .hardLine]) := by
    cbv
  have once : format none 80 "(,@ )".toList = .ok "(,@)\n".toList := by
    obtain ⟨tree, parsed, built⟩ := Node.parse_of_document document
    obtain ⟨doc, built', _, formatted⟩ := format_pieces parsed
    obtain rfl := Except.ok.inj (built.symm.trans built')
    exact formatted 80
  have refused : (Node.ofTokens (Token.scan none "(,@)\n".toList)).toOption = none := by cbv
  refine ⟨once, fun again => ?_⟩
  obtain ⟨tree, parsed, _⟩ := written_of_format again
  obtain ⟨_, nodes, _, read⟩ := Node.parse_eq_ok parsed
  rw [read] at refused
  cases refused

end SexprFormat
