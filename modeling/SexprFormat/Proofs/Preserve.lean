import SexprFormat.Proofs.Reread
import SexprFormat.Proofs.Spelling

/-!
Formatting keeps the tree. A source without the few words that are read in another way once they are
printed is read again, in whatever width it was formatted, as the tree it had before; main
statement: `parse_format`.
-/

namespace SexprFormat

namespace Node

/-! What is laid out does not depend on what `plain` leaves out. -/

theorem map_endsLine_plainAll (afterRemark : Bool) (nodes : List Node) :
    (plainAll afterRemark nodes).map endsLine = nodes.map endsLine := by
  induction nodes generalizing afterRemark with
  | nil => rfl
  | cons child rest ih => cases afterRemark <;> simp [plainAll, ih]

theorem document_attach (attachment : Attachment) (node : Node) :
    (node.attach attachment).document = node.document := by
  cases node <;> simp [attach, document]

/-- What stands before a child is the same once both nodes are plain. -/
theorem separator_plain {inProgram : Bool} {previous? plain? : Option Node} {child : Node}
    (hp : plain?.map (fun p => (p.endsLine, p.isBlank)) =
      previous?.map (fun p => (p.endsLine, p.isBlank)))
    (hf : follows inProgram previous? child) :
    separator inProgram plain?
        (if previous?.any endsLine then child.plain.attach .leading else child.plain) =
      separator inProgram previous? child := by
  cases previous? with
  | none =>
    obtain rfl : plain? = none := by simpa using hp
    cases child with
    | comment _ _ attachment _ => cases attachment <;> rfl
    | directive =>
      cases inProgram with
      | true => rfl
      | false => cases hf
    | _ => simp [Node.plain, separator]
  | some previous =>
    cases plain? with
    | none => cases hp
    | some before =>
      obtain ⟨ends, blank⟩ : before.endsLine = previous.endsLine ∧
          before.isBlank = previous.isBlank := by
        simpa using hp
      by_cases line : previous.endsLine = true
      · simp [separator, ends, line]
      · simp only [separator, ends, blank, Option.any_some, line, Bool.false_or]
        cases child with
        | comment _ _ attachment _ => cases attachment <;> rfl
        | directive =>
          cases inProgram with
          | true => rfl
          | false => cases hf
        | _ => simp [Node.plain]

mutual

theorem document_plain : ∀ node : Node, node.tidy → node.plain.document = node.document
  | atom _ _, _ => rfl
  | string _ _, _ => rfl
  | comment _ _ _ _, _ => rfl
  | directive _ _ _, _ => rfl
  | blank _, _ => rfl
  | unknown _ _, _ => rfl
  | quoted _ _ _ inner, h => by
    simp only [tidy, Bool.and_eq_true] at h
    simp only [plain, document, document_plain inner h.2]
  | list _ _ children, h => by
    have body := sequence_plainAll false none none children rfl (by simpa [tidy] using h)
    simp only [plain, document]
    simp only [Option.any_none] at body
    rw [body]
  | program _ children, h => by
    have body := sequence_plainAll true none none children rfl (by simpa [tidy] using h)
    have last := congrArg List.getLast? (map_endsLine_plainAll false children)
    rw [List.getLast?_map, List.getLast?_map] at last
    simp only [plain, document]
    simp only [Option.any_none] at body
    rw [body, last]

theorem sequence_plainAll (inProgram : Bool) (previous? plain? : Option Node) :
    ∀ nodes : List Node, plain?.map (fun p => (p.endsLine, p.isBlank)) =
        previous?.map (fun p => (p.endsLine, p.isBlank)) →
      tidyAll inProgram previous? nodes →
      sequence inProgram plain? (plainAll (previous?.any endsLine) nodes) =
        sequence inProgram previous? nodes
  | [], _, _ => rfl
  | child :: rest, hp, h => by
    simp only [tidyAll, Bool.and_eq_true] at h
    obtain ⟨⟨hf, hc⟩, hr⟩ := h
    have here : (if previous?.any endsLine then child.plain.attach .leading
        else child.plain).document =
        child.document := by
      rw [← document_plain child hc]
      split
      · exact document_attach _ _
      · rfl
    have later := sequence_plainAll inProgram (some child)
      (some (if previous?.any endsLine then child.plain.attach .leading else child.plain)) rest
      (by split <;> simp) hr
    simp only [Option.any_some] at later
    rw [plainAll, sequence, sequence, here, later, separator_plain hp hf]

end

/-! The characters of a formatted text. -/

theorem word_not_mem_between {indent : Int} {inProgram : Bool} {previous? : Option Node}
    {emptyLine : Bool} {child : Node} {w : Word} :
    Print.word w ∉ Print.between indent inProgram previous? emptyLine child := by
  rcases Print.between_cases indent inProgram previous? emptyLine child with none | ⟨g, one⟩
  · simp [none]
  · simp [one]

theorem word_not_mem_atEnd {indent : Int} {inProgram : Bool} {previous? : Option Node} {w : Word} :
    Print.word w ∉ Print.atEnd indent inProgram previous? := by
  rcases Print.atEnd_cases indent inProgram previous? with none | ⟨g, one⟩
  · simp [none]
  · simp [one]

mutual

/-- The words of a node are brackets and those that it is spelled with. -/
theorem word_of_mem_prints {W : Word → Prop}
    (brackets : ∀ shape, W (.opening shape) ∧ W (.closing shape))
    (indent : Int) : ∀ (node : Node) (inList : Bool), node.Spelled W inList → ∀ w : Word,
      .word w ∈ node.prints indent → W w
  | atom _ s, _, h, w, hw => by
    obtain rfl : w = .atom s := by simpa [prints] using hw
    exact h
  | string _ s, _, h, w, hw => by
    obtain rfl : w = .string s := by simpa [prints] using hw
    exact h
  | comment _ s _ block, _, h, w, hw => by
    obtain rfl : w = .remark block s := by simpa [prints] using hw
    exact h.1
  | directive _ _ s, _, h, w, hw => by
    obtain rfl : w = .remark false s := by simpa [prints] using hw
    exact h.1
  | quoted _ tag? lead inner, inList, h, w, hw => by
    rw [prints] at hw
    rcases List.mem_cons.mp hw with hw | hw
    · injection hw with hw
      exact hw ▸ h.1
    · exact word_of_mem_prints brackets indent inner inList h.2.2.1 w hw
  | list _ shape children, _, h, w, hw => by
    rw [prints] at hw
    rcases List.mem_cons.mp hw with hw | hw
    · injection hw with hw
      exact hw ▸ (brackets shape).1
    · rcases List.mem_append.mp hw with hw | hw
      · exact word_of_mem_printsAll brackets _ children true false none false h w hw
      · injection List.mem_singleton.mp hw with hw
        exact hw ▸ (brackets shape).2
  | blank _, _, _, w, hw => by simp [prints] at hw
  | program _ _, _, h, _, _ => absurd h id
  | unknown _ _, _, h, _, _ => absurd h id

theorem word_of_mem_printsAll {W : Word → Prop}
    (brackets : ∀ shape, W (.opening shape) ∧ W (.closing shape)) (indent : Int) :
    ∀ (nodes : List Node) (inList inProgram : Bool) (previous? : Option Node) (emptyLine : Bool),
      SpelledAll W inList nodes → ∀ w : Word,
      .word w ∈ printsAll indent inProgram previous? emptyLine nodes → W w
  | [], _, _, _, _, _, w, hw => absurd hw word_not_mem_atEnd
  | child :: rest, inList, inProgram, previous?, emptyLine, h, w, hw => by
    rw [printsAll] at hw
    split at hw
    · exact word_of_mem_printsAll brackets indent rest inList inProgram previous? true h.2 w hw
    · rcases List.mem_append.mp hw with hw | hw
      · exact absurd hw word_not_mem_between
      · rcases List.mem_append.mp hw with hw | hw
        · exact word_of_mem_prints brackets indent child inList h.1 w hw
        · exact word_of_mem_printsAll brackets indent rest inList inProgram
            (some child) false h.2 w hw

end

end Node

/-- White space apart, a text has the characters of its cells. -/
theorem Written.mem {margin : Int} {cells : List Cell} {s : List Char} (h : Written margin cells s)
    {c : Char} (hc : c ∈ s) : c = ' ' ∨ c = '\n' ∨ .char c ∈ cells := by
  have margins {width : Int} (hc : c ∈ spaces width) : c = ' ' := List.eq_of_mem_replicate hc
  induction h with
  | nil => simp at hc
  | char _ ih | space _ ih =>
    rcases List.mem_append.mp hc with hc | hc
    · exact .inl (margins hc)
    · rcases List.mem_cons.mp hc with rfl | hc
      · simp
      · rcases ih hc with h | h | h <;> simp [h]
  | newline _ ih | hard _ ih =>
    rcases List.mem_cons.mp hc with rfl | hc
    · simp
    · rcases ih hc with h | h | h <;> simp [h]

/-- The characters of a word stand among the cells. -/
theorem Print.mem_of_char {ps : List Print} {c : Char} (h : .char c ∈ cellsAll ps) :
    c = ' ' ∨ ∃ w, .word w ∈ ps ∧ c ∈ w.text := by
  obtain ⟨p, hp, hc⟩ := List.mem_flatMap.mp h
  cases p with
  | word w =>
    obtain ⟨d, hd, same⟩ := List.mem_map.mp hc
    injection same with same
    exact .inr ⟨w, hp, same ▸ hd⟩
  | gap g =>
    cases g with
    | space => exact .inl (by simpa [cells, Gap.cells] using hc)
    | soft | line | blank => simp [cells, Gap.cells] at hc

theorem Token.word_prefix_text (t : Token) : t.word.text <+: t.text := by
  unfold Token.word
  split
  · rw [Word.text_remark]
    exact Text.trimEnd_prefix t.text
  · exact List.prefix_rfl

theorem Token.atom_of_word {t : Token} (h : t.word.kind = .atom) :
    t.kind = .atom ∧ t.word.text = t.text := by
  unfold Token.word at h ⊢
  split
  · rename_i remark
    rw [if_pos remark] at h
    have kind := Word.kind_remark (t.kind = .blockComment) (Text.trimEnd t.text)
    simp [h] at kind
  · rename_i noRemark
    rw [if_neg noRemark] at h
    exact ⟨h, rfl⟩

namespace Node

/-- A `,` or `#,` with an atom behind it that starts with an `@`. Once they are glued together, both
are read as another mark. -/
def hidesSplice : Node → Bool
  | quoted _ tag? _ (atom _ ('@' :: _)) => splices tag?
  | _ => false

/-- An atom or a hash mark that is read as a shebang at the start of a text. -/
def startsShebang : Node → Bool
  | atom _ s => ['#', '!'].isPrefixOf s
  | quoted _ tag? lead _ => tag? = some (.mark .hash) && ['#', '!'].isPrefixOf lead
  | _ => false

/-- The text of a node that has no nodes below it. -/
def text? : Node → Option (List Char)
  | atom _ s | string _ s | comment _ s _ _ | directive _ _ s => some s
  | _ => none

mutual

/-- No escape is open in an atom, and no mark that is an atom stands right before the end of a list,
where it is read as a mark. `glued` tells that the end of a list follows. -/
def steady (glued : Bool) : Node → Bool
  | atom _ s => !(Token.Quoting.outside.run s).escaped && !(glued && s ∈ Word.lone)
  | quoted _ _ _ inner => steady glued inner
  | list _ _ children => steadyAll children
  | _ => true

def steadyAll : List Node → Bool
  | [] => true
  | child :: rest => steady (rest.all isBlank) child && steadyAll rest

end

mutual

theorem legible_of_spelled : ∀ (node : Node) (inList glued : Bool), node.Spelled Word.Sound inList →
    (∀ n ∈ node.subtrees, n.hidesSplice = false) → node.steady glued → (inList ∨ node.isDatum) →
    node.Legible glued
  | atom _ s, _, _, h, _, steady, _ => by
    simp only [Node.steady, Bool.and_eq_true, Bool.not_eq_true', Bool.and_eq_false_iff,
      decide_eq_false_iff_not] at steady
    refine ⟨h.isAtom rfl, ?_⟩
    rintro rfl
    simpa using steady.2
  | string _ s, _, _, h, _, _, _ => h
  | comment _ s _ block, _, _, h, _, _, hl => ⟨h.1, h.2 (by simpa [isDatum] using hl)⟩
  | directive _ _ _, _, _, h, _, _, hl => by
    rcases hl with list | datum
    · rw [h.2] at list
      cases list
    · cases datum
  | quoted _ tag? lead inner, inList, glued, h, hs, steady, _ => by
    obtain ⟨word, datum, spelled, hash⟩ := h
    have here := hs _ (mem_subtrees_self _)
    have below := legible_of_spelled inner inList glued spelled
      (fun n hn => hs n (by rw [subtrees]; exact List.mem_cons_of_mem _ hn)) steady (.inr datum)
    refine ⟨word, datum, below, hash, ?_⟩
    rintro splice loc s rfl
    rw [hidesSplice, splice] at here
    cases here
  | list _ _ children, _, _, h, hs, steady, _ =>
    legibleAll_of_spelled children h
      (fun n hn => hs n (by rw [subtrees]; exact List.mem_cons_of_mem _ hn)) steady
  | blank _, _, _, _, _, _, _ => trivial
  | program _ _, _, _, h, _, _, _ => h
  | unknown _ _, _, _, h, _, _, _ => h

theorem legibleAll_of_spelled : ∀ nodes : List Node, SpelledAll Word.Sound true nodes →
    (∀ n ∈ subtreesAll nodes, n.hidesSplice = false) → steadyAll nodes → LegibleAll nodes
  | [], _, _, _ => trivial
  | child :: rest, h, hs, steady => by
    simp only [subtreesAll, List.mem_append] at hs
    simp only [steadyAll, Bool.and_eq_true] at steady
    exact ⟨legible_of_spelled child true _ h.1 (fun n hn => hs n (.inl hn)) steady.1 (.inl rfl),
      legibleAll_of_spelled rest h.2 (fun n hn => hs n (.inr hn)) steady.2⟩

end

theorem not_shebang_of_firstText {node : Node} {inList : Bool} (h : node.Spelled Word.Sound inList)
    (hs : node.startsShebang = false) : ¬['#', '!'] <+: node.firstText := by
  have not {s : List Char} (h : ['#', '!'].isPrefixOf s = false) : ¬['#', '!'] <+: s := by
    rw [← List.isPrefixOf_iff_prefix, h]
    exact Bool.false_ne_true
  cases node with
  | atom _ s => exact not hs
  | quoted _ tag? lead inner =>
    have sound := h.1
    rw [startsShebang] at hs
    rcases sound.mark_cases with ⟨mark, _, _, rfl⟩ | ⟨s, _, rfl, rfl⟩
    · refine not (s := mark.text) ?_
      cases mark <;> rfl
    · exact not hs
  | _ => simp [firstText]

/-- The nodes of a source without the words that are read in another way once they are printed: a
`,` before an `@`, a bare `#lang`, and a shebang that is none. `first` tells that nothing stands
before the nodes. -/
structure Regular (first : Bool) (nodes : List Node) : Prop where
  spelled : SpelledAll Word.Sound false nodes
  leads : LeadsAll first nodes
  splices : ∀ n ∈ subtreesAll nodes, n.hidesSplice = false
  lang : ∀ child ∈ nodes, child.text? ≠ some "#lang".toList
  start : first → ∀ child ∈ nodes.head?, child.isBlank = false ∧ child.startsShebang = false

namespace Regular

variable {first : Bool} {child : Node} {rest : List Node}

theorem tail (h : Regular first (child :: rest)) : Regular false rest := by
  refine ⟨h.spelled.2, h.leads.2, fun n hn => h.splices n ?_, ?_, by simp⟩
  · rw [subtreesAll]
    exact List.mem_append_right _ hn
  · exact fun n hn => h.lang n (List.mem_cons_of_mem _ hn)

theorem splices_head (h : Regular first (child :: rest)) :
    ∀ n ∈ child.subtrees, n.hidesSplice = false := by
  intro n hn
  refine h.splices n ?_
  rw [subtreesAll]
  exact List.mem_append_left _ hn

theorem startsShebang_head (h : Regular first (child :: rest)) (top : first) :
    child.startsShebang = false :=
  (h.start top child (by simp)).2

theorem legibleTop (h : Regular first (child :: rest)) (steady : child.steady false) :
    child.LegibleTop first rest.head? := by
  have bare := h.lang child (List.mem_cons_self ..)
  have spelled := h.spelled.1
  have leads := h.leads.1
  have datum (hd : child.isDatum) : child.Legible false ∧
      (first → ¬['#', '!'] <+: child.firstText) ∧
      ∀ loc, child = atom loc "#lang".toList → rest.head?.all (!·.isTrailing) := by
    refine ⟨legible_of_spelled child false false spelled h.splices_head steady (.inr hd),
      fun top => not_shebang_of_firstText spelled (h.startsShebang_head top), ?_⟩
    rintro loc rfl
    exact absurd rfl bare
  cases child with
  | comment _ s attachment block =>
    refine ⟨spelled.1, fun directive => ?_⟩
    obtain ⟨leading, isFirst⟩ := leads directive
    exact ⟨leading, fun same => bare (by rw [text?, same]), isFirst⟩
  | directive _ _ s =>
    exact ⟨spelled.1, fun _ => ⟨rfl, fun same => bare (by rw [text?, same]), leads⟩⟩
  | blank => exact ⟨trivial, fun _ => by simp [firstText], by simp⟩
  | program | unknown => exact absurd spelled id
  | atom | string | quoted | list => exact datum rfl

theorem legibleProgram {nodes : List Node} (h : Regular first nodes)
    (steady : ∀ child ∈ nodes, child.steady false) : LegibleProgram first nodes := by
  induction nodes generalizing first with
  | nil => trivial
  | cons child rest ih =>
    have nonblank : (first && child.isBlank) = false := by
      cases first with
      | false => rfl
      | true => exact (h.start rfl child (by simp)).1
    refine ⟨h.legibleTop (steady child (List.mem_cons_self ..)), ?_⟩
    rw [nonblank]
    exact ih h.tail fun n hn => steady n (List.mem_cons_of_mem _ hn)

end Regular

/-- A program does not start with a blank line. -/
theorem isBlank_of_tidyAll {nodes : List Node} (h : tidyAll true none nodes) :
    ∀ child ∈ nodes.head?, child.isBlank = false := by
  cases nodes with
  | nil => simp
  | cons child rest => cases child <;> simp_all [tidyAll, follows, isBlank]

end Node

/-- A text of a legible tree is read as a tree with the same layout. -/
theorem Node.document_of_written {loc : Location} {nodes : List Node}
    (h : LegibleProgram true nodes)
    (ht : (program loc nodes).tidy) {s : List Char}
    (written : Written 0 ((program loc nodes).cells 0) s) (joined : Text.joinLineEnds s = s)
    (file? : Option String) :
    ∃ tree, parse file? s = .ok tree ∧ tree.plain = (program loc nodes).plain ∧
      tree.document = (program loc nodes).document := by
  obtain ⟨loc', nodes', parsed, same⟩ := parse_of_written h ht written joined file?
  have plain : (program loc' nodes').plain = (program loc nodes).plain := by
    rw [Node.plain, Node.plain, same]
  refine ⟨_, parsed, plain, ?_⟩
  rw [← document_plain _ (tidy_of_parse parsed), ← document_plain _ ht, plain]

/-- A word that is read again as it is, wherever it stands. -/
def Word.Plain (w : Word) : Prop :=
  w.Sound ∧ (w.kind = .atom → w.text ∉ Word.lone) ∧ '\r' ∉ w.text

namespace Node

mutual

theorem steady_of_plain : ∀ (node : Node) (inList glued : Bool), node.Spelled Word.Plain inList →
    node.steady glued
  | atom _ s, _, _, h => by
    have other : s ∉ Word.lone := h.2.1 rfl
    have closed : (Token.Quoting.outside.run s).escaped = false := (h.1.isAtom rfl).not_escaped
    simp [steady, other, closed]
  | quoted _ _ _ inner, inList, glued, h => steady_of_plain inner inList glued h.2.2.1
  | list _ _ children, _, _, h => steadyAll_of_plain children h
  | string .., _, _, _ => rfl
  | comment .., _, _, _ => rfl
  | directive .., _, _, _ => rfl
  | blank .., _, _, _ => rfl
  | program .., _, _, _ => rfl
  | unknown .., _, _, _ => rfl

theorem steadyAll_of_plain : ∀ nodes : List Node, SpelledAll Word.Plain true nodes → steadyAll nodes
  | [], _ => rfl
  | child :: rest, h => by
    simp only [steadyAll, Bool.and_eq_true]
    exact ⟨steady_of_plain child true _ h.1, steadyAll_of_plain rest h.2⟩

end

theorem spelled_of_mem {W : Word → Prop} {inList : Bool} {nodes : List Node}
    (h : SpelledAll W inList nodes) {node : Node} (hn : node ∈ nodes) : node.Spelled W inList := by
  induction nodes with
  | nil => cases hn
  | cons child rest ih =>
    rcases List.mem_cons.mp hn with rfl | hn
    · exact h.1
    · exact ih h.2 hn

end Node

/-- A formatted text has no carriage return when its source has none. -/
theorem joined_of_spelled {loc : Location} {nodes : List Node}
    (spelled : Node.SpelledAll Word.Plain false nodes)
    (ht : (Node.program loc nodes).tidy) {text : List Char}
    (written : Written 0 ((Node.program loc nodes).cells 0) text) :
    Text.joinLineEnds text = text := by
  refine Text.joinLineEnds_eq_self fun mem => ?_
  rw [← Node.cellsAll_prints 0 ht, Node.prints] at written
  have brackets (shape : Delimiter) : Word.Plain (.opening shape) ∧
      Word.Plain (.closing shape) := by
    refine ⟨⟨.opening shape, by simp [Word.opening], ?_⟩,
      ⟨.closing shape, by simp [Word.closing], ?_⟩⟩ <;>
      cases shape <;> decide
  rcases written.mem mem with space | newline | char
  · cases space
  · cases newline
  · rcases Print.mem_of_char char with space | ⟨w, hw, hc⟩
    · cases space
    · have plain := Node.word_of_mem_printsAll brackets 0 nodes false true none false spelled w hw
      exact plain.2.2 hc

/-- Formatting keeps the tree, whatever the width: the formatted text is read as the tree of its
source without places, with the same layout, and so it is formatted in any other width like the
source. -/
theorem parse_format {file? : Option String} {source : List Char} {loc : Location}
    {nodes : List Node}
    (parsed : Node.parse file? source = .ok (.program loc nodes))
    (noReturn : '\r' ∉ source) (noEscape : source.getLast? ≠ some '\\')
    (noLone : ∀ t ∈ Token.scan file? source, t.kind = .atom → t.text ∉ Word.lone)
    (noSplice : ∀ node ∈ (Node.program loc nodes).subtrees, node.hidesSplice = false)
    (noLang : ∀ child ∈ nodes, child.text? ≠ some "#lang".toList)
    (noShebang : ∀ child ∈ nodes.head?, child.startsShebang = false) (width : Int) :
    ∃ text tree, format file? width source = .ok text ∧ Node.parse file? text = .ok tree ∧
      tree.plain = (Node.program loc nodes).plain ∧
      tree.document = (Node.program loc nodes).document ∧
      ∀ width', format file? width' text = format file? width' source := by
  have tidy := Node.tidy_of_parse parsed
  have joined := Text.joinLineEnds_eq_self noReturn
  have spelled : Node.SpelledAll Word.Plain false nodes := by
    refine Node.spelled_of_parse parsed fun t ht eof closed kind => ?_
    refine ⟨Token.sound_of_scan ht eof closed kind ?_, fun atom => ?_, fun mem => ?_⟩
    · refine Bool.eq_false_iff.mpr fun escapes => noEscape ?_
      rw [← Token.getLast_of_escapes ht escapes, joined]
    · obtain ⟨isAtom, text⟩ := Token.atom_of_word atom
      rw [text]
      exact noLone t ht isAtom
    · have own : '\r' ∈ t.text := Token.word_prefix_text t |>.mem mem
      have texts := Token.flatMap_text_scanFrom file? {} (Text.joinLineEnds source)
      rw [joined] at texts
      exact noReturn (texts ▸ List.mem_flatMap.mpr ⟨t, by rwa [Token.scan, joined] at ht, own⟩)
  have regular : Node.Regular true nodes := by
    refine ⟨spelled.mono fun _ plain => plain.1, Node.leads_of_parse parsed, fun n hn => ?_, noLang,
      fun _ child hc => ⟨?_, noShebang child hc⟩⟩
    · exact noSplice n (by rw [Node.subtrees]; exact List.mem_cons_of_mem _ hn)
    · exact Node.isBlank_of_tidyAll (by simpa [Node.tidy] using tidy) child hc
  have legible := regular.legibleProgram fun child hn =>
    Node.steady_of_plain child false false (Node.spelled_of_mem spelled hn)
  obtain ⟨text, formatted, _, written⟩ := format_written parsed width
  obtain ⟨tree, again, plain, document⟩ := Node.document_of_written legible tidy written
    (joined_of_spelled spelled tidy written) file?
  exact ⟨text, tree, formatted, again, plain, document, format_eq_of_document again parsed document⟩

theorem parse_format_held :
    ∃ source text tree tree', source = "#lang x\n(a ;t\n\n ';h\n b #(c))".toList ∧
      Node.parse none source = .ok tree ∧ format none 5 source = .ok text ∧
      Node.parse none text = .ok tree' ∧ tree'.plain = tree.plain ∧ tree'.document = tree.document ∧
      format none 80 text = format none 80 source := by
  have checks : (Node.ofTokens
      (Token.scan none "#lang x\n(a ;t\n\n ';h\n b #(c))".toList)).toOption.any
      (fun nodes => (Node.subtreesAll nodes).all (!·.hidesSplice) &&
        nodes.all (·.text? ≠ some "#lang".toList) && nodes.head?.all (!·.startsShebang)) := by
    cbv
  have noLone : (Token.scan none "#lang x\n(a ;t\n\n ';h\n b #(c))".toList).all
      (fun t => t.kind ≠ .atom || t.text ∉ Word.lone) := by cbv
  cases read : Node.ofTokens (Token.scan none "#lang x\n(a ;t\n\n ';h\n b #(c))".toList) with
  | error e =>
    rw [read] at checks
    cases checks
  | ok nodes =>
    rw [read] at checks
    simp only [Except.toOption, Option.any_some, Bool.and_eq_true] at checks
    obtain ⟨⟨noSplice, noLang⟩, noShebang⟩ := checks
    obtain ⟨loc, parsed⟩ := Node.parse_of_ok read
    obtain ⟨text, tree', formatted, again, plain, document, same⟩ := parse_format parsed
      (by decide) (by decide)
      (fun t ht => by simpa [imp_iff_not_or] using List.all_eq_true.mp noLone t ht)
      (by simpa [Node.subtrees, Node.hidesSplice] using noSplice) (by simpa using noLang)
      (by cases h : nodes.head? <;> simp_all) 5
    exact ⟨_, text, _, tree', rfl, parsed, formatted, again, plain, document, same 80⟩

end SexprFormat
