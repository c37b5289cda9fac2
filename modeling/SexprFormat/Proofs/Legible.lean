import SexprFormat.Proofs.Rescan
import SexprFormat.Proofs.Tree

/-!
Trees whose printed text is scanned as the words of the tree. `Node.Legible` is the condition on a
datum (`Node.reads_prints`), and `Node.LegibleProgram` the one on the nodes of a program
(`Node.reads_program`).
-/

namespace SexprFormat

namespace Node

/-- The text that a node starts with, when this is an atom or a mark. -/
def firstText : Node → List Char
  | atom _ s | quoted _ _ s _ => s
  | _ => []

/-- The mark is `,` or `#,`, which an `@` behind it turns into another one. -/
def splices (tag? : Option Token.Tag) : Bool :=
  tag? = some (.mark .unquote) || tag? = some (.mark .syntaxUnquote)

/-- A comment behind something on its line. -/
def isTrailing : Node → Bool
  | comment _ _ .trailing _ => true
  | _ => false

mutual

/-- The words of a node are read again as they are. `glued` tells that the end of a list follows. -/
def Legible (glued : Bool) : Node → Prop
  | atom _ s => Word.IsAtom s ∧ (glued → s ∉ Word.lone)
  | string _ s => (Word.string s).Sound
  | comment _ s _ block =>
    (Word.remark block s).Sound ∧ (Word.remark block s).kind ≠ .directive
  | quoted _ tag? lead inner =>
    Word.Sound { kind := .quoteMark, tag?, text := lead } ∧ inner.isDatum ∧ Legible glued inner ∧
      (tag? = some (.mark .hash) → inner.isList) ∧
      (splices tag? → ∀ loc s, inner = atom loc ('@' :: s) → s = [] ∧ glued = false)
  | list _ _ children => LegibleAll children
  | blank _ => True
  | directive _ _ _ | program _ _ | unknown _ _ => False

def LegibleAll : List Node → Prop
  | [] => True
  | child :: rest => Legible (rest.all isBlank) child ∧ LegibleAll rest

end

/-- A comment that is read as a directive must stand on a line of its own, and on the first one if
it is a shebang. A bare `#lang` is none. -/
def LegibleRemark (first : Bool) (block : Bool) (s : List Char) (attachment : Attachment) : Prop :=
  (Word.remark block s).Sound ∧ ((Word.remark block s).kind = .directive →
    attachment = .leading ∧ s ≠ "#lang".toList ∧ (['#', '!'] <+: s → first))

/-- The words of a node of a program are read again as they are; `first` tells that nothing stands
before it. -/
def LegibleTop (first : Bool) (next? : Option Node) : Node → Prop
  | comment _ s attachment block => LegibleRemark first block s attachment
  | directive _ _ s => LegibleRemark first false s .leading
  | node => node.Legible false ∧ (first → ¬['#', '!'] <+: node.firstText) ∧
      ∀ loc, node = atom loc "#lang".toList → next?.all (!·.isTrailing)

def LegibleProgram (first : Bool) : List Node → Prop
  | [] => True
  | child :: rest => child.LegibleTop first rest.head? ∧
      LegibleProgram (first && child.isBlank) rest

end Node

namespace Token.Cursor

theorem column_next (cur : Cursor) (c : Char) (h : 1 ≤ cur.column) : 1 ≤ (cur.next c).column := by
  unfold next
  split
  · exact Nat.le_refl 1
  · exact Nat.le_succ_of_le h

theorem one_le_column_pass {cur : Cursor} (h : 1 ≤ cur.column) (s : List Char) :
    1 ≤ (cur.pass s).column := by
  induction s generalizing cur with
  | nil => exact h
  | cons c s ih => exact ih (cur.column_next c h)

/-- Behind a word without new lines no line starts. -/
theorem column_pass (cur : Cursor) {s : List Char} (h : '\n' ∉ s) :
    (cur.pass s).column = cur.column + s.length := by
  induction s generalizing cur with
  | nil => rfl
  | cons c s ih =>
    simp only [List.mem_cons, not_or] at h
    have step : cur.pass (c :: s) = (cur.next c).pass s := rfl
    rw [step, ih _ h.2]
    simp [next, Ne.symm h.1]
    omega

end Token.Cursor

open Token

/-- The cursors behind the first word of a text, where `depth` lists are open. -/
structure Inner (depth : Nat) (cur : Cursor) : Prop where
  depth : cur.depth = depth
  offset : cur.offset ≠ 0
  column : 1 ≤ cur.column

theorem Inner.pass {depth : Nat} {cur : Cursor} (h : Inner depth cur) (s : List Char) :
    Inner depth (cur.pass s) := by
  refine ⟨?_, ?_, Cursor.one_le_column_pass h.column s⟩
  · rw [Cursor.depth_pass, h.depth]
  · rw [Cursor.offset_pass]
    have := h.offset
    omega

/-- Behind the first word of a text, the cursor is an inner one. -/
theorem Inner.of_pass {depth : Nat} {cur : Cursor} (hd : cur.depth = depth) (hc : 1 ≤ cur.column)
    {s : List Char} (hs : s ≠ []) : Inner depth (cur.pass s) := by
  refine ⟨?_, ?_, Cursor.one_le_column_pass hc s⟩
  · rw [Cursor.depth_pass, hd]
  · rw [Cursor.offset_pass]
    have := List.length_pos_iff.mpr hs
    omega

namespace Cell

/-- A word is followed by the end of a list or, when it is not glued to that, by white space. -/
def Ends (glued : Bool) (tail : List Cell) : Prop :=
  ∀ s, Written 0 tail s → Word.endsDatum s ∧ (glued = false → s.head?.all Text.isBlank)

/-- A word is followed by a new line. -/
def Breaks (tail : List Cell) : Prop :=
  ∀ s, Written 0 tail s → s.head?.all (· = '\n')

theorem Breaks.ends {tail : List Cell} (h : Breaks tail) {glued : Bool} : Ends glued tail := by
  intro s written
  have newline := h s written
  cases s with
  | nil => exact ⟨rfl, fun _ => rfl⟩
  | cons c s =>
    obtain rfl : c = '\n' := by simpa using newline
    exact ⟨rfl, fun _ => rfl⟩

end Cell

namespace Word

/-- Every word starts with a visible character, and only an atom with an `@`. -/
theorem Sound.first {w : Word} (h : w.Sound) :
    ∃ c s, w.text = c :: s ∧ Text.isBlank c = false ∧ (w.kind ≠ .atom → c ≠ '@') := by
  cases h with
  | opening shape => exact ⟨_, _, rfl, by cases shape <;> rfl, fun _ => by cases shape <;> decide⟩
  | closing shape => exact ⟨_, _, rfl, by cases shape <;> rfl, fun _ => by cases shape <;> decide⟩
  | string | lineComment | blockComment | shebang | lang | hash =>
    exact ⟨_, _, rfl, rfl, fun _ => by decide⟩
  | @mark mark h =>
    simp only [QuoteMark.plain, QuoteMark.hashed, List.mem_cons, List.mem_append, List.not_mem_nil,
      or_false] at h
    rcases h with rfl | (rfl | rfl | rfl | rfl) | (rfl | rfl | rfl | rfl) <;>
      exact ⟨_, _, rfl, rfl, fun _ => by decide⟩
  | @atom text h =>
    cases text with
    | nil => exact absurd h.starts (by simp [startsAtom, lone, QuoteMark.text])
    | cons c s =>
      have inner := h.solid
      simp only [Extent.solid, isBoundary, Bool.and_eq_true, Bool.not_eq_true'] at inner
      refine ⟨c, s, rfl, ?_, fun h => absurd rfl h⟩
      cases blank : Text.isBlank c with
      | false => rfl
      | true => simp [blank] at inner

theorem Sound.text_ne_nil {w : Word} (h : w.Sound) : w.text ≠ [] := by
  obtain ⟨c, s, text, _⟩ := h.first
  simp [text]

/-- Only `#lang` itself, with a space or a tab behind it, names a language. -/
theorem eq_lang_of_namesLanguage {cur : Cursor} {s rest : List Char}
    (solid : Extent.solid .outside s)
    (next : rest.head?.all fun c => Text.isBlank c || (Delimiter.ofChar? c).isSome)
    (h : Lexeme.namesLanguage cur (s ++ rest)) :
    cur.depth = 0 ∧ cur.column = 1 ∧ s = "lang".toList ∧
      (rest.head? = some ' ' ∨ rest.head? = some '\t') := by
  obtain ⟨depth, column, c, tail, split, hc⟩ := Lexeme.namesLanguage_iff.mp h
  refine ⟨depth, column, ?_⟩
  rcases List.append_eq_append_iff.mp split with ⟨t, hs, hrest⟩ | ⟨t, hs, hrest⟩
  · cases t with
    | nil =>
      rw [List.append_nil] at hs
      rw [List.nil_append] at hrest
      exact ⟨hs.symm, by rcases hc with rfl | rfl <;> simp [hrest]⟩
    | cons d t =>
      -- White space or a bracket stands there, and no letter of the name.
      have letter : d ∈ "lang".toList := hs ▸ by simp
      rw [hrest] at next
      simp only [String.reduceToList, List.mem_cons, List.not_mem_nil, or_false] at letter
      rcases letter with rfl | rfl | rfl | rfl <;> cases next
  · cases t with
    | nil =>
      rw [List.append_nil] at hs
      rw [List.nil_append] at hrest
      exact ⟨hs, by rcases hc with rfl | rfl <;> simp [← hrest]⟩
    | cons d t =>
      rw [hs, Extent.solid_append, Bool.and_eq_true] at solid
      obtain ⟨rfl, _⟩ := List.cons.inj hrest
      obtain ⟨_, inner⟩ := solid
      rcases hc with rfl | rfl <;> cases inner

/-- The word of a mark is one of the marks that have a name, or a hash mark. -/
theorem Sound.mark_cases {tag? : Option Tag} {lead : List Char}
    (h : Sound { kind := .quoteMark, tag?, text := lead }) :
    (∃ mark ∈ QuoteMark.datumComment :: (QuoteMark.plain ++ QuoteMark.hashed),
      tag? = some (.mark mark) ∧ lead = mark.text) ∨
    ∃ s, IsHash s ∧ tag? = some (.mark .hash) ∧ lead = '#' :: s := by
  generalize hw : ({ kind := .quoteMark, tag?, text := lead } : Word) = w at h
  cases h with
  | opening | closing | string | lineComment | blockComment | shebang | lang | atom => cases hw
  | @mark mark h =>
    cases hw
    exact .inl ⟨mark, h, rfl, rfl⟩
  | @hash s h =>
    cases hw
    exact .inr ⟨s, h, rfl, rfl⟩

/-- A mark is read in front of a datum; a hash mark in front of a list. -/
theorem Sound.readAt_mark {tag? : Option Tag} {lead : List Char}
    (h : Sound { kind := .quoteMark, tag?, text := lead }) {cur : Cursor} {s : List Char}
    (follows : Lexeme.datumFollows s)
    (splices : Node.splices tag? → ∀ r, s = '@' :: r → Lexeme.datumFollows r = false)
    (hash : tag? = some (.mark .hash) → ∃ shape : Delimiter, s.head? = some shape.opener)
    (first : cur.offset = 0 → ¬['#', '!'] <+: lead) :
    ReadAt { kind := .quoteMark, tag?, text := lead } cur s := by
  rcases h.mark_cases with ⟨mark, mem, rfl, rfl⟩ | ⟨lead, isHash, rfl, rfl⟩
  · simp only [List.mem_cons, List.mem_append] at mem
    rcases mem with rfl | plain | hashed
    · exact readAt_datumComment cur s
    · refine readAt_plain plain cur follows fun unquote => splices (by simp [Node.splices, unquote])
    · obtain ⟨m, hm, rfl⟩ : ∃ m ∈ QuoteMark.plain, m.withHash = mark :=
        List.mem_map.mp (show mark ∈ QuoteMark.plain.map QuoteMark.withHash from hashed)
      have read := readAt_hashed hm cur follows fun unquote =>
        splices (by simp [Node.splices, unquote, QuoteMark.withHash])
      rwa [← QuoteMark.text_withHash hm] at read
  · obtain ⟨shape, opener⟩ := hash rfl
    have bracket : s.head?.all fun c => Text.isBlank c || (Delimiter.ofChar? c).isSome := by
      cases shape <;> simp [opener] <;> decide
    refine readAt_hash isHash opener (fun zero hs => ?_) ?_
    · obtain ⟨tail, rfl⟩ := List.head?_eq_some_iff.mp hs
      exact first zero ⟨tail, rfl⟩
    · cases names : Lexeme.namesLanguage cur (lead ++ s) with
      | false => rfl
      | true =>
        obtain ⟨_, _, _, blank⟩ := eq_lang_of_namesLanguage isHash.solid bracket names
        rw [opener] at blank
        cases shape <;> revert blank <;> decide

/-- No segment or escape is open in a hash mark, so nothing in it is a boundary. -/
theorem IsHash.not_isBoundary {s : List Char} (h : IsHash s) : ∀ c ∈ s, isBoundary c = false := by
  have plain := h.plain
  have solid := h.solid
  clear h
  induction s with
  | nil => simp
  | cons c s ih =>
    simp only [List.any_cons, Bool.or_eq_false_iff, decide_eq_false_iff_not] at plain
    have outside : Quoting.outside.next c = .outside := by
      simp [Quoting.next, Quoting.outside, plain]
    simp only [Extent.solid, outside, Bool.and_eq_true] at solid
    intro d hd
    rcases List.mem_cons.mp hd with rfl | hd
    · simpa using solid.1
    · exact ih plain.2 solid.2 d hd

theorem IsHash.visible {s : List Char} (h : IsHash s) : ∀ c ∈ s, Text.isBlank c = false := by
  intro c hc
  have inner := h.not_isBoundary c hc
  simp only [isBoundary, Bool.or_eq_false_iff] at inner
  exact inner.1.1

theorem IsHash.oneLine {s : List Char} (h : IsHash s) : '\n' ∉ s := by
  intro newline
  exact absurd (h.visible _ newline) (by decide)

theorem Sound.oneLine_mark {tag? : Option Tag} {lead : List Char}
    (h : Sound { kind := .quoteMark, tag?, text := lead }) : '\n' ∉ lead := by
  rcases h.mark_cases with ⟨mark, _, _, rfl⟩ | ⟨s, isHash, _, rfl⟩
  · cases mark <;> decide
  · simpa using isHash.oneLine

theorem Sound.isAtom {w : Word} (h : w.Sound) (hk : w.kind = .atom) : IsAtom w.text := by
  cases h with
  | atom h => exact h
  | _ => cases hk

theorem Sound.readAt_string {text : List Char} (h : (Word.string text).Sound) (cur : Cursor)
    (s : List Char) : (Word.string text).ReadAt cur s := by
  cases h with
  | string h => exact Word.readAt_string h cur s

theorem kind_remark (block : Bool) (s : List Char) :
    (remark block s).kind ∈ [.blockComment, .directive, .lineComment] := by
  unfold remark
  split
  · simp
  · split <;> simp [directive]

theorem nest_remark (cur : Cursor) (block : Bool) (s : List Char) :
    cur.nest (remark block s).kind = cur := by
  have kind := kind_remark block s
  simp only [List.mem_cons, List.not_mem_nil, or_false] at kind
  rcases kind with e | e | e <;> rw [e] <;> rfl

/-- A comment is read in front of a new line. A directive needs a cursor at the start of a line,
outside of all lists. -/
theorem Sound.readAt_remark {block : Bool} {text : List Char} (h : (remark block text).Sound)
    {cur : Cursor} (heads : (remark block text).kind = .directive → cur.depth = 0 ∧ cur.column = 1 ∧
      text ≠ "#lang".toList ∧ (['#', '!'] <+: text → cur.offset = 0)) {s : List Char}
    (breaks : s.head?.all (· = '\n')) : (remark block text).ReadAt cur s := by
  have kind := kind_remark block text
  have same := text_remark block text
  generalize remark block text = w at h heads kind same
  cases h with
  | opening | closing | string | mark | hash | atom =>
    simp [Word.opening, Word.closing, Word.string, Word.atom] at kind
  | lineComment h => exact readAt_lineComment h cur breaks
  | blockComment h => exact readAt_blockComment h cur s
  | @shebang s h =>
    obtain ⟨_, _, _, first⟩ := heads rfl
    exact readAt_shebang h (first (same ▸ ⟨s, rfl⟩)) breaks
  | @lang s h next =>
    obtain ⟨depth, column, notBare, _⟩ := heads rfl
    refine readAt_lang h ?_ depth column breaks
    simp only [List.mem_cons, List.not_mem_nil, or_false] at next
    rcases next with none | next
    · rw [List.head?_eq_none_iff] at none
      exact absurd (by rw [← same, none]; rfl) notBare
    · exact next

end Word

namespace Cell

theorem ends_gap (g : Gap) {tail : List Cell} (h : Starts tail) (glued : Bool) :
    Ends glued (g.cells ++ tail) := by
  intro s written
  obtain ⟨b, rest, rfl, fills, _⟩ := Gap.exists_fills h written
  cases b with
  | nil => exact absurd rfl fills.nonempty
  | cons c b =>
    have blank := fills.blank c (List.mem_cons_self ..)
    exact ⟨by simp [Word.endsDatum, blank], fun _ => by simp [blank]⟩

theorem ends_closer (shape : Delimiter) (tail : List Cell) :
    Ends true (.char shape.closer :: tail) := by
  intro s written
  obtain ⟨rest, rfl, _⟩ : ∃ rest, s = [shape.closer] ++ rest ∧ Written 0 tail rest :=
    written.of_chars
  have closer : Delimiter.ofCloser? shape.closer = some shape := Delimiter.ofCloser_eq_some.mpr rfl
  exact ⟨by simp [Word.endsDatum, closer], fun h => by cases h⟩

theorem breaks_gap {g : Gap} {tail : List Cell} (h : Starts tail) (hg : g.breaks) :
    Breaks (g.cells ++ tail) := by
  intro s written
  obtain ⟨b, rest, rfl, fills, _⟩ := Gap.exists_fills h written
  cases b with
  | nil => exact absurd rfl fills.nonempty
  | cons c b => simpa using fills.newline hg

theorem starts_word {w : Word} (h : w.Sound) (tail : List Cell) :
    Starts (w.text.map .char ++ tail) := by
  obtain ⟨c, s, text, visible, _⟩ := h.first
  rw [text]
  exact visible

end Cell

namespace Print

/-- A gap stands between two nodes. It is a new line unless both stand in a list, or the second is a
comment behind the first. -/
theorem between_some (indent : Int) (inProgram : Bool) (previous : Node) (emptyLine : Bool)
    (child : Node) :
    ∃ g, between indent inProgram (some previous) emptyLine child = [gap g] ∧
      (previous.endsLine ∨ emptyLine ∨ (inProgram ∧ child.isTrailing = false) →
        g = .line indent ∨ g = .blank indent) := by
  cases emptyLine with
  | true => exact ⟨.blank indent, by simp [between], fun _ => .inr rfl⟩
  | false =>
    cases ends : previous.endsLine with
    | true => exact ⟨.line indent, by simp [between, ends], fun _ => .inl rfl⟩
    | false =>
      cases child with
      | comment _ _ attachment _ =>
        cases attachment with
        | trailing => exact ⟨.space, by simp [between, ends], by simp [Node.isTrailing]⟩
        | leading => exact ⟨.line indent, by simp [between, ends], by simp⟩
      | _ =>
        cases inProgram with
        | true => exact ⟨.line indent, by simp [between, ends], by simp⟩
        | false => exact ⟨.soft indent, by simp [between, ends], by simp⟩

theorem between_cases (indent : Int) (inProgram : Bool) (previous? : Option Node) (emptyLine : Bool)
    (child : Node) :
    between indent inProgram previous? emptyLine child = [] ∨
      ∃ g, between indent inProgram previous? emptyLine child = [gap g] := by
  cases previous? with
  | none =>
    cases child with
    | comment _ _ attachment _ => cases attachment <;> cases inProgram <;> simp [between]
    | _ => exact .inl rfl
  | some previous =>
    obtain ⟨g, one, _⟩ := between_some indent inProgram previous emptyLine child
    exact .inr ⟨g, one⟩

theorem atEnd_cases (indent : Int) (inProgram : Bool) (previous? : Option Node) :
    atEnd indent inProgram previous? = [] ∨ ∃ g, atEnd indent inProgram previous? = [gap g] := by
  unfold atEnd
  split
  · exact .inl rfl
  · split
    · exact .inr ⟨_, rfl⟩
    · exact .inl rfl

end Print

namespace Node

/-- A cursor at which a node can start, in front of the given cells. -/
structure At (node : Node) (depth : Nat) (tail : List Cell) (cur : Cursor) : Prop where
  depth : cur.depth = depth
  column : 1 ≤ cur.column
  first : cur.offset = 0 → ¬['#', '!'] <+: node.firstText
  lang : cur.depth = 0 → cur.column = 1 → ∀ loc, node = atom loc "#lang".toList → Cell.Breaks tail

theorem reads_atom {loc : Location} {s : List Char} {glued : Bool} {depth : Nat} {tail : List Cell}
    (h : Word.IsAtom s) (hl : glued → s ∉ Word.lone) (ends : Cell.Ends glued tail) :
    Reads ((atom loc s).At depth tail) [.word (.atom s)] tail (Inner depth) := by
  refine .word (fun cur input at_ written => ?_) fun cur at_ => ?_
  · obtain ⟨next, blank⟩ := ends input written
    refine Word.readAt_atom h next (fun lone => ?_) at_.first fun rest text => ?_
    · cases glued with
      | true => exact absurd lone (hl rfl)
      | false => exact blank rfl
    · cases names : Lexeme.namesLanguage cur (rest ++ input) with
      | false => rfl
      | true =>
        have solid : Extent.solid .outside rest := by
          have whole := h.solid
          rw [text] at whole
          exact whole
        obtain ⟨zero, one, lang, space⟩ :=
          Word.eq_lang_of_namesLanguage solid (Word.blank_or_bracket next) names
        have breaks := at_.lang zero one loc (by rw [text, lang]; rfl) input written
        rcases space with space | space <;> rw [space] at breaks <;> cases breaks
  · exact .of_pass at_.depth at_.column (Word.Sound.atom h).text_ne_nil

theorem reads_remark {block : Bool} {s : List Char} {depth : Nat} {P : Cursor → Prop}
    {tail : List Cell} (h : (Word.remark block s).Sound) (breaks : Cell.Breaks tail)
    (hp : ∀ cur, P cur → cur.depth = depth ∧ 1 ≤ cur.column)
    (heads : (Word.remark block s).kind = .directive → ∀ cur, P cur → cur.depth = 0 ∧
      cur.column = 1 ∧ s ≠ "#lang".toList ∧ (['#', '!'] <+: s → cur.offset = 0)) :
    Reads P [.word (.remark block s)] tail (Inner depth) := by
  refine .word (fun cur input hcur written => ?_) fun cur hcur => ?_
  · exact h.readAt_remark (fun kind => heads kind cur hcur) (breaks input written)
  · rw [Word.nest_remark]
    exact .of_pass (hp cur hcur).1 (hp cur hcur).2 h.text_ne_nil

/-- The first thing that is printed of a node is a word. -/
def Worded (indent : Int) (node : Node) : Prop :=
  ∃ w ps, node.prints indent = .word w :: ps ∧ w.Sound

theorem Worded.starts {node : Node} {indent : Int} (h : node.Worded indent) (tail : List Cell) :
    Cell.Starts (Print.cellsAll (node.prints indent) ++ tail) := by
  obtain ⟨w, ps, prints, sound⟩ := h
  rw [prints, Print.cellsAll_cons, List.append_assoc]
  exact Cell.starts_word sound _

theorem worded_of_legible {node : Node} {glued : Bool} (h : node.Legible glued)
    (hb : node.isBlank = false) (indent : Int) : node.Worded indent := by
  cases node with
  | atom => exact ⟨_, _, rfl, .atom h.1⟩
  | string => exact ⟨_, _, rfl, h⟩
  | comment => exact ⟨_, _, rfl, h.1⟩
  | quoted => exact ⟨_, _, rfl, h.1⟩
  | list _ shape => exact ⟨_, _, rfl, .opening shape⟩
  | blank => cases hb
  | directive | program | unknown => cases h

/-- Of the data, only an atom starts with an `@`. -/
theorem eq_atom_of_prints {node : Node} (hd : node.isDatum) {indent : Int} {w : Word}
    {ps : List Print} (prints : node.prints indent = .word w :: ps) (sound : w.Sound)
    {s : List Char}
    (text : w.text = '@' :: s) : ∃ loc, node = atom loc ('@' :: s) ∧ ps = [] := by
  have isAtom : w.kind = .atom := by
    obtain ⟨c, tail, text', _, noAt⟩ := sound.first
    by_contra other
    rw [text'] at text
    exact noAt other (List.cons.inj text).1
  cases node with
  | atom loc t =>
    obtain ⟨hw, hps⟩ := List.cons.inj prints
    injection hw with hw
    rw [← hw] at text
    exact ⟨loc, congrArg _ text, hps.symm⟩
  | string | quoted | list =>
    injection (List.cons.inj prints).1 with hw
    rw [← hw] at isAtom
    cases isAtom
  | comment | directive | blank | program | unknown => cases hd

/-- What is printed of some nodes up to the end of the last one. -/
def printsRow (indent : Int) (inProgram : Bool) (previous? : Option Node) (emptyLine : Bool) :
    List Node → List Print
  | [] => []
  | child :: rest =>
    if child.isBlank then printsRow indent inProgram previous? true rest
    else
      Print.between indent inProgram previous? emptyLine child ++
        (prints indent child ++ printsRow indent inProgram (some child) false rest)

/-- The last of some nodes, or else the one before them. -/
theorem getLast?_cons_or (child : Node) (rest : List Node) (previous? : Option Node) :
    (child :: rest).getLast?.or previous? = rest.getLast?.or (some child) := by
  rw [List.getLast?_cons]
  cases rest.getLast? <;> rfl

theorem printsAll_eq_printsRow (indent : Int) (inProgram : Bool) (previous? : Option Node)
    (emptyLine : Bool) (nodes : List Node) :
    printsAll indent inProgram previous? emptyLine nodes =
      printsRow indent inProgram previous? emptyLine nodes ++
        Print.atEnd indent inProgram ((nodes.filter (!·.isBlank)).getLast?.or previous?) := by
  induction nodes generalizing previous? emptyLine with
  | nil => rfl
  | cons child rest ih =>
    cases hb : child.isBlank with
    | true => simp [printsAll, printsRow, hb, ih]
    | false => simp [printsAll, printsRow, hb, ih, getLast?_cons_or]

/-- A gap stands between two nodes. -/
theorem printsRow_some (indent : Int) (inProgram : Bool) (previous : Node) (emptyLine : Bool)
    {nodes : List Node} (h : ∀ node ∈ nodes, node.isBlank = false → node.Worded indent) :
    (nodes.all isBlank ∧ printsRow indent inProgram (some previous) emptyLine nodes = []) ∨
    ∃ g ps, printsRow indent inProgram (some previous) emptyLine nodes = .gap g :: ps ∧
      (∀ tail, Cell.Starts (Print.cellsAll ps ++ tail)) ∧
      (previous.endsLine ∨ emptyLine ∨ (inProgram ∧ nodes.head?.all (!·.isTrailing)) →
        g.breaks) := by
  induction nodes generalizing emptyLine with
  | nil => exact .inl ⟨rfl, rfl⟩
  | cons child rest ih =>
    cases hb : child.isBlank with
    | true =>
      have rest := ih true fun node hn => h node (List.mem_cons_of_mem _ hn)
      simp only [printsRow, hb, if_pos, List.all_cons, Bool.true_and]
      rcases rest with none | ⟨g, ps, one, starts, breaks⟩
      · exact .inl none
      · exact .inr ⟨g, ps, one, starts, fun _ => breaks (.inr (.inl rfl))⟩
    | false =>
      have starts := (h child (List.mem_cons_self ..) hb).starts
      right
      rw [printsRow, hb, if_neg Bool.false_ne_true]
      obtain ⟨g, between, breaks⟩ := Print.between_some indent inProgram previous emptyLine child
      rw [between]
      refine ⟨g, _, rfl, fun tail => ?_, fun hg => ?_⟩
      · simpa using starts _
      · rcases breaks (by simpa using hg) with rfl | rfl <;> rfl

theorem worded_of_legibleAll {nodes : List Node} (h : LegibleAll nodes) (indent : Int) :
    ∀ node ∈ nodes, node.isBlank = false → node.Worded indent := by
  induction nodes with
  | nil => simp
  | cons child rest ih =>
    intro node hn hb
    rcases List.mem_cons.mp hn with rfl | hn
    · exact worded_of_legible h.1 hb indent
    · exact ih h.2 node hn hb

/-- A mark is read in front of its datum. -/
theorem readAt_lead {tag? : Option Tag} {lead : List Char} {inner : Node} {glued : Bool}
    {indent : Int} {tail : List Cell} {cur : Cursor} {input : List Char}
    (sound : Word.Sound { kind := .quoteMark, tag?, text := lead }) (datum : inner.isDatum)
    (worded : inner.Worded indent) (hash : tag? = some (.mark .hash) → inner.isList)
    (splice : splices tag? → ∀ loc s, inner = atom loc ('@' :: s) → s = [] ∧ glued = false)
    (ends : Cell.Ends glued tail)
    (written : Written 0 (Print.cellsAll (inner.prints indent) ++ tail) input)
    (first : cur.offset = 0 → ¬['#', '!'] <+: lead) :
    Word.ReadAt { kind := .quoteMark, tag?, text := lead } cur input := by
  obtain ⟨w, ps, prints, wsound⟩ := worded
  obtain ⟨c, text, hw, visible, _⟩ := wsound.first
  have whole := written
  rw [prints, Print.cellsAll_cons, List.append_assoc] at whole
  obtain ⟨behind, hinput, after⟩ := whole.of_chars
  rw [hw, List.cons_append] at hinput
  refine sound.readAt_mark ?_ (fun hs r hr => ?_) (fun hh => ?_) first
  · simp [hinput, Lexeme.datumFollows, visible]
  · -- An `@` here is an atom of its own, with white space behind it.
    rw [hinput] at hr
    obtain ⟨rfl, rfl⟩ := List.cons.inj hr
    obtain ⟨loc, isAtom, rfl⟩ := eq_atom_of_prints datum prints wsound hw
    obtain ⟨rfl, rfl⟩ := splice hs loc text isAtom
    have blank := (ends behind after).2 rfl
    cases behind with
    | nil => rfl
    | cons d behind => simpa [Lexeme.datumFollows] using blank
  · have isList := hash hh
    cases inner with
    | list _ shape children =>
      obtain ⟨hword, _⟩ := List.cons.inj prints
      injection hword with hword
      subst hword
      exact ⟨shape, by rw [hinput, ← (List.cons.inj hw).1]; rfl⟩
    | _ => cases isList

/-- Behind a mark its datum can start. -/
theorem at_behind_mark {tag? : Option Tag} {lead : List Char}
    (sound : Word.Sound { kind := .quoteMark, tag?, text := lead })
    {node inner : Node} {depth : Nat}
    {tail tail' : List Cell} {cur : Cursor} (h : node.At depth tail cur) :
    inner.At depth tail' (cur.pass lead) := by
  have start := Inner.of_pass h.depth h.column sound.text_ne_nil
  have column := cur.column_pass sound.oneLine_mark
  have length := List.length_pos_iff.mpr sound.text_ne_nil
  refine ⟨start.depth, start.column, fun zero => absurd zero start.offset, fun _ one => ?_⟩
  have positive := h.column
  simp only at length
  omega

/-- Inside of a list a node can start everywhere. -/
theorem at_of_inner {node : Node} {depth : Nat} {tail : List Cell} {cur : Cursor}
    (inner : Inner (depth + 1) cur) : node.At (depth + 1) tail cur :=
  ⟨inner.depth, inner.column, fun zero => absurd zero inner.offset,
    fun zero => absurd (inner.depth.symm.trans zero) (Nat.succ_ne_zero depth)⟩

theorem reads_opening {node : Node} {depth : Nat} {tail tail' : List Cell} (shape : Delimiter) :
    Reads (node.At depth tail) [.word (.opening shape)] tail' (Inner (depth + 1)) := by
  refine .word (fun cur input _ _ => Word.readAt_opening shape cur input) fun cur at_ => ?_
  have inner : (cur.nest .opening).depth = depth + 1 := by rw [Cursor.nest, at_.depth]
  have column : 1 ≤ (cur.nest .opening).column := at_.column
  exact .of_pass inner column (Word.Sound.opening shape).text_ne_nil

theorem reads_closing {depth : Nat} {tail : List Cell} (shape : Delimiter) :
    Reads (Inner (depth + 1)) [.word (.closing shape)] tail (Inner depth) := by
  refine .word (fun cur input _ _ => Word.readAt_closing shape cur input) fun cur inner => ?_
  have outer : (cur.nest .closing).depth = depth := by
    rw [Cursor.nest, inner.depth, Nat.add_sub_cancel]
  have column : 1 ≤ (cur.nest .closing).column := inner.column
  exact .of_pass outer column (Word.Sound.closing shape).text_ne_nil

theorem reads_between {depth : Nat} {tail : List Cell} (indent : Int) (previous? : Option Node)
    (emptyLine : Bool) (child : Node) (starts : Cell.Starts tail) :
    Reads (Inner depth) (Print.between indent false previous? emptyLine child) tail
      (Inner depth) := by
  rcases Print.between_cases indent false previous? emptyLine child with none | ⟨g, one⟩
  · rw [none]
    exact .nil
  · rw [one]
    exact .gap starts fun cur b inner _ => inner.pass b

/-- What stands behind a child of a list ends it, and its line if it is a comment. -/
theorem ends_inside {indent : Int} (child : Node) {nodes : List Node}
    (h : ∀ node ∈ nodes, node.isBlank = false → node.Worded indent) {tail : List Cell}
    (ends : Cell.Ends true tail) (starts : Cell.Starts tail) :
    Cell.Ends (nodes.all isBlank)
        (Print.cellsAll (printsAll indent false (some child) false nodes) ++ tail) ∧
      (child.endsLine → Cell.Breaks
        (Print.cellsAll (printsAll indent false (some child) false nodes) ++ tail)) := by
  rw [printsAll_eq_printsRow]
  rcases printsRow_some indent false child false h with ⟨all, none⟩ | ⟨g, ps, one, gstarts, breaks⟩
  · have last : nodes.filter (!·.isBlank) = [] := by simpa using all
    rw [none, all, last, List.nil_append]
    cases line : child.endsLine with
    | false => simpa [Print.atEnd, line] using ends
    | true =>
      have newline : Cell.Breaks (Gap.cells (.line indent) ++ tail) := Cell.breaks_gap starts rfl
      have own : Cell.Breaks (Print.cellsAll (Print.atEnd indent false (some child)) ++ tail) := by
        simpa [Print.atEnd, line, Print.cells] using newline
      exact ⟨own.ends, fun _ => own⟩
  · rw [one, List.cons_append, Print.cellsAll_cons, Print.cellsAll_append, List.append_assoc,
      List.append_assoc]
    exact ⟨Cell.ends_gap g (gstarts _) _,
      fun line => Cell.breaks_gap (gstarts _) (breaks (.inl line))⟩

/-- A child of a list is scanned as its words, and so is what stands before it. -/
theorem reads_inside {indent : Int} {depth : Nat} {child : Node} {glued : Bool} {tail : List Cell}
    (legible : child.Legible glued) (hb : child.isBlank = false)
    (breaks : child.endsLine → Cell.Breaks tail) (previous? : Option Node) (emptyLine : Bool)
    (datum : child.isDatum →
      Reads (child.At (depth + 1) tail) (child.prints indent) tail (Inner (depth + 1))) :
    Reads (Inner (depth + 1))
      (Print.between indent false previous? emptyLine child ++ child.prints indent) tail
      (Inner (depth + 1)) := by
  refine .append (reads_between indent previous? emptyLine child
    ((worded_of_legible legible hb indent).starts tail)) ?_
  by_cases isDatum : child.isDatum
  · exact (datum isDatum).weaken fun cur inner => at_of_inner inner
  · obtain ⟨loc, s, attachment, block, rfl⟩ :
        ∃ loc s attachment block, child = comment loc s attachment block := by
      cases child <;> simp_all [Node.isDatum, isBlank, Legible]
    rw [prints]
    exact reads_remark legible.1 (breaks rfl) (fun cur inner => ⟨inner.depth, inner.column⟩)
      fun kind => absurd kind legible.2

mutual

/-- A legible datum is scanned as its words, wherever it can start. -/
theorem reads_prints (indent : Int) (depth : Nat) :
    ∀ (node : Node) (glued : Bool) (tail : List Cell),
    node.isDatum → node.Legible glued → Cell.Ends glued tail →
    Reads (node.At depth tail) (node.prints indent) tail (Inner depth)
  | atom loc s, glued, tail, _, h, ends => by
    rw [prints]
    exact reads_atom h.1 h.2 ends
  | string _ s, glued, tail, _, h, ends => by
    rw [prints]
    refine .word (fun cur input _ _ => h.readAt_string cur input) fun cur at_ => ?_
    exact .of_pass at_.depth at_.column h.text_ne_nil
  | quoted _ tag? lead inner, glued, tail, _, h, ends => by
    obtain ⟨sound, datum, legible, hash, splice⟩ := h
    have noBlank : inner.isBlank = false := by cases inner <;> simp_all [isDatum, isBlank]
    have worded := worded_of_legible legible noBlank indent
    have inside := reads_prints indent depth inner glued tail datum legible ends
    rw [prints, ← List.singleton_append]
    refine .append (.word (fun cur input at_ written => ?_) fun cur at_ => ?_) inside
    · exact readAt_lead sound datum worded hash splice ends written at_.first
    · exact at_behind_mark sound at_
  | list _ shape children, glued, tail, _, h, ends => by
    have body := reads_printsAll (indent + Doc.indentWidth) depth children none false _ h
      (Cell.ends_closer shape tail) (Cell.starts_word (.closing shape) tail)
    rw [prints, ← List.singleton_append]
    exact (reads_opening shape).append (body.append (reads_closing shape))
  | comment .., _, _, hd, _, _ => by cases hd
  | directive .., _, _, hd, _, _ => by cases hd
  | blank .., _, _, hd, _, _ => by cases hd
  | program .., _, _, hd, _, _ => by cases hd
  | unknown .., _, _, hd, _, _ => by cases hd

theorem reads_printsAll (indent : Int) (depth : Nat) : ∀ (nodes : List Node)
    (previous? : Option Node) (emptyLine : Bool) (tail : List Cell), LegibleAll nodes →
    Cell.Ends true tail → Cell.Starts tail →
    Reads (Inner (depth + 1)) (printsAll indent false previous? emptyLine nodes) tail
      (Inner (depth + 1))
  | [], previous?, emptyLine, tail, _, ends, starts => by
    rcases Print.atEnd_cases indent false previous? with none | ⟨g, one⟩
    · rw [printsAll, none]
      exact .nil
    · rw [printsAll, one]
      exact .gap starts fun cur b inner _ => inner.pass b
  | child :: nodes, previous?, emptyLine, tail, h, ends, starts => by
    obtain ⟨legible, hnodes⟩ := h
    cases hb : child.isBlank with
    | true =>
      have skipped := reads_printsAll indent depth nodes previous? true tail hnodes ends starts
      simpa [printsAll, hb] using skipped
    | false =>
      have rest := reads_printsAll indent depth nodes (some child) false tail hnodes ends starts
      obtain ⟨behind, breaks⟩ := ends_inside child (worded_of_legibleAll hnodes indent) ends starts
      rw [printsAll, hb, if_neg Bool.false_ne_true, ← List.append_assoc]
      refine (reads_inside legible hb breaks previous? emptyLine fun datum => ?_).append rest
      exact reads_prints indent (depth + 1) child _ _ datum legible behind

end

end Node

/-- The cursors behind a node of a program, or at the start of it. -/
structure Outer (first : Bool) (cur : Cursor) : Prop where
  depth : cur.depth = 0
  column : 1 ≤ cur.column
  offset : cur.offset = 0 ↔ first
  start : first → cur.column = 1

namespace Outer

theorem of_inner {cur : Cursor} (h : Inner 0 cur) : Outer false cur :=
  ⟨h.depth, h.column, by simp [h.offset], by simp⟩

theorem pass {first : Bool} {cur : Cursor} (h : Outer first cur) {s : List Char} (hs : s ≠ []) :
    Outer false (cur.pass s) :=
  of_inner (.of_pass h.depth h.column hs)

end Outer

namespace Node

theorem worded_of_legibleTop {first : Bool} {next? : Option Node} {node : Node}
    (h : node.LegibleTop first next?) (hb : node.isBlank = false) (indent : Int) :
    node.Worded indent := by
  cases node with
  | comment => exact ⟨_, _, rfl, h.1⟩
  | directive => exact ⟨_, _, rfl, h.1⟩
  | _ => exact worded_of_legible h.1 hb indent

theorem worded_of_legibleProgram {first : Bool} {nodes : List Node} (h : LegibleProgram first nodes)
    (indent : Int) : ∀ node ∈ nodes, node.isBlank = false → node.Worded indent := by
  induction nodes generalizing first with
  | nil => simp
  | cons child rest ih =>
    intro node hn hb
    rcases List.mem_cons.mp hn with rfl | hn
    · exact worded_of_legibleTop h.1 hb indent
    · exact ih h.2 node hn hb

/-- A node of a program is scanned as its words, at the start of a line or, if it is a comment,
behind something else. -/
theorem reads_top {first : Bool} {next? : Option Node} {child : Node} {tail : List Cell}
    (h : child.LegibleTop first next?) (hb : child.isBlank = false) (ends : Cell.Ends false tail)
    (breaks : child.endsLine ∨ next?.all (!·.isTrailing) → Cell.Breaks tail) :
    Reads (fun cur => Outer first cur ∧ (child.isTrailing = false → cur.column = 1))
      (child.prints 0) tail (Inner 0) := by
  have remark {block : Bool} {s : List Char} {attachment : Attachment}
      (h : LegibleRemark first block s attachment) (ends : child.endsLine)
      (trailing : attachment = .leading → child.isTrailing = false) :
      Reads (fun cur => Outer first cur ∧ (child.isTrailing = false → cur.column = 1))
        [.word (.remark block s)] tail (Inner 0) := by
    refine reads_remark h.1 (breaks (.inl ends)) (fun cur top => ⟨top.1.depth, top.1.column⟩) ?_
    rintro kind cur ⟨outer, column⟩
    obtain ⟨leading, notBare, shebang⟩ := h.2 kind
    exact ⟨outer.depth, column (trailing leading), notBare, fun hs => outer.offset.mpr (shebang hs)⟩
  by_cases datum : child.isDatum
  · have legible : child.Legible false ∧ (first → ¬['#', '!'] <+: child.firstText) ∧
        ∀ loc, child = atom loc "#lang".toList → next?.all (!·.isTrailing) := by
      cases child with
      | comment | directive => cases datum
      | _ => exact h
    obtain ⟨legible, shebang, lang⟩ := legible
    refine (reads_prints 0 0 child false tail datum legible ends).weaken ?_
    rintro cur ⟨outer, _⟩
    exact ⟨outer.depth, outer.column, fun zero => shebang (outer.offset.mp zero),
      fun _ _ loc bare => breaks (.inr (lang loc bare))⟩
  · cases child with
    | comment _ s attachment block =>
      exact remark h rfl fun leading => by rw [leading]; rfl
    | directive _ _ s => exact remark h rfl fun _ => rfl
    | blank => cases hb
    | atom | string | quoted | list => exact absurd rfl datum
    | program | unknown => exact absurd h.1 id

/-- What stands behind a node of a program ends it, and its line unless a comment comes on it. -/
theorem ends_outside (child : Node) {nodes : List Node}
    (h : ∀ node ∈ nodes, node.isBlank = false → node.Worded 0) {tail : List Cell}
    (breaks : Cell.Breaks tail) :
    Cell.Ends false (Print.cellsAll (printsRow 0 true (some child) false nodes) ++ tail) ∧
      (child.endsLine ∨ nodes.head?.all (!·.isTrailing) → Cell.Breaks
        (Print.cellsAll (printsRow 0 true (some child) false nodes) ++ tail)) := by
  rcases printsRow_some 0 true child false h with ⟨_, none⟩ | ⟨g, ps, one, starts, gbreaks⟩
  · rw [none]
    exact ⟨breaks.ends, fun _ => breaks⟩
  · rw [one, Print.cellsAll_cons, List.append_assoc]
    refine ⟨Cell.ends_gap g (starts tail) false,
      fun line => Cell.breaks_gap (starts tail) (gbreaks ?_)⟩
    rcases line with line | next
    · exact .inl line
    · exact .inr (.inr ⟨rfl, next⟩)

theorem reads_between_top {tail : List Cell} (previous? : Option Node) (emptyLine : Bool)
    (child : Node) (starts : Cell.Starts tail) :
    Reads (Outer previous?.isNone) (Print.between 0 true previous? emptyLine child) tail
      (fun cur => Outer previous?.isNone cur ∧ (child.isTrailing = false → cur.column = 1)) := by
  cases previous? with
  | none =>
    have none : Print.between 0 true none emptyLine child = [] := by
      cases child with
      | comment _ _ attachment _ => cases attachment <;> rfl
      | _ => rfl
    rw [none]
    exact Reads.nil.weaken_right fun cur outer => ⟨outer, fun _ => outer.start rfl⟩
  | some previous =>
    obtain ⟨g, one, lines⟩ := Print.between_some 0 true previous emptyLine child
    rw [one]
    refine .gap starts fun cur b outer fills => ⟨outer.pass fills.nonempty, fun leading => ?_⟩
    exact fills.column (lines (.inr (.inr ⟨rfl, leading⟩))) cur

/-- A legible program is scanned as its words, at the end of a text or of a line. -/
theorem reads_printsRow {nodes : List Node} (previous? : Option Node) (emptyLine : Bool)
    {tail : List Cell} (h : LegibleProgram previous?.isNone nodes) (breaks : Cell.Breaks tail) :
    Reads (Outer previous?.isNone) (printsRow 0 true previous? emptyLine nodes) tail
      fun _ => True := by
  induction nodes generalizing previous? emptyLine with
  | nil => exact Reads.nil.weaken_right fun _ _ => trivial
  | cons child rest ih =>
    obtain ⟨legible, hrest⟩ := h
    cases hb : child.isBlank with
    | true =>
      rw [hb, Bool.and_true] at hrest
      simpa [printsRow, hb] using ih previous? true hrest
    | false =>
      rw [hb, Bool.and_false] at hrest
      have worded := worded_of_legibleTop legible hb 0
      obtain ⟨ends, line⟩ := ends_outside child (worded_of_legibleProgram hrest 0) breaks
      have after := (ih (some child) false hrest).weaken fun cur inner => .of_inner inner
      rw [printsRow, hb, if_neg Bool.false_ne_true]
      refine (reads_between_top previous? emptyLine child ?_).append
        ((reads_top legible hb ends line).append after)
      rw [Print.cellsAll_append, List.append_assoc]
      exact worded.starts _

/-- The end of a program is the end of a line, or of the text. -/
theorem breaks_atEnd (last? : Option Node) :
    Cell.Breaks (Print.cellsAll (Print.atEnd 0 true last?)) := by
  cases last? with
  | none => exact fun s written => by cases written; rfl
  | some last =>
    have newline : Cell.Breaks (Gap.cells (.line 0) ++ []) := Cell.breaks_gap trivial rfl
    exact newline

theorem reads_program {nodes : List Node} (h : LegibleProgram true nodes) :
    Reads (Outer true) (printsAll 0 true none false nodes) [] fun _ => True := by
  rw [printsAll_eq_printsRow]
  have ended := breaks_atEnd ((nodes.filter (!·.isBlank)).getLast?.or none)
  refine (reads_printsRow none false h (by simpa using ended)).append ?_
  cases (nodes.filter (!·.isBlank)).getLast?.or none with
  | none => exact .nil
  | some last => exact .gap trivial fun _ _ _ _ => trivial

end Node

end SexprFormat
