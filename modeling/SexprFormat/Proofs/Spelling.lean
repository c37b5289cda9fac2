import SexprFormat.Proofs.Source

/-!
How the words in the tree of a source are spelled. `Node.Spelled` says that every word of a node is
one that its kind allows, and `Node.Leads` where in a program a comment may have the text of a
directive. Both hold of every tree that is read: `Node.spelled_of_parse` and `Node.leads_of_parse`.
-/

namespace SexprFormat

namespace Token

theorem ink_of_remark {t : Token} (h : t.isRemark) :
    t.kind ≠ .whitespace ∧ t.kind ≠ .blankLine := by
  constructor <;> intro e <;> simp [isRemark, e] at h

namespace ReadAt

variable {t : Token} {cur : Cursor} {rest : List Char}

theorem kind_remark_hash (s : List Char) : (Word.remark false ('#' :: s)).kind = .directive := by
  cases s with
  | nil => rfl
  | cons c s =>
    by_cases hc : c = '!'
    · rw [hc]
      rfl
    · simp [Word.remark, Word.directive, hc]

theorem text_ne_nil (h : t.ReadAt cur rest) : t.text ≠ [] := by
  obtain ⟨c, s, text, _⟩ := h
  simp [text]

theorem head_append (h : t.ReadAt cur rest) (s : List Char) :
    (t.text ++ s).head? = t.text.head? := by
  cases ht : t.text with
  | nil => exact absurd ht h.text_ne_nil
  | cons => rfl

/-- White space is a token of its own. -/
theorem visible_of_kind (h : t.ReadAt cur rest) (hk : t.kind ≠ .whitespace ∧ t.kind ≠ .blankLine)
    {c : Char} (hc : t.text.head? = some c) : Text.isBlank c = false := by
  obtain ⟨d, s, text, read⟩ := h
  obtain rfl : d = c := by simpa [text] using hc
  by_contra blank
  rw [Bool.not_eq_false] at blank
  have white := Lexeme.rule_iff.mp (.blank blank : Lexeme.Rule cur d (s ++ rest) _)
  have kind := congrArg Lexeme.kind (white.symm.trans read)
  rcases Lexeme.kind_blank d (s ++ rest) with e | e
  · exact hk.1 (kind.symm.trans e)
  · exact hk.2 (kind.symm.trans e)

/-- A comment or a directive is one as a word, too. -/
theorem kind_word (h : t.ReadAt cur rest) : t.word.kind = t.kind := by
  obtain ⟨c, s, input, lexeme, text, _, rule, kind, _⟩ := h.rule
  unfold word
  split
  · rename_i remark
    rw [text, ← kind]
    rw [isRemark, ← kind] at remark
    cases rule with
    | lineComment => rw [Text.trimEnd_cons rfl]; rfl
    | blockComment => rfl
    | shebang | lang =>
      rw [Text.trimEnd_cons rfl]
      exact kind_remark_hash _
    | blank => rcases Lexeme.kind_blank c input with e | e <;> rw [e] at remark <;> cases remark
    | hashRun => rcases Lexeme.kind_hashRun input with e | e <;> rw [e] at remark <;> cases remark
    | _ => cases remark
  · rfl

/-- A directive is found at the very start, or at the start of a line outside of all lists. Only the
first one may be a shebang. -/
theorem directive (h : t.ReadAt cur rest) (hk : t.kind = .directive) :
    t.closed ∧ t.text.head? = some '#' ∧ Text.trimEnd t.text = t.text ∧
      (cur.offset = 0 ∨ (cur.depth = 0 ∧ cur.column = 1 ∧ ¬['#', '!'] <+: t.text)) := by
  obtain ⟨c, s, input, lexeme, text, hin, rule, kind, _, more, closed⟩ := h.rule
  rw [hk] at kind
  have taken : input.take lexeme.more = s := by rw [more, hin, List.take_left]
  rw [text, ← closed]
  cases rule with
  | shebang first => exact ⟨rfl, rfl, (Word.isLine_directive taken).2.2, .inl first⟩
  | lang names =>
    obtain ⟨depth, column, d, tail, split, _⟩ := Lexeme.namesLanguage_iff.mp names
    refine ⟨rfl, rfl, (Word.isLine_directive taken).2.2, .inr ⟨depth, column, ?_⟩⟩
    rintro ⟨r, hr⟩
    rw [← (List.cons.inj hr).2, split] at hin
    cases hin
  | blank => rcases Lexeme.kind_blank c input with e | e <;> rw [e] at kind <;> cases kind
  | hashRun => rcases Lexeme.kind_hashRun input with e | e <;> rw [e] at kind <;> cases kind
  | _ => cases kind

/-- A comment that stands between data is closed, and so is a directive anywhere. -/
theorem closed_of_remark (h : t.ReadAt cur rest) (hk : t.isRemark) (ht : t.isTrivia) :
    t.closed := by
  cases kind : t.kind with
  | directive => exact (h.directive kind).1
  | lineComment | blockComment => simpa [isTrivia, kind] using ht
  | _ => simp [isRemark, kind] at hk

theorem tag_of_leaf (h : t.ReadAt cur rest) (hk : t.kind = .atom ∨ t.kind = .string) :
    t.tag? = none := by
  obtain ⟨c, s, input, lexeme, _, _, rule, kind, tag, _⟩ := h.rule
  rw [← kind] at hk
  rw [← tag]
  cases rule with
  | blank | string | atom | lineComment | blockComment => rfl
  | hashRun =>
    rcases Lexeme.hashRun_cases input with ⟨run, _⟩ | run <;> rw [run] at hk ⊢
    · rcases hk with e | e <;> cases e
    · rfl
  | _ => rcases hk with e | e <;> cases e

/-- Only atoms, strings and block comments can be left open. -/
theorem closed_of_kind (h : t.ReadAt cur rest)
    (hk : t.kind ≠ .atom ∧ t.kind ≠ .string ∧ t.kind ≠ .blockComment) : t.closed := by
  obtain ⟨c, s, input, lexeme, _, _, rule, kind, _, _, closed⟩ := h.rule
  rw [← kind] at hk
  rw [← closed]
  cases rule with
  | string => exact absurd rfl hk.2.1
  | blockComment => exact absurd rfl hk.2.2
  | atom => exact absurd rfl hk.1
  | hashRun =>
    rcases Lexeme.hashRun_cases input with ⟨run, _⟩ | run <;> rw [run] at hk ⊢
    exact absurd rfl hk.1
  | _ => rfl

/-- A token that ends with a new line goes on up to a boundary. -/
theorem boundary_of_getLast (h : t.ReadAt cur rest) (closed : t.closed)
    (hk : t.kind ≠ .whitespace ∧ t.kind ≠ .blankLine) (last : t.text.getLast? = some '\n') :
    rest.head?.all isBoundary := by
  obtain ⟨c, s, input, lexeme, text, hin, rule, kind, _, more, closed'⟩ := h.rule
  rw [closed] at closed'
  rw [← kind] at hk
  rw [text] at last
  have taken : input.take lexeme.more = s := by rw [more, hin, List.take_left]
  have noLine (h : '\n' ∉ c :: s) : rest.head?.all isBoundary :=
    absurd (List.mem_of_getLast? last) h
  have run {q : Quoting} (h : (Extent.atom q input).size = s.length) :
      rest.head?.all isBoundary := by
    rcases (Extent.atom_cases (Extent.eq_mk h rfl)).2.2 with ⟨none, _⟩
      | ⟨_, _, d, tail, next, boundary⟩
    · rw [hin, List.drop_left] at none
      simp [none]
    · rw [hin, List.drop_left] at next
      simpa [next] using boundary
  cases rule with
  | blank =>
    rcases Lexeme.kind_blank c input with e | e
    · exact absurd e hk.1
    · exact absurd e hk.2
  | lineComment =>
    have own : s = Text.firstLine input :=
      taken.symm.trans (List.prefix_iff_eq_take.mp (List.takeWhile_prefix _)).symm
    exact noLine (by simpa [own] using Word.not_mem_firstLine input)
  | string =>
    have segment := Extent.eq_mk more closed'
    obtain ⟨_, own⟩ := Extent.segment_take segment []
    rw [hin, List.take_left, List.append_nil] at own
    rw [List.getLast?_cons, Extent.getLast_of_segment own] at last
    cases last
  | blockComment =>
    obtain ⟨s, rfl, own⟩ := Lexeme.eq_of_blockComment hin more closed'
    rw [List.getLast?_cons, List.getLast?_cons, Extent.getLast_of_blockComment own] at last
    cases last
  | shebang | lang =>
    obtain ⟨_, isLine, _⟩ := Word.isLine_directive taken
    exact noLine (by simpa using isLine.oneLine)
  | datumComment =>
    obtain rfl : s = [';'] := taken.symm
    exact noLine (by decide)
  | @hashMark _ mark plain found =>
    obtain ⟨mem, tail, split, _⟩ := Lexeme.eq_append_of_markIn found
    have own : '#' :: s = mark.text := Lexeme.text_of_append split taken
    exact noLine (by rw [own]; cases mark <;> decide)
  | hashRun => exact run ((Lexeme.more_hashRun input).symm.trans more)
  | opening shape =>
    obtain rfl : s = [] := taken.symm
    exact noLine (by cases shape <;> decide)
  | closing shape =>
    obtain rfl : s = [] := taken.symm
    exact noLine (by cases shape <;> decide)
  | @mark _ _ mark ordinary found =>
    obtain ⟨mem, tail, split, _⟩ := Lexeme.eq_append_of_markIn found
    have own : c :: s = mark.text := Lexeme.text_of_append split taken
    exact noLine (by rw [own]; cases mark <;> decide)
  | atom => exact run more

/-- A list is glued to a hash mark. -/
theorem opener_of_hash (h : t.ReadAt cur rest) (ht : t.tag? = some (.mark .hash)) :
    ∃ shape : Delimiter, rest.head? = some shape.opener := by
  obtain ⟨c, s, input, lexeme, _, hin, rule, _, tag, more, _⟩ := h.rule
  rw [ht] at tag
  cases rule with
  | hashRun =>
    rcases Lexeme.hashRun_cases input with ⟨_, glued, _⟩ | run
    · rw [← Lexeme.more_hashRun, more, hin,
        List.getElem?_append_right (Nat.le_refl _), Nat.sub_self,
        ← List.head?_eq_getElem?] at glued
      obtain ⟨shape, opens⟩ := Option.isSome_iff_exists.mp glued
      obtain ⟨c, head, hshape⟩ := Option.bind_eq_some_iff.mp opens
      exact ⟨shape, head.trans (congrArg some (Delimiter.ofOpener_eq_some.mp hshape))⟩
    · rw [run] at tag
      cases tag
  | hashMark _ found =>
    obtain ⟨mem, _⟩ := Lexeme.eq_append_of_markIn found
    cases tag
    exact absurd mem (by decide)
  | mark _ found =>
    obtain ⟨mem, _⟩ := Lexeme.eq_append_of_markIn found
    cases tag
    exact absurd mem (by decide)
  | _ => cases tag

/-- A bracket is a token of its own. -/
theorem kind_of_opener {shape : Delimiter} (h : t.ReadAt cur rest)
    (ht : t.text.head? = some shape.opener) : t.kind = .opening := by
  obtain ⟨c, s, input, lexeme, text, _, rule, kind, _⟩ := h.rule
  rw [text, List.head?_cons, Option.some.injEq] at ht
  subst ht
  have opening := Lexeme.rule_iff.mp (.opening shape : Lexeme.Rule cur shape.opener input _)
  rw [← kind, ← Lexeme.rule_iff.mp rule, opening]

end ReadAt

/-- An atom in which an escape is open, as it can be at the end of a text only. -/
def escapes (t : Token) : Bool :=
  t.kind = .atom && (Quoting.outside.run t.text).escaped

/-- The words of all tokens are sound, but for one with an open escape. -/
theorem sound_of_scan {file? : Option String} {source : List Char} {t : Token}
    (ht : t ∈ scan file? source) (eof : t.kind ≠ .eof) (closed : t.closed)
    (hk : t.kind ≠ .whitespace ∧ t.kind ≠ .blankLine) (escape : t.escapes = false) :
    t.word.Sound := by
  obtain ⟨before, after, split⟩ := List.append_of_mem ht
  obtain ⟨ts, last, scanned, isEof, _⟩ := scanFrom_eq_concat file? {} (Text.joinLineEnds source)
  have inner : after ≠ [] := by
    rintro rfl
    have same := split.symm.trans scanned
    obtain rfl : t = last := (List.append_inj' same rfl).2 |> List.singleton_inj.mp
    exact eof isEof
  refine (readAt_of_scanFrom split inner).sound closed hk fun _ atom => ?_
  simpa [escapes, atom] using escape

/-- An escape stays open only where the text ends. -/
theorem ReadAt.eq_nil_of_escapes {t : Token} {cur : Cursor} {rest : List Char}
    (h : t.ReadAt cur rest)
    (he : t.escapes) : rest = [] := by
  obtain ⟨c, s, input, lexeme, text, hin, rule, kind, _, more, _⟩ := h.rule
  simp only [escapes, ← kind, text, Bool.and_eq_true, decide_eq_true_eq] at he
  obtain ⟨atom, escaped⟩ := he
  have run (h : (Extent.atom (Quoting.outside.next c) input).size = s.length) : rest = [] := by
    rcases (Extent.atom_cases (Extent.eq_mk h rfl)).2.2 with ⟨none, _⟩ | ⟨outside, _⟩
    · rwa [hin, List.drop_left] at none
    · rw [hin, List.take_left] at outside
      change ((Quoting.outside.next c).run s).escaped at escaped
      rw [outside] at escaped
      cases escaped
  cases rule with
  | atom => exact run more
  | hashRun => exact run ((Lexeme.more_hashRun input).symm.trans more)
  | blank => rcases Lexeme.kind_blank c input with e | e <;> rw [e] at atom <;> cases atom
  | _ => cases atom

/-- An escape is open behind a backslash only, at the end of the source. -/
theorem getLast_of_escapes {file? : Option String} {source : List Char} {t : Token}
    (ht : t ∈ scan file? source) (he : t.escapes) :
    (Text.joinLineEnds source).getLast? = some '\\' := by
  obtain ⟨before, after, split⟩ := List.append_of_mem ht
  have texts := flatMap_text_scanFrom file? {} (Text.joinLineEnds source)
  rw [← scan, split] at texts
  obtain ⟨_, escaped⟩ : t.kind = .atom ∧ (Quoting.outside.run t.text).escaped := by
    simpa [escapes] using he
  have last : t.text.getLast? = some '\\' := by
    refine Quoting.getLast_of_escaped escaped fun none => ?_
    rw [none] at escaped
    cases escaped
  have none : after.flatMap (·.text) = [] := by
    cases after with
    | nil => rfl
    | cons u after => exact (readAt_of_scanFrom split (by simp)).eq_nil_of_escapes he
  rw [← texts, List.flatMap_append, List.flatMap_cons, none, List.append_nil,
    List.getLast?_append, last]
  rfl

end Token

namespace Node

mutual

/-- `W` holds of every word of a node but its brackets. Directives stand outside of lists, and a
list stands behind a hash mark. -/
def Spelled (W : Word → Prop) (inList : Bool) : Node → Prop
  | atom _ s => W (.atom s)
  | string _ s => W (.string s)
  | comment _ s _ block =>
    W (.remark block s) ∧ (inList → (Word.remark block s).kind ≠ .directive)
  | directive _ _ s => W (.remark false s) ∧ inList = false
  | quoted _ tag? lead inner =>
    W { kind := .quoteMark, tag?, text := lead } ∧ inner.isDatum ∧ Spelled W inList inner ∧
      (tag? = some (.mark .hash) → inner.isList)
  | list _ _ children => SpelledAll W true children
  | blank _ => True
  | program _ _ | unknown _ _ => False

def SpelledAll (W : Word → Prop) (inList : Bool) : List Node → Prop
  | [] => True
  | child :: rest => Spelled W inList child ∧ SpelledAll W inList rest

end

mutual

theorem Spelled.mono {W W' : Word → Prop} (h : ∀ w, W w → W' w) : ∀ {node : Node} {inList : Bool},
    node.Spelled W inList → node.Spelled W' inList
  | atom .., _, spelled => h _ spelled
  | string .., _, spelled => h _ spelled
  | comment .., _, spelled => ⟨h _ spelled.1, spelled.2⟩
  | directive .., _, spelled => ⟨h _ spelled.1, spelled.2⟩
  | quoted .., _, spelled => ⟨h _ spelled.1, spelled.2.1, spelled.2.2.1.mono h, spelled.2.2.2⟩
  | list .., _, spelled => SpelledAll.mono h spelled
  | blank .., _, _ => trivial
  | program .., _, spelled => spelled
  | unknown .., _, spelled => spelled

theorem SpelledAll.mono {W W' : Word → Prop} (h : ∀ w, W w → W' w) :
    ∀ {nodes : List Node} {inList : Bool},
    SpelledAll W inList nodes → SpelledAll W' inList nodes
  | [], _, _ => trivial
  | _ :: _, _, spelled => ⟨spelled.1.mono h, spelled.2.mono h⟩

end

variable {W : Word → Prop} {inList : Bool}

theorem spelledAll_append {a b : List Node} :
    SpelledAll W inList (a ++ b) ↔ SpelledAll W inList a ∧ SpelledAll W inList b := by
  induction a with
  | nil => simp [SpelledAll]
  | cons child a ih => simp [SpelledAll, ih, and_assoc]

theorem spelledAll_trim {f : Frame} (h : SpelledAll W inList f.children) :
    SpelledAll W inList f.trim.children := by
  obtain ⟨blanks, split, _⟩ := f.children_eq_trim
  rw [split, spelledAll_append] at h
  exact h.1

end Node

namespace Form

open Token (Scans Cursor)

/-- A cursor inside of a list. -/
def Within (cur : Cursor) : Prop :=
  0 < cur.depth ∧ cur.offset ≠ 0

theorem depth_passAll_plain (cur : Cursor) {ts : List Token}
    (h : ∀ t ∈ ts, t.isMark || t.isTrivia || t.isLeaf) : (cur.passAll ts).depth = cur.depth := by
  induction ts generalizing cur with
  | nil => rfl
  | cons t ts ih =>
    have step : ((cur.nest t.kind).pass t.text).depth = cur.depth := by
      have ht := h t (List.mem_cons_self ..)
      rw [Cursor.depth_pass]
      cases hk : t.kind <;> simp_all [Token.isMark, Token.isTrivia, Token.isLeaf, Cursor.nest]
    exact (ih _ fun u hu => h u (List.mem_cons_of_mem _ hu)).trans step

theorem offset_le_passAll (cur : Cursor) (ts : List Token) :
    cur.offset ≤ (cur.passAll ts).offset := by
  induction ts generalizing cur with
  | nil => exact Nat.le_refl _
  | cons t ts ih =>
    have step : cur.offset ≤ ((cur.nest t.kind).pass t.text).offset := by
      rw [Cursor.offset_pass]
      cases t.kind <;> simp [Cursor.nest]
    exact Nat.le_trans step (ih _)

theorem depth_passAll_all {forms : List Form}
    (h : ∀ form ∈ forms, ∀ cur : Cursor, (cur.passAll form.tokens).depth = cur.depth)
    (cur : Cursor) : (cur.passAll (tokensAll forms)).depth = cur.depth := by
  induction forms generalizing cur with
  | nil => rfl
  | cons form forms ih =>
    rw [tokensAll, Cursor.passAll_append, ih fun f hf => h f (List.mem_cons_of_mem _ hf),
      h form (List.mem_cons_self ..)]

/-- Behind a form as many lists are open as before it. -/
theorem Wf.depth_passAll {form : Form} (h : form.Wf) (cur : Cursor) :
    (cur.passAll form.tokens).depth = cur.depth := by
  induction h generalizing cur with
  | trivia ht => exact depth_passAll_plain cur (by simp [tokens, ht])
  | @leaf lead datum hlead ht =>
    refine depth_passAll_plain cur fun t hmem => ?_
    rcases List.mem_append.mp hmem with hmem | hmem
    · simp [hlead.1 t hmem]
    · simp [List.mem_singleton.mp hmem, ht]
  | @list lead opener closer body shape hlead ho hs hbody hc hcs ih =>
    have inside := depth_passAll_all ih (((cur.passAll lead).nest opener.kind).pass opener.text)
    have before : (cur.passAll lead).depth = cur.depth :=
      depth_passAll_plain cur fun t ht => by simp [hlead.1 t ht]
    rw [tokens, Cursor.passAll_append]
    change ((_ : Cursor).passAll (tokensAll body ++ [closer])).depth = _
    rw [Cursor.passAll_append]
    change ((Cursor.nest _ closer.kind).pass closer.text).depth = _
    rw [Cursor.depth_pass, hc, Cursor.nest, inside, Cursor.depth_pass, ho, Cursor.nest, before]
    exact Nat.add_sub_cancel ..

variable {W : Word → Prop} {inList : Bool} {cur : Cursor} {rest : List Char}

theorem Within.pass (h : Within cur) {t : Token} (ht : t.isMark || t.isTrivia || t.isLeaf) :
    Within ((cur.nest t.kind).pass t.text) := by
  have depth : (cur.passAll [t]).depth = cur.depth := depth_passAll_plain cur (by simpa using ht)
  have offset := offset_le_passAll cur [t]
  change ((cur.nest t.kind).pass t.text).depth = _ at depth
  change _ ≤ ((cur.nest t.kind).pass t.text).offset at offset
  exact ⟨by have := h.1; omega, by have := h.2; omega⟩

/-- `W` holds of the words of tokens that are closed and no white space. -/
def AllWords (W : Word → Prop) (ts : List Token) : Prop :=
  ∀ t ∈ ts, t.closed → t.kind ≠ .whitespace ∧ t.kind ≠ .blankLine → W t.word

theorem spelled_comment {t : Token} (read : t.ReadAt cur rest) (hk : t.isRemark) (ht : t.isTrivia)
    (words : AllWords W [t]) (within : inList → Within cur) (attachment : Attachment) :
    Node.Spelled W inList
      (.comment t.loc (Text.trimEnd t.text) attachment (t.kind = .blockComment)) := by
  have word : t.word = .remark (t.kind = .blockComment) (Text.trimEnd t.text) := by
    rw [Token.word, if_pos hk]
  have sound :=
    words t (List.mem_singleton_self t) (read.closed_of_remark hk ht) (Token.ink_of_remark hk)
  rw [Node.Spelled, ← word]
  refine ⟨sound, fun list directive => ?_⟩
  rw [read.kind_word] at directive
  obtain ⟨depth, offset⟩ := within list
  rcases (read.directive directive).2.2.2 with zero | ⟨zero, _⟩
  · exact offset zero
  · omega

theorem spelled_heldNodes {lead : List Token} (h : ∀ t ∈ lead, t.isMark || t.isTrivia)
    (scans : Scans cur lead rest) (words : AllWords W lead) (within : inList → Within cur) :
    Node.SpelledAll W inList (heldNodes lead) := by
  induction lead generalizing cur with
  | nil => trivial
  | cons t lead ih =>
    obtain ⟨read, _, _, scans⟩ := scans
    have plain := h t (List.mem_cons_self ..)
    have later := ih (fun u hu => h u (List.mem_cons_of_mem _ hu)) scans
      (fun u hu => words u (List.mem_cons_of_mem _ hu)) fun list =>
        (within list).pass (by simp [plain])
    cases hk : t.isRemark with
    | false => simpa [heldNodes, hk] using later
    | true =>
      have trivia : t.isTrivia := by
        cases hm : t.isMark with
        | false => simpa [hm] using plain
        | true =>
          simp only [Token.isMark, decide_eq_true_eq] at hm
          simp [Token.isRemark, hm] at hk
      have first := spelled_comment (W := W) read hk trivia
        (fun u hu => by rw [List.mem_singleton.mp hu]; exact words t (List.mem_cons_self ..))
          within .leading
      have held : heldNodes (t :: lead) = t.heldNode :: heldNodes lead := by simp [heldNodes, hk]
      rw [held]
      exact ⟨first, later⟩

/-- Marks are sound, and a list stands behind a hash mark. -/
theorem spelled_wrapped {lead : List Token} (h : ∀ t ∈ lead, t.isMark || t.isTrivia)
    (scans : Scans cur lead rest) (words : AllWords W lead) {datum : Node} (hd : datum.isDatum)
    (spelled : datum.Spelled W inList)
    (opens : (∃ shape : Delimiter, rest.head? = some shape.opener) → datum.isList) :
    (wrapped lead datum).isDatum ∧ (wrapped lead datum).Spelled W inList := by
  induction lead generalizing cur with
  | nil => exact ⟨hd, spelled⟩
  | cons t lead ih =>
    obtain ⟨read, _, _, scans⟩ := scans
    have later := ih (fun u hu => h u (List.mem_cons_of_mem _ hu)) scans
      (fun u hu => words u (List.mem_cons_of_mem _ hu))
    cases hm : t.isMark with
    | false => simpa [wrapped, hm] using later
    | true =>
      have kind : t.kind = .quoteMark := by simpa [Token.isMark] using hm
      have word : t.word = { kind := .quoteMark, tag? := t.tag?, text := t.text } := by
        simp [Token.word, Token.isRemark, kind]
      have marked :=
        words t (List.mem_cons_self ..) (read.closed_of_kind (by simp [kind])) (by simp [kind])
      rw [word] at marked
      have wraps : wrapped (t :: lead) datum = Frame.wrap (wrapped lead datum) t := by
        simp [wrapped, hm]
      rw [wraps]
      refine ⟨rfl, marked, later.1, later.2, fun hash => ?_⟩
      obtain ⟨shape, opener⟩ := read.opener_of_hash hash
      cases lead with
      | nil => exact opens ⟨shape, opener⟩
      | cons u lead =>
        -- No bracket is part of a lead.
        have opening := scans.1.kind_of_opener (by simpa [scans.1.head_append] using opener)
        have plain := h u (by simp)
        simp [Token.isMark, Token.isTrivia, opening] at plain

theorem spelled_leafNode {t : Token} (read : t.ReadAt cur rest) (ht : t.isLeaf)
    (word : t.closed → t.kind ≠ .whitespace ∧ t.kind ≠ .blankLine → W t.word) :
    t.leafNode.isDatum ∧ t.leafNode.Spelled W inList := by
  have leaf (hk : t.kind = .atom ∨ t.kind = .string) : W { kind := t.kind, text := t.text } := by
    have noRemark : ¬t.isRemark := by rcases hk with e | e <;> simp [Token.isRemark, e]
    have closed : t.closed := by rcases hk with e | e <;> simpa [Token.isLeaf, e] using ht
    have found := word closed (by rcases hk with e | e <;> simp [e])
    rwa [Token.word, if_neg noRemark, read.tag_of_leaf hk] at found
  unfold Token.leafNode
  cases hk : t.kind with
  | atom =>
    have word := leaf (.inl hk)
    rw [hk] at word
    exact ⟨rfl, word⟩
  | string =>
    have word := leaf (.inr hk)
    rw [hk] at word
    exact ⟨rfl, word⟩
  | _ => simp [Token.isLeaf, hk] at ht

theorem spelled_nodesAll {forms : List Form} (wf : ∀ form ∈ forms, form.Wf)
    (h : ∀ form ∈ forms, ∀ (l : Level) (cur : Cursor) (rest : List Char),
      Scans cur form.tokens rest → AllWords W form.tokens → (inList → Within cur) →
      Node.SpelledAll W inList (form.nodes l))
    (l : Level) (scans : Scans cur (tokensAll forms) rest) (words : AllWords W (tokensAll forms))
    (within : inList → Within cur) : Node.SpelledAll W inList (nodesAll forms l) := by
  induction forms generalizing l cur with
  | nil => trivial
  | cons form forms ih =>
    rw [tokensAll, Token.scans_append] at scans
    simp only [tokensAll, AllWords, List.mem_append] at words
    have here :=
      h form (List.mem_cons_self ..) l cur _ scans.1 (fun t ht => words t (.inl ht)) within
    rw [nodesAll, Node.spelledAll_append]
    refine ⟨here, ih (fun f hf => wf f (List.mem_cons_of_mem _ hf))
      (fun f hf => h f (List.mem_cons_of_mem _ hf)) _ scans.2 (fun t ht => words t (.inr ht))
      fun list => ?_⟩
    have depth := (wf form (List.mem_cons_self ..)).depth_passAll cur
    have offset := offset_le_passAll cur form.tokens
    exact ⟨by have := (within list).1; omega, by have := (within list).2; omega⟩

/-- The nodes of a form have the words of its tokens. -/
theorem Wf.spelled {form : Form} (h : form.Wf) (l : Level) (cur : Cursor) (rest : List Char)
    (scans : Scans cur form.tokens rest) (words : AllWords W form.tokens)
    (within : inList → Within cur) : Node.SpelledAll W inList (form.nodes l) := by
  induction h generalizing inList l cur rest with
  | @trivia t ht =>
    obtain ⟨read, _⟩ := scans
    rw [Form.nodes]
    cases l.triviaCase ht with
    | skipped nodes | dropped nodes => exact nodes ▸ trivial
    | blank nodes => exact nodes ▸ ⟨trivial, trivial⟩
    | comment nodes remark =>
      exact nodes ▸ ⟨spelled_comment read remark ht words within _, trivial⟩
    | directive nodes kind =>
      obtain ⟨closed, _, trimmed, outside⟩ := read.directive kind
      have word := words t (List.mem_singleton_self t) closed (by simp [kind])
      simp only [Token.word, Token.isRemark, kind, trimmed] at word
      rw [nodes]
      refine ⟨⟨word, ?_⟩, trivial⟩
      cases inList with
      | false => rfl
      | true =>
        obtain ⟨depth, offset⟩ := within rfl
        omega
  | @leaf lead datum hlead ht =>
    rw [tokens, Token.scans_append] at scans
    simp only [tokens, AllWords, List.mem_append] at words
    obtain ⟨leadScans, read, _⟩ := scans
    have held := spelled_heldNodes hlead.1 leadScans (fun t ht => words t (.inl ht)) within
    obtain ⟨isDatum, spelled⟩ : datum.leafNode.isDatum ∧ datum.leafNode.Spelled W inList :=
      spelled_leafNode read ht (words datum (.inr (List.mem_singleton_self _)))
    rw [nodes, Node.spelledAll_append]
    refine ⟨held, (spelled_wrapped hlead.1 leadScans (fun t ht => words t (.inl ht)) isDatum
      spelled ?_).2, trivial⟩
    rintro ⟨shape, opener⟩
    have opening := read.kind_of_opener (by simpa [read.head_append] using opener)
    simp [Token.isLeaf, opening] at ht
  | @list lead opener closer body shape hlead ho hs hbody hc hcs ih =>
    rw [tokens, Token.scans_append] at scans
    simp only [tokens, AllWords, List.mem_append] at words
    obtain ⟨leadScans, openRead, _, _, inside⟩ := scans
    rw [Token.scans_append] at inside
    have held := spelled_heldNodes hlead.1 leadScans (fun t ht => words t (.inl ht)) within
    have inner : Within (((cur.passAll lead).nest opener.kind).pass opener.text) := by
      have length := List.length_pos_iff.mpr openRead.text_ne_nil
      refine ⟨?_, ?_⟩
      · rw [Cursor.depth_pass, ho]
        exact Nat.succ_pos _
      · rw [Cursor.offset_pass]
        omega
    have children : Node.SpelledAll W true
        (nodesAll body { lastLine := opener.endLine, atHead := false }) :=
      spelled_nodesAll hbody (fun form hf l cur rest => ih form hf l cur rest) _ inside.1
        (fun t ht => words t (by simp [ht])) fun _ => inner
    have trimmed : Node.SpelledAll W true
        (readAll body { lastLine := opener.endLine, atHead := false }).frame.trim.children := by
      refine Node.spelledAll_trim ?_
      rw [children_readAll hbody ⟨rfl, rfl⟩]
      exact children
    have spelled : Node.Spelled W inList
        (.list (opener.loc.spanTo closer.loc) (opener.shape?.getD default) _) := trimmed
    rw [nodes, Node.spelledAll_append]
    exact ⟨held, (spelled_wrapped hlead.1 leadScans (fun t ht => words t (.inl ht)) rfl spelled
      fun _ => rfl).2, trivial⟩

end Form

theorem Node.spelled_of_parse {file? : Option String} {source : List Char} {loc : Location}
    {nodes : List Node} (h : parse file? source = .ok (.program loc nodes)) {W : Word → Prop}
    (words : ∀ t ∈ Token.scan file? source, t.kind ≠ .eof → t.closed →
      t.kind ≠ .whitespace ∧ t.kind ≠ .blankLine → W t.word) : SpelledAll W false nodes := by
  obtain ⟨loc', forms, eof, wf, scan, _, _, program⟩ := parse_forms h
  obtain ⟨rfl, rfl⟩ : loc = loc' ∧ nodes = _ := by simpa using program
  refine spelledAll_trim ?_
  rw [Form.children_readAll wf ⟨rfl, rfl⟩]
  refine Form.spelled_nodesAll wf (fun form hf l cur rest => (wf form hf).spelled l cur rest) {}
    (Token.scans_of_scanFrom scan) (fun t ht => words t ?_ ?_) (by simp)
  · rw [scan]
    exact List.mem_append_left _ ht
  · rw [← (Token.takeWhile_scanFrom scan).1] at ht
    exact Token.kind_ne_eof_of_takeWhile ht

namespace Node

/-- A comment with the text of a directive stands on a line of its own, and a shebang comes
first. -/
def Leads (first : Bool) : Node → Prop
  | comment _ s attachment block =>
    (Word.remark block s).kind = .directive → attachment = .leading ∧ (['#', '!'] <+: s → first)
  | directive _ _ s => ['#', '!'] <+: s → first
  | _ => True

def LeadsAll (first : Bool) : List Node → Prop
  | [] => True
  | child :: rest => child.Leads first ∧ LeadsAll false rest

theorem leadsAll_append {first : Bool} {a b : List Node} :
    LeadsAll first (a ++ b) ↔ LeadsAll first a ∧ LeadsAll (first && a.isEmpty) b := by
  induction a generalizing first with
  | nil => simp [LeadsAll]
  | cons child a ih => simp [LeadsAll, ih, and_assoc]

theorem LeadsAll.weaken {nodes : List Node} (h : LeadsAll false nodes) (first : Bool) :
    LeadsAll first nodes := by
  cases nodes with
  | nil => trivial
  | cons child rest =>
    refine ⟨?_, h.2⟩
    have here := h.1
    cases child with
    | comment _ s attachment block =>
      intro directive
      obtain ⟨leading, shebang⟩ := here directive
      exact ⟨leading, fun hs => absurd (shebang hs) Bool.false_ne_true⟩
    | directive _ _ s => exact fun hs => absurd (here hs) Bool.false_ne_true
    | _ => trivial

theorem leads_of_isDatum {node : Node} (h : node.isDatum) (first : Bool) : node.Leads first := by
  cases node <;> trivial

end Node

/-- What is known of lines and columns between two forms of a program, with the given text
behind. -/
structure Level.Edges (cur : Token.Cursor) (rest : List Char) (l : Level) : Prop where
  le : l.lastLine ≤ cur.line
  column : 1 ≤ cur.column
  start : cur.offset = 0 → l.frame.nodes = [] ∧ l.lastLine = 0
  edge : l.lastLine = cur.line → cur.column = 1 → rest.head?.all Token.isBoundary

namespace Form

open Token (Scans Cursor)

variable {cur : Cursor} {rest : List Char} {l : Level}

theorem getLast_of_column (hc : 1 ≤ cur.column) {s : List Char} (hs : s ≠ [])
    (h : (cur.pass s).column = 1) : s.getLast? = some '\n' := by
  obtain ⟨s, c, rfl⟩ : ∃ init c, s = init ++ [c] := ⟨_, _, (List.dropLast_append_getLast hs).symm⟩
  have before := Cursor.one_le_column_pass hc s
  rw [Cursor.pass_append] at h
  change ((cur.pass s).next c).column = 1 at h
  unfold Cursor.next at h
  split at h
  · rename_i newline
    simp [newline]
  · simp only at h
    omega

theorem column_nest (cur : Cursor) (kind : Token.Kind) : (cur.nest kind).column = cur.column := by
  cases kind <;> rfl

/-- Behind a token that is no white space. -/
theorem edges_of_last {t : Token} (read : t.ReadAt cur rest) (closed : t.closed)
    (hk : t.kind ≠ .whitespace ∧ t.kind ≠ .blankLine) (hc : 1 ≤ cur.column)
    (lastLine : l.lastLine = ((cur.nest t.kind).pass t.text).line) :
    l.Edges ((cur.nest t.kind).pass t.text) rest := by
  have column : 1 ≤ (cur.nest t.kind).column := by rwa [column_nest]
  have length := List.length_pos_iff.mpr read.text_ne_nil
  refine ⟨by omega, Cursor.one_le_column_pass column _, fun zero => ?_, fun _ one => ?_⟩
  · rw [Cursor.offset_pass] at zero
    omega
  · exact read.boundary_of_getLast closed hk (getLast_of_column column read.text_ne_nil one)

/-- Behind white space. -/
theorem edges_white {t : Token} (edges : l.Edges cur (t.text ++ rest)) (read : t.ReadAt cur rest)
    (hk : t.kind = .whitespace ∨ t.kind = .blankLine) {l' : Level}
    (same : l'.lastLine = l.lastLine) :
    l'.Edges ((cur.nest t.kind).pass t.text) rest := by
  have stays : cur.nest t.kind = cur := by rcases hk with e | e <;> rw [e] <;> rfl
  have length := List.length_pos_iff.mpr read.text_ne_nil
  rw [stays]
  refine ⟨?_, Cursor.one_le_column_pass edges.column _, fun zero => ?_, fun line one => ?_⟩
  · have := edges.le
    rw [same, Cursor.line_pass]
    omega
  · rw [Cursor.offset_pass] at zero
    omega
  · -- On the same line no new line was passed, so the column is not the first one.
    have le := edges.le
    rw [same, Cursor.line_pass] at line
    have none : '\n' ∉ t.text := by
      rw [← List.count_eq_zero]
      omega
    have := edges.column
    rw [Cursor.column_pass cur none] at one
    omega

/-- Only a token that is a directive gives a comment with the text of one. -/
theorem directive_of_remark {t : Token} (read : t.ReadAt cur rest) (hk : t.isRemark)
    (directive : (Word.remark (t.kind = .blockComment) (Text.trimEnd t.text)).kind = .directive) :
    t.kind = .directive ∧ Text.trimEnd t.text = t.text := by
  have kind : t.kind = .directive := by
    rw [← read.kind_word, Token.word, if_pos hk]
    exact directive
  exact ⟨kind, (read.directive kind).2.2.1⟩

/-- Only the first node of a program can start with `#!`. -/
theorem isEmpty_of_shebang {t : Token} (edges : l.Edges cur (t.text ++ rest))
    (read : t.ReadAt cur rest) (hk : t.kind = .directive) (hs : ['#', '!'] <+: t.text) :
    l.frame.nodes.isEmpty := by
  rcases (read.directive hk).2.2.2 with zero | ⟨_, _, noShebang⟩
  · simp [(edges.start zero).1]
  · exact absurd hs noShebang

/-- A directive starts a line, and what came before it ended on another one. -/
theorem leading_of_directive {t : Token} (edges : l.Edges cur (t.text ++ rest))
    (read : t.ReadAt cur rest) (starts : t.loc.line = cur.line) (hk : t.kind = .directive) :
    l.attachment t = .leading := by
  obtain ⟨_, head, _, place⟩ := read.directive hk
  unfold Level.attachment
  refine if_neg fun trails => ?_
  simp only [Bool.and_eq_true, decide_eq_true_eq] at trails
  obtain ⟨⟨_, nonzero⟩, same⟩ := trails
  rcases place with zero | ⟨_, one, _⟩
  · exact nonzero (edges.start zero).2
  · have boundary := edges.edge (by omega) one
    rw [read.head_append, head] at boundary
    cases boundary

theorem leads_trivia {t : Token} (ht : t.isTrivia) (edges : l.Edges cur (t.text ++ rest))
    (scans : Scans cur [t] rest) :
    Node.LeadsAll l.frame.nodes.isEmpty (nodes (.trivia t) l) ∧
      (read (.trivia t) l).Edges (cur.passAll [t]) rest := by
  obtain ⟨read, starts, ends, _⟩ := scans
  rw [List.flatMap_nil, List.nil_append] at read
  have remark (hk : t.isRemark) (lastLine : (l.pass t).lastLine = t.endLine) :
      (l.pass t).Edges (cur.passAll [t]) rest :=
    edges_of_last read (read.closed_of_remark hk ht) (Token.ink_of_remark hk) edges.column
      (lastLine.trans ends)
  rw [Form.read, nodes]
  cases l.triviaCase ht with
  | skipped none same kind => exact ⟨none ▸ trivial, edges_white edges read kind (by rw [same])⟩
  | dropped none kind _ lastLine =>
    exact ⟨none ▸ trivial, edges_white edges read (.inr kind) lastLine⟩
  | blank one kind _ lastLine =>
    exact ⟨one ▸ ⟨trivial, trivial⟩, edges_white edges read (.inr kind) lastLine⟩
  | comment one hk lastLine =>
    refine ⟨one ▸ ⟨fun directive => ?_, trivial⟩, remark hk lastLine⟩
    obtain ⟨kind, trimmed⟩ := directive_of_remark read hk directive
    exact ⟨leading_of_directive edges read starts kind,
      fun hs => isEmpty_of_shebang edges read kind (trimmed ▸ hs)⟩
  | directive one kind _ lastLine =>
    exact ⟨one ▸ ⟨isEmpty_of_shebang edges read kind, trivial⟩,
      remark (by simp [Token.isRemark, kind]) lastLine⟩

theorem leads_heldNodes {lead : List Token} (h : ∀ t ∈ lead, t.isMark || t.isTrivia)
    (scans : Scans cur lead rest) (begun : cur.offset ≠ 0 ∨ lead.head?.all Token.isMark) :
    Node.LeadsAll false (heldNodes lead) := by
  induction lead generalizing cur with
  | nil => trivial
  | cons t lead ih =>
    obtain ⟨read, _, _, scans⟩ := scans
    have later := ih (fun u hu => h u (List.mem_cons_of_mem _ hu)) scans (.inl (by
      have := List.length_pos_iff.mpr read.text_ne_nil
      rw [Cursor.offset_pass]
      omega))
    cases hk : t.isRemark with
    | false => simpa [heldNodes, hk] using later
    | true =>
      have held : heldNodes (t :: lead) = t.heldNode :: heldNodes lead := by simp [heldNodes, hk]
      rw [held]
      refine ⟨fun directive => ⟨rfl, fun hs => ?_⟩, later⟩
      obtain ⟨kind, trimmed⟩ := directive_of_remark read hk directive
      rcases (read.directive kind).2.2.2 with zero | ⟨_, _, noShebang⟩
      · rcases begun with begun | mark
        · exact absurd zero begun
        · simp [Token.isMark, kind] at mark
      · exact absurd (trimmed ▸ hs) noShebang

theorem one_le_column_passAll (hc : 1 ≤ cur.column) (ts : List Token) :
    1 ≤ (cur.passAll ts).column := by
  induction ts generalizing cur with
  | nil => exact hc
  | cons t ts ih =>
    refine ih (Cursor.one_le_column_pass ?_ _)
    rwa [column_nest]

theorem Wf.leads {form : Form} (h : form.Wf) (scans : Scans cur form.tokens rest)
    (edges : l.Edges cur (form.tokens.flatMap (·.text) ++ rest)) :
    Node.LeadsAll l.frame.nodes.isEmpty (form.nodes l) ∧
      (form.read l).Edges (cur.passAll form.tokens) rest := by
  have datum {lead : List Token} (hlead : IsLead lead) {input : List Char}
      (leadScans : Scans cur lead input) {node : Node} (hd : node.isDatum) :
      Node.LeadsAll l.frame.nodes.isEmpty (heldNodes lead ++ [wrapped lead node]) := by
    have held := leads_heldNodes hlead.1 leadScans (.inr hlead.2)
    exact Node.leadsAll_append.mpr
      ⟨held.weaken _, Node.leads_of_isDatum (isDatum_wrapped lead hd) _, trivial⟩
  cases h with
  | trivia ht => exact leads_trivia ht (by simpa [tokens] using edges) scans
  | @leaf lead t hlead ht =>
    rw [tokens, Token.scans_append] at scans
    obtain ⟨leadScans, read, _, ends, _⟩ := scans
    rw [List.flatMap_nil, List.nil_append] at read
    have closed : t.closed := by cases hk : t.kind <;> simp_all [Token.isLeaf]
    have noBlank : t.kind ≠ .whitespace ∧ t.kind ≠ .blankLine := by
      constructor <;> intro e <;> simp [Token.isLeaf, e] at ht
    refine ⟨datum hlead leadScans (isDatum_leafNode t), ?_⟩
    rw [tokens, Cursor.passAll_append]
    refine edges_of_last read closed noBlank (one_le_column_passAll edges.column lead) ?_
    rw [Form.read, Level.pass_leaf _ ht]
    exact ends
  | @list lead opener closer body shape hlead ho hs hbody hc hcs =>
    rw [tokens, Token.scans_append] at scans
    obtain ⟨leadScans, _, _, _, inside⟩ := scans
    rw [Token.scans_append] at inside
    obtain ⟨_, read, _, ends, _⟩ := inside
    rw [List.flatMap_nil, List.nil_append] at read
    refine ⟨datum hlead leadScans rfl, ?_⟩
    have split : cur.passAll (tokens (.list lead opener body closer)) =
        (((cur.passAll lead).passAll (opener :: tokensAll body)).passAll [closer]) := by
      rw [tokens, ← Cursor.passAll_append, ← Cursor.passAll_append, List.cons_append]
    rw [split]
    exact edges_of_last read (read.closed_of_kind (by simp [hc])) (by simp [hc])
      (one_le_column_passAll (one_le_column_passAll edges.column lead) _) ends

theorem leads_nodesAll {forms : List Form} (wf : ∀ form ∈ forms, form.Wf) (clean : l.frame.Clean)
    (scans : Scans cur (tokensAll forms) rest)
    (edges : l.Edges cur ((tokensAll forms).flatMap (·.text) ++ rest)) :
    Node.LeadsAll l.frame.nodes.isEmpty (nodesAll forms l) := by
  induction forms generalizing l cur with
  | nil => trivial
  | cons form forms ih =>
    have first := wf form (List.mem_cons_self ..)
    rw [tokensAll, Token.scans_append] at scans
    rw [tokensAll, List.flatMap_append, List.append_assoc] at edges
    obtain ⟨leads, edges'⟩ := first.leads scans.1 edges
    have later := ih (fun f hf => wf f (List.mem_cons_of_mem _ hf)) (first.clean_read clean)
      scans.2 edges'
    have empty : (form.read l).frame.nodes.isEmpty =
        (l.frame.nodes.isEmpty && (form.nodes l).isEmpty) := by
      rw [Frame.nodes_eq_reverse (first.children_read clean)]
      cases form.nodes l <;> simp
    rw [empty] at later
    exact Node.leadsAll_append.mpr ⟨leads, later⟩

end Form

theorem Node.leads_of_parse {file? : Option String} {source : List Char} {loc : Location}
    {nodes : List Node} (h : parse file? source = .ok (.program loc nodes)) :
    LeadsAll true nodes := by
  obtain ⟨loc', forms, eof, wf, scan, _, _, program⟩ := parse_forms h
  obtain ⟨rfl, rfl⟩ : loc = loc' ∧ nodes = _ := by simpa using program
  have start : Level.Edges {} ((Form.tokensAll forms).flatMap (·.text) ++ []) {} :=
    ⟨by decide, by decide, fun _ => ⟨rfl, rfl⟩, by simp⟩
  have all := Form.leads_nodesAll wf ⟨rfl, rfl⟩ (Token.scans_of_scanFrom scan) start
  obtain ⟨blanks, split, _⟩ := (Form.readAll forms {}).frame.children_eq_trim
  rw [Form.children_readAll wf ⟨rfl, rfl⟩] at split
  change Form.nodesAll forms {} = _ at split
  rw [split] at all
  exact (leadsAll_append.mp all).1

end SexprFormat
