import SexprFormat.Proofs.Partition
import SexprFormat.Proofs.Preserve

/-!
The lines of a formatted text. Its words come in order with white space between them; every line
starts below the brackets that are open there and ends with a word, and at most one empty line
stands between two of them. Main statement: `format_shaped`.
-/

namespace SexprFormat

namespace Word

/-- The number of lists that are open behind the word. -/
def nest (depth : Nat) (w : Word) : Nat :=
  match w.kind with
  | .opening => depth + 1
  | .closing => depth - 1
  | _ => depth

/-- The number of lists that some words leave open. -/
def depth (ws : List Word) : Nat :=
  ws.foldl nest 0

/-- The word is on one line, with visible characters at both ends. -/
structure Neat (w : Word) : Prop where
  first : w.text.head?.any (!Text.isBlank ·)
  last : w.text.getLast?.any (!Text.isBlank ·)
  oneLine : '\n' ∉ w.text

/-- What is so of every word that is read: only an atom may end with white space, and only atoms,
strings and block comments may go over several lines. -/
structure Visible (w : Word) : Prop where
  first : w.text.head?.any (!Text.isBlank ·)
  last : w.kind ≠ .atom → w.text.getLast?.any (!Text.isBlank ·)
  oneLine : w.kind ∉ [.atom, .string, .blockComment] → '\n' ∉ w.text

theorem getLast_of_trimEnd {s : List Char} (h : Text.trimEnd s = s) (hs : s ≠ []) :
    s.getLast?.any (!Text.isBlank ·) := by
  have last := Text.getLast_trimEnd s
  rw [h, List.getLast?_eq_some_getLast hs] at last
  rwa [List.getLast?_eq_some_getLast hs]

theorem Sound.visible {w : Word} (h : w.Sound) : w.Visible := by
  obtain ⟨c, s, text, visible, _⟩ := h.first
  refine ⟨by simp [text, visible], ?_, ?_⟩
  · cases h with
    | opening shape | closing shape => cases shape <;> exact fun _ => rfl
    | @string s own =>
      intro _
      have last := Token.Extent.getLast_of_segment own
      simp [Word.string, List.getLast?_cons, last]
      rfl
    | @blockComment s own =>
      intro _
      have last := Token.Extent.getLast_of_blockComment own
      simp [List.getLast?_cons, last]
      rfl
    | lineComment line => exact fun _ => getLast_of_trimEnd line.trimmed (by simp)
    | @shebang s line =>
      intro _
      have last := getLast_of_trimEnd line.trimmed (by simp)
      simpa [Word.directive, List.getLast?_cons] using last
    | @lang s line =>
      intro _
      have last := getLast_of_trimEnd line.trimmed (by simp)
      simpa [Word.directive, List.getLast?_cons] using last
    | @mark mark => cases mark <;> exact fun _ => rfl
    | @hash s own =>
      intro _
      cases hl : s.getLast? with
      | none => simp [List.getLast?_cons, hl]; rfl
      | some d => simp [List.getLast?_cons, hl, own.visible d (List.mem_of_getLast? hl)]
    | atom => exact fun other => absurd rfl other
  · cases h with
    | opening shape | closing shape => cases shape <;> exact fun _ => by decide
    | string | blockComment | atom =>
      intro kind
      simp [Word.string, Word.atom] at kind
    | lineComment line => exact fun _ => line.oneLine
    | shebang line | lang line =>
      exact fun _ => List.not_mem_cons_of_ne_of_not_mem (by decide) line.oneLine
    | @mark mark => cases mark <;> exact fun _ => by decide
    | hash own => exact fun _ => List.not_mem_cons_of_ne_of_not_mem (by decide) own.oneLine

theorem Visible.neat {w : Word} (h : w.Visible) (hk : w.kind ∉ [.atom, .string, .blockComment]) :
    w.Neat := by
  refine ⟨h.first, h.last ?_, h.oneLine hk⟩
  intro atom
  simp [atom] at hk

end Word

/-- An escape that is open at the end of a source makes an atom, whose end does not matter here. -/
theorem Token.visible_of_scan {file? : Option String} {source : List Char} {t : Token}
    (ht : t ∈ scan file? source) (eof : t.kind ≠ .eof) (closed : t.closed)
    (hk : t.kind ≠ .whitespace ∧ t.kind ≠ .blankLine) : t.word.Visible := by
  cases he : t.escapes with
  | false => exact (sound_of_scan ht eof closed hk he).visible
  | true =>
    obtain ⟨before, after, split⟩ := List.append_of_mem ht
    have kind : t.kind = .atom := by
      simp only [escapes, Bool.and_eq_true, decide_eq_true_eq] at he
      exact he.1
    have word : t.word = { kind := .atom, tag? := t.tag?, text := t.text } := by
      rw [Token.word, if_neg (by simp [isRemark, kind]), kind]
    rw [word]
    rcases eof_or_readAt split with ⟨_, isEof, _⟩ | ⟨_, read⟩
    · exact absurd isEof eof
    · refine ⟨?_, fun other => absurd rfl other, fun other => absurd other (by simp)⟩
      cases text : t.text with
      | nil => exact absurd text read.text_ne_nil
      | cons c s => simp [read.visible_of_kind hk (by rw [text]; rfl)]

namespace Node

/-- The text of an atom, a string or a comment has no line feed, and the one of an atom no white
space at its end. -/
def onOneLine : Node → Bool
  | atom _ s => '\n' ∉ s && s.getLast?.all (!Text.isBlank ·)
  | string _ s | comment _ s _ _ => '\n' ∉ s
  | _ => true

mutual

theorem neat_words : ∀ (node : Node) (inList : Bool), node.Spelled Word.Visible inList →
    (∀ n ∈ node.subtrees, n.onOneLine) → ∀ w ∈ node.words, w.Neat
  | atom loc s, _, h, hs, w, hw => by
    obtain rfl := List.mem_singleton.mp hw
    have own := hs _ (mem_subtrees_self _)
    simp only [onOneLine, Bool.and_eq_true, decide_eq_true_eq] at own
    have first : s.head?.any (!Text.isBlank ·) := h.first
    refine ⟨first, ?_, own.1⟩
    change s.getLast?.any _
    cases s with
    | nil => cases first
    | cons c s => simpa [List.getLast?_cons] using own.2
  | string loc s, _, h, hs, w, hw => by
    obtain rfl := List.mem_singleton.mp hw
    have own := hs _ (mem_subtrees_self _)
    exact ⟨h.first, h.last (by simp [Word.string]), of_decide_eq_true own⟩
  | comment loc s attachment block, _, h, hs, w, hw => by
    obtain rfl := List.mem_singleton.mp hw
    have own := hs _ (mem_subtrees_self _)
    have kind := Word.kind_remark block s
    refine ⟨h.1.first, h.1.last ?_, ?_⟩
    · intro atom
      simp [atom] at kind
    · rw [Word.text_remark]
      exact of_decide_eq_true own
  | directive loc tag? s, _, h, hs, w, hw => by
    obtain rfl := List.mem_singleton.mp hw
    apply h.1.neat
    simp only [Word.remark, Bool.false_eq_true, if_false]
    split <;> simp [Word.directive]
  | quoted loc tag? lead inner, inList, h, hs, w, hw => by
    rcases List.mem_cons.mp hw with rfl | hw
    · exact h.1.neat (by simp)
    · exact neat_words inner inList h.2.2.1
        (fun n hn => hs n (by rw [subtrees]; exact List.mem_cons_of_mem _ hn)) w hw
  | list loc shape children, _, h, hs, w, hw => by
    rw [words, List.mem_cons, List.mem_append, List.mem_singleton] at hw
    rcases hw with rfl | hw | rfl
    · exact (Word.Sound.opening shape).visible.neat (by simp [Word.opening])
    · exact neat_wordsAll children true h
        (fun n hn => hs n (by rw [subtrees]; exact List.mem_cons_of_mem _ hn)) w hw
    · exact (Word.Sound.closing shape).visible.neat (by simp [Word.closing])
  | blank _, _, _, _, w, hw => by cases hw
  | program .., _, h, _, _, _ | unknown .., _, h, _, _, _ => h.elim

theorem neat_wordsAll :
    ∀ (nodes : List Node) (inList : Bool), SpelledAll Word.Visible inList nodes →
    (∀ n ∈ subtreesAll nodes, n.onOneLine) → ∀ w ∈ wordsAll nodes, w.Neat
  | [], _, _, _, w, hw => by cases hw
  | node :: nodes, inList, h, hs, w, hw => by
    rw [wordsAll, List.mem_append] at hw
    rw [subtreesAll, List.forall_mem_append] at hs
    rcases hw with hw | hw
    · exact neat_words node inList h.1 hs.1 w hw
    · exact neat_wordsAll nodes inList h.2 hs.2 w hw

end

end Node

/-- A gap that goes on to another line does so with the margin of the lists that are open. -/
def Gap.Indents (depth : Nat) : Gap → Prop
  | space => True
  | soft indent | line indent | blank indent => indent = 2 * depth

namespace Print

/-- The words and gaps of a text to its end, from where some lists are open. A word comes behind
every gap but the last one. -/
inductive Aligned : (depth : Nat) → List Word → List Print → Prop where
  | last : Aligned 0 [] [.gap (.line 0)]
  | word {depth : Nat} {w : Word} {ws : List Word} {ps : List Print} :
      Aligned (w.nest depth) ws ps → Aligned depth (w :: ws) (.word w :: ps)
  | gap {depth : Nat} {g : Gap} {w : Word} {ws : List Word} {ps : List Print} :
      g.Indents depth → Aligned depth ws (.word w :: ps) →
      Aligned depth ws (.gap g :: .word w :: ps)

theorem between_indents (depth : Nat) (inProgram : Bool) (previous? : Option Node)
    (emptyLine : Bool)
    (child : Node) :
    between (2 * depth) inProgram previous? emptyLine child = [] ∨
      ∃ g : Gap, between (2 * depth) inProgram previous? emptyLine child = [gap g] ∧
        g.Indents depth := by
  unfold between
  split
  · cases inProgram <;> simp [Gap.Indents]
  · simp
  · right
    split
    · exact ⟨_, rfl, rfl⟩
    · split
      · exact ⟨_, rfl, rfl⟩
      · split
        · exact ⟨_, rfl, trivial⟩
        · exact ⟨_, rfl, rfl⟩
        · cases inProgram <;> exact ⟨_, rfl, rfl⟩

end Print

theorem Word.nest_remark_eq (depth : Nat) (block : Bool) (s : List Char) :
    (remark block s).nest depth = depth := by
  have kind := kind_remark block s
  simp only [List.mem_cons, List.not_mem_nil, or_false] at kind
  unfold nest
  rcases kind with e | e | e <;> rw [e]

namespace Node

open Print (Aligned)

variable {W : Word → Prop}

theorem exists_word_prints {node : Node} {inList : Bool} (h : node.Spelled W inList)
    (hb : node.isBlank = false) (indent : Int) : ∃ w ps, node.prints indent = .word w :: ps := by
  cases node with
  | blank => cases hb
  | program | unknown => exact h.elim
  | atom | string | comment | directive | quoted | list => exact ⟨_, _, rfl⟩

mutual

/-- What is printed of a node stands below the lists that are open around it. -/
theorem aligned_prints {depth : Nat} {ws : List Word} {tail : List Print} : ∀ (node : Node)
    (inList : Bool), node.Spelled W inList → node.isBlank = false → Aligned depth ws tail →
    Aligned depth (node.words ++ ws) (node.prints (2 * depth) ++ tail)
  | atom .., _, _, _, h | string .., _, _, _, h => .word h
  | comment _ s _ block, _, _, _, h => .word (by rwa [Word.nest_remark_eq])
  | directive _ _ s, _, _, _, h => .word (by rwa [Word.nest_remark_eq])
  | quoted _ _ _ inner, inList, spelled, _, h =>
    .word (aligned_prints inner inList spelled.2.2.1 (isBlank_of_isDatum spelled.2.1) h)
  | list _ shape children, _, spelled, _, h => by
    have closes : Aligned (depth + 1) (.closing shape :: ws) (.word (.closing shape) :: tail) :=
      .word h
    have inside : Aligned (depth + 1) (wordsAll children ++ .closing shape :: ws)
        (printsAll (2 * (depth + 1 : Nat)) false none false children ++
          .word (.closing shape) :: tail) := by
      apply aligned_printsAll children false true none false spelled
      intro last? _
      cases last? with
      | none => exact closes
      | some last =>
        rw [Print.atEnd]
        cases last.endsLine with
        | false => exact closes
        | true => exact .gap rfl closes
    have indent : (2 * (depth + 1 : Nat) : Int) = 2 * depth + Doc.indentWidth := by
      simp only [Doc.indentWidth]
      omega
    rw [indent] at inside
    rw [words, prints]
    simpa using Aligned.word (w := .opening shape) inside
  | blank _, _, _, hb, _ => by cases hb
  | program .., _, spelled, _, _ | unknown .., _, spelled, _, _ => spelled.elim

theorem aligned_printsAll {depth : Nat} {ws : List Word} {tail : List Print} : ∀ (nodes : List Node)
    (inProgram inList : Bool) (previous? : Option Node) (emptyLine : Bool),
      SpelledAll W inList nodes →
    (∀ last?, (last? = none → previous? = none ∧ nodes.all isBlank) →
      Aligned depth ws (Print.atEnd (2 * depth) inProgram last? ++ tail)) →
    Aligned depth (wordsAll nodes ++ ws)
      (printsAll (2 * depth) inProgram previous? emptyLine nodes ++ tail)
  | [], _, _, previous?, _, _, ends => ends previous? fun none => ⟨none, rfl⟩
  | child :: rest, inProgram, inList, previous?, emptyLine, spelled, ends => by
    cases hb : child.isBlank with
    | true =>
      obtain ⟨loc, rfl⟩ := exists_of_isBlank hb
      rw [wordsAll, printsAll, if_pos hb]
      apply aligned_printsAll rest inProgram inList previous? true spelled.2
      intro last? none
      apply ends last?
      simpa [hb] using none
    | false =>
      have later := aligned_printsAll rest inProgram inList (some child) false spelled.2
        (fun last? some => ends last? fun none => absurd (some none).1 (by simp))
      have own := aligned_prints child inList spelled.1 hb later
      rw [wordsAll, printsAll, if_neg (by simp [hb]), List.append_assoc, List.append_assoc,
        List.append_assoc]
      rcases Print.between_indents depth inProgram previous? emptyLine child with
        none | ⟨g, one, indents⟩
      · rwa [none]
      · obtain ⟨w, ps, word⟩ := exists_word_prints spelled.1 hb (2 * depth)
        rw [one, word]
        rw [word] at own
        exact .gap indents own

end

end Node

theorem Text.ne_of_visible {c d : Char} (h : isBlank c = false) (hd : isBlank d) : c ≠ d := by
  rintro rfl
  rw [h] at hd
  cases hd

/-- The words come in the text in their order, and all else in it is white space. -/
def Spaced : List Word → List Char → Prop
  | [], s => ∀ c ∈ s, Text.isBlank c
  | w :: ws, s => ∃ b rest, s = b ++ w.text ++ rest ∧ (∀ c ∈ b, Text.isBlank c) ∧ Spaced ws rest

/-- A line starts between the words of the two texts. Its margin is the one of the lists that are
open there, and a visible character comes behind it. -/
def LineStart (depth : Nat) (ws : List Word) (front back : List Char) : Prop :=
  ∃ before after c rest, ws = before ++ after ∧ Spaced before front ∧ Spaced after back ∧
    back = List.replicate (2 * before.foldl Word.nest depth) ' ' ++ c :: rest ∧
    Text.isBlank c = false

/-- Behind a line feed the text ends, or a line starts, or another line feed comes before the
line. -/
def GoesOn (depth : Nat) (ws : List Word) (a r : List Char) : Prop :=
  r = [] ∨ LineStart depth ws (a ++ ['\n']) r ∨
    ∃ r', r = '\n' :: r' ∧ LineStart depth ws (a ++ ['\n', '\n']) r'

/-- Before each line feed stands the end of a word or another line feed, and behind it the text goes
on. -/
def Lined (depth : Nat) (ws : List Word) (s : List Char) : Prop :=
  ∀ a r, s = a ++ '\n' :: r →
    a.getLast?.all (fun c => c = '\n' || !Text.isBlank c) ∧ GoesOn depth ws a r

theorem Spaced.blank_append {ws : List Word} {s b : List Char} (h : Spaced ws s)
    (hb : ∀ c ∈ b, Text.isBlank c) : Spaced ws (b ++ s) := by
  cases ws with
  | nil => exact List.forall_mem_append.mpr ⟨hb, h⟩
  | cons w ws =>
    obtain ⟨b', rest, rfl, hb', spaced⟩ := h
    exact ⟨b ++ b', rest, by simp, List.forall_mem_append.mpr ⟨hb, hb'⟩, spaced⟩

namespace LineStart

variable {depth : Nat} {ws : List Word} {front back : List Char}

theorem word {w : Word} (h : LineStart (w.nest depth) ws front back) :
    LineStart depth (w :: ws) (w.text ++ front) back := by
  obtain ⟨before, after, c, rest, rfl, hb, ha, margin, visible⟩ := h
  exact ⟨w :: before, after, c, rest, rfl, ⟨[], front, rfl, by simp, hb⟩, ha, margin, visible⟩

theorem blank_append {b : List Char} (h : LineStart depth ws front back)
    (hb : ∀ c ∈ b, Text.isBlank c) : LineStart depth ws (b ++ front) back := by
  obtain ⟨before, after, c, rest, rfl, hf, ha, margin, visible⟩ := h
  exact ⟨before, after, c, rest, rfl, hf.blank_append hb, ha, margin, visible⟩

theorem exists_cons (h : LineStart depth ws front back) :
    ∃ c rest, back = c :: rest ∧ c ≠ '\n' := by
  obtain ⟨before, after, c, rest, _, _, _, margin, visible⟩ := h
  cases width : 2 * before.foldl Word.nest depth with
  | zero =>
    rw [width] at margin
    exact ⟨c, rest, margin, Text.ne_of_visible visible rfl⟩
  | succ n =>
    rw [width, List.replicate_succ] at margin
    exact ⟨' ', _, margin, by decide⟩

end LineStart

/-- What is put before a text does not change how it goes on. -/
theorem GoesOn.append {depth depth' : Nat} {ws ws' : List Word} {a r u : List Char}
    (h : GoesOn depth ws a r)
    (start : ∀ front back, LineStart depth ws front back → LineStart depth' ws' (u ++ front) back) :
    GoesOn depth' ws' (u ++ a) r := by
  rcases h with none | line | ⟨r', rfl, line⟩
  · exact .inl none
  · right; left
    rw [List.append_assoc]
    exact start _ _ line
  · right; right
    rw [List.append_assoc]
    exact ⟨r', rfl, start _ _ line⟩

/-- A line feed that does not stand in the first part of a text stands in the second one. -/
theorem Text.exists_of_append_newline {u s a r : List Char} (h : '\n' ∉ u)
    (e : u ++ s = a ++ '\n' :: r) : ∃ a', a = u ++ a' ∧ s = a' ++ '\n' :: r := by
  rcases List.append_eq_append_iff.mp e with ⟨x, hx, hs⟩ | ⟨x, rfl, hr⟩
  · exact ⟨x, hx, hs⟩
  · cases x with
    | nil => exact ⟨[], by simp, by simpa using hr.symm⟩
    | cons c x =>
      cases hr
      simp at h

theorem Word.Neat.exists_cons {w : Word} (h : w.Neat) :
    ∃ c s, w.text = c :: s ∧ Text.isBlank c = false := by
  have first := h.first
  cases text : w.text with
  | nil => simp [text] at first
  | cons c s => exact ⟨c, s, rfl, by simpa [text] using first⟩

/-- The text of a gap behind which `depth` lists are open. -/
def Gap.Text (depth : Nat) (b : List Char) : Prop :=
  b = [' '] ∨ b = '\n' :: List.replicate (2 * depth) ' ' ∨
    b = '\n' :: '\n' :: List.replicate (2 * depth) ' '

theorem Gap.Text.blank {depth : Nat} {b : List Char} (h : Gap.Text depth b) :
    ∀ c ∈ b, Text.isBlank c := by
  intro c hc
  rcases h with rfl | rfl | rfl
  · obtain rfl := List.mem_singleton.mp hc
    rfl
  · rcases List.mem_cons.mp hc with rfl | hc
    · rfl
    · rw [List.eq_of_mem_replicate hc]
      rfl
  · rcases List.mem_cons.mp hc with rfl | hc
    · rfl
    · rcases List.mem_cons.mp hc with rfl | hc
      · rfl
      · rw [List.eq_of_mem_replicate hc]
        rfl

namespace Lined

variable {depth : Nat} {ws : List Word} {s : List Char}

/-- A word adds no line feed. -/
theorem word {w : Word} (h : Lined (w.nest depth) ws s) (neat : w.Neat) :
    Lined depth (w :: ws) (w.text ++ s) := by
  intro a r e
  obtain ⟨a', rfl, split⟩ := Text.exists_of_append_newline neat.oneLine e
  obtain ⟨ends, starts⟩ := h a' r split
  constructor
  · rw [List.getLast?_append]
    cases last : a'.getLast? with
    | some c => simpa [last] using ends
    | none =>
      have own := neat.last
      cases hl : w.text.getLast? with
      | none => rfl
      | some c => simp_all
  · exact starts.append fun _ _ => .word

/-- A gap goes on to a line with the margin of the lists that are open, or stays on its line. -/
theorem gap {b : List Char} (h : Lined depth ws s) (spaced : Spaced ws s) (hb : Gap.Text depth b)
    {c : Char} {rest : List Char} (hs : s = c :: rest) (visible : Text.isBlank c = false) :
    Lined depth ws (b ++ s) := by
  intro a r e
  -- The line feed stands behind the gap.
  have behind {a' : List Char} (ha : a = b ++ a') (split : s = a' ++ '\n' :: r) :
      a.getLast?.all (fun c => c = '\n' || !Text.isBlank c) ∧ GoesOn depth ws a r := by
    subst ha
    obtain ⟨ends, starts⟩ := h a' r split
    constructor
    · cases a' with
      | nil =>
        rw [hs] at split
        cases split
        cases visible
      | cons d a' => simpa [List.getLast?_append, List.getLast?_cons] using ends
    · exact starts.append fun _ _ line => line.blank_append hb.blank
  -- The last line feed of the gap.
  have line {front : List Char} (hf : ∀ c ∈ front, Text.isBlank c) :
      LineStart depth ws front (List.replicate (2 * depth) ' ' ++ s) := by
    refine ⟨[], ws, c, rest, rfl, hf, ?_, by rw [hs]; rfl, visible⟩
    apply spaced.blank_append
    intro c hc
    rw [List.eq_of_mem_replicate hc]
    rfl
  have noNewline : '\n' ∉ List.replicate (2 * depth) ' ' := by simp
  rcases hb with rfl | rfl | rfl
  · obtain ⟨a', ha, split⟩ := Text.exists_of_append_newline (by simp) e
    exact behind ha split
  · cases a with
    | nil =>
      cases e
      exact ⟨rfl, .inr (.inl (line (by simp; rfl)))⟩
    | cons x a =>
      simp only [List.cons_append, List.cons.injEq] at e
      obtain ⟨rfl, inner⟩ := e
      obtain ⟨a', rfl, split⟩ := Text.exists_of_append_newline noNewline inner
      exact behind rfl split
  · cases a with
    | nil =>
      cases e
      exact ⟨rfl, .inr (.inr ⟨_, rfl, line (by simp; rfl)⟩)⟩
    | cons x a =>
      simp only [List.cons_append, List.cons.injEq] at e
      obtain ⟨rfl, inner⟩ := e
      cases a with
      | nil =>
        cases inner
        exact ⟨rfl, .inr (.inl (line (by simp; rfl)))⟩
      | cons y a =>
        simp only [List.cons_append, List.cons.injEq] at inner
        obtain ⟨rfl, inner⟩ := inner
        obtain ⟨a', rfl, split⟩ := Text.exists_of_append_newline noNewline inner
        exact behind rfl split

end Lined

namespace Print

open Word (Neat)

/-- The margin of a line is written before its first character. -/
theorem exists_of_margin {margin : Int} {w : Word} (neat : w.Neat) {ps : List Print} {s : List Char}
    (h : Written margin (cellsAll (.word w :: ps)) s) :
    ∃ rest, s = spaces margin ++ rest ∧ Written 0 (cellsAll (.word w :: ps)) rest := by
  obtain ⟨c, u, text, _⟩ := neat.exists_cons
  rw [cellsAll_cons, cells, text] at h ⊢
  cases h with
  | @char _ _ _ s h =>
    have own : Written 0 (.char c :: (u.map .char ++ cellsAll ps)) (spaces 0 ++ c :: s) := .char h
    exact ⟨c :: s, rfl, own⟩

theorem exists_of_gap {depth : Nat} {g : Gap} (indents : g.Indents depth) {w : Word} (neat : w.Neat)
    {ps : List Print} {s : List Char} (h : Written 0 (cellsAll (.gap g :: .word w :: ps)) s) :
    ∃ b rest, s = b ++ rest ∧ Gap.Text depth b ∧ Written 0 (cellsAll (.word w :: ps)) rest := by
  have margin (indent : Int) (hi : indent = 2 * depth) :
      spaces indent = List.replicate (2 * depth) ' ' := by
    rw [hi, spaces]
    congr 1
  rw [cellsAll_cons, cells] at h
  cases g with
  | space =>
    cases h with
    | char h => exact ⟨[' '], _, rfl, .inl rfl, h⟩
  | soft indent =>
    cases h with
    | space h => exact ⟨[' '], _, rfl, .inl rfl, h⟩
    | newline h =>
      obtain ⟨rest, rfl, written⟩ := exists_of_margin neat h
      rw [margin indent indents]
      exact ⟨_, rest, rfl, .inr (.inl rfl), written⟩
  | line indent =>
    cases h with
    | hard h =>
      obtain ⟨rest, rfl, written⟩ := exists_of_margin neat h
      rw [margin indent indents]
      exact ⟨_, rest, rfl, .inr (.inl rfl), written⟩
  | blank indent =>
    cases h with
    | hard h =>
      cases h with
      | hard h =>
        obtain ⟨rest, rfl, written⟩ := exists_of_margin neat h
        rw [margin indent indents]
        exact ⟨_, rest, rfl, .inr (.inr rfl), written⟩

namespace Aligned

variable {depth : Nat} {ws : List Word} {ps : List Print} {s : List Char}

/-- A text of aligned words and gaps: its words in order, its lines, and a line feed at its end. -/
theorem lined (h : Aligned depth ws ps) (neat : ∀ w ∈ ws, w.Neat)
    (written : Written 0 (cellsAll ps) s) :
    Spaced ws s ∧ Lined depth ws s ∧ s.getLast? = some '\n' := by
  induction h generalizing s with
  | last =>
    cases written with
    | hard written =>
      cases written
      refine ⟨by simp [Spaced]; rfl, ?_, rfl⟩
      intro a r e
      cases a with
      | nil =>
        cases e
        exact ⟨rfl, .inl rfl⟩
      | cons x a => simp at e
  | @word depth w ws ps _ ih =>
    rw [cellsAll_cons, cells] at written
    obtain ⟨rest, rfl, behind⟩ := written.of_chars
    obtain ⟨spaced, lined, last⟩ := ih (fun v hv => neat v (List.mem_cons_of_mem _ hv)) behind
    refine ⟨⟨[], rest, rfl, by simp, spaced⟩, lined.word (neat w (List.mem_cons_self ..)), ?_⟩
    rw [List.getLast?_append, last]
    rfl
  | @gap depth g w ws ps indents aligned ih =>
    have own : w.Neat := by
      cases aligned with
      | word => exact neat w (List.mem_cons_self ..)
    obtain ⟨b, rest, rfl, text, behind⟩ := exists_of_gap indents own written
    obtain ⟨spaced, lined, last⟩ := ih neat behind
    rw [cellsAll_cons, cells] at behind
    obtain ⟨back, rfl, _⟩ := behind.of_chars
    obtain ⟨c, u, visible, hc⟩ := own.exists_cons
    refine ⟨spaced.blank_append text.blank, lined.gap spaced text (by rw [visible]; rfl) hc, ?_⟩
    rw [List.getLast?_append, last]
    rfl

end Aligned

end Print

/-- The shape of a text that is not empty, with its words in order. -/
structure Shaped (ws : List Word) (text : List Char) : Prop where
  starts : text.head?.any (!Text.isBlank ·)
  /-- One line feed stands at the end. -/
  ends : ∃ s c, text = s ++ [c, '\n'] ∧ c ≠ '\n'
  emptyLines : ¬['\n', '\n', '\n'] <:+: text
  /-- A line has no white space at its end. Unless it is empty, it starts with two spaces for each
  list that is open behind the words before it, and with no more. -/
  lines : ∀ front line back, text = front ++ line ++ '\n' :: back → front.getLast?.all (· = '\n') →
    '\n' ∉ line → line.getLast?.all (!Text.isBlank ·) ∧ (line ≠ [] → ∃ before after c rest,
      ws = before ++ after ∧ Spaced before front ∧ Spaced after (line ++ '\n' :: back) ∧
      line = List.replicate (2 * Word.depth before) ' ' ++ c :: rest ∧ c ≠ ' ')

namespace Lined

variable {ws : List Word} {text : List Char}

/-- Behind two line feeds comes a line that is not empty. -/
theorem not_newline (h : Lined 0 ws text) {front rest : List Char}
    (e : text = front ++ '\n' :: '\n' :: rest) : rest ≠ [] ∧ rest.head? ≠ some '\n' := by
  rcases (h front _ e).2 with none | line | ⟨r, same, line⟩
  · cases none
  · obtain ⟨d, _, same, other⟩ := line.exists_cons
    cases same
    exact absurd rfl other
  · cases same
    obtain ⟨d, _, rfl, other⟩ := line.exists_cons
    exact ⟨by simp, by simpa using other⟩

theorem shaped (h : Lined 0 ws text) (spaced : Spaced ws text) (last : text.getLast? = some '\n')
    {c : Char} {rest : List Char} (first : text = c :: rest) (visible : Text.isBlank c = false) :
    Shaped ws text := by
  constructor
  case starts => simp [first, visible]
  case ends =>
    obtain ⟨s, split⟩ := List.getLast?_eq_some_iff.mp last
    rcases List.eq_nil_or_concat' s with rfl | ⟨s, d, rfl⟩
    · cases first.symm.trans split
      cases visible
    · refine ⟨s, d, by simpa using split, ?_⟩
      rintro rfl
      have two : text = s ++ '\n' :: '\n' :: [] := by simpa using split
      exact (h.not_newline two).1 rfl
  case emptyLines =>
    rintro ⟨front, back, split⟩
    have three : text = front ++ '\n' :: '\n' :: '\n' :: back := by simp [← split]
    exact (h.not_newline three).2 rfl
  case lines =>
    intro front line back split newline oneLine
    constructor
    · cases hl : line.getLast? with
      | none => rfl
      | some d =>
        have ends := (h (front ++ line) back split).1
        have other : d ≠ '\n' := by
          rintro rfl
          exact oneLine (List.mem_of_getLast? hl)
        simpa [List.getLast?_append, hl, other] using ends
    · intro nonempty
      rcases List.eq_nil_or_concat' front with rfl | ⟨f, d, rfl⟩
      · cases line with
        | nil => exact absurd rfl nonempty
        | cons d line =>
          rw [List.nil_append] at split
          cases first.symm.trans split
          rw [first] at spaced
          exact ⟨[], ws, c, line, rfl, by simp [Spaced], spaced, rfl,
            Text.ne_of_visible visible rfl⟩
      · obtain rfl : d = '\n' := by simpa using newline
        rcases (h f (line ++ '\n' :: back) (by simpa using split)).2 with none | start
          | ⟨r, same, _⟩
        · simp at none
        · obtain ⟨before, after, c, rest, ws, front, back', margin, seen⟩ := start
          have noNewline : '\n' ∉ List.replicate (2 * before.foldl Word.nest 0) ' ' ++ [c] := by
            simpa using (Text.ne_of_visible seen rfl).symm
          obtain ⟨more, own, _⟩ := Text.exists_of_append_newline (s := rest) noNewline
            (by simpa using margin.symm)
          exact ⟨before, after, c, more, ws, front, back', by simpa [Word.depth] using own,
            Text.ne_of_visible seen rfl⟩
        · cases line with
          | nil => exact absurd rfl nonempty
          | cons d line =>
            cases same
            simp at oneLine

end Lined

theorem Node.exists_word_program {W : Word → Prop} {child : Node} (h : child.Spelled W false)
    (hb : child.isBlank = false) (rest : List Node) :
    ∃ w ps, printsAll 0 true none false (child :: rest) = .word w :: ps := by
  have none : Print.between 0 true none false child = [] := by
    cases child with
    | comment _ _ attachment _ => cases attachment <;> rfl
    | _ => rfl
  obtain ⟨w, ps, word⟩ := exists_word_prints h hb 0
  rw [printsAll, if_neg (by simp [hb]), none, word]
  exact ⟨w, _, rfl⟩

/-- The shape of formatted texts at every width, when no atom, string or comment goes over several
lines and no atom ends with white space: nothing for a program without nodes, and else lines
that are indented by the lists that are open, with at most one empty line between two others. -/
theorem format_shaped {file? : Option String} {source : List Char} {loc : Location}
    {nodes : List Node}
    (h : Node.parse file? source = .ok (.program loc nodes))
    (oneLine : ∀ node ∈ Node.subtreesAll nodes, node.onOneLine) (width : Int) :
    ∃ text, format file? width source = .ok text ∧ (text = [] ↔ nodes = []) ∧
      (nodes ≠ [] → Shaped (Node.wordsAll nodes) text) := by
  have spelled : Node.SpelledAll Word.Visible false nodes :=
    Node.spelled_of_parse h fun t ht eof closed hk => Token.visible_of_scan ht eof closed hk
  have neat := Node.neat_wordsAll nodes false spelled oneLine
  have tidy := Node.tidy_of_parse h
  obtain ⟨text, formatted, _, written⟩ := format_written h width
  rw [← Node.cellsAll_prints 0 tidy, Node.prints] at written
  refine ⟨text, formatted, ?_⟩
  cases nodes with
  | nil =>
    cases written
    exact ⟨by simp, fun other => absurd rfl other⟩
  | cons child rest =>
    have hb : child.isBlank = false :=
      Node.isBlank_of_tidyAll (by simpa [Node.tidy] using tidy) child rfl
    have aligned : Print.Aligned 0 (Node.wordsAll (child :: rest))
        (Node.printsAll 0 true none false (child :: rest)) := by
      have all : Print.Aligned 0 (Node.wordsAll (child :: rest) ++ [])
          (Node.printsAll (2 * (0 : Nat)) true none false (child :: rest) ++ []) := by
        apply Node.aligned_printsAll (child :: rest) true false none false spelled
        intro last? ends
        cases last? with
        | none => simp [hb] at ends
        | some last => exact .last
      simpa using all
    obtain ⟨spaced, lined, last⟩ := aligned.lined neat written
    obtain ⟨w, ps, word⟩ := Node.exists_word_program spelled.1 hb rest
    rw [word] at aligned written
    have own : w.Neat := by
      generalize Node.wordsAll (child :: rest) = ws at aligned neat
      cases aligned with
      | word => exact neat w (List.mem_cons_self ..)
    obtain ⟨c, s, visible, hc⟩ := own.exists_cons
    rw [Print.cellsAll_cons, Print.cells] at written
    obtain ⟨back, rfl, _⟩ := written.of_chars
    have first : w.text ++ back = c :: (s ++ back) := by rw [visible]; rfl
    exact ⟨by simp [first], fun _ => lined.shaped spaced last first hc⟩

theorem format_shaped_comment :
    ∃ loc nodes text, Node.parse none "(a (b ;c\n) 'd)\n\n\n#|e|# \"f\"".toList =
      .ok (.program loc nodes) ∧
      nodes ≠ [] ∧ format none 5 "(a (b ;c\n) 'd)\n\n\n#|e|# \"f\"".toList = .ok text ∧
      Shaped (Node.wordsAll nodes) text := by
  have checks : (Node.ofTokens
      (Token.scan none "(a (b ;c\n) 'd)\n\n\n#|e|# \"f\"".toList)).toOption.any
      (fun nodes => !nodes.isEmpty && (Node.subtreesAll nodes).all Node.onOneLine) := by cbv
  cases read : Node.ofTokens (Token.scan none "(a (b ;c\n) 'd)\n\n\n#|e|# \"f\"".toList) with
  | error e =>
    rw [read] at checks
    cases checks
  | ok nodes =>
    rw [read] at checks
    simp only [Except.toOption, Option.any_some, Bool.and_eq_true, Bool.not_eq_true',
      List.isEmpty_eq_false_iff, List.all_eq_true] at checks
    obtain ⟨loc, parsed⟩ := Node.parse_of_ok read
    obtain ⟨text, formatted, _, shaped⟩ := format_shaped parsed checks.2 5
    exact ⟨loc, nodes, text, parsed, checks.1, formatted, shaped checks.1⟩

end SexprFormat
