import SexprFormat.Proofs.Legible

/-!
The trees of source texts. The tokens of a source are read at their cursors (`Token.Scans`), and the
forms they make up keep track of lines. So blank lines, comments and directives stand where a tidy
tree has them: `Node.tidy_of_parse`.
-/

namespace SexprFormat

namespace Token

/-- The tokens are read one after another from the cursor on, with the given text behind them. -/
def Scans (cur : Cursor) : List Token → List Char → Prop
  | [], _ => True
  | t :: ts, rest =>
    t.ReadAt cur (ts.flatMap (·.text) ++ rest) ∧ t.loc.line = cur.line ∧
      t.endLine = ((cur.nest t.kind).pass t.text).line ∧
      Scans ((cur.nest t.kind).pass t.text) ts rest

theorem scans_append {cur : Cursor} {a b : List Token} {rest : List Char} :
    Scans cur (a ++ b) rest ↔
      Scans cur a (b.flatMap (·.text) ++ rest) ∧ Scans (cur.passAll a) b rest := by
  induction a generalizing cur with
  | nil => simp [Scans, Cursor.passAll]
  | cons t a ih =>
    have all : cur.passAll (t :: a) = ((cur.nest t.kind).pass t.text).passAll a := rfl
    rw [List.cons_append, Scans, Scans, ih, all, List.flatMap_append, List.append_assoc]
    tauto

/-- The tokens of a text are read one after another. -/
theorem scans_of_scanFrom {file? : Option String} {cur : Cursor} {input : List Char}
    {ts : List Token} {eof : Token} (h : scanFrom file? cur input = ts ++ [eof]) :
    Scans cur ts [] := by
  obtain ⟨_, _, empty⟩ := takeWhile_scanFrom h
  clear * - h empty
  induction ts generalizing cur input with
  | nil => trivial
  | cons t ts ih =>
    obtain ⟨read, loc, rest⟩ := scanFrom_eq_cons h (by simp)
    refine ⟨?_, by rw [loc]; rfl, by rw [endLine, loc]; rfl, ih rest.symm⟩
    simpa [empty] using read

/-- White space goes as far as it can, and two new lines in it make an empty one. -/
theorem ReadAt.white {t : Token} {cur : Cursor} {rest : List Char} (h : t.ReadAt cur rest)
    (hk : t.kind = .whitespace ∨ t.kind = .blankLine) :
    ∃ c s, t.text = c :: s ∧ Text.isBlank c ∧ (s ++ rest).takeWhile Text.isBlank = s ∧
      t.kind = if 2 ≤ t.text.count '\n' then .blankLine else .whitespace := by
  obtain ⟨c, s, input, lexeme, text, hin, rule, kind, _, more, _⟩ := h.rule
  rw [← kind] at hk
  cases rule with
  | blank hc =>
    have tail : input.takeWhile Text.isBlank = s := by
      have own : input.takeWhile Text.isBlank <+: input := List.takeWhile_prefix _
      have size : (input.takeWhile Text.isBlank).length = s.length := more
      rw [List.prefix_iff_eq_take.mp own, size, hin, List.take_left]
    refine ⟨c, s, text, hc, hin ▸ tail, ?_⟩
    simp only [← kind, text, Lexeme.blank, tail]
  | hashRun => rcases Lexeme.kind_hashRun input with e | e <;> simp [e] at hk
  | _ => rcases hk with e | e <;> cases e

theorem ReadAt.two_le_count {t : Token} {cur : Cursor} {rest : List Char} (h : t.ReadAt cur rest)
    (hk : t.kind = .blankLine) : 2 ≤ t.text.count '\n' := by
  obtain ⟨c, s, _, _, _, kind⟩ := h.white (.inr hk)
  by_contra few
  rw [if_neg few, hk] at kind
  cases kind

end Token

namespace Node

/-- Like a tidy list of nodes, but a blank line may stand at the end. -/
def inOrder (inProgram : Bool) (previous? : Option Node) : List Node → Bool
  | [] => true
  | child :: rest =>
    follows inProgram previous? child && tidy child && inOrder inProgram (some child) rest

theorem inOrder_append (inProgram : Bool) (previous? : Option Node) (a b : List Node) :
    inOrder inProgram previous? (a ++ b) =
      (inOrder inProgram previous? a && inOrder inProgram (a.getLast?.or previous?) b) := by
  induction a generalizing previous? with
  | nil => rfl
  | cons child a ih =>
    rw [List.cons_append, inOrder, inOrder, ih, getLast?_cons_or, ← Bool.and_assoc]

theorem tidyAll_eq_inOrder (inProgram : Bool) (previous? : Option Node) (nodes : List Node) :
    tidyAll inProgram previous? nodes =
      (inOrder inProgram previous? nodes && (nodes.getLast?.or previous?).all (!·.isBlank)) := by
  induction nodes generalizing previous? with
  | nil => rfl
  | cons child rest ih =>
    rw [tidyAll, inOrder, ih, getLast?_cons_or, ← Bool.and_assoc]

theorem isBlank_of_isDatum {node : Node} (h : node.isDatum) : node.isBlank = false := by
  cases node <;> simp_all [isDatum, isBlank]

end Node

namespace Frame

theorem nodes_eq_reverse {f g : Frame} {nodes : List Node} (h : g.children = f.children ++ nodes) :
    g.nodes = nodes.reverse ++ f.nodes := by
  rw [children, children, List.reverse_eq_iff] at h
  simpa using h

/-- Nodes in order are tidy once the blank lines at their end are gone. -/
theorem tidyAll_trim {f : Frame} {inProgram : Bool} (h : Node.inOrder inProgram none f.children) :
    Node.tidyAll inProgram none f.trim.children := by
  obtain ⟨blanks, split, _⟩ := f.children_eq_trim
  rw [split, Node.inOrder_append, Bool.and_eq_true] at h
  rw [Node.tidyAll_eq_inOrder, h.1, Bool.true_and, children, trim, List.getLast?_reverse,
    Option.or_none]
  cases hn : (f.nodes.dropWhile Node.isBlank).head? with
  | none => rfl
  | some last =>
    have := List.head?_dropWhile_not Node.isBlank f.nodes
    simpa [hn] using this

end Frame

/-- What is known of lines between two forms of a list or of a program. -/
structure Level.Lines (inProgram : Bool) (cur : Token.Cursor) (l : Level) : Prop where
  le : l.lastLine ≤ cur.line
  blank : l.frame.nodes.head?.any Node.isBlank → l.lastLine < cur.line
  start : inProgram → l.frame.nodes = [] → l.lastLine = 0
  head : inProgram = false → l.atHead = false

/-- Behind a token that is no white space. -/
theorem Level.Lines.of_last {inProgram : Bool} {cur : Token.Cursor} {l : Level} {node : Node}
    {nodes : List Node} (lastLine : l.lastLine = cur.line) (top : l.frame.nodes = node :: nodes)
    (nonblank : node.isBlank = false) (head : inProgram = false → l.atHead = false) :
    l.Lines inProgram cur := by
  refine ⟨by omega, fun h => ?_, fun _ h => ?_, head⟩
  · simp [top, nonblank] at h
  · simp [top] at h

theorem Level.Lines.mono {inProgram : Bool} {cur cur' : Token.Cursor} {l : Level}
    (h : l.Lines inProgram cur) (le : cur.line ≤ cur'.line) : l.Lines inProgram cur' := by
  refine ⟨?_, fun blank => ?_, h.start, h.head⟩
  · have := h.le
    omega
  · have := h.blank blank
    omega

namespace Form

open Token (Scans Cursor)

variable {inProgram : Bool} {cur : Cursor} {rest : List Char} {l : Level}

/-- A comment trails only what is on its line. -/
theorem follows_commentNode {t : Token} (lines : l.Lines inProgram cur)
    (ht : t.loc.line = cur.line) :
    Node.follows inProgram l.frame.nodes.head? (l.commentNode t) := by
  unfold Level.commentNode
  cases ha : l.attachment t with
  | leading => rfl
  | trailing =>
    obtain ⟨nonzero, same⟩ : l.lastLine ≠ 0 ∧ t.loc.line = l.lastLine := by
      unfold Level.attachment at ha
      split at ha
      · rename_i h
        simp only [Bool.and_eq_true, decide_eq_true_eq] at h
        exact ⟨h.1.2, h.2⟩
      · cases ha
    have noBlank : l.frame.nodes.head?.any Node.isBlank = false := by
      cases hb : l.frame.nodes.head?.any Node.isBlank with
      | false => rfl
      | true =>
        have := lines.blank hb
        omega
    have begun : inProgram → l.frame.nodes ≠ [] := fun top empty => nonzero (lines.start top empty)
    cases hn : l.frame.nodes with
    | nil => cases inProgram <;> simp_all [Node.follows]
    | cons last nodes => simp_all [Node.follows]

theorem line_passAll (cur : Cursor) (t : Token) :
    (cur.passAll [t]).line = cur.line + t.text.count '\n' := by
  change ((cur.nest t.kind).pass t.text).line = _
  rw [Cursor.line_pass, Cursor.line_nest]

theorem lines_trivia {t : Token} (ht : t.isTrivia) (clean : l.frame.Clean)
    (lines : l.Lines inProgram cur) (scans : Scans cur [t] rest) :
    Node.inOrder inProgram l.frame.nodes.head? (nodes (.trivia t) l) ∧
      (read (.trivia t) l).Lines inProgram (cur.passAll [t]) := by
  obtain ⟨readAt, starts, ends, _⟩ := scans
  have stack := Frame.nodes_eq_reverse (Wf.children_read (.trivia ht) clean)
  rw [nodes, read] at stack ⊢
  -- A comment or a directive comes on top, on the line of the cursor behind it.
  have remark {node : Node} (one : l.triviaNodes t = [node])
      (lastLine : (l.pass t).lastLine = t.endLine)
      (atHead : inProgram = false → (l.pass t).atHead = false)
      (follows : Node.follows inProgram l.frame.nodes.head? node) (tidy : node.tidy)
      (nonblank : node.isBlank = false) :
      Node.inOrder inProgram l.frame.nodes.head? (l.triviaNodes t) ∧
        (l.pass t).Lines inProgram (cur.passAll [t]) := by
    rw [one] at stack ⊢
    exact ⟨by simp [Node.inOrder, follows, tidy],
      .of_last (lastLine.trans ends) stack nonblank atHead⟩
  -- Behind a blank line the cursor is below the last line that something stands on.
  have empty (kind : t.kind = .blankLine) (begun : l.lastLine ≠ 0)
      (lastLine : (l.pass t).lastLine = l.lastLine) (atHead : (l.pass t).atHead = false) :
      (l.pass t).Lines inProgram (cur.passAll [t]) := by
    have feeds := readAt.two_le_count kind
    have below : l.lastLine < (cur.passAll [t]).line := by
      have := lines.le
      rw [line_passAll]
      omega
    refine ⟨by omega, fun _ => by omega, fun top empty => ?_, fun _ => atHead⟩
    rw [empty] at stack
    exact absurd (lines.start top (List.append_eq_nil_iff.mp stack.symm).2) begun
  cases l.triviaCase ht with
  | skipped none same =>
    rw [none, same]
    refine ⟨rfl, lines.mono ?_⟩
    rw [line_passAll]
    omega
  | dropped none kind begun lastLine atHead =>
    exact ⟨by rw [none]; rfl, empty kind begun lastLine atHead⟩
  | blank one kind begun lastLine atHead top nonblank =>
    refine ⟨?_, empty kind begun lastLine atHead⟩
    simp [one, top, nonblank, Node.inOrder, Node.follows, Node.tidy]
  | comment one _ lastLine atHead =>
    exact remark one lastLine (fun _ => atHead) (follows_commentNode lines starts) rfl rfl
  | directive one _ head lastLine =>
    have top : inProgram := by
      cases inProgram with
      | true => rfl
      | false => exact absurd (lines.head rfl) (by simp [head])
    subst top
    exact remark one lastLine (fun list => by cases list) rfl rfl rfl

theorem inOrder_heldNodes (lead : List Token) (previous? : Option Node) :
    Node.inOrder inProgram previous? (heldNodes lead) := by
  unfold heldNodes
  induction lead.filter Token.isRemark generalizing previous? with
  | nil => rfl
  | cons t ts ih => exact ih _

theorem isDatum_wrapped (lead : List Token) {datum : Node} (h : datum.isDatum) :
    (wrapped lead datum).isDatum := by
  unfold wrapped
  cases lead.filter Token.isMark with
  | nil => exact h
  | cons => rfl

theorem isDatum_leafNode (t : Token) : t.leafNode.isDatum := by
  unfold Token.leafNode
  split <;> rfl

theorem tidy_wrapped (lead : List Token) {datum : Node} (hd : datum.isDatum) (ht : datum.tidy) :
    (wrapped lead datum).isDatum ∧ (wrapped lead datum).tidy := by
  unfold wrapped
  induction lead.filter Token.isMark with
  | nil => exact ⟨hd, ht⟩
  | cons mark marks ih => exact ⟨rfl, by simpa [Frame.wrap, Node.tidy] using ih⟩

/-- A datum comes on top, with the comments that were held for it below. -/
theorem lines_datum {form : Form} {lead : List Token} {datum : Node} (wf : form.Wf)
    (clean : l.frame.Clean) (one : form.nodes l = heldNodes lead ++ [wrapped lead datum])
    (hd : datum.isDatum) (ht : datum.tidy) {cur' : Cursor}
    (lastLine : (form.read l).lastLine = cur'.line) (head : (form.read l).atHead = false) :
    Node.inOrder inProgram l.frame.nodes.head? (form.nodes l) ∧
      (form.read l).Lines inProgram cur' := by
  obtain ⟨isDatum, tidy⟩ := tidy_wrapped lead hd ht
  have stack := Frame.nodes_eq_reverse (wf.children_read clean)
  have top : (form.read l).frame.nodes =
      wrapped lead datum :: ((heldNodes lead).reverse ++ l.frame.nodes) := by
    rw [stack, one]
    simp
  refine ⟨?_, .of_last lastLine top ?_ fun _ => head⟩
  · have follows (previous? : Option Node) :
        Node.follows inProgram previous? (wrapped lead datum) := by
      cases hw : wrapped lead datum <;> simp_all [Node.isDatum, Node.follows]
    rw [one, Node.inOrder_append, inOrder_heldNodes]
    simp [Node.inOrder, follows, tidy]
  · cases hw : wrapped lead datum <;> simp_all [Node.isDatum, Node.isBlank]

/-- Forms that keep track of lines do so one after another. -/
theorem lines_readAll {forms : List Form} (wf : ∀ form ∈ forms, form.Wf)
    (h : ∀ form ∈ forms, ∀ (l : Level) (cur : Cursor) (rest : List Char), l.frame.Clean →
      l.Lines inProgram cur → Scans cur form.tokens rest →
      Node.inOrder inProgram l.frame.nodes.head? (form.nodes l) ∧
        (form.read l).Lines inProgram (cur.passAll form.tokens))
    (clean : l.frame.Clean) (lines : l.Lines inProgram cur)
    (scans : Scans cur (tokensAll forms) rest) :
    Node.inOrder inProgram l.frame.nodes.head? (nodesAll forms l) := by
  induction forms generalizing l cur with
  | nil => rfl
  | cons form forms ih =>
    have first := wf form (List.mem_cons_self ..)
    rw [tokensAll, Token.scans_append] at scans
    obtain ⟨order, lines'⟩ := h form (List.mem_cons_self ..) l cur _ clean lines scans.1
    have rest := ih (fun f hf => wf f (List.mem_cons_of_mem _ hf))
      (fun f hf => h f (List.mem_cons_of_mem _ hf)) (first.clean_read clean) lines' scans.2
    have stack := Frame.nodes_eq_reverse (first.children_read clean)
    rw [stack, List.head?_append, List.head?_reverse] at rest
    rw [nodesAll, Node.inOrder_append, order, rest]
    rfl

theorem Wf.lines {form : Form} (h : form.Wf) (l : Level) (cur : Cursor) (rest : List Char)
    (clean : l.frame.Clean) (lines : l.Lines inProgram cur) (scans : Scans cur form.tokens rest) :
    Node.inOrder inProgram l.frame.nodes.head? (form.nodes l) ∧
      (form.read l).Lines inProgram (cur.passAll form.tokens) := by
  induction h generalizing inProgram l cur rest with
  | trivia ht => exact lines_trivia ht clean lines scans
  | @leaf lead datum hlead ht =>
    rw [tokens, Token.scans_append] at scans
    obtain ⟨_, _, _, ends, _⟩ := scans
    have isDatum : datum.leafNode.isDatum ∧ datum.leafNode.tidy := by
      unfold Token.leafNode
      split <;> exact ⟨rfl, rfl⟩
    have level := Level.pass_leaf (lead.foldl Level.pass l) ht
    refine lines_datum (.leaf hlead ht) clean rfl isDatum.1 isDatum.2 ?_ (by rw [read, level])
    rw [read, level, tokens, Cursor.passAll_append]
    exact ends
  | @list lead opener closer body shape hlead ho hs hbody hc hcs ih =>
    rw [tokens, Token.scans_append] at scans
    obtain ⟨_, _, _, opens, inside⟩ := scans
    rw [Token.scans_append] at inside
    obtain ⟨bodyScans, _, _, closes, _⟩ := inside
    have start : Level.Lines false (((cur.passAll lead).nest opener.kind).pass opener.text)
        { lastLine := opener.endLine, atHead := false } :=
      ⟨by simp [opens], by simp, by simp, fun _ => rfl⟩
    have order := lines_readAll hbody
      (fun form hf l cur rest => ih form hf l cur rest) ⟨rfl, rfl⟩ start bodyScans
    have inside : Node.inOrder false none
        (readAll body { lastLine := opener.endLine, atHead := false }).frame.children := by
      rw [children_readAll hbody ⟨rfl, rfl⟩]
      exact order
    refine lines_datum (.list hlead ho hs hbody hc hcs) clean rfl rfl ?_ ?_ rfl
    · rw [Node.tidy]
      exact Frame.tidyAll_trim inside
    · rw [tokens, Cursor.passAll_append]
      change closer.endLine = ((_ : Cursor).passAll (tokensAll body ++ [closer])).line
      rw [Cursor.passAll_append]
      exact closes

end Form

/-- Blank lines, comments and directives stand in the tree of a source where they can. -/
theorem Node.tidy_of_parse {file? : Option String} {source : List Char} {tree : Node}
    (h : parse file? source = .ok tree) : tree.tidy := by
  obtain ⟨loc, forms, eof, wf, scan, _, _, rfl⟩ := parse_forms h
  have scans := Token.scans_of_scanFrom scan
  have start : Level.Lines true {} {} := ⟨by decide, by simp, fun _ _ => rfl, by simp⟩
  have order := Form.lines_readAll wf
    (fun form hf l cur rest => (wf form hf).lines l cur rest) ⟨rfl, rfl⟩ start scans
  rw [tidy]
  refine Frame.tidyAll_trim ?_
  rw [Form.children_readAll wf ⟨rfl, rfl⟩]
  exact order

end SexprFormat
