import SexprFormat.Proofs.Normal
import SexprFormat.Proofs.Offset
import SexprFormat.Proofs.Partition

/-!
The places of nodes. The tokens of a source stand one behind another in it (`Token.Tiles`), and the
place of a node runs from its first token to its last one. `Node.laid_of_parse` follows the forms of
a source and says what comes of that for all nodes of a tree; main statements:

* `located_of_parse`: the place of a node cuts its text out of the source;
* `ends_of_parse`: a list ends at the column of its last character, and so does a quote mark with a
  list behind it. With an atom or a string behind it, the mark ends at the column at which that
  starts.
-/

namespace SexprFormat

namespace Location

/-- The text at a place. -/
def slice (loc : Location) (s : List Char) : List Char :=
  Text.slice s loc.offset.toNat loc.endOffset.toNat

theorem orElse_of_ne {position : Int} (h : position ≠ 0) (fallback : Int) :
    orElse position fallback = position := if_neg h

/-- The place lies between two offsets of a text. Its line and its column are those of the first
offset, and its last line is that of the second. -/
structure Spans (loc : Location) (s : List Char) (first last : Nat) : Prop where
  offset : loc.offset = first
  endOffset : loc.endOffset = last
  nonempty : first < last
  bound : last ≤ s.length
  line : loc.line = Text.lineOf s first
  column : loc.column = Text.columnOf s first
  endLine : loc.endLine? = some (Text.lineOf s last : Int)

/-- The last line and the last column are those of the last character. -/
def EndsAtLast (loc : Location) (s : List Char) : Prop :=
  loc.endLine? = some (Text.lineOf s (loc.endOffset.toNat - 1) : Int) ∧
    loc.endColumn? = some (Text.columnOf s (loc.endOffset.toNat - 1) : Int)

theorem Spans.slice {loc : Location} {s : List Char} {first last : Nat}
    (h : loc.Spans s first last) :
    loc.slice s = Text.slice s first last := by
  rw [Location.slice, h.offset, h.endOffset, Int.toNat_natCast, Int.toNat_natCast]

theorem Spans.endsAtLast_iff {loc : Location} {s : List Char} {first last : Nat}
    (h : loc.Spans s first last) :
    loc.EndsAtLast s ↔
      s[last - 1]? ≠ some '\n' ∧ loc.endColumn? = some (Text.columnOf s (last - 1) : Int) := by
  have behind := h.nonempty
  rw [EndsAtLast, h.endOffset, Int.toNat_natCast, h.endLine, Option.some.injEq, Int.natCast_inj,
    Text.lineOf_eq_iff (by omega) h.bound]

/-- Neither the end nor the last line of a place in a text is zero, so that no fallback applies. -/
theorem Spans.spanTo {first last : Location} {s : List Char} {a b c d : Nat} (h : first.Spans s a b)
    (h' : last.Spans s c d) (hac : a ≤ c) : (first.spanTo last).Spans s a d where
  offset := h.offset
  endOffset := by
    have behind := h'.nonempty
    change orElse last.endOffset last.offset = _
    rw [h'.endOffset, orElse_of_ne (by omega)]
  nonempty := Nat.lt_of_le_of_lt hac h'.nonempty
  bound := h'.bound
  line := h.line
  column := h.column
  endLine := by
    have counted := Text.lineOf_pos s d
    change some (orElse (last.endLine?.getD 0) last.line) = _
    rw [h'.endLine, Option.getD_some, orElse_of_ne (by omega)]

end Location

namespace Token

/-- The token is the text between two offsets, as it was read there. -/
structure Sits (t : Token) (s : List Char) (first last : Nat) : Prop where
  spans : t.loc.Spans s first last
  text : t.text = Text.slice s first last
  noColumn : t.loc.endColumn? = none
  scanned : t.Scanned

/-- The tokens stand one behind another between two offsets. -/
def Tiles (s : List Char) : Nat → List Token → Nat → Prop
  | first, [], last => first = last
  | first, t :: ts, last => ∃ next, t.Sits s first next ∧ Tiles s next ts last

variable {s : List Char}

theorem Sits.slice {t : Token} {first last : Nat} (h : t.Sits s first last) :
    t.loc.slice s = t.text := by
  rw [h.spans.slice, h.text]

theorem Sits.length_text {t : Token} {first last : Nat} (h : t.Sits s first last) :
    t.text.length = last - first := by
  rw [h.text, Text.length_slice h.spans.bound]

theorem tiles_append {a c : Nat} {ts us : List Token} :
    Tiles s a (ts ++ us) c ↔ ∃ b, Tiles s a ts b ∧ Tiles s b us c := by
  induction ts generalizing a with
  | nil => simp [Tiles]
  | cons t ts ih =>
    constructor
    · rintro ⟨next, sits, rest⟩
      obtain ⟨b, left, right⟩ := ih.mp rest
      exact ⟨b, ⟨next, sits, left⟩, right⟩
    · rintro ⟨b, ⟨next, sits, left⟩, right⟩
      exact ⟨next, sits, ih.mpr ⟨b, left, right⟩⟩

theorem tiles_singleton {t : Token} {first last : Nat} :
    Tiles s first [t] last ↔ t.Sits s first last := by
  simp [Tiles]

theorem Tiles.le {first last : Nat} {ts : List Token} (h : Tiles s first ts last) :
    first ≤ last := by
  induction ts generalizing first with
  | nil => exact Nat.le_of_eq h
  | cons t ts ih =>
    obtain ⟨next, sits, rest⟩ := h
    exact Nat.le_trans (Nat.le_of_lt sits.spans.nonempty) (ih rest)

theorem Tiles.sits {first last : Nat} {ts : List Token} (h : Tiles s first ts last) {t : Token}
    (ht : t ∈ ts) : ∃ i j, t.Sits s i j ∧ first ≤ i ∧ j ≤ last := by
  obtain ⟨before, after, rfl⟩ := List.append_of_mem ht
  obtain ⟨i, left, j, sits, right⟩ := tiles_append.mp h
  exact ⟨i, j, sits, left.le, right.le⟩

theorem sits_of_scan {file? : Option String} {source : List Char}
    {before after : List Token} {t : Token}
    (h : scan file? source = before ++ t :: after) (more : after ≠ []) :
    t.Sits (Text.joinLineEnds source) (before.flatMap (·.text)).length
      ((before.flatMap (·.text)).length + t.text.length) := by
  have placed := placed_of_scan h
  have loc := loc_of_scanFrom h
  have read := readAt_of_scanFrom h more
  have positive := List.length_pos_iff.mpr read.text_ne_nil
  refine ⟨⟨placed.offset, placed.endOffset, by omega, placed.bound, ?_, ?_, ?_⟩, placed.text,
    ?_, _, _, read⟩
  · rw [placed.line]
    simp [Text.lineOf]
  · rw [placed.column]
    simp [Text.columnOf]
  · have ends : t.loc.endLine? = some t.endLine := by
      rw [Token.endLine, loc]
      rfl
    have text : Text.slice (Text.joinLineEnds source) _ _ = t.text := placed.text.symm
    rw [ends, placed.endLine, placed.line, Text.lineOf_eq _ (Nat.le_add_right _ t.text.length),
      text]
    simp [Text.lineOf]
  · rw [loc]
    rfl

/-- The tokens of a source stand one behind another in it, from its start to its end. -/
theorem tiles_of_scan {file? : Option String} {source : List Char} (before : List Token)
    {ts : List Token}
    {eof : Token} (h : scan file? source = before ++ (ts ++ [eof])) (empty : eof.text = []) :
    Tiles (Text.joinLineEnds source) (before.flatMap (·.text)).length ts
      (Text.joinLineEnds source).length := by
  induction ts generalizing before with
  | nil =>
    rw [Tiles, ← flatMap_text_scanFrom file? {} (Text.joinLineEnds source), ← scan, h]
    simp [empty]
  | cons t ts ih =>
    refine ⟨_, sits_of_scan h (by simp), ?_⟩
    have rest : scan file? source = (before ++ [t]) ++ (ts ++ [eof]) := by rw [h]; simp
    simpa using ih (before ++ [t]) rest

end Token

namespace Node

def isComment : Node → Bool
  | comment _ _ _ _ => true
  | _ => false

/-- The nodes that are no comments stand one behind another. A comment behind a quote mark is put
before the mark. -/
def InOrder (nodes : List Node) : Prop :=
  (nodes.filter (!·.isComment)).Pairwise fun a b => a.loc.endOffset ≤ b.loc.offset

/-- What the text at the place of a node is, and where in it the nodes right below it stand. -/
def Located (s : List Char) : Node → Prop
  | atom loc text | string loc text | directive loc _ text => loc.slice s = text
  | comment loc text _ _ => Text.trimEnd (loc.slice s) = text
  | quoted loc _ lead inner =>
    lead <+: loc.slice s ∧ loc.offset + lead.length ≤ inner.loc.offset ∧
      inner.loc.endOffset = loc.endOffset
  | list loc shape children =>
    (∃ inside, loc.slice s = shape.opener :: (inside ++ [shape.closer])) ∧
      (∀ child ∈ children, loc.offset < child.loc.offset ∧ child.loc.endOffset < loc.endOffset) ∧
      InOrder children
  | blank _ => True
  | program _ _ | unknown _ _ => False

/-- The last column of a node: that of the closing bracket of a list. The place of a token has none,
and behind a quote mark the first column stands in for it. -/
def ColumnSet (s : List Char) : Node → Prop
  | list loc _ _ => loc.endColumn? = some (Text.columnOf s (loc.endOffset.toNat - 1) : Int)
  | quoted loc _ _ inner =>
    loc.endColumn? = some (Location.orElse (inner.loc.endColumn?.getD 0) inner.loc.column)
  | node => node.loc.endColumn? = none

structure Sited (s : List Char) (node : Node) : Prop where
  spans : ∃ first last, node.loc.Spans s first last
  located : node.Located s
  column : node.ColumnSet s

/-- The node takes the text between two offsets, and it and the nodes below it have their places. -/
structure Stands (s : List Char) (node : Node) (first last : Nat) : Prop where
  spans : node.loc.Spans s first last
  sited : ∀ child ∈ node.subtrees, child.Sited s

/-- The nodes stand between two offsets, in order. -/
structure Laid (s : List Char) (first last : Nat) (nodes : List Node) : Prop where
  stands : ∀ node ∈ nodes, ∃ i j, node.Stands s i j ∧ first ≤ i ∧ j ≤ last
  order : InOrder nodes

variable {s : List Char}

theorem Stands.laid {node : Node} {first last i j : Nat} (h : node.Stands s i j) (hi : first ≤ i)
    (hj : j ≤ last) : Laid s first last [node] := by
  refine ⟨?_, ?_⟩
  · intro child hc
    obtain rfl := List.mem_singleton.mp hc
    exact ⟨i, j, h, hi, hj⟩
  · cases hc : node.isComment <;> simp [InOrder, hc]

namespace Laid

variable {nodes more : List Node} {a b c : Nat}

theorem sited (h : Laid s a b nodes) : ∀ node ∈ subtreesAll nodes, node.Sited s := by
  intro node hn
  obtain ⟨child, hc, hn⟩ := mem_subtreesAll.mp hn
  obtain ⟨i, j, stands, _⟩ := h.stands child hc
  exact stands.sited node hn

theorem within (h : Laid s a b nodes) {node : Node} (hn : node ∈ nodes) :
    (a : Int) ≤ node.loc.offset ∧ node.loc.endOffset ≤ (b : Int) := by
  obtain ⟨i, j, stands, left, right⟩ := h.stands node hn
  rw [stands.spans.offset, stands.spans.endOffset]
  omega

theorem left_of_append (h : Laid s a b (nodes ++ more)) : Laid s a b nodes := by
  refine ⟨fun node hn => h.stands node (List.mem_append_left _ hn), ?_⟩
  have order := h.order
  rw [InOrder, List.filter_append] at order
  exact (List.pairwise_append.mp order).1

theorem widen {a' b' : Nat} (h : Laid s a b nodes) (ha : a' ≤ a) (hb : b ≤ b') :
    Laid s a' b' nodes := by
  refine ⟨?_, h.order⟩
  intro node hn
  obtain ⟨i, j, stands, left, right⟩ := h.stands node hn
  exact ⟨i, j, stands, Nat.le_trans ha left, Nat.le_trans right hb⟩

theorem append (h : Laid s a b nodes) (h' : Laid s b c more) (hab : a ≤ b) (hbc : b ≤ c) :
    Laid s a c (nodes ++ more) := by
  refine ⟨?_, ?_⟩
  · intro node hn
    rcases List.mem_append.mp hn with hn | hn
    · exact (h.widen (Nat.le_refl a) hbc).stands node hn
    · exact (h'.widen hab (Nat.le_refl c)).stands node hn
  · rw [InOrder, List.filter_append]
    refine List.pairwise_append.mpr ⟨h.order, h'.order, ?_⟩
    intro x hx y hy
    have left := h.within (List.mem_of_mem_filter hx)
    have right := h'.within (List.mem_of_mem_filter hy)
    omega

/-- Comments may stand anywhere. -/
theorem comments_append {comments : List Node} (h : Laid s a b nodes)
    (all : ∀ node ∈ comments, node.isComment)
    (stands : ∀ node ∈ comments, ∃ i j, node.Stands s i j ∧ a ≤ i ∧ j ≤ b) :
    Laid s a b (comments ++ nodes) := by
  refine ⟨?_, ?_⟩
  · intro node hn
    rcases List.mem_append.mp hn with hn | hn
    · exact stands node hn
    · exact h.stands node hn
  · have none : comments.filter (!·.isComment) = [] := by
      simpa [List.filter_eq_nil_iff] using all
    rw [InOrder, List.filter_append, none]
    exact h.order

end Laid

/-- The node of a single token. -/
theorem stands_of_sits {t : Token} {node : Node} {first last : Nat} (h : t.Sits s first last)
    (loc : node.loc = t.loc) (single : node.subtrees = [node]) (located : node.Located s)
    (column : node.ColumnSet s) : node.Stands s first last := by
  have spans : node.loc.Spans s first last := by
    rw [loc]
    exact h.spans
  refine ⟨spans, ?_⟩
  intro child hc
  rw [single, List.mem_singleton] at hc
  rw [hc]
  exact ⟨⟨first, last, spans⟩, located, column⟩

end Node

namespace Token.Sits

variable {s : List Char} {t : Token} {first last : Nat}

theorem stands_leaf (h : t.Sits s first last) : t.leafNode.Stands s first last := by
  unfold Token.leafNode
  split
  · exact Node.stands_of_sits h rfl rfl h.slice h.noColumn
  · exact Node.stands_of_sits h rfl rfl h.slice h.noColumn

theorem stands_comment (h : t.Sits s first last) (attachment : Attachment) (block : Bool) :
    (Node.comment t.loc (Text.trimEnd t.text) attachment block).Stands s first last :=
  Node.stands_of_sits h rfl rfl (by rw [Node.Located, h.slice]) h.noColumn

theorem stands_directive (h : t.Sits s first last) :
    (Node.directive t.loc t.tag? t.text).Stands s first last :=
  Node.stands_of_sits h rfl rfl h.slice h.noColumn

theorem stands_blank (h : t.Sits s first last) : (Node.blank t.loc).Stands s first last :=
  Node.stands_of_sits h rfl rfl trivial h.noColumn

end Token.Sits

namespace Form

open Token (Tiles)
open Node (Laid Stands)

variable {s : List Char}

/-- The marks of a lead take a datum from its place on to the left, one after another. -/
theorem stands_wrapped {lead : List Token} {datum : Node} {first mid last : Nat}
    (tiles : Tiles s first lead mid) (h : datum.Stands s mid last) :
    ∃ i, first ≤ i ∧ (wrapped lead datum).Stands s i last := by
  induction lead generalizing first with
  | nil => exact ⟨mid, Nat.le_of_eq tiles, h⟩
  | cons t lead ih =>
    obtain ⟨next, sits, rest⟩ := tiles
    obtain ⟨i, start, inner⟩ := ih rest
    have behind := sits.spans.nonempty
    -- Only marks take part in the node. Trivia between two of them lie inside of its text.
    by_cases mark : t.isMark
    · have same : wrapped (t :: lead) datum = Frame.wrap (wrapped lead datum) t := by
        simp [wrapped, mark]
      rw [same]
      have spans : (t.loc.spanTo (wrapped lead datum).loc).Spans s first last :=
        sits.spans.spanTo inner.spans (by omega)
      have before := inner.spans.nonempty
      refine ⟨first, Nat.le_refl _, spans, ?_⟩
      intro child hc
      rw [Frame.wrap, Node.subtrees, List.mem_cons] at hc
      rcases hc with rfl | hc
      · refine ⟨⟨first, last, spans⟩, ⟨?_, ?_, ?_⟩, rfl⟩
        · rw [spans.slice, sits.text,
            ← Text.slice_append s (Nat.le_of_lt behind) (by omega : next ≤ last)]
          exact List.prefix_append ..
        · rw [spans.offset, inner.spans.offset, sits.length_text]
          omega
        · rw [spans.endOffset, inner.spans.endOffset]
      · exact inner.sited child hc
    · have same : wrapped (t :: lead) datum = wrapped lead datum := by simp [wrapped, mark]
      exact ⟨i, by omega, by rw [same]; exact inner⟩

/-- The comments of a lead stand somewhere in it, and all of it before the datum. -/
theorem laid_datum {lead : List Token} {datum : Node} {first mid last : Nat}
    (tiles : Tiles s first lead mid) (h : datum.Stands s mid last) :
    Laid s first last (heldNodes lead ++ [wrapped lead datum]) := by
  obtain ⟨i, start, stands⟩ := stands_wrapped tiles h
  refine (stands.laid start (Nat.le_refl last)).comments_append ?_ ?_
  · intro node hn
    obtain ⟨_, _, _, _, rfl⟩ := comment_of_heldNodes hn
    rfl
  · intro node hn
    obtain ⟨t, ht, rfl⟩ := List.mem_map.mp hn
    obtain ⟨i, j, sits, left, right⟩ := tiles.sits (List.mem_of_mem_filter ht)
    exact ⟨i, j, sits.stands_comment _ _, left, Nat.le_trans right (Nat.le_of_lt h.spans.nonempty)⟩

theorem laid_trivia {t : Token} (ht : t.isTrivia) {first last : Nat} (h : t.Sits s first last)
    (l : Level) : Laid s first last (l.triviaNodes t) := by
  have alone {node : Node} (stands : node.Stands s first last) : Laid s first last [node] :=
    stands.laid (Nat.le_refl _) (Nat.le_refl _)
  cases l.triviaCase ht with
  | skipped nodes | dropped nodes =>
    rw [nodes]
    exact ⟨by simp, .nil⟩
  | blank nodes => exact nodes ▸ alone h.stands_blank
  | comment nodes => exact nodes ▸ alone (h.stands_comment _ _)
  | directive nodes => exact nodes ▸ alone h.stands_directive

/-- A list runs from its opening bracket to its closing one, and its children stand between the
two. -/
theorem stands_list {opener closer : Token} {shape : Delimiter} {children : List Node}
    {a b c d : Nat}
    (ho : opener.kind = .opening) (hs : opener.shape? = some shape) (hc : closer.kind = .closing)
    (hcs : closer.shape? = some shape) (first : opener.Sits s a b) (last : closer.Sits s c d)
    (hbc : b ≤ c) (inside : Laid s b c children) :
    (Node.list (opener.loc.spanTo closer.loc) shape children).Stands s a d := by
  have opening : opener.text = [shape.opener] := by
    obtain ⟨_, _, read⟩ := first.scanned
    have word := congrArg Word.text ((read.word_of_shape hs).1 ho)
    rwa [Token.word, if_neg (by simp [Token.isRemark, ho])] at word
  have closing : closer.text = [shape.closer] := by
    obtain ⟨_, _, read⟩ := last.scanned
    have word := congrArg Word.text ((read.word_of_shape hcs).2 hc)
    rwa [Token.word, if_neg (by simp [Token.isRemark, hc])] at word
  have before := first.spans.nonempty
  have behind := last.spans.nonempty
  have left := first.length_text
  have right := last.length_text
  rw [opening, List.length_singleton] at left
  rw [closing, List.length_singleton] at right
  have spans : (opener.loc.spanTo closer.loc).Spans s a d :=
    first.spans.spanTo last.spans (by omega)
  refine ⟨spans, ?_⟩
  intro child hchild
  rw [Node.subtrees, List.mem_cons] at hchild
  rcases hchild with rfl | hchild
  · refine ⟨⟨a, d, spans⟩, ⟨⟨Text.slice s b c, ?_⟩, ?_, inside.order⟩, ?_⟩
    · rw [spans.slice, ← Text.slice_append s (by omega : a ≤ c) (by omega : c ≤ d),
        ← Text.slice_append s (by omega : a ≤ b) hbc, ← first.text, ← last.text, opening, closing]
      simp
    · intro child hn
      have := inside.within hn
      rw [spans.offset, spans.endOffset]
      omega
    · rw [Node.ColumnSet, spans.endOffset, show (d : Int).toNat - 1 = c by omega,
        ← last.spans.column]
      change some (Location.orElse (closer.loc.endColumn?.getD 0) closer.loc.column) = _
      rw [last.noColumn]
      rfl
  · exact inside.sited child hchild

theorem laid_nodesAll {forms : List Form}
    (h : ∀ form ∈ forms, ∀ (l : Level) (first last : Nat), Tiles s first form.tokens last →
      Laid s first last (form.nodes l))
    (l : Level) {first last : Nat} (tiles : Tiles s first (tokensAll forms) last) :
    Laid s first last (nodesAll forms l) := by
  induction forms generalizing l first with
  | nil => exact ⟨by simp [nodesAll], .nil⟩
  | cons form forms ih =>
    obtain ⟨mid, left, right⟩ := Token.tiles_append.mp tiles
    have here := h form (List.mem_cons_self ..) l first mid left
    have rest := ih (fun f hf => h f (List.mem_cons_of_mem _ hf)) (form.read l) right
    exact here.append rest left.le right.le

/-- The nodes of a form stand where its tokens do, and those of a list between its brackets. -/
theorem Wf.laid {form : Form} (h : form.Wf) (l : Level) (first last : Nat)
    (tiles : Tiles s first form.tokens last) : Laid s first last (form.nodes l) := by
  induction h generalizing l first last with
  | trivia ht => exact laid_trivia ht (Token.tiles_singleton.mp tiles) l
  | leaf =>
    obtain ⟨mid, lead, datum⟩ := Token.tiles_append.mp tiles
    exact laid_datum lead (Token.tiles_singleton.mp datum).stands_leaf
  | @list lead opener closer body shape _ ho hs wf hc hcs ih =>
    obtain ⟨a, lead, b, opening, rest⟩ := Token.tiles_append.mp tiles
    obtain ⟨c, inner, closing⟩ := Token.tiles_append.mp rest
    obtain ⟨blanks, split, _⟩ := nodesAll_eq_trim wf opener.endLine false
    -- The children are the nodes of the body but for blank lines at its end.
    have children := laid_nodesAll ih { lastLine := opener.endLine, atHead := false } inner
    rw [split] at children
    have list := stands_list ho hs hc hcs opening (Token.tiles_singleton.mp closing) inner.le
      children.left_of_append
    rw [nodes, hs]
    exact laid_datum lead list

end Form

namespace Node

variable {file? : Option String} {source : List Char}

/-- All nodes of a tree stand in its source. -/
theorem laid_of_parse {tree : Node} (h : parse file? source = .ok tree) :
    ∃ loc nodes, tree = .program loc nodes ∧
      Laid (Text.joinLineEnds source) 0 (Text.joinLineEnds source).length nodes := by
  obtain ⟨loc, forms, eof, wf, scan, _, empty, rfl⟩ := parse_forms h
  have tiles := Token.tiles_of_scan [] scan empty
  obtain ⟨blanks, split, _⟩ := Form.nodesAll_eq_trim wf 0 true
  have laid := Form.laid_nodesAll (fun form hf => (wf form hf).laid) {} tiles
  rw [split] at laid
  exact ⟨loc, _, rfl, laid.left_of_append⟩

/-- The place of a node cuts the text of the node out of its source. Nodes stand inside of the nodes
around them, and one behind another. -/
theorem located_of_parse {tree : Node} (h : parse file? source = .ok tree) :
    ∃ loc nodes, tree = .program loc nodes ∧ InOrder nodes ∧
      ∀ node ∈ subtreesAll nodes, node.Located (Text.joinLineEnds source) ∧
        ∃ first last, node.loc.Spans (Text.joinLineEnds source) first last := by
  obtain ⟨loc, nodes, rfl, laid⟩ := laid_of_parse h
  refine ⟨loc, nodes, rfl, laid.order, ?_⟩
  intro node hn
  have sited := laid.sited node hn
  exact ⟨sited.located, sited.spans⟩

theorem located_of_parse_held :
    let source := "#;;c \n(\"x\ny\" a)\n".toList
    ∃ loc nodes, parse none source = .ok (.program loc nodes) ∧
      (subtreesAll nodes).map (·.loc.slice (Text.joinLineEnds source)) =
        [";c ".toList, "#;;c \n(\"x\ny\" a)".toList, "(\"x\ny\" a)".toList,
          "\"x\ny\"".toList, ['a']] ∧
      InOrder nodes ∧ ∀ node ∈ subtreesAll nodes, node.Located (Text.joinLineEnds source) ∧
        ∃ first last, node.loc.Spans (Text.joinLineEnds source) first last := by
  intro source
  let list : Node := .list
    { line := 2, column := 1, offset := 6, endOffset := 15, endLine? := some 3
      endColumn? := some 5 } .paren
    [.string { line := 2, column := 2, offset := 7, endOffset := 12, endLine? := some 3 }
        "\"x\ny\"".toList,
      .atom { line := 3, column := 4, offset := 13, endOffset := 14, endLine? := some 3 } ['a']]
  let nodes : List Node :=
    [.comment { line := 1, column := 3, offset := 2, endOffset := 5, endLine? := some 1 }
        [';', 'c'] .leading false,
      .quoted { line := 1, column := 1, endOffset := 15, endLine? := some 3, endColumn? := some 5 }
        (some (.mark .datumComment)) ['#', ';'] list]
  have read : ofTokens (Token.scan none "#;;c \n(\"x\ny\" a)\n".toList) = .ok nodes := by cbv
  obtain ⟨loc, parsed⟩ := parse_of_ok read
  obtain ⟨_, _, same, order, located⟩ := located_of_parse parsed
  obtain ⟨rfl, rfl⟩ := Node.program.inj same
  exact ⟨loc, nodes, parsed, by rfl, order, located⟩

/-- A quote mark with its datum, or a list. -/
def isCompound : Node → Bool
  | quoted _ _ _ _ | list _ _ _ => true
  | _ => false

variable {s : List Char}

/-- The column that a node passes on to a mark before it: its last one, or its first one if that was
never set. It goes through any number of marks unchanged. -/
theorem passed_column : ∀ node : Node, (∀ child ∈ node.subtrees, child.Sited s) →
    node.core.loc.endOffset = node.loc.endOffset ∧
      Location.orElse (node.loc.endColumn?.getD 0) node.loc.column =
        if node.core.isList then (Text.columnOf s (node.loc.endOffset.toNat - 1) : Int)
        else node.core.loc.column
  | quoted loc tag? lead inner, h => by
    have here := h _ (mem_subtrees_self _)
    obtain ⟨ends, column⟩ := passed_column inner fun child hc => h child (List.mem_cons_of_mem _ hc)
    have same : inner.loc.endOffset = loc.endOffset := here.located.2.2
    have stored : loc.endColumn? =
        some (Location.orElse (inner.loc.endColumn?.getD 0) inner.loc.column) :=
      here.column
    refine ⟨ends.trans same, ?_⟩
    change Location.orElse (loc.endColumn?.getD 0) loc.column =
      if inner.core.isList then (Text.columnOf s (loc.endOffset.toNat - 1) : Int)
        else inner.core.loc.column
    rw [stored, Option.getD_some, column, same, Location.orElse_of_ne]
    -- Columns count from one, so the one that was passed on is not taken for one that was never
    -- set.
    obtain ⟨first, last, spans⟩ := (h _ (core_mem_subtrees (quoted loc tag? lead inner))).spans
    have start : inner.core.loc.column = Text.columnOf s first := spans.column
    have counted := Text.columnOf_pos s
    split
    · have := counted (loc.endOffset.toNat - 1)
      omega
    · have := counted first
      omega
  | list loc shape children, h => by
    have stored : loc.endColumn? = _ := (h _ (mem_subtrees_self _)).column
    have counted := Text.columnOf_pos s (loc.endOffset.toNat - 1)
    refine ⟨rfl, ?_⟩
    change Location.orElse (loc.endColumn?.getD 0) loc.column = _
    rw [stored, Option.getD_some, Location.orElse_of_ne (by omega)]
    rfl
  | atom loc _, h | string loc _, h | comment loc .., h | directive loc .., h | blank loc, h
  | program loc _, h => by
    have stored : loc.endColumn? = none := (h _ (mem_subtrees_self _)).column
    refine ⟨rfl, ?_⟩
    change Location.orElse (loc.endColumn?.getD 0) loc.column = loc.column
    rw [stored]
    rfl
  | unknown .., h => (h _ (mem_subtrees_self _)).located.elim

/-- The last column of a node is the one that its innermost part passes on. -/
theorem endColumn_of_isCompound {node : Node} (sited : ∀ child ∈ node.subtrees, child.Sited s)
    (compound : node.isCompound) :
    node.loc.endColumn? =
      some (if node.core.isList then (Text.columnOf s (node.loc.endOffset.toNat - 1) : Int)
        else node.core.loc.column) := by
  have here := sited node (mem_subtrees_self node)
  cases node with
  | list => exact here.column
  | quoted loc tag? lead inner =>
    obtain ⟨_, column⟩ := passed_column inner fun child hc =>
      sited child (List.mem_cons_of_mem _ hc)
    have same : inner.loc.endOffset = loc.endOffset := here.located.2.2
    rw [same] at column
    exact here.column.trans (congrArg some column)
  | atom | string | comment | directive | program | blank | unknown => cases compound

/-- A list ends with its bracket, also behind marks, and not with a line feed. -/
theorem last_of_isList {node : Node} (sited : ∀ child ∈ node.subtrees, child.Sited s)
    (isList : node.core.isList) : s[node.loc.endOffset.toNat - 1]? ≠ some '\n' := by
  have core := sited _ (core_mem_subtrees node)
  rw [← (passed_column node sited).1]
  obtain ⟨first, last, spans⟩ := core.spans
  cases hc : node.core with
  | list loc shape children =>
    rw [hc] at core spans
    obtain ⟨⟨inside, text⟩, _⟩ := core.located
    have cut : Text.slice s first last = shape.opener :: inside ++ [shape.closer] := by
      rw [← spans.slice]
      exact text
    rw [spans.endOffset, Int.toNat_natCast,
      Text.getElem_of_slice cut (Nat.le_of_lt spans.nonempty) spans.bound]
    cases shape <;> decide
  | atom | string | comment | directive | quoted | program | blank | unknown =>
    rw [hc] at isList
    cases isList

/-- The end of a list is the place of its last character, also behind marks. A mark before an atom
or a string ends at the column at which that starts, so its end is the place of the last character
only if that one stands in the same column and is no line feed. -/
theorem ends_of_parse {tree : Node} (h : parse file? source = .ok tree) :
    ∃ loc nodes, tree = .program loc nodes ∧ ∀ node ∈ subtreesAll nodes, node.isCompound →
      let s := Text.joinLineEnds source
      let last := node.loc.endOffset.toNat - 1
      node.loc.endLine? = some (Text.lineOf s node.loc.endOffset.toNat : Int) ∧
      node.loc.endColumn? =
        some (if node.core.isList then (Text.columnOf s last : Int) else node.core.loc.column) ∧
      (node.loc.EndsAtLast s ↔
        node.core.isList ∨
        (s[last]? ≠ some '\n' ∧ node.core.loc.column = Text.columnOf s last)) := by
  obtain ⟨loc, nodes, rfl, laid⟩ := laid_of_parse h
  refine ⟨loc, nodes, rfl, ?_⟩
  intro node hn compound
  have sited := fun child hc => laid.sited child (subtreesAll_subset nodes hn hc)
  obtain ⟨first, last, spans⟩ := (sited node (mem_subtrees_self node)).spans
  have column := endColumn_of_isCompound sited compound
  have feed := last_of_isList sited
  simp only [spans.endOffset, Int.toNat_natCast] at column feed ⊢
  refine ⟨spans.endLine, column, ?_⟩
  rw [spans.endsAtLast_iff, column, Option.some.injEq]
  by_cases isList : node.core.isList
  · simp [isList, feed isList]
  · simp [isList]

theorem ends_of_parse_nested :
    let source := "'(\n,ab)\n".toList
    ∃ loc outer inner, parse none source = .ok (.program loc [outer]) ∧ inner ∈ outer.subtrees ∧
      outer.loc.slice (Text.joinLineEnds source) = "'(\n,ab)".toList ∧
      inner.loc.slice (Text.joinLineEnds source) = ",ab".toList ∧
      outer.loc.EndsAtLast (Text.joinLineEnds source) ∧
      inner.loc.endColumn? = some 2 ∧ ¬inner.loc.EndsAtLast (Text.joinLineEnds source) := by
  intro source
  let inner : Node :=
    .quoted
      { line := 2, column := 1, offset := 3, endOffset := 6, endLine? := some 2
        endColumn? := some 2 }
      (some (.mark .unquote)) [',']
      (.atom { line := 2, column := 2, offset := 4, endOffset := 6, endLine? := some 2 } ['a', 'b'])
  let outer : Node :=
    .quoted { line := 1, column := 1, endOffset := 7, endLine? := some 2, endColumn? := some 4 }
      (some (.mark .quote)) ['\'']
      (.list
        { line := 1, column := 2, offset := 1, endOffset := 7, endLine? := some 2
          endColumn? := some 4 }
        .paren [inner])
  have read : ofTokens (Token.scan none "'(\n,ab)\n".toList) = .ok [outer] := by cbv
  obtain ⟨loc, parsed⟩ := parse_of_ok read
  obtain ⟨_, _, same, ends⟩ := ends_of_parse parsed
  obtain ⟨rfl, rfl⟩ := Node.program.inj same
  have within : inner ∈ outer.subtrees := by
    simp [outer, subtrees, subtreesAll, mem_subtrees_self]
  have below : inner ∈ subtreesAll [outer] := List.mem_append_left _ within
  have here : outer ∈ subtreesAll [outer] := List.mem_append_left _ (mem_subtrees_self outer)
  obtain ⟨_, column, early⟩ := ends inner below rfl
  obtain ⟨_, _, right⟩ := ends outer here rfl
  refine ⟨loc, outer, inner, parsed, within, by rfl, by rfl, right.mpr (.inl rfl), column, ?_⟩
  rw [early]
  rintro (isList | ⟨_, same⟩)
  · cases isList
  · exact absurd same (by decide)

/-- A mark before an atom of two characters ends at the first of them. -/
theorem not_endsAtLast_of_atom :
    let source := "'ab\n".toList
    ∃ loc node, parse none source = .ok (.program loc [node]) ∧ node.isCompound ∧
      node.loc.slice (Text.joinLineEnds source) = "'ab".toList ∧ node.loc.endColumn? = some 2 ∧
      Text.columnOf (Text.joinLineEnds source) (node.loc.endOffset.toNat - 1) = 3 ∧
      ¬node.loc.EndsAtLast (Text.joinLineEnds source) := by
  intro source
  let node : Node :=
    .quoted { line := 1, column := 1, endOffset := 3, endLine? := some 1, endColumn? := some 2 }
      (some (.mark .quote)) ['\'']
      (.atom { line := 1, column := 2, offset := 1, endOffset := 3, endLine? := some 1 } ['a', 'b'])
  have read : ofTokens (Token.scan none "'ab\n".toList) = .ok [node] := by cbv
  obtain ⟨loc, parsed⟩ := parse_of_ok read
  refine ⟨loc, node, parsed, rfl, by rfl, rfl, by rfl, ?_⟩
  rintro ⟨_, column⟩
  exact absurd column (by decide)

end Node

end SexprFormat
