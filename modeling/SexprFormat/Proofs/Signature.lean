import Mathlib.Data.List.Forall2
import SexprFormat.Proofs.Grammar
import SexprFormat.Proofs.Partition

/-!
White space in a source says nothing but where a line is blank and which comments start on the line
of the token before them. `Token.signature` is what the tokens of a source tell besides; two sources
with the same signature are read in step (`Reading.foldlM_alike`) and refused for the same fault or
formatted alike: `format_of_signature`.
-/

namespace SexprFormat

namespace Token

/-- What a token tells besides its place. -/
structure Feature where
  kind : Kind
  tag? : Option Tag
  closed : Bool
  text : List Char
  /-- A comment or a directive on the line where the token before it ended. -/
  joins : Bool
  deriving DecidableEq, Repr

/-- The features of a token, given the line on which the last one before it ended. A blank line has
no text of its own, and a comment none of the white space at its end. -/
def feature (last? : Option Int) (t : Token) : Feature where
  kind := t.kind
  tag? := t.tag?
  closed := t.closed
  text := match t.kind with
    | .blankLine => []
    | .lineComment | .blockComment => Text.trimEnd t.text
    | _ => t.text
  joins := t.isRemark && last? = some t.loc.line

/-- The end mark, white space, and a blank line before all other tokens. -/
def isSilent (last? : Option Int) (t : Token) : Bool :=
  t.kind = .eof || t.kind = .whitespace || (t.kind = .blankLine && last? = none)

/-- The line on which the last token ended that is no white space. -/
def lastEnd (last? : Option Int) (t : Token) : Option Int :=
  if t.kind = .blankLine then last? else some t.endLine

def signatureFrom (last? : Option Int) : List Token → List Feature
  | [] => []
  | t :: ts =>
    if t.isSilent last? then signatureFrom last? ts
    else t.feature last? :: signatureFrom (t.lastEnd last?) ts

/-- The features of the tokens that are not silent. -/
def signature (ts : List Token) : List Feature :=
  signatureFrom none ts

theorem signatureFrom_eof {eof : Token} (h : eof.kind = .eof) (last? : Option Int)
    (ts : List Token) :
    signatureFrom last? (ts ++ [eof]) = signatureFrom last? ts := by
  induction ts generalizing last? with
  | nil => simp [signatureFrom, isSilent, h]
  | cons t ts ih => simp only [List.cons_append, signatureFrom, ih]

theorem kind_of_loud {last? : Option Int} {t : Token} (h : t.isSilent last? = false) :
    t.kind ≠ .eof := by
  intro isEof
  simp [isSilent, isEof] at h

/-- Before the first token of a signature stand silent ones. -/
theorem eq_cons_of_signatureFrom {last? : Option Int} {ts : List Token} {f : Feature}
    {fs : List Feature} (h : signatureFrom last? ts = f :: fs) :
    ∃ silent t rest, ts = silent ++ t :: rest ∧ (∀ u ∈ silent, u.isSilent last?) ∧
      t.isSilent last? = false ∧ t.feature last? = f ∧
      signatureFrom (t.lastEnd last?) rest = fs := by
  induction ts with
  | nil => cases h
  | cons t ts ih =>
    rw [signatureFrom] at h
    by_cases hs : t.isSilent last? = true
    · rw [if_pos hs] at h
      obtain ⟨silent, u, rest, rfl, all, loud, first, later⟩ := ih h
      exact ⟨t :: silent, u, rest, rfl, by simpa [hs] using all, loud, first, later⟩
    · rw [if_neg hs] at h
      obtain ⟨first, later⟩ := List.cons.inj h
      exact ⟨[], t, ts, rfl, by simp, by simpa using hs, first, later⟩

theorem silent_of_signatureFrom {last? : Option Int} {ts : List Token}
    (h : signatureFrom last? ts = []) : ∀ t ∈ ts, t.isSilent last? := by
  induction ts with
  | nil => simp
  | cons t ts ih =>
    rw [signatureFrom] at h
    by_cases hs : t.isSilent last? = true
    · rw [if_pos hs] at h
      simpa [hs] using ih h
    · rw [if_neg hs] at h
      cases h

end Token

namespace Node

mutual

/-- A node without places. -/
def unplaced : Node → Node
  | atom _ s => atom .nowhere s
  | string _ s => string .nowhere s
  | comment _ s attachment block => comment .nowhere s attachment block
  | directive _ tag? s => directive .nowhere tag? s
  | quoted _ tag? lead inner => quoted .nowhere tag? lead (unplaced inner)
  | list _ shape children => list .nowhere shape (unplacedAll children)
  | program _ children => program .nowhere (unplacedAll children)
  | blank _ => blank .nowhere
  | unknown _ kind => unknown none kind

def unplacedAll : List Node → List Node
  | [] => []
  | node :: nodes => unplaced node :: unplacedAll nodes

end

theorem unplacedAll_eq_map (nodes : List Node) : unplacedAll nodes = nodes.map unplaced := by
  induction nodes with
  | nil => rfl
  | cons node nodes ih => rw [unplacedAll, ih, List.map_cons]

@[simp] theorem isBlank_unplaced (node : Node) : node.unplaced.isBlank = node.isBlank := by
  cases node <;> simp [unplaced, isBlank]

@[simp] theorem endsLine_unplaced (node : Node) : node.unplaced.endsLine = node.endsLine := by
  cases node <;> simp [unplaced, endsLine]

theorem separator_unplaced (inProgram : Bool) (previous? : Option Node) (child : Node) :
    separator inProgram (previous?.map unplaced) child.unplaced =
      separator inProgram previous? child := by
  cases child with
  | comment _ _ attachment _ =>
    cases attachment <;> cases previous? <;> simp [unplaced, separator]
  | _ => cases previous? <;> simp [unplaced, separator]

mutual

/-- The layout of a node does not depend on places. -/
theorem document_unplaced : ∀ node : Node, node.unplaced.document = node.document
  | atom _ _ => rfl
  | string _ _ => rfl
  | comment _ _ _ _ => rfl
  | directive _ _ _ => rfl
  | blank _ => rfl
  | unknown _ _ => rfl
  | quoted _ _ _ inner => by
    rw [unplaced, document, document, document_unplaced inner]
  | list _ _ children => by
    have body := sequence_unplacedAll false none children
    rw [unplaced, document, document]
    exact congrArg (· >>= _) body
  | program _ children => by
    have body := sequence_unplacedAll true none children
    have last : (unplacedAll children).getLast?.map endsLine = children.getLast?.map endsLine := by
      rw [unplacedAll_eq_map, List.getLast?_map, Option.map_map]
      exact congrArg (fun f => children.getLast?.map f) (funext endsLine_unplaced)
    rw [unplaced, document, document, last]
    exact congrArg (· >>= _) body

theorem sequence_unplacedAll (inProgram : Bool) (previous? : Option Node) : ∀ nodes : List Node,
    sequence inProgram (previous?.map unplaced) (unplacedAll nodes) =
      sequence inProgram previous? nodes
  | [] => rfl
  | child :: rest => by
    have later := sequence_unplacedAll inProgram (some child) rest
    rw [Option.map_some] at later
    rw [unplacedAll, sequence, sequence, document_unplaced child, later, separator_unplaced]

end

end Node

/-! Frames that differ in places only. -/

/-- A quote mark without its place. -/
def Token.markPart (t : Token) : Option Tag × List Char :=
  (t.tag?, t.text)

namespace Frame

structure Alike (f g : Frame) : Prop where
  nodes : f.nodes.map Node.unplaced = g.nodes.map Node.unplaced
  marks : f.marks.map Token.markPart = g.marks.map Token.markPart
  held : f.held.map Node.unplaced = g.held.map Node.unplaced

variable {f g : Frame}

theorem alike_empty : Alike {} {} := ⟨rfl, rfl, rfl⟩

theorem Alike.marks_isEmpty (h : f.Alike g) : f.marks.isEmpty = g.marks.isEmpty := by
  simpa using congrArg List.isEmpty h.marks

theorem unplaced_foldl_wrap (marks : List Token) (node : Node) :
    (marks.foldl wrap node).unplaced =
      (marks.map Token.markPart).foldl (fun node mark => .quoted .nowhere mark.1 mark.2 node)
        node.unplaced := by
  induction marks generalizing node with
  | nil => rfl
  | cons mark marks ih => exact ih (wrap node mark)

theorem Alike.add (h : f.Alike g) {a b : Node} (same : a.unplaced = b.unplaced) :
    (f.add a).Alike (g.add b) := by
  refine ⟨?_, rfl, rfl⟩
  simp only [Frame.add, List.map_cons, List.map_append, unplaced_foldl_wrap, h.marks,
    h.nodes, h.held,
    same]

theorem Alike.addTrivia (h : f.Alike g) {a b : Node} (same : a.unplaced = b.unplaced) :
    (f.addTrivia a).Alike (g.addTrivia b) := by
  refine ⟨?_, h.marks, h.held⟩
  simp only [Frame.addTrivia, List.map_cons, h.nodes, same]

theorem Alike.addMark (h : f.Alike g) {t u : Token} (same : t.markPart = u.markPart) :
    (f.addMark t).Alike (g.addMark u) := by
  refine ⟨h.nodes, ?_, h.held⟩
  simp only [Frame.addMark, List.map_cons, h.marks, same]

theorem Alike.hold (h : f.Alike g) {a b : Node} (same : a.unplaced = b.unplaced) :
    (f.hold a).Alike (g.hold b) := by
  refine ⟨h.nodes, h.marks, ?_⟩
  simp only [Frame.hold, List.map_cons, h.held, same]

theorem Alike.addBlank (h : f.Alike g) (a b : Location) : (f.addBlank a).Alike (g.addBlank b) := by
  have nodes := h.nodes
  unfold Frame.addBlank
  cases hf : f.nodes with
  | nil =>
    rw [hf, List.map_nil, eq_comm, List.map_eq_nil_iff] at nodes
    rw [nodes]
    exact h
  | cons last before =>
    rw [hf, List.map_cons] at nodes
    cases hg : g.nodes with
    | nil => simp [hg] at nodes
    | cons last' before' =>
      rw [hg, List.map_cons] at nodes
      have blank : last.isBlank = last'.isBlank := by
        rw [← Node.isBlank_unplaced, (List.cons.inj nodes).1, Node.isBlank_unplaced]
      cases hb : last.isBlank with
      | true =>
        simp only [hb, ← blank, ↓reduceIte]
        exact h
      | false =>
        simp only [hb, ← blank, Bool.false_eq_true, ↓reduceIte]
        refine ⟨?_, h.marks, h.held⟩
        rw [List.map_cons, List.map_cons, List.map_cons, List.map_cons, nodes]
        rfl

theorem Alike.children_trim (h : f.Alike g) :
    f.trim.children.map Node.unplaced = g.trim.children.map Node.unplaced := by
  have dropped (nodes : List Node) : (nodes.dropWhile Node.isBlank).map Node.unplaced =
      (nodes.map Node.unplaced).dropWhile Node.isBlank := by
    rw [List.dropWhile_map]
    exact congrArg (fun p => (nodes.dropWhile p).map Node.unplaced)
      (funext fun node => (Node.isBlank_unplaced node).symm)
  simp only [Frame.trim, Frame.children, List.map_reverse, dropped, h.nodes]

end Frame

/-- Lists that were opened alike and hold the same but for places. -/
structure OpenList.Alike (a b : OpenList) : Prop where
  opener : a.opener.tag? = b.opener.tag?
  frame : a.frame.Alike b.frame

namespace Frames

structure Alike (fs gs : Frames) : Prop where
  lists : List.Forall₂ OpenList.Alike fs.lists gs.lists
  program : fs.program.Alike gs.program

variable {fs gs : Frames}

theorem Alike.current (h : fs.Alike gs) : fs.current.Alike gs.current := by
  obtain ⟨lists, program⟩ := fs
  obtain ⟨lists', program'⟩ := gs
  obtain ⟨lists, program⟩ := h
  cases lists with
  | nil => exact program
  | cons first _ => exact first.frame

theorem Alike.update (h : fs.Alike gs) {a b : Frame → Frame}
    (hab : ∀ f g, Frame.Alike f g → (a f).Alike (b g)) : (fs.update a).Alike (gs.update b) := by
  obtain ⟨lists, program⟩ := fs
  obtain ⟨lists', program'⟩ := gs
  obtain ⟨lists, program⟩ := h
  cases lists with
  | nil => exact ⟨.nil, hab _ _ program⟩
  | cons first outer => exact ⟨.cons ⟨first.opener, hab _ _ first.frame⟩ outer, program⟩

theorem Alike.push (h : fs.Alike gs) {t u : Token} (same : t.tag? = u.tag?) :
    (fs.push t).Alike (gs.push u) :=
  ⟨.cons ⟨same, Frame.alike_empty⟩ h.lists, h.program⟩

end Frames

/-- Two outcomes of reading: both are refused for the same fault, or both are related. -/
def Agree {α β : Type} (R : α → β → Prop) : Except ParseError α → Except ParseError β → Prop
  | .ok a, .ok b => R a b
  | .error e, .error e' => e.fault = e'.fault
  | .ok _, .error _ | .error _, .ok _ => False

theorem Agree.bind {α β γ δ : Type} {R : α → β → Prop} {S : γ → δ → Prop} {x : Except ParseError α}
    {y : Except ParseError β} {f : α → Except ParseError γ} {g : β → Except ParseError δ}
    (h : Agree R x y) (hfg : ∀ a b, R a b → Agree S (f a) (g b)) : Agree S (x >>= f) (y >>= g) := by
  cases x with
  | error e =>
    cases y with
    | error e' => exact h
    | ok b => exact h.elim
  | ok a =>
    cases y with
    | error e' => exact h.elim
    | ok b => exact hfg a b h

theorem Token.shape_of_tag {t u : Token} (h : t.tag? = u.tag?) : t.shape? = u.shape? := by
  unfold Token.shape?
  rw [h]

namespace Reading

/-- The last token that is no white space ended on the given line; there is none before the
first. -/
structure Ended (r : Reading) (last? : Option Int) : Prop where
  lastLine : r.lastLine = last?.getD 0
  nonzero : last? ≠ some 0

theorem Ended.eq_zero {r : Reading} {last? : Option Int} (h : r.Ended last?) :
    r.lastLine = 0 ↔ last? = none := by
  obtain ⟨line, nonzero⟩ := h
  cases last? with
  | none => simpa using line
  | some n =>
    rw [line]
    simpa using nonzero

/-- Silent tokens are ignored, and no others. -/
theorem Ended.ignores {r : Reading} {last? : Option Int} (h : r.Ended last?) {t : Token}
    (noEof : t.kind ≠ .eof) : r.ignores t = t.isSilent last? := by
  have zero : decide (r.lastLine = 0) = decide (last? = none) := decide_eq_decide.mpr h.eq_zero
  simp [Reading.ignores, Token.isSilent, noEof, zero]

/-- Where the last token ended after one more, white space apart. -/
theorem Ended.after {r : Reading} {last? : Option Int} (h : r.Ended last?) {t : Token}
    (line : t.endLine ≠ 0) (frames : Frames) (atHead : Bool) :
    Ended { frames, lastLine := if t.kind = .blankLine then r.lastLine else t.endLine, atHead }
      (t.lastEnd last?) := by
  unfold Token.lastEnd
  by_cases blank : t.kind = .blankLine
  · simp only [blank, ↓reduceIte]
    exact ⟨h.lastLine, h.nonzero⟩
  · simp only [blank, ↓reduceIte]
    exact ⟨rfl, by simpa using line⟩

/-- How a comment is attached is one of its features. -/
theorem Ended.attachment {r : Reading} {last? : Option Int} (h : r.Ended last?) {t : Token}
    (remark : t.isRemark) : r.attachment t =
      if r.frames.current.marks.isEmpty && (t.feature last?).joins then .trailing
      else .leading := by
  have joins : (decide (r.lastLine ≠ 0) && decide (t.loc.line = r.lastLine)) =
      (t.feature last?).joins := by
    obtain ⟨line, nonzero⟩ := h
    cases last? with
    | none => simp [Token.feature, line]
    | some n =>
      have nonzero : n ≠ 0 := by simpa using nonzero
      simp [Token.feature, remark, line, nonzero, eq_comm]
  unfold Reading.attachment
  rw [Bool.and_assoc, joins]

/-- Two readings that differ in places only. -/
structure Alike (r q : Reading) : Prop where
  frames : r.frames.Alike q.frames
  atHead : r.atHead = q.atHead

section Step

variable {r q : Reading} {last? last'? : Option Int} {t u : Token} (alike : r.Alike q)
  (ended : r.Ended last?) (ended' : q.Ended last'?) (same : t.feature last? = u.feature last'?)

include alike ended ended' same

theorem comment_alike (remark : t.isRemark) (text : Text.trimEnd t.text = Text.trimEnd u.text) :
    (r.comment t).Alike (q.comment u) := by
  have kind : t.kind = u.kind := congrArg Token.Feature.kind same
  have remark' : u.isRemark := by
    simpa [Token.isRemark, kind] using remark
  have attached : r.attachment t = q.attachment u := by
    rw [ended.attachment remark, ended'.attachment remark', same,
      alike.frames.current.marks_isEmpty]
  unfold Reading.comment
  rw [text, attached, kind]
  refine alike.frames.update fun f g h => ?_
  rw [h.marks_isEmpty]
  cases g.marks.isEmpty with
  | true => exact h.addTrivia rfl
  | false => exact h.hold rfl

omit ended ended' same in
theorem close_alike (tag : t.tag? = u.tag?) : Agree Frames.Alike (r.close t) (q.close u) := by
  obtain ⟨⟨lists, program⟩, lastLine, atHead⟩ := r
  obtain ⟨⟨lists', program'⟩, lastLine', atHead'⟩ := q
  obtain ⟨⟨lists, program⟩, _⟩ := alike
  unfold Reading.close Frames.pop
  cases lists with
  | nil => exact rfl
  | @cons a b outer outer' first others =>
    have around : Frames.Alike ⟨outer, _⟩ ⟨outer', _⟩ := ⟨others, program⟩
    have waits := first.frame.marks_isEmpty
    have opened := Token.shape_of_tag first.opener
    have closed := Token.shape_of_tag tag
    cases ha : a.frame.marks with
    | cons mark marks =>
      obtain ⟨mark', marks', hb⟩ : ∃ mark' marks', b.frame.marks = mark' :: marks' := by
        cases hb : b.frame.marks with
        | nil => simp [ha, hb] at waits
        | cons mark' marks' => exact ⟨mark', marks', rfl⟩
      simp only [ha, hb]
      exact rfl
    | nil =>
      have hb : b.frame.marks = [] := by
        rw [ha] at waits
        exact List.isEmpty_iff.mp waits.symm
      cases hs : a.opener.shape? with
      | none =>
        simp only [ha, hb, hs, ← opened]
        exact rfl
      | some shape =>
        by_cases fits : t.shape? = some shape
        · simp only [ha, hb, hs, ← opened, ← closed, fits, ↓reduceIte]
          refine around.update fun f g h => h.add ?_
          simp only [Node.unplaced, Node.unplacedAll_eq_map, first.frame.children_trim]
        · simp only [ha, hb, hs, ← opened, ← closed, fits, ↓reduceIte]
          exact rfl

theorem accept_alike : Agree Frames.Alike (r.accept t) (q.accept u) := by
  have kind : t.kind = u.kind := congrArg Token.Feature.kind same
  have tag : t.tag? = u.tag? := congrArg Token.Feature.tag? same
  have closed : t.closed = u.closed := congrArg Token.Feature.closed same
  have text : (t.feature last?).text = (u.feature last'?).text := congrArg Token.Feature.text same
  unfold Reading.accept
  rw [← kind, ← closed, ← alike.atHead]
  cases hk : t.kind with
  | opening => exact alike.frames.push tag
  | closing => exact close_alike alike tag
  | whitespace | eof => exact alike.frames
  | blankLine =>
    refine alike.frames.update fun f g h => ?_
    rw [h.marks_isEmpty]
    cases g.marks.isEmpty with
    | true => exact h.addBlank t.loc u.loc
    | false => exact h
  | atom | string =>
    have own : t.text = u.text := by simpa [Token.feature, ← kind, hk] using text
    cases t.closed with
    | false => exact rfl
    | true => exact alike.frames.update fun f g h => h.add (by rw [own]; rfl)
  | quoteMark =>
    have own : t.text = u.text := by simpa [Token.feature, ← kind, hk] using text
    exact alike.frames.update fun f g h => h.addMark (by rw [Token.markPart, own, tag]; rfl)
  | lineComment | blockComment =>
    have trimmed : Text.trimEnd t.text = Text.trimEnd u.text := by
      simpa [Token.feature, ← kind, hk] using text
    have remark : t.isRemark := by simp [Token.isRemark, hk]
    cases t.closed with
    | false => exact rfl
    | true => exact comment_alike alike ended ended' same remark trimmed
  | directive =>
    have own : t.text = u.text := by simpa [Token.feature, ← kind, hk] using text
    have remark : t.isRemark := by simp [Token.isRemark, hk]
    cases r.atHead with
    | true => exact alike.frames.update fun f g h => h.addTrivia (by rw [own, tag]; rfl)
    | false => exact comment_alike alike ended ended' same remark (by rw [own])

/-- Tokens with the same features keep two readings alike. -/
theorem step_alike (loud : t.isSilent last? = false) (loud' : u.isSilent last'? = false)
    (line : t.endLine ≠ 0) (line' : u.endLine ≠ 0) :
    Agree (fun r' q' => r'.Alike q' ∧ r'.Ended (t.lastEnd last?) ∧ q'.Ended (u.lastEnd last'?))
      (r.step t) (q.step u) := by
  have kind : t.kind = u.kind := congrArg Token.Feature.kind same
  have head : (r.atHead && t.kind = .directive) = (q.atHead && u.kind = .directive) := by
    rw [alike.atHead, kind]
  have accepted := accept_alike (r := { r with atHead := r.atHead && t.kind = .directive })
    (q := { q with atHead := q.atHead && u.kind = .directive }) ⟨alike.frames, head⟩
    ⟨ended.lastLine, ended.nonzero⟩ ⟨ended'.lastLine, ended'.nonzero⟩ same
  unfold Reading.step
  rw [ended.ignores (Token.kind_of_loud loud), ended'.ignores (Token.kind_of_loud loud'), loud,
    loud',
    if_neg Bool.false_ne_true, if_neg Bool.false_ne_true]
  refine accepted.bind fun fs gs h => ⟨⟨h, head⟩, ended.after line fs _, ended'.after line' gs _⟩

end Step

theorem foldlM_silent {r : Reading} {last? : Option Int} (ended : r.Ended last?)
    {silent : List Token}
    (all : ∀ t ∈ silent, t.isSilent last?) (noEof : ∀ t ∈ silent, t.kind ≠ .eof) :
    silent.foldlM step r = .ok r := by
  induction silent with
  | nil => rfl
  | cons t silent ih =>
    have ignored : r.step t = .ok r := by
      rw [Reading.step, ended.ignores (noEof t (List.mem_cons_self ..)),
        all t (List.mem_cons_self ..),
        if_pos rfl]
    rw [List.foldlM_cons, ignored]
    exact ih (fun u hu => all u (List.mem_cons_of_mem _ hu))
      fun u hu => noEof u (List.mem_cons_of_mem _ hu)

/-- Two lists of tokens with the same signature are read in step, each skipping its own silent
tokens. -/
theorem foldlM_alike {r q : Reading} {last? last'? : Option Int} {ts us : List Token}
    (alike : r.Alike q) (ended : r.Ended last?) (ended' : q.Ended last'?)
    (same : Token.signatureFrom last? ts = Token.signatureFrom last'? us)
    (ht : ∀ t ∈ ts, t.kind ≠ .eof ∧ t.endLine ≠ 0) (hu : ∀ u ∈ us, u.kind ≠ .eof ∧ u.endLine ≠ 0) :
    Agree Alike (ts.foldlM step r) (us.foldlM step q) := by
  -- By induction on the signature, since the two lists skip different tokens.
  generalize hs : Token.signatureFrom last? ts = features at same
  induction features generalizing r q last? last'? ts us with
  | nil =>
    rw [foldlM_silent ended (Token.silent_of_signatureFrom hs) fun t h => (ht t h).1,
      foldlM_silent ended' (Token.silent_of_signatureFrom same.symm) fun u h => (hu u h).1]
    exact alike
  | cons feature features ih =>
    obtain ⟨silent, t, ts, rfl, all, loud, own, later⟩ := Token.eq_cons_of_signatureFrom hs
    obtain ⟨silent', u, us, rfl, all', loud', own', later'⟩ :=
      Token.eq_cons_of_signatureFrom same.symm
    simp only [List.forall_mem_append, List.forall_mem_cons] at ht hu
    rw [List.foldlM_append, List.foldlM_append, foldlM_silent ended all fun v h => (ht.1 v h).1,
      foldlM_silent ended' all' fun v h => (hu.1 v h).1]
    change Agree Alike ((t :: ts).foldlM step r) ((u :: us).foldlM step q)
    rw [List.foldlM_cons, List.foldlM_cons]
    refine (step_alike alike ended ended' (own.trans own'.symm) loud loud' ht.2.1.2 hu.2.1.2).bind
      ?_
    rintro r' q' ⟨alike', after, after'⟩
    exact ih alike' after after' ht.2.2 hu.2.2 later later'.symm

theorem finish_alike {r q : Reading} (alike : r.Alike q) :
    Agree (fun a b => a.map Node.unplaced = b.map Node.unplaced) r.finish q.finish := by
  have waits := alike.frames.current.marks_isEmpty
  unfold Reading.finish
  cases ha : r.frames.current.marks with
  | cons mark marks =>
    cases hb : q.frames.current.marks with
    | nil => simp [ha, hb] at waits
    | cons mark' marks' => exact rfl
  | nil =>
    have hb : q.frames.current.marks = [] := by
      rw [ha] at waits
      exact List.isEmpty_iff.mp waits.symm
    rw [hb]
    have lists := alike.frames.lists
    cases hr : r.frames.lists with
    | nil =>
      rw [hr, List.forall₂_nil_left_iff] at lists
      rw [lists]
      exact alike.frames.program.children_trim
    | cons a outer =>
      rw [hr, List.forall₂_cons_left_iff] at lists
      obtain ⟨b, outer', _, _, hq⟩ := lists
      rw [hq]
      exact rfl

end Reading

/-- What is read of tokens depends, places apart, on their signature. -/
theorem Node.ofTokens_alike {file? file'? : Option String} {a b : List Char}
    (same : Token.signature (Token.scan file? a) = Token.signature (Token.scan file'? b)) :
    Agree (fun nodes nodes' => nodes.map unplaced = nodes'.map unplaced)
      (ofTokens (Token.scan file? a)) (ofTokens (Token.scan file'? b)) := by
  have lines (file? : Option String) (source : List Char) : ∃ ts eof,
      Token.scan file? source = ts ++ [eof] ∧ eof.kind = .eof ∧
      (Token.scan file? source).takeWhile (·.kind ≠ .eof) = ts ∧
      ∀ t ∈ ts, t.kind ≠ .eof ∧ t.endLine ≠ 0 := by
    obtain ⟨ts, eof, scan, isEof, _, noEof, _⟩ :=
      Token.scanFrom_eq_concat file? {} (Text.joinLineEnds source)
    refine ⟨ts, eof, scan, isEof, (Token.takeWhile_scanFrom scan).1, fun t ht => ⟨noEof t ht, ?_⟩⟩
    obtain ⟨before, after, split⟩ := List.append_of_mem ht
    have place : Token.scan file? source = before ++ t :: (after ++ [eof]) := by
      rw [Token.scan, scan, split]
      simp
    have placed := Token.placed_of_scan place
    have line := placed.line
    have last := placed.endLine
    omega
  obtain ⟨ts, eof, scan, isEof, taken, ht⟩ := lines file? a
  obtain ⟨us, eof', scan', isEof', taken', hu⟩ := lines file'? b
  rw [Token.signature, Token.signature, scan, scan', Token.signatureFrom_eof isEof,
    Token.signatureFrom_eof isEof'] at same
  unfold ofTokens
  rw [taken, taken']
  have start : Reading.Alike {} {} := ⟨⟨.nil, Frame.alike_empty⟩, rfl⟩
  have ended : Reading.Ended {} none := ⟨rfl, by simp⟩
  exact (Reading.foldlM_alike start ended ended same ht hu).bind fun r q h => Reading.finish_alike h

/-- Two sources with the same signature are both refused for the same fault, or both are formatted
to the same text in every width. -/
theorem format_of_signature {file? file'? : Option String} {a b : List Char}
    (same : Token.signature (Token.scan file? a) = Token.signature (Token.scan file'? b)) :
    (∃ e e', Node.parse file? a = .error e ∧ Node.parse file'? b = .error e' ∧ e.fault = e'.fault) ∨
      ∃ tree tree', Node.parse file? a = .ok tree ∧ Node.parse file'? b = .ok tree' ∧
        ∀ width, ∃ text, format file? width a = .ok text ∧ format file'? width b = .ok text := by
  have agree := Node.ofTokens_alike same
  cases ha : Node.ofTokens (Token.scan file? a) with
  | error e =>
    cases hb : Node.ofTokens (Token.scan file'? b) with
    | ok nodes => simp [ha, hb, Agree] at agree
    | error e' =>
      rw [ha, hb] at agree
      obtain ⟨d, refused, fault⟩ := Node.parse_of_error ha
      obtain ⟨d', refused', fault'⟩ := Node.parse_of_error hb
      exact .inl ⟨d, d', refused, refused', fault.trans (Eq.trans agree fault'.symm)⟩
  | ok nodes =>
    cases hb : Node.ofTokens (Token.scan file'? b) with
    | error e => simp [ha, hb, Agree] at agree
    | ok nodes' =>
      rw [ha, hb] at agree
      have alike : nodes.map Node.unplaced = nodes'.map Node.unplaced := agree
      obtain ⟨loc, parsed⟩ := Node.parse_of_ok ha
      obtain ⟨loc', parsed'⟩ := Node.parse_of_ok hb
      have document : (Node.program loc nodes).document = (Node.program loc' nodes').document := by
        rw [← Node.document_unplaced, ← Node.document_unplaced (.program loc' nodes'),
          Node.unplaced,
          Node.unplaced, Node.unplacedAll_eq_map, Node.unplacedAll_eq_map, alike]
      refine .inr ⟨_, _, parsed, parsed', fun width => ?_⟩
      obtain ⟨text, formatted, _⟩ := format_written parsed width
      exact ⟨text, formatted,
        (format_eq_of_document parsed parsed' document width).symm.trans formatted⟩

theorem format_of_signature_blank :
    ∃ text, format none 8 "\n\n(a  ;c \n\n\n'b)".toList = .ok text ∧
      format none 8 "( a ;c\n \n 'b\n)\n".toList = .ok text := by
  have same : Token.signature (Token.scan none "\n\n(a  ;c \n\n\n'b)".toList) =
      Token.signature (Token.scan none "( a ;c\n \n 'b\n)\n".toList) := by cbv
  have parses : (Node.parse none "( a ;c\n \n 'b\n)\n".toList).isOk := by cbv
  rcases format_of_signature same with ⟨_, _, _, refused, _⟩ | ⟨_, _, _, _, all⟩
  · rw [refused] at parses
    cases parses
  · exact all 8

end SexprFormat
