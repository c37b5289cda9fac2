import SexprFormat.Node.Parse

/-!
Forms are the tokens of a source grouped by what reading makes of them: something between data, or a
datum with the quote marks before it. Reading takes one token after another and keeps a stack of
open lists; here it is shown to be the same as reading whole forms.

* `Form.Wf.foldlM_step`: a well-formed form is read as a whole, whatever lists are open around it;
* `Level.triviaCase`: all that trivia can do where no mark waits;
* `Reading.foldlM_unfinished`: the tokens that have been read are forms, the open lists and a lead;
* `ofTokens_eq_ok_iff`: tokens are read to the end where they are those of well-formed forms, and
  the nodes are the ones of the forms.
-/

namespace SexprFormat

/-- One step after another succeeds only where both do. -/
theorem exists_of_bind_eq_ok {ε α β : Type} {x : Except ε α} {f : α → Except ε β} {b : β}
    (h : x >>= f = .ok b) : ∃ a, x = .ok a ∧ f a = .ok b := by
  cases x with
  | error e => cases h
  | ok a => exact ⟨a, rfl, h⟩

namespace Token

theorem kind_ne_eof_of_takeWhile {ts : List Token} {t : Token}
    (ht : t ∈ ts.takeWhile (·.kind ≠ .eof)) : t.kind ≠ .eof := by
  simpa using List.all_eq_true.mp List.all_takeWhile t ht

/-- What may stand between data: white space, directives and comments that are closed. -/
def isTrivia (t : Token) : Bool :=
  match t.kind with
  | .whitespace | .blankLine | .directive => true
  | .lineComment | .blockComment => t.closed
  | _ => false

/-- An atom or a string that is closed. -/
def isLeaf (t : Token) : Bool :=
  match t.kind with
  | .atom | .string => t.closed
  | _ => false

def isMark (t : Token) : Bool :=
  t.kind = .quoteMark

end Token

inductive Form where
  | trivia (t : Token)
  | leaf (lead : List Token) (datum : Token)
  | list (lead : List Token) (opener : Token) (body : List Form) (closer : Token)

namespace Form

mutual

def tokens : Form → List Token
  | trivia t => [t]
  | leaf lead datum => lead ++ [datum]
  | list lead opener body closer => lead ++ opener :: (tokensAll body ++ [closer])

def tokensAll : List Form → List Token
  | [] => []
  | form :: forms => tokens form ++ tokensAll forms

end

/-- What may stand before a datum: nothing, or a quote mark and after it more marks and trivia. -/
def IsLead (lead : List Token) : Prop :=
  (∀ t ∈ lead, t.isMark || t.isTrivia) ∧ lead.head?.all Token.isMark

inductive Wf : Form → Prop where
  | trivia {t : Token} : t.isTrivia → Wf (.trivia t)
  | leaf {lead : List Token} {datum : Token} : IsLead lead → datum.isLeaf → Wf (.leaf lead datum)
  | list {lead : List Token} {opener closer : Token} {body : List Form} {shape : Delimiter} :
      IsLead lead → opener.kind = .opening → opener.shape? = some shape →
      (∀ form ∈ body, Wf form) → closer.kind = .closing → closer.shape? = some shape →
      Wf (.list lead opener body closer)

theorem tokensAll_append (a b : List Form) : tokensAll (a ++ b) = tokensAll a ++ tokensAll b := by
  induction a with
  | nil => rfl
  | cons form a ih => simp [tokensAll, ih]

theorem isLead_nil : IsLead [] := ⟨by simp, rfl⟩

/-- A lead goes on with a mark, and once it has begun with anything but a datum. -/
theorem IsLead.concat {lead : List Token} {t : Token} (h : IsLead lead)
    (ht : t.isMark || t.isTrivia) (begun : lead = [] → t.isMark) : IsLead (lead ++ [t]) := by
  obtain ⟨all, first⟩ := h
  refine ⟨?_, ?_⟩
  · intro u hu
    rcases List.mem_append.mp hu with hu | hu
    · exact all u hu
    · rw [List.mem_singleton.mp hu]
      exact ht
  · cases lead with
    | nil => simpa using begun rfl
    | cons m lead => simpa using first

end Form

/-- What reading knows inside of one list or of the program, whatever is open around it. -/
structure Level where
  frame : Frame := {}
  lastLine : Int := 0
  atHead : Bool := true

/-- The frames with the given one innermost. Around it is nothing, or the bracket that opened its
list and the frames around that. -/
def Frames.fill (around : Option (Token × Frames)) (f : Frame) : Frames :=
  match around with
  | none => { program := f }
  | some (opener, outer) => { outer with lists := { opener, frame := f } :: outer.lists }

namespace Frames

@[simp] theorem current_fill (around : Option (Token × Frames)) (f : Frame) :
    (fill around f).current = f := by
  cases around <;> rfl

@[simp] theorem update_fill (around : Option (Token × Frames)) (f : Frame) (g : Frame → Frame) :
    (fill around f).update g = fill around (g f) := by
  cases around <;> rfl

theorem push_eq_fill (fs : Frames) (opener : Token) :
    fs.push opener = fill (some (opener, fs)) {} := rfl

end Frames

namespace Level

def within (around : Option (Token × Frames)) (l : Level) : Reading where
  frames := .fill around l.frame
  lastLine := l.lastLine
  atHead := l.atHead

def attachment (l : Level) (t : Token) : Attachment :=
  if l.frame.marks.isEmpty && l.lastLine ≠ 0 && t.loc.line = l.lastLine then .trailing else .leading

def commentNode (l : Level) (t : Token) : Node :=
  .comment t.loc (Text.trimEnd t.text) (l.attachment t) (t.kind = .blockComment)

def comment (l : Level) (t : Token) : Frame :=
  if l.frame.marks.isEmpty then l.frame.addTrivia (l.commentNode t)
  else l.frame.hold (l.commentNode t)

/-- The frame after a token that is no bracket. -/
def collect (l : Level) (t : Token) : Frame :=
  match t.kind with
  | .atom => l.frame.add (.atom t.loc t.text)
  | .string => l.frame.add (.string t.loc t.text)
  | .quoteMark => l.frame.addMark t
  | .lineComment | .blockComment => l.comment t
  | .directive =>
    if l.atHead then l.frame.addTrivia (.directive t.loc t.tag? t.text) else l.comment t
  | .blankLine => if l.frame.marks.isEmpty then l.frame.addBlank t.loc else l.frame
  | .whitespace | .eof | .opening | .closing => l.frame

/-- What is known after a token that is no bracket. -/
def pass (l : Level) (t : Token) : Level :=
  if t.kind = .whitespace || (t.kind = .blankLine && l.lastLine = 0) then l
  else
    { frame := ({ l with atHead := l.atHead && t.kind = .directive } : Level).collect t
      lastLine := if t.kind = .blankLine then l.lastLine else t.endLine
      atHead := l.atHead && t.kind = .directive }

end Level

namespace Form

mutual

/-- Reads a form as a whole. Its list starts with an empty frame on the line of its bracket. -/
def read : Form → Level → Level
  | trivia t, l => l.pass t
  | leaf lead datum, l => (lead.foldl Level.pass l).pass datum
  | list lead opener body closer, l =>
    let children :=
      (readAll body { lastLine := opener.endLine, atHead := false }).frame.trim.children
    let node := .list (opener.loc.spanTo closer.loc) (opener.shape?.getD default) children
    { frame := (lead.foldl Level.pass l).frame.add node, lastLine := closer.endLine
      atHead := false }

def readAll : List Form → Level → Level
  | [], l => l
  | form :: forms, l => readAll forms (read form l)

end

end Form

namespace Level

theorem attachment_within (l : Level) (around : Option (Token × Frames)) (t : Token) :
    (l.within around).attachment t = l.attachment t := by
  simp only [Reading.attachment, within, Frames.current_fill]
  rfl

theorem comment_within (l : Level) (around : Option (Token × Frames)) (t : Token) :
    (l.within around).comment t = .fill around (l.comment t) := by
  simp only [Reading.comment, attachment_within]
  simp only [within, Frames.update_fill]
  rfl

theorem accept_within (l : Level) (around : Option (Token × Frames)) {t : Token}
    (ht : t.isMark || t.isTrivia || t.isLeaf) :
    (l.within around).accept t = .ok (.fill around (l.collect t)) := by
  have head : (l.within around).atHead = l.atHead := rfl
  have update (g : Frame → Frame) :
      (l.within around).frames.update g = .fill around (g l.frame) := Frames.update_fill ..
  unfold Reading.accept collect
  cases hk : t.kind with
  | opening | closing | eof => simp [Token.isMark, Token.isTrivia, Token.isLeaf, hk] at ht
  | whitespace => rfl
  | blankLine | quoteMark => simp only [update]
  | atom | string | lineComment | blockComment =>
    have closed : t.closed = true := by
      simpa [Token.isMark, Token.isTrivia, Token.isLeaf, hk] using ht
    simp only [closed, ↓reduceIte, update, comment_within]
  | directive =>
    simp only [head, update, comment_within]
    split <;> rfl

/-- A token that is no bracket and is closed changes the innermost frame and nothing around it. -/
theorem step_within (l : Level) (around : Option (Token × Frames)) {t : Token}
    (ht : t.isMark || t.isTrivia || t.isLeaf) :
    (l.within around).step t = .ok ((l.pass t).within around) := by
  have ignores : (l.within around).ignores t =
      (t.kind = .whitespace || (t.kind = .blankLine && l.lastLine = 0)) := rfl
  unfold Reading.step pass
  rw [ignores]
  split
  · rfl
  · have accepted :=
      accept_within { l with atHead := l.atHead && t.kind = .directive } around ht
    simp only [within] at accepted ⊢
    rw [accepted]
    rfl

theorem foldlM_step_lead (l : Level) (around : Option (Token × Frames)) {lead : List Token}
    (h : ∀ t ∈ lead, t.isMark || t.isTrivia) :
    lead.foldlM Reading.step (l.within around) = .ok ((lead.foldl pass l).within around) := by
  induction lead generalizing l with
  | nil => rfl
  | cons t lead ih =>
    have ht : t.isMark || t.isTrivia || t.isLeaf := by
      simp [h t (List.mem_cons_self ..)]
    rw [List.foldlM_cons, step_within l around ht]
    exact ih _ fun u hu => h u (List.mem_cons_of_mem _ hu)

end Level

namespace Form

theorem step_opening (l : Level) (around : Option (Token × Frames)) {opener : Token}
    (h : opener.kind = .opening) :
    (l.within around).step opener =
      .ok (({ lastLine := opener.endLine, atHead := false } : Level).within
        (some (opener, .fill around l.frame))) := by
  simp [Reading.step, Reading.ignores, Reading.accept, h, Level.within, Frames.push_eq_fill, bind,
    Except.bind, pure, Except.pure]

theorem step_closing (l : Level) (outer : Frames) {opener closer : Token} {shape : Delimiter}
    (marks : l.frame.marks = []) (hs : opener.shape? = some shape)
    (h : closer.kind = .closing) (hc : closer.shape? = some shape) :
    (l.within (some (opener, outer))).step closer =
      .ok { frames := outer.update
              (·.add (.list (opener.loc.spanTo closer.loc) shape l.frame.trim.children))
            lastLine := closer.endLine, atHead := false } := by
  simp [Reading.step, Reading.ignores, Reading.accept, Reading.close, h, Level.within, Frames.fill,
    Frames.pop, marks, hs, hc, bind, Except.bind, pure, Except.pure]

end Form

namespace Frame

/-- Nothing waits in the frame: no mark, and no comment for the datum of one. -/
def Clean (f : Frame) : Prop :=
  f.marks = [] ∧ f.held = []

theorem clean_add (f : Frame) (node : Node) : (f.add node).Clean := ⟨rfl, rfl⟩

/-- Only blank lines are dropped from the end of a frame. -/
theorem children_eq_trim (f : Frame) :
    ∃ blanks, f.children = f.trim.children ++ blanks ∧ ∀ node ∈ blanks, node.isBlank := by
  refine ⟨(f.nodes.takeWhile Node.isBlank).reverse, ?_, fun node hn => ?_⟩
  · rw [children, children, trim, ← List.reverse_append, List.takeWhile_append_dropWhile]
  · exact List.all_eq_true.mp List.all_takeWhile node (List.mem_reverse.mp hn)

@[simp] theorem marks_addBlank (f : Frame) (loc : Location) : (f.addBlank loc).marks = f.marks := by
  unfold addBlank
  split
  · rfl
  · split <;> rfl

end Frame

namespace Token

/-- A comment or a directive. -/
def isRemark (t : Token) : Bool :=
  t.kind = .lineComment || t.kind = .blockComment || t.kind = .directive

/-- The node of an atom or a string. -/
def leafNode (t : Token) : Node :=
  if t.kind = .atom then .atom t.loc t.text else .string t.loc t.text

/-- The node of a comment that is held for the datum of a mark. -/
def heldNode (t : Token) : Node :=
  .comment t.loc (Text.trimEnd t.text) .leading (t.kind = .blockComment)

end Token

namespace Level

@[simp] theorem marks_comment (l : Level) (t : Token) : (l.comment t).marks = l.frame.marks := by
  unfold comment
  split <;> rfl

/-- The nodes of trivia where no mark waits. A blank line is none at the start, nor after
another. -/
def triviaNodes (l : Level) (t : Token) : List Node :=
  match t.kind with
  | .lineComment | .blockComment => [l.commentNode t]
  | .directive => if l.atHead then [.directive t.loc t.tag? t.text] else [l.commentNode t]
  | .blankLine =>
    if l.lastLine = 0 || l.frame.nodes.head?.all Node.isBlank then [] else [.blank t.loc]
  | _ => []

/-- Trivia leave the marks that wait as they are. -/
theorem marks_pass_trivia (l : Level) {t : Token} (ht : t.isTrivia) :
    (l.pass t).frame.marks = l.frame.marks := by
  unfold pass
  split
  · rfl
  · cases hk : t.kind with
    | opening | closing | eof | atom | string | quoteMark => simp [Token.isTrivia, hk] at ht
    | whitespace => simp [collect, hk]
    | lineComment | blockComment => simp [collect, hk]
    | blankLine | directive =>
      simp only [collect, hk]
      split <;> simp [Frame.addTrivia]

/-- Where no mark waits, trivia add their nodes to the frame and change nothing else in it. -/
theorem frame_pass_trivia {l : Level} (h : l.frame.marks = []) {t : Token} (ht : t.isTrivia) :
    (l.pass t).frame = { l.frame with nodes := (l.triviaNodes t).reverse ++ l.frame.nodes } := by
  have commented : ({ l with atHead := false } : Level).comment t =
      l.frame.addTrivia (l.commentNode t) := by
    rw [comment, if_pos (by simp [h])]
    rfl
  cases hk : t.kind with
  | opening | closing | eof | atom | string | quoteMark => simp [Token.isTrivia, hk] at ht
  | whitespace => simp [pass, triviaNodes, hk]
  | lineComment | blockComment =>
    simpa [pass, collect, triviaNodes, hk, Frame.addTrivia] using commented
  | blankLine =>
    by_cases zero : l.lastLine = 0
    · simp [pass, triviaNodes, hk, zero]
    · obtain ⟨⟨nodes, marks, held⟩, lastLine, atHead⟩ := l
      cases nodes with
      | nil => simp_all [pass, collect, triviaNodes, Frame.addBlank]
      | cons last nodes =>
        cases hb : last.isBlank <;> simp_all [pass, collect, triviaNodes, Frame.addBlank]
  | directive =>
    cases hh : l.atHead with
    | true => simp [pass, collect, triviaNodes, hk, hh, Frame.addTrivia]
    | false => simpa [pass, collect, triviaNodes, hk, hh, Frame.addTrivia] using commented

theorem clean_pass_trivia {l : Level} (h : l.frame.Clean) {t : Token} (ht : t.isTrivia) :
    (l.pass t).frame.Clean := by
  rw [frame_pass_trivia h.1 ht]
  exact h

theorem children_pass_trivia {l : Level} (h : l.frame.marks = []) {t : Token} (ht : t.isTrivia) :
    (l.pass t).frame.children = l.frame.children ++ l.triviaNodes t := by
  simp [Frame.children, frame_pass_trivia h ht]

/-- What trivia say at a level where no mark waits: the nodes they are, and what is known behind
them. -/
inductive TriviaCase (l : Level) (t : Token) : Prop
  /-- White space, or a blank line before all else. -/
  | skipped (nodes : l.triviaNodes t = []) (same : l.pass t = l)
      (kind : t.kind = .whitespace ∨ t.kind = .blankLine)
  /-- A blank line with no other node in front of it. -/
  | dropped (nodes : l.triviaNodes t = []) (kind : t.kind = .blankLine) (begun : l.lastLine ≠ 0)
      (lastLine : (l.pass t).lastLine = l.lastLine) (atHead : (l.pass t).atHead = false)
  | blank (nodes : l.triviaNodes t = [.blank t.loc]) (kind : t.kind = .blankLine)
      (begun : l.lastLine ≠ 0) (lastLine : (l.pass t).lastLine = l.lastLine)
      (atHead : (l.pass t).atHead = false) {last : Node} (top : l.frame.nodes.head? = some last)
      (nonblank : last.isBlank = false)
  /-- A comment, or a directive behind the head of the program. -/
  | comment (nodes : l.triviaNodes t = [l.commentNode t]) (remark : t.isRemark)
      (lastLine : (l.pass t).lastLine = t.endLine) (atHead : (l.pass t).atHead = false)
  | directive (nodes : l.triviaNodes t = [.directive t.loc t.tag? t.text])
      (kind : t.kind = .directive) (head : l.atHead)
      (lastLine : (l.pass t).lastLine = t.endLine) (atHead : (l.pass t).atHead)

theorem triviaCase (l : Level) {t : Token} (ht : t.isTrivia) : l.TriviaCase t := by
  cases hk : t.kind with
  | opening | closing | eof | atom | string | quoteMark => simp [Token.isTrivia, hk] at ht
  | whitespace =>
    exact .skipped (by simp [triviaNodes, hk]) (by simp [pass, hk]) (.inl hk)
  | lineComment | blockComment =>
    exact .comment (by simp [triviaNodes, hk]) (by simp [Token.isRemark, hk]) (by simp [pass, hk])
      (by simp [pass, hk])
  | directive =>
    cases head : l.atHead with
    | true =>
      exact .directive (by simp [triviaNodes, hk, head]) hk head (by simp [pass, hk])
        (by simp [pass, hk, head])
    | false =>
      exact .comment (by simp [triviaNodes, hk, head]) (by simp [Token.isRemark, hk])
        (by simp [pass, hk]) (by simp [pass, hk, head])
  | blankLine =>
    by_cases begun : l.lastLine = 0
    · exact .skipped (by simp [triviaNodes, hk, begun]) (by simp [pass, hk, begun]) (.inr hk)
    have lastLine : (l.pass t).lastLine = l.lastLine := by simp [pass, hk, begun]
    have atHead : (l.pass t).atHead = false := by simp [pass, hk, begun]
    cases top : l.frame.nodes.head? with
    | none => exact .dropped (by simp [triviaNodes, hk, top]) hk begun lastLine atHead
    | some last =>
      cases nonblank : last.isBlank with
      | true => exact .dropped (by simp [triviaNodes, hk, top, nonblank]) hk begun lastLine atHead
      | false =>
        exact .blank (by simp [triviaNodes, hk, begun, top, nonblank]) hk begun lastLine atHead top
          nonblank

theorem pass_mark (l : Level) {t : Token} (ht : t.isMark) :
    l.pass t = { frame := l.frame.addMark t, lastLine := t.endLine, atHead := false } := by
  have kind : t.kind = .quoteMark := by simpa [Token.isMark] using ht
  simp [pass, collect, kind]

theorem pass_leaf (l : Level) {t : Token} (ht : t.isLeaf) :
    l.pass t = { frame := l.frame.add t.leafNode, lastLine := t.endLine, atHead := false } := by
  cases hk : t.kind <;> simp_all [Token.isLeaf, pass, collect, Token.leafNode]

/-- Behind a mark, a comment is held and nothing else changes the frame. -/
theorem frame_pass_held {l : Level} (marks : l.frame.marks ≠ []) (head : l.atHead = false)
    {t : Token} (ht : t.isTrivia) :
    (l.pass t).frame = { l.frame with
      held := (if t.isRemark then [t.heldNode] else []) ++ l.frame.held } ∧
      (l.pass t).atHead = false := by
  have waits : l.frame.marks.isEmpty = false := by simpa using marks
  have commented : (({ l with atHead := false } : Level).comment t) = l.frame.hold t.heldNode := by
    simp [comment, commentNode, attachment, waits, Token.heldNode]
  unfold pass
  split
  · rename_i ignored
    have none : t.isRemark = false := by
      cases hk : t.kind <;> simp_all [Token.isRemark]
    exact ⟨by simp [none], head⟩
  · refine ⟨?_, by simp [head]⟩
    rw [head]
    cases hk : t.kind with
    | opening | closing | eof | atom | string | quoteMark => simp [Token.isTrivia, hk] at ht
    | whitespace => simp_all
    | lineComment | blockComment | directive =>
      simpa [collect, hk, Token.isRemark, Frame.hold] using commented
    | blankLine => simp [collect, hk, Token.isRemark, waits]

theorem frame_foldl_pass_held {ts : List Token} (h : ∀ t ∈ ts, t.isMark || t.isTrivia) (l : Level)
    (marks : l.frame.marks ≠ []) (head : l.atHead = false) :
    (ts.foldl pass l).frame =
      { nodes := l.frame.nodes
        marks := (ts.filter Token.isMark).reverse ++ l.frame.marks
        held := ((ts.filter Token.isRemark).map Token.heldNode).reverse ++ l.frame.held } := by
  induction ts generalizing l with
  | nil => rfl
  | cons t ts ih =>
    have rest := fun u hu => h u (List.mem_cons_of_mem _ hu)
    by_cases ht : t.isMark
    · have kind : t.kind = .quoteMark := by simpa [Token.isMark] using ht
      rw [List.foldl_cons, pass_mark l ht, ih rest _ (by simp [Frame.addMark]) rfl]
      simp [Frame.addMark, ht, Token.isRemark, kind]
    · have trivial : t.isTrivia := by simpa [ht] using h t (List.mem_cons_self ..)
      obtain ⟨frame, head'⟩ := frame_pass_held marks head trivial
      rw [List.foldl_cons, ih rest _ (by rw [frame]; exact marks) head', frame]
      cases remark : t.isRemark <;> simp [ht, remark]

/-- A lead adds no nodes: its marks wait, and its comments are held, until a datum comes. -/
theorem frame_foldl_pass (l : Level) {lead : List Token} (h : Form.IsLead lead)
    (clean : l.frame.Clean) :
    (lead.foldl pass l).frame =
      { nodes := l.frame.nodes
        marks := (lead.filter Token.isMark).reverse
        held := ((lead.filter Token.isRemark).map Token.heldNode).reverse } := by
  cases lead with
  | nil =>
    obtain ⟨marks, held⟩ := clean
    obtain ⟨⟨nodes, marks', held'⟩, lastLine, atHead⟩ := l
    simp_all
  | cons t lead =>
    have mark : t.isMark := by simpa using h.2
    have kind : t.kind = .quoteMark := by simpa [Token.isMark] using mark
    rw [List.foldl_cons, pass_mark l mark, frame_foldl_pass_held
      (fun u hu => h.1 u (List.mem_cons_of_mem _ hu)) _ (by simp [Frame.addMark]) rfl]
    simp [Frame.addMark, mark, Token.isRemark, kind, clean.1, clean.2]

end Level

namespace Form

/-- A datum behind the marks of a lead: the first mark is outermost. -/
def wrapped (lead : List Token) (datum : Node) : Node :=
  (lead.filter Token.isMark).foldr (fun mark node => Frame.wrap node mark) datum

/-- The comments of a lead, which stand before the datum. -/
def heldNodes (lead : List Token) : List Node :=
  (lead.filter Token.isRemark).map Token.heldNode

/-- A datum goes behind its marks, and the comments among them before it. -/
theorem children_add_lead (l : Level) {lead : List Token} (h : IsLead lead) (clean : l.frame.Clean)
    (datum : Node) :
    ((lead.foldl Level.pass l).frame.add datum).children =
      l.frame.children ++ heldNodes lead ++ [wrapped lead datum] := by
  rw [Frame.children_add, Level.frame_foldl_pass l h clean]
  simp [Frame.children, heldNodes, wrapped]

/-- Nothing waits behind a form if nothing does before it. -/
theorem Wf.clean_read {form : Form} (h : form.Wf) {l : Level} (hl : l.frame.Clean) :
    (form.read l).frame.Clean := by
  cases h with
  | trivia ht => exact Level.clean_pass_trivia hl ht
  | leaf _ ht =>
    rw [read, Level.pass_leaf _ ht]
    exact Frame.clean_add ..
  | list => exact Frame.clean_add ..

theorem clean_readAll {forms : List Form} (h : ∀ form ∈ forms, form.Wf) {l : Level}
    (hl : l.frame.Clean) : (readAll forms l).frame.Clean := by
  induction forms generalizing l with
  | nil => exact hl
  | cons form forms ih =>
    exact ih (fun f hf => h f (List.mem_cons_of_mem _ hf))
      ((h form (List.mem_cons_self ..)).clean_read hl)

/-- The nodes that a form adds to a frame in which nothing waits. -/
def nodes : Form → Level → List Node
  | trivia t, l => l.triviaNodes t
  | leaf lead datum, _ => heldNodes lead ++ [wrapped lead datum.leafNode]
  | list lead opener body closer, _ =>
    let children :=
      (readAll body { lastLine := opener.endLine, atHead := false }).frame.trim.children
    heldNodes lead ++
      [wrapped lead (.list (opener.loc.spanTo closer.loc) (opener.shape?.getD default) children)]

def nodesAll : List Form → Level → List Node
  | [], _ => []
  | form :: forms, l => form.nodes l ++ nodesAll forms (form.read l)

theorem Wf.children_read {form : Form} (h : form.Wf) {l : Level} (clean : l.frame.Clean) :
    (form.read l).frame.children = l.frame.children ++ form.nodes l := by
  cases h with
  | trivia ht => exact Level.children_pass_trivia clean.1 ht
  | leaf hlead ht =>
    rw [read, Level.pass_leaf _ ht, nodes, ← List.append_assoc]
    exact children_add_lead l hlead clean _
  | list hlead =>
    rw [read, nodes, ← List.append_assoc]
    exact children_add_lead l hlead clean _

theorem children_readAll {forms : List Form} (h : ∀ form ∈ forms, form.Wf) {l : Level}
    (clean : l.frame.Clean) :
    (readAll forms l).frame.children = l.frame.children ++ nodesAll forms l := by
  induction forms generalizing l with
  | nil => simp [readAll, nodesAll]
  | cons form forms ih =>
    have first := h form (List.mem_cons_self ..)
    rw [readAll, nodesAll,
      ih (fun f hf => h f (List.mem_cons_of_mem _ hf)) (first.clean_read clean),
      first.children_read clean, List.append_assoc]

/-- From an empty frame on, only blank lines at the end are dropped from the nodes of some forms. -/
theorem nodesAll_eq_trim {forms : List Form} (h : ∀ form ∈ forms, form.Wf) (lastLine : Int)
    (atHead : Bool) :
    ∃ blanks, nodesAll forms { lastLine, atHead } =
        (readAll forms { lastLine, atHead }).frame.trim.children ++ blanks ∧
      ∀ node ∈ blanks, node.isBlank := by
  have children := children_readAll h (l := { lastLine, atHead }) ⟨rfl, rfl⟩
  obtain ⟨blanks, split, all⟩ := (readAll forms { lastLine, atHead }).frame.children_eq_trim
  exact ⟨blanks, children.symm.trans split, all⟩

/-- What is read of each form is read of all of them in turn. -/
theorem foldlM_step_all {forms : List Form}
    (h : ∀ form ∈ forms, ∀ (l : Level) (around : Option (Token × Frames)),
      (tokens form).foldlM Reading.step (l.within around) = .ok ((form.read l).within around))
    (l : Level) (around : Option (Token × Frames)) :
    (tokensAll forms).foldlM Reading.step (l.within around) =
      .ok ((readAll forms l).within around) := by
  induction forms generalizing l with
  | nil => rfl
  | cons form forms ih =>
    rw [tokensAll, List.foldlM_append, h form (List.mem_cons_self ..)]
    exact ih (fun f hf => h f (List.mem_cons_of_mem _ hf)) _

/-- A well-formed form is read as a whole, whatever lists are open around it. -/
theorem Wf.foldlM_step {form : Form} (h : form.Wf) (l : Level)
    (around : Option (Token × Frames)) :
    (tokens form).foldlM Reading.step (l.within around) = .ok ((form.read l).within around) := by
  induction h generalizing l around with
  | @trivia t ht =>
    rw [tokens, read, List.foldlM_cons, Level.step_within l around (by simp [ht])]
    rfl
  | @leaf lead datum hlead ht =>
    rw [tokens, read, List.foldlM_append, Level.foldlM_step_lead l around hlead.1]
    change [datum].foldlM Reading.step _ = _
    rw [List.foldlM_cons, Level.step_within _ around (by simp [ht])]
    rfl
  | @list lead opener closer body shape hlead ho hs hbody hc hcs ih =>
    rw [tokens, List.foldlM_append, Level.foldlM_step_lead l around hlead.1]
    change (opener :: (tokensAll body ++ [closer])).foldlM Reading.step _ = _
    rw [List.foldlM_cons, step_opening _ around ho]
    change (tokensAll body ++ [closer]).foldlM Reading.step _ = _
    rw [List.foldlM_append, foldlM_step_all ih]
    change [closer].foldlM Reading.step _ = _
    have clean : (readAll body { lastLine := opener.endLine, atHead := false }).frame.Clean :=
      clean_readAll hbody ⟨rfl, rfl⟩
    rw [List.foldlM_cons, step_closing _ _ clean.1 hs hc hcs]
    simp [read, hs, Level.within]

/-- The forms of a program are read to its end. -/
theorem foldlM_step_program {forms : List Form} (wf : ∀ form ∈ forms, form.Wf) :
    (tokensAll forms).foldlM Reading.step {} = .ok ((readAll forms {}).within none) :=
  foldlM_step_all (fun form hf => (wf form hf).foldlM_step) {} none

end Form

/-- A frame after the tokens of some forms and of a lead; a mark waits in it if the lead has
begun. -/
def Frame.Gathers (f : Frame) (ts : List Token) : Prop :=
  ∃ forms lead, ts = Form.tokensAll forms ++ lead ∧ (∀ form ∈ forms, form.Wf) ∧
    Form.IsLead lead ∧ (f.marks = [] ↔ lead = [])

namespace Frame

theorem gathers_nil : Gathers {} [] :=
  ⟨[], [], rfl, by simp, Form.isLead_nil, by simp⟩

/-- The forms of a frame in which no mark waits. -/
theorem Gathers.forms {f : Frame} {ts : List Token} (h : f.Gathers ts) (hm : f.marks = []) :
    ∃ forms, ts = Form.tokensAll forms ∧ ∀ form ∈ forms, form.Wf := by
  obtain ⟨forms, lead, rfl, wf, _, hlead⟩ := h
  exact ⟨forms, by simp [hlead.mp hm], wf⟩

theorem Gathers.form {f g : Frame} {ts us : List Token} (h : f.Gathers ts) (hm : g.marks = [])
    (hform : ∀ lead, Form.IsLead lead → ∃ form : Form, form.Wf ∧ form.tokens = lead ++ us) :
    g.Gathers (ts ++ us) := by
  obtain ⟨forms, lead, rfl, wf, hlead, _⟩ := h
  obtain ⟨form, hf, tokens⟩ := hform lead hlead
  refine ⟨forms ++ [form], [], ?_, ?_, Form.isLead_nil, by simp [hm]⟩
  · simp [Form.tokensAll_append, Form.tokensAll, tokens]
  · exact List.forall_mem_append.mpr ⟨wf, List.forall_mem_singleton.mpr hf⟩

theorem Gathers.mark {f g : Frame} {ts : List Token} {t : Token} (h : f.Gathers ts)
    (ht : t.isMark) (hm : g.marks ≠ []) : g.Gathers (ts ++ [t]) := by
  obtain ⟨forms, lead, rfl, wf, hlead, _⟩ := h
  exact ⟨forms, lead ++ [t], by simp, wf, hlead.concat (by simp [ht]) (fun _ => ht), by simp [hm]⟩

theorem Gathers.trivia {f g : Frame} {ts : List Token} {t : Token} (h : f.Gathers ts)
    (ht : t.isTrivia) (hm : g.marks = f.marks) : g.Gathers (ts ++ [t]) := by
  obtain ⟨forms, lead, rfl, wf, hlead, begun⟩ := h
  by_cases waits : f.marks = []
  · have none : lead = [] := begun.mp waits
    subst none
    refine ⟨forms ++ [.trivia t], [], ?_, ?_, Form.isLead_nil, by simp [hm, waits]⟩
    · simp [Form.tokensAll_append, Form.tokensAll, Form.tokens]
    · exact List.forall_mem_append.mpr ⟨wf, List.forall_mem_singleton.mpr (.trivia ht)⟩
  · have some : lead ≠ [] := fun e => waits (begun.mpr e)
    exact ⟨forms, lead ++ [t], by simp, wf, hlead.concat (by simp [ht]) (fun e => absurd e some),
      by simp [hm, waits]⟩

end Frame

/-- The tokens that led to some frames: those of the program so far, and for each open list its
bracket and those inside of it. -/
inductive Unfinished : Frames → List Token → Prop where
  | program {f : Frame} {ts : List Token} : f.Gathers ts → Unfinished (.fill none f) ts
  | list {outer : Frames} {before ts : List Token} {opener : Token} {f : Frame} :
      Unfinished outer before → opener.kind = .opening → f.Gathers ts →
      Unfinished (.fill (some (opener, outer)) f) (before ++ opener :: ts)

namespace Unfinished

/-- Only the innermost frame matters for the tokens behind the last bracket that is open. -/
theorem innermost {fs : Frames} {ts : List Token} (h : Unfinished fs ts) :
    ∃ before inner, ts = before ++ inner ∧ fs.current.Gathers inner ∧
      ∀ g inner', g.Gathers inner' → Unfinished (fs.update fun _ => g) (before ++ inner') := by
  cases h with
  | program h => exact ⟨[], ts, rfl, by simpa using h, fun g _ hg => by simpa using program hg⟩
  | @list outer before ts opener f houter ho h =>
    refine ⟨before ++ [opener], ts, by simp, by simpa using h, fun g _ hg => ?_⟩
    simpa using list houter ho hg

theorem update {fs : Frames} {ts us : List Token} {g : Frame → Frame} (h : Unfinished fs ts)
    (hg : ∀ inner, fs.current.Gathers inner → (g fs.current).Gathers (inner ++ us)) :
    Unfinished (fs.update g) (ts ++ us) := by
  obtain ⟨before, inner, rfl, gathers, rebuild⟩ := h.innermost
  have same : fs.update g = fs.update fun _ => g fs.current := by
    unfold Frames.update Frames.current
    split <;> rfl
  rw [same, List.append_assoc]
  exact rebuild _ _ (hg inner gathers)

theorem outside {f : Frame} {ts : List Token} (h : Unfinished (.fill none f) ts) :
    f.Gathers ts := by
  generalize hfs : Frames.fill none f = fs at h
  cases h with
  | program gathers =>
    cases hfs
    exact gathers
  | list => cases hfs

theorem inside {opener : Token} {outer : Frames} {f : Frame} {ts : List Token}
    (h : Unfinished (.fill (some (opener, outer)) f) ts) :
    ∃ before inner, ts = before ++ opener :: inner ∧ Unfinished outer before ∧
      opener.kind = .opening ∧ f.Gathers inner := by
  generalize hfs : Frames.fill (some (opener, outer)) f = fs at h
  cases h with
  | program => cases hfs
  | @list outer' before inner opener' f' houter ho gathers =>
    obtain ⟨lists, program⟩ := outer
    obtain ⟨lists', program'⟩ := outer'
    simp only [Frames.fill, Frames.mk.injEq, List.cons.injEq, OpenList.mk.injEq] at hfs
    obtain ⟨⟨⟨rfl, rfl⟩, rfl⟩, rfl⟩ := hfs
    exact ⟨before, inner, rfl, houter, ho, gathers⟩

end Unfinished

namespace Reading

theorem exists_within (r : Reading) : ∃ (l : Level) (around : _), r = l.within around := by
  obtain ⟨⟨lists, program⟩, lastLine, atHead⟩ := r
  cases lists with
  | nil => exact ⟨⟨program, lastLine, atHead⟩, none, rfl⟩
  | cons list outer =>
    exact ⟨⟨list.frame, lastLine, atHead⟩, some (list.opener, ⟨outer, program⟩), rfl⟩

/-- Only brackets and tokens that are closed are taken. -/
theorem kind_of_step {r r' : Reading} {t : Token} (h : r.step t = .ok r') (ht : t.kind ≠ .eof) :
    (t.isMark || t.isTrivia || t.isLeaf) ∨ t.kind = .opening ∨ t.kind = .closing := by
  cases hk : t.kind with
  | eof => exact absurd hk ht
  | opening | closing => simp
  | whitespace | blankLine | quoteMark | directive => simp [Token.isMark, Token.isTrivia, hk]
  | atom | string | lineComment | blockComment =>
    cases hc : t.closed with
    | true => simp [Token.isLeaf, Token.isTrivia, hk, hc]
    | false => simp [step, ignores, accept, hk, hc, bind, Except.bind] at h

/-- A bracket is taken as the end of a list only if it closes the one that is open, and no mark
waits in there. -/
theorem closing_of_step {l : Level} {around : Option (Token × Frames)} {r' : Reading} {t : Token}
    (h : (l.within around).step t = .ok r') (ht : t.kind = .closing) :
    ∃ opener outer shape, around = some (opener, outer) ∧ l.frame.marks = [] ∧
      opener.shape? = some shape ∧ t.shape? = some shape := by
  cases around with
  | none =>
    simp [step, ignores, accept, close, ht, Level.within, Frames.fill, Frames.pop, bind,
      Except.bind] at h
  | some around =>
    obtain ⟨opener, outer⟩ := around
    simp only [step, ignores, accept, close, ht, Level.within, Frames.fill, Frames.pop] at h
    cases hm : l.frame.marks with
    | cons mark marks => simp [hm, bind, Except.bind] at h
    | nil =>
      cases hs : opener.shape? with
      | none => simp [hm, hs, bind, Except.bind] at h
      | some shape =>
        by_cases same : t.shape? = some shape
        · exact ⟨opener, outer, shape, rfl, rfl, hs, same⟩
        · simp [hm, hs, same, bind, Except.bind] at h

/-- All that a token can do: one that is no bracket changes the innermost frame, and a bracket opens
a list or closes the innermost one. -/
theorem step_cases {l : Level} {around : Option (Token × Frames)} {r' : Reading} {t : Token}
    (h : (l.within around).step t = .ok r') (ht : t.kind ≠ .eof) :
    ((t.isMark || t.isTrivia || t.isLeaf) ∧ r' = (l.pass t).within around) ∨
      (t.kind = .opening ∧ r' = ({ lastLine := t.endLine, atHead := false } : Level).within
        (some (t, .fill around l.frame))) ∨
      ∃ opener outer shape, around = some (opener, outer) ∧ t.kind = .closing ∧ l.frame.marks = [] ∧
        opener.shape? = some shape ∧ t.shape? = some shape ∧
        r' = { frames := outer.update
                (·.add (.list (opener.loc.spanTo t.loc) shape l.frame.trim.children))
               lastLine := t.endLine, atHead := false } := by
  rcases kind_of_step h ht with plain | opening | closing
  · exact .inl ⟨plain, Except.ok.inj (h.symm.trans (l.step_within around plain))⟩
  · exact .inr (.inl ⟨opening, Except.ok.inj (h.symm.trans (Form.step_opening l around opening))⟩)
  · obtain ⟨opener, outer, shape, rfl, marks, hs, hc⟩ := closing_of_step h closing
    have result := Except.ok.inj (h.symm.trans (Form.step_closing l outer marks hs closing hc))
    exact .inr (.inr ⟨opener, outer, shape, rfl, closing, marks, hs, hc, result⟩)

theorem step_unfinished {r r' : Reading} {ts : List Token} {t : Token}
    (hr : Unfinished r.frames ts) (h : r.step t = .ok r') (ht : t.kind ≠ .eof) :
    Unfinished r'.frames (ts ++ [t]) := by
  obtain ⟨l, around, rfl⟩ := r.exists_within
  obtain ⟨plain, rfl⟩ | ⟨opening, rfl⟩ | ⟨opener, outer, shape, rfl, closing, marks, hs, hc, rfl⟩ :=
    step_cases h ht
  · have frames : ((l.pass t).within around).frames =
        (l.within around).frames.update fun _ => (l.pass t).frame := by simp [Level.within]
    rw [frames]
    refine hr.update fun inner gathers => ?_
    have gathers : l.frame.Gathers inner := by simpa [Level.within] using gathers
    by_cases mark : t.isMark
    · exact gathers.mark mark (by simp [l.pass_mark mark, Frame.addMark])
    · by_cases trivia : t.isTrivia
      · exact gathers.trivia trivia (l.marks_pass_trivia trivia)
      · have leaf : t.isLeaf := by simpa [mark, trivia] using plain
        exact gathers.form (by simp [l.pass_leaf leaf, Frame.add]) fun lead hlead =>
          ⟨.leaf lead t, .leaf hlead leaf, rfl⟩
  · exact .list hr opening Frame.gathers_nil
  · obtain ⟨before, inner, rfl, houter, opening, gathers⟩ := hr.inside
    obtain ⟨forms, rfl, wf⟩ := gathers.forms marks
    -- The tokens of the list join those of the frame around it as one form.
    have extended : Unfinished
        (outer.update (·.add (.list (opener.loc.spanTo t.loc) shape l.frame.trim.children)))
        (before ++ (opener :: (Form.tokensAll forms ++ [t]))) :=
      houter.update fun around hg => hg.form rfl fun lead hlead =>
        ⟨.list lead opener forms t, .list hlead opening hs wf closing hc, by simp [Form.tokens]⟩
    simpa using extended

/-- What each token keeps is kept by all of them. -/
theorem foldlM_induction {P : Reading → List Token → Prop}
    (keeps : ∀ {r r' : Reading} {ts : List Token} {t : Token},
      P r ts → r.step t = .ok r' → t.kind ≠ .eof → P r' (ts ++ [t]))
    {r r' : Reading} {before ts : List Token} (hr : P r before) (h : ts.foldlM step r = .ok r')
    (ht : ∀ t ∈ ts, t.kind ≠ .eof) : P r' (before ++ ts) := by
  induction ts generalizing r before with
  | nil =>
    injection h with h
    simpa [← h] using hr
  | cons t ts ih =>
    rw [List.foldlM_cons] at h
    obtain ⟨next, hs, h⟩ := exists_of_bind_eq_ok h
    have hnext := keeps hr hs (ht t (List.mem_cons_self ..))
    simpa using ih hnext h fun u hu => ht u (List.mem_cons_of_mem _ hu)

theorem foldlM_unfinished {r r' : Reading} {before ts : List Token}
    (hr : Unfinished r.frames before) (h : ts.foldlM step r = .ok r')
    (ht : ∀ t ∈ ts, t.kind ≠ .eof) : Unfinished r'.frames (before ++ ts) :=
  foldlM_induction (P := fun r ts => Unfinished r.frames ts) step_unfinished hr h ht

theorem finish_within_none {l : Level} (h : l.frame.marks = []) :
    (l.within none).finish = .ok l.frame.trim.children := by
  simp [finish, Level.within, Frames.fill, Frames.current, h]

/-- Reading ends well only outside of all lists, with no mark waiting. -/
theorem within_none_of_finish {r : Reading} {nodes : List Node} (h : r.finish = .ok nodes) :
    ∃ l : Level, r = l.within none ∧ l.frame.marks = [] := by
  obtain ⟨l, around, rfl⟩ := r.exists_within
  cases around with
  | some around =>
    obtain ⟨opener, outer⟩ := around
    cases hm : l.frame.marks <;>
      simp [finish, Level.within, Frames.fill, Frames.current, hm] at h
  | none =>
    refine ⟨l, rfl, ?_⟩
    cases hm : l.frame.marks with
    | nil => rfl
    | cons => simp [finish, Level.within, Frames.fill, Frames.current, hm] at h

end Reading

namespace Node

/-- Tokens are read exactly if they are those of well-formed forms, and the nodes are what is read
of the forms. -/
theorem ofTokens_eq_ok_iff {ts : List Token} {nodes : List Node} :
    ofTokens ts = .ok nodes ↔
      ∃ forms : List Form, (∀ form ∈ forms, form.Wf) ∧
        ts.takeWhile (·.kind ≠ .eof) = Form.tokensAll forms ∧
        nodes = (Form.readAll forms {}).frame.trim.children := by
  have finish {forms : List Form} (wf : ∀ form ∈ forms, form.Wf) :
      ((Form.readAll forms {}).within none).finish =
        .ok (Form.readAll forms {}).frame.trim.children :=
    Reading.finish_within_none (Form.clean_readAll wf ⟨rfl, rfl⟩).1
  unfold ofTokens
  constructor
  · intro h
    obtain ⟨r, hr, h⟩ := exists_of_bind_eq_ok h
    obtain ⟨l, rfl, marks⟩ := Reading.within_none_of_finish h
    have led := Reading.foldlM_unfinished (.program Frame.gathers_nil) hr
      fun _ => Token.kind_ne_eof_of_takeWhile
    obtain ⟨forms, tokens, wf⟩ := led.outside.forms marks
    rw [List.nil_append] at tokens
    refine ⟨forms, wf, tokens, ?_⟩
    rw [tokens, Form.foldlM_step_program wf] at hr
    injection hr with hr
    rw [← hr] at h
    exact Except.ok.inj (h.symm.trans (finish wf))
  · rintro ⟨forms, wf, tokens, rfl⟩
    rw [tokens, Form.foldlM_step_program wf]
    exact finish wf

end Node

end SexprFormat
