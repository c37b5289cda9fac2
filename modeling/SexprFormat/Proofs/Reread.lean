import SexprFormat.Proofs.Grammar
import SexprFormat.Proofs.Legible

/-!
Reading what was printed. The tokens of a legible tree are those of forms again, and what is read of
these is the tree, but for what `Node.plain` leaves out: places, whether the text of a directive
stands in a directive or in a comment, and the attachment of a comment right behind another one.
`Node.parse_of_written` is the main statement.
-/

namespace SexprFormat

namespace Node

/-- A comment stands behind something or on a line of its own. -/
def attach (attachment : Attachment) : Node → Node
  | comment loc s _ block => comment loc s attachment block
  | node => node

mutual

/-- A node without places, with comments for directives. -/
def plain : Node → Node
  | atom _ s => atom .nowhere s
  | string _ s => string .nowhere s
  | comment _ s attachment block => comment .nowhere s attachment block
  | directive _ _ s => comment .nowhere s .leading false
  | quoted _ tag? lead inner => quoted .nowhere tag? lead (plain inner)
  | list _ shape children => list .nowhere shape (plainAll false children)
  | program _ children => program .nowhere (plainAll false children)
  | blank _ => blank .nowhere
  | unknown _ kind => unknown none kind

/-- Behind a comment the next one starts a line, however it was attached. -/
def plainAll (afterRemark : Bool) : List Node → List Node
  | [] => []
  | child :: rest =>
    (if afterRemark then (plain child).attach .leading else plain child) ::
      plainAll child.endsLine rest

end

@[simp] theorem isBlank_attach (attachment : Attachment) (node : Node) :
    (node.attach attachment).isBlank = node.isBlank := by
  cases node <;> rfl

@[simp] theorem isBlank_plain (node : Node) : node.plain.isBlank = node.isBlank := by
  cases node <;> simp [plain, isBlank]

@[simp] theorem endsLine_attach (attachment : Attachment) (node : Node) :
    (node.attach attachment).endsLine = node.endsLine := by
  cases node <;> rfl

@[simp] theorem endsLine_plain (node : Node) : node.plain.endsLine = node.endsLine := by
  cases node <;> simp [plain, endsLine]

@[simp] theorem attach_attach (a b : Attachment) (node : Node) :
    (node.attach a).attach b = node.attach b := by
  cases node <;> rfl

theorem attach_plain {node : Node} (h : node.endsLine = false) (attachment : Attachment) :
    node.plain.attach attachment = node.plain := by
  cases node with
  | comment | directive => cases h
  | _ => simp [plain, attach]

theorem endsLine_of_isDatum {node : Node} (h : node.isDatum) : node.endsLine = false := by
  cases node <;> simp_all [isDatum, endsLine]

/-- Where a comment stands; a directive stands on a line of its own. -/
def attachment : Node → Attachment
  | comment _ _ attachment _ => attachment
  | _ => .leading

theorem attach_attachment (node : Node) : node.plain.attach node.attachment = node.plain := by
  cases node <;> simp [attachment, plain, attach]

end Node

namespace Matches

variable {line middle last : Nat} {ps qs : List Print} {ts : List Token}

theorem of_append (h : Matches line (ps ++ qs) ts last) :
    ∃ us vs middle, ts = us ++ vs ∧ Matches line ps us middle ∧ Matches middle qs vs last := by
  induction ps generalizing line ts with
  | nil => exact ⟨[], ts, line, rfl, .nil, h⟩
  | cons p ps ih =>
    cases h with
    | word found rest =>
      obtain ⟨us, vs, middle, rfl, front, back⟩ := ih rest
      exact ⟨_ :: us, vs, middle, rfl, .word found front, back⟩
    | gap feeds kind rest =>
      obtain ⟨us, vs, middle, rfl, front, back⟩ := ih rest
      exact ⟨_ :: us, vs, middle, rfl, .gap feeds kind front, back⟩

theorem le (h : Matches line ps ts last) : line ≤ last := by
  induction h with
  | nil => exact Nat.le_refl _
  | word _ _ ih | gap _ _ _ ih => omega

theorem of_word {w : Word} (h : Matches line [.word w] ts last) :
    ∃ t, ts = [t] ∧ w.At line t ∧ t.endLine = last := by
  cases h with
  | word found rest =>
    cases rest
    exact ⟨_, rfl, found, found.ends⟩

theorem of_gap {g : Gap} (h : Matches line [.gap g] ts last) :
    ∃ t n, ts = [t] ∧ g.Feeds n ∧ last = line + n ∧
      t.kind = if 2 ≤ n then .blankLine else .whitespace := by
  cases h with
  | gap feeds kind rest =>
    cases rest
    exact ⟨_, _, rfl, feeds, rfl, kind⟩

theorem whitespace_of_nil (h : Matches line [] ts last) :
    (∀ t ∈ ts, t.kind = .whitespace) ∧ last = line := by
  cases h
  exact ⟨by simp, rfl⟩

/-- A gap that can end less than two lines is white space. -/
theorem whitespace_of_gap {g : Gap} (h : Matches line [.gap g] ts last)
    (hg : g.Feeds 0 ∨ g.Feeds 1) :
    (∀ t ∈ ts, t.kind = .whitespace) ∧ ∃ n, g.Feeds n ∧ last = line + n := by
  obtain ⟨t, n, rfl, feeds, rfl, kind⟩ := h.of_gap
  refine ⟨?_, n, feeds, rfl⟩
  have few : ¬2 ≤ n := by
    cases g with
    | blank => simp [Gap.Feeds] at hg
    | space | soft | line =>
      simp only [Gap.Feeds] at feeds
      omega
  simpa [few] using kind

theorem whitespace_of_atEnd {indent : Int} {inProgram : Bool} {previous? : Option Node}
    (h : Matches line (Print.atEnd indent inProgram previous?) ts last) :
    ∀ t ∈ ts, t.kind = .whitespace := by
  unfold Print.atEnd at h
  split at h
  · exact h.whitespace_of_nil.1
  · split at h
    · exact (h.whitespace_of_gap (.inr rfl)).1
    · exact h.whitespace_of_nil.1

end Matches

namespace Level

/-- How a comment is attached that starts on the given line, when no mark waits. -/
def attaches (l : Level) (line : Nat) : Attachment :=
  if l.lastLine ≠ 0 ∧ (line : Int) = l.lastLine then .trailing else .leading

theorem attachment_eq_attaches {l : Level} (clean : l.frame.Clean) {t : Token} {line : Nat}
    (h : t.loc.line = line) : l.attachment t = l.attaches line := by
  simp [attachment, attaches, clean.1, h]

theorem attaches_start {l : Level} (h : l.lastLine = 0) (line : Nat) :
    l.attaches line = .leading := by
  simp [attaches, h]

theorem attaches_same {l : Level} {line : Nat} (h : l.lastLine = line) (hl : 1 ≤ line) :
    l.attaches line = .trailing := by
  have nonzero : line ≠ 0 := by omega
  simp [attaches, h, nonzero]

theorem attaches_later {l : Level} {line n : Nat} (h : l.lastLine = line) (hn : 0 < n) :
    l.attaches (line + n) = .leading := by
  refine if_neg fun same => ?_
  have := same.2
  omega

/-- What is known behind a node that was printed, or at the start of a list or of a program. -/
def Behind (inProgram : Bool) (previous? : Option Node) (line : Nat) (l : Level) : Prop :=
  match previous? with
  | none => l.frame.nodes = [] ∧ l.lastLine = if inProgram then 0 else (line : Int)
  | some _ => l.lastLine = line ∧ l.frame.nodes.head?.any (!·.isBlank)

end Level

namespace Form

theorem nodesAll_append (a b : List Form) (l : Level) :
    nodesAll (a ++ b) l = nodesAll a l ++ nodesAll b (readAll a l) := by
  induction a generalizing l with
  | nil => rfl
  | cons form a ih => simp [nodesAll, readAll, ih]

/-- White space is made of forms that say nothing. -/
theorem exists_of_whitespace {ts : List Token} (h : ∀ t ∈ ts, t.kind = .whitespace) :
    ∃ forms : List Form, (∀ form ∈ forms, form.Wf) ∧ tokensAll forms = ts ∧
      ∀ l, nodesAll forms l = [] ∧ readAll forms l = l := by
  induction ts with
  | nil => exact ⟨[], by simp, rfl, fun _ => ⟨rfl, rfl⟩⟩
  | cons t ts ih =>
    have kind := h t (List.mem_cons_self ..)
    obtain ⟨forms, wf, rfl, silent⟩ := ih fun u hu => h u (List.mem_cons_of_mem _ hu)
    refine ⟨.trivia t :: forms, ?_, by simp [tokensAll, tokens], fun l => ?_⟩
    · exact List.forall_mem_cons.mpr ⟨.trivia (by simp [Token.isTrivia, kind]), wf⟩
    · have passed : read (.trivia t) l = l := by simp [read, Level.pass, kind]
      have none : nodes (.trivia t) l = [] := by simp [nodes, Level.triviaNodes, kind]
      rw [nodesAll, readAll, passed, none]
      exact silent l

/-- Behind a form that is a node other than a blank line. -/
theorem Wf.behind_read {form : Form} (wf : form.Wf) {l : Level}
    (clean : l.frame.Clean) {node : Node}
    (one : form.nodes l = [node]) (nonblank : node.isBlank = false) {line : Nat}
    (lastLine : (form.read l).lastLine = line) (inProgram : Bool) (previous : Node) :
    (form.read l).Behind inProgram (some previous) line := by
  refine ⟨lastLine, ?_⟩
  have children := wf.children_read clean
  rw [one, Frame.children, List.reverse_eq_iff, List.reverse_concat] at children
  simp [children, nonblank]

/-- The form with one more mark in front of its datum. -/
def behind (mark : Token) : Form → Form
  | trivia t => trivia t
  | leaf lead datum => leaf (mark :: lead) datum
  | list lead opener body closer => list (mark :: lead) opener body closer

theorem Wf.behind {mark : Token} (hm : mark.isMark) {form : Form} (h : form.Wf) :
    (form.behind mark).Wf := by
  have lead {lead : List Token} (h : IsLead lead) : IsLead (mark :: lead) := by
    refine ⟨fun t ht => ?_, by simpa using hm⟩
    rcases List.mem_cons.mp ht with rfl | ht
    · simp [hm]
    · exact h.1 t ht
  cases h with
  | trivia h => exact .trivia h
  | leaf hlead h => exact .leaf (lead hlead) h
  | list hlead ho hs hbody hc hcs => exact .list (lead hlead) ho hs hbody hc hcs

end Form

namespace Node

/-- The tokens of a node that was printed are read as the node again. -/
def Recovers (node : Node) : Prop :=
  ∀ (indent : Int) (line last : Nat) (ts : List Token), 1 ≤ line →
    Matches line (node.prints indent) ts last →
    ∃ form : Form, form.Wf ∧ form.tokens = ts ∧ (node.isDatum → ∀ t, form ≠ .trivia t) ∧
      ∀ l : Level, l.frame.Clean → (form.read l).lastLine = last ∧
        ((node.endsLine → node.attachment = .leading → l.attaches line = .leading) →
          ∃ found, form.nodes l = [found] ∧ found.plain = node.plain.attach (l.attaches line))

theorem recovers_leaf {node : Node} (hd : node.isDatum) {w : Word}
    (prints : ∀ indent, node.prints indent = [.word w]) (kind : w.kind = .atom ∨ w.kind = .string)
    (plain : ∀ t : Token, t.kind = w.kind → t.text = w.text → t.leafNode.plain = node.plain) :
    node.Recovers := by
  intro indent line last ts hline found
  rw [prints] at found
  obtain ⟨t, rfl, at_, ends⟩ := found.of_word
  have leaf : t.isLeaf := by
    unfold Token.isLeaf
    rcases kind with kind | kind <;> simpa [at_.kind, kind] using at_.closed
  refine ⟨.leaf [] t, .leaf Form.isLead_nil leaf, rfl, fun _ _ => by simp, fun l _ => ?_⟩
  rw [Form.read, Level.pass_leaf _ leaf]
  refine ⟨ends, fun _ => ⟨t.leafNode, rfl, ?_⟩⟩
  rw [plain t at_.kind at_.text, attach_plain (endsLine_of_isDatum hd)]

theorem recovers_quoted {loc : Location} {tag? : Option Token.Tag} {lead : List Char} {inner : Node}
    (hd : inner.isDatum) (h : inner.Recovers) : (quoted loc tag? lead inner).Recovers := by
  intro indent line last ts hline found
  rw [prints, ← List.singleton_append] at found
  obtain ⟨_, us, middle, rfl, front, back⟩ := found.of_append
  obtain ⟨mark, rfl, at_, _⟩ := front.of_word
  obtain ⟨form, wf, rfl, datum, read⟩ := h indent middle last us (Nat.le_trans hline front.le) back
  have isMark : mark.isMark := by simp [Token.isMark, at_.kind]
  have notRemark : mark.isRemark = false := by simp [Token.isRemark, at_.kind]
  have noEnd := endsLine_of_isDatum hd
  -- The mark goes around what is read of the tokens behind it.
  have wrapped {node found : Node} {lead : List Token}
      (one : Form.heldNodes lead ++ [Form.wrapped lead node] = [found]) :
      Form.heldNodes (mark :: lead) ++ [Form.wrapped (mark :: lead) node] =
        [Frame.wrap found mark] := by
    obtain ⟨held, rfl⟩ : Form.heldNodes lead = [] ∧ Form.wrapped lead node = found := by
      cases held : Form.heldNodes lead <;> simp_all
    simp [Form.heldNodes, Form.wrapped, isMark, notRemark] at held ⊢
    exact held
  refine ⟨form.behind mark, wf.behind isMark, ?_, fun _ t => ?_, fun l clean => ?_⟩
  · cases form with
    | trivia t => exact absurd rfl (datum hd t)
    | leaf | list => simp [Form.behind, Form.tokens]
  · cases form with
    | trivia t => exact absurd rfl (datum hd t)
    | leaf | list => simp [Form.behind]
  · obtain ⟨lastLine, nodes⟩ := read l clean
    obtain ⟨found, one, plain⟩ := nodes fun ends => by rw [noEnd] at ends; cases ends
    have quotes : (Frame.wrap found mark).plain = (quoted loc tag? lead inner).plain := by
      rw [attach_plain noEnd] at plain
      simp only [Frame.wrap, Node.plain, plain, at_.tag, at_.text]
    cases form with
    | trivia t => exact absurd rfl (datum hd t)
    | leaf leads datum =>
      cases wf with
      | leaf _ leaf =>
        rw [Form.read, Level.pass_leaf _ leaf] at lastLine
        rw [Form.behind, Form.read, Level.pass_leaf _ leaf]
        exact ⟨lastLine, fun _ => ⟨_, wrapped one, quotes⟩⟩
    | list leads opener body closer => exact ⟨lastLine, fun _ => ⟨_, wrapped one, quotes⟩⟩

theorem trimEnd_remark {block : Bool} {s : List Char} (h : (Word.remark block s).Sound) :
    Text.trimEnd s = s := by
  have kind := Word.kind_remark block s
  have text := Word.text_remark block s
  generalize Word.remark block s = w at h kind text
  cases h with
  | opening | closing | string | mark | hash | atom =>
    simp [Word.opening, Word.closing, Word.string, Word.atom] at kind
  | lineComment h => rw [← text, h.trimmed]
  | @blockComment s h =>
    have last := Token.Extent.getLast_of_blockComment h
    rw [← text]
    exact Text.trimEnd_eq_self (c := '#') (by simp [List.getLast?_cons, last]) (by decide)
  | shebang h =>
    rw [← text, Word.directive, Text.trimEnd_cons (by decide), h.trimmed]
  | lang h =>
    rw [← text, Word.directive, Text.trimEnd_cons (by decide), h.trimmed]

theorem recovers_remark {node : Node} {block : Bool} {s : List Char}
    (prints : ∀ indent, node.prints indent = [.word (.remark block s)]) (ends : node.endsLine)
    (plain : node.plain = comment .nowhere s node.attachment block)
    (sound : (Word.remark block s).Sound)
    (leading : (Word.remark block s).kind = .directive → node.attachment = .leading) :
    node.Recovers := by
  intro indent line last ts hline found
  rw [prints] at found
  obtain ⟨t, rfl, at_, lastLine⟩ := found.of_word
  have text : t.text = s := at_.text.trans (Word.text_remark block s)
  have isBlock : decide ((Word.remark block s).kind = .blockComment) = block := by
    unfold Word.remark
    cases block with
    | true => rfl
    | false =>
      simp only [Bool.false_eq_true, if_false]
      split <;> rfl
  have kind := Word.kind_remark block s
  simp only [← at_.kind, List.mem_cons, List.not_mem_nil, or_false] at kind isBlock leading
  have trivia : t.isTrivia := by
    unfold Token.isTrivia
    rcases kind with kind | kind | kind <;> simp [kind, at_.closed]
  have comment (l : Level) (clean : l.frame.Clean) :
      (l.commentNode t).plain = node.plain.attach (l.attaches line) := by
    rw [Level.commentNode, Level.attachment_eq_attaches clean at_.starts, text,
      trimEnd_remark sound, isBlock, plain, attach, Node.plain]
  have isRemark : t.isRemark := by
    unfold Token.isRemark
    rcases kind with kind | kind | kind <;> simp [kind]
  refine ⟨.trivia t, .trivia trivia, rfl, fun datum => ?_, fun l clean => ?_⟩
  · cases node <;> simp_all [isDatum, endsLine]
  rw [Form.read, Form.nodes]
  cases l.triviaCase trivia with
  | skipped _ _ none => rcases none with none | none <;> simp [Token.isRemark, none] at isRemark
  | dropped _ none | blank _ none => simp [Token.isRemark, none] at isRemark
  | comment one _ ended => exact ⟨ended.trans lastLine, fun _ => ⟨_, one, comment l clean⟩⟩
  | directive one kind _ ended =>
    refine ⟨ended.trans lastLine, fun leads => ⟨_, one, ?_⟩⟩
    have noBlock : block = false := by rw [← isBlock, kind]; rfl
    rw [plain, leads ends (leading kind), Node.plain, attach, text, noBlock]

/-- White space before a child, unless a blank line stands there, tells how the child is
attached. -/
theorem attaches_between {indent : Int} {inProgram : Bool} {previous? : Option Node} {child : Node}
    {line middle : Nat} {ts : List Token} (hline : 1 ≤ line)
    (hf : follows inProgram previous? child)
    (h : Matches line (Print.between indent inProgram previous? false child) ts middle) :
    (∀ t ∈ ts, t.kind = .whitespace) ∧
      ∀ l : Level, l.Behind inProgram previous? line → child.endsLine →
        (previous?.any endsLine → child.attachment = .leading) →
        l.attaches middle = child.attachment := by
  cases previous? with
  | none =>
    cases child with
    | comment _ _ attachment _ =>
      cases attachment with
      | trailing =>
        cases inProgram with
        | true => cases hf
        | false =>
          obtain ⟨all, rfl⟩ := h.whitespace_of_nil
          exact ⟨all, fun l behind _ _ => Level.attaches_same behind.2 hline⟩
      | leading =>
        cases inProgram with
        | true =>
          obtain ⟨all, rfl⟩ := h.whitespace_of_nil
          exact ⟨all, fun l behind _ _ => Level.attaches_start behind.2 _⟩
        | false =>
          obtain ⟨all, n, rfl, rfl⟩ := h.whitespace_of_gap (.inr rfl)
          exact ⟨all, fun l behind _ _ => Level.attaches_later behind.2 (by omega)⟩
    | directive =>
      cases inProgram with
      | false => cases hf
      | true =>
        obtain ⟨all, rfl⟩ := h.whitespace_of_nil
        exact ⟨all, fun l behind _ _ => Level.attaches_start behind.2 _⟩
    | _ => exact ⟨h.whitespace_of_nil.1, fun l _ ends => by cases ends⟩
  | some previous =>
    cases ends : previous.endsLine with
    | true =>
      have one : Print.between indent inProgram (some previous) false child =
          [.gap (.line indent)] := by
        simp [Print.between, ends]
      rw [one] at h
      obtain ⟨all, n, rfl, rfl⟩ := h.whitespace_of_gap (.inr rfl)
      refine ⟨all, fun l behind _ leading => ?_⟩
      rw [leading (by simp [ends])]
      exact Level.attaches_later behind.1 (by omega)
    | false =>
      simp only [Print.between, ends, Bool.false_eq_true, if_false] at h
      cases child with
      | comment _ _ attachment _ =>
        cases attachment with
        | trailing =>
          obtain ⟨all, n, rfl, rfl⟩ := h.whitespace_of_gap (.inl rfl)
          exact ⟨all, fun l behind _ _ => Level.attaches_same behind.1 hline⟩
        | leading =>
          obtain ⟨all, n, rfl, rfl⟩ := h.whitespace_of_gap (.inr rfl)
          exact ⟨all, fun l behind _ _ => Level.attaches_later behind.1 (by omega)⟩
      | directive =>
        cases inProgram with
        | false => cases hf
        | true =>
          obtain ⟨all, n, rfl, rfl⟩ := h.whitespace_of_gap (.inr rfl)
          exact ⟨all, fun l behind _ _ => Level.attaches_later behind.1 (by omega)⟩
      | _ =>
        refine ⟨?_, fun l _ ends => by cases ends⟩
        cases inProgram with
        | true => exact (h.whitespace_of_gap (.inr rfl)).1
        | false => exact (h.whitespace_of_gap (.inl (Nat.zero_le 1))).1

/-- What stands before a child tells that a blank line stands there and how the child is
attached. -/
theorem forms_between {indent : Int} {inProgram : Bool} {previous? : Option Node} {emptyLine : Bool}
    {child : Node} {line middle : Nat} {ts : List Token} (hline : 1 ≤ line)
    (he : emptyLine → previous?.isSome)
    (hf : follows inProgram (if emptyLine then some (.blank .nowhere) else previous?) child)
    (h : Matches line (Print.between indent inProgram previous? emptyLine child) ts middle) :
    ∃ forms : List Form, (∀ form ∈ forms, form.Wf) ∧ Form.tokensAll forms = ts ∧
      ∀ l : Level, l.frame.Clean → l.Behind inProgram previous? line →
        (∃ loc, Form.nodesAll forms l = if emptyLine then [.blank loc] else []) ∧
        (child.endsLine → (previous?.any endsLine → emptyLine ∨ child.attachment = .leading) →
          (Form.readAll forms l).attaches middle = child.attachment) := by
  cases emptyLine with
  | false =>
    obtain ⟨white, attaches⟩ := attaches_between hline hf h
    obtain ⟨forms, wf, tokens, silent⟩ := Form.exists_of_whitespace white
    refine ⟨forms, wf, tokens, fun l _ behind => ?_⟩
    rw [(silent l).1, (silent l).2]
    exact ⟨⟨.nowhere, rfl⟩, fun ends remark => attaches l behind ends (by simpa using remark)⟩
  | true =>
    obtain ⟨previous, rfl⟩ := Option.isSome_iff_exists.mp (he rfl)
    obtain ⟨t, n, rfl, rfl, rfl, kind⟩ := h.of_gap
    change t.kind = .blankLine at kind
    have trivia : t.isTrivia := by simp [Token.isTrivia, kind]
    refine ⟨[.trivia t], by simpa using Form.Wf.trivia trivia, rfl, ?_⟩
    rintro l _ ⟨lastLine, nonblank⟩
    have nonzero : line ≠ 0 := by omega
    refine ⟨⟨t.loc, ?_⟩, fun ends _ => ?_⟩
    · have last : l.frame.nodes.head?.all isBlank = false := by
        cases hn : l.frame.nodes.head? <;> simp_all
      simp [Form.nodesAll, Form.nodes, Level.triviaNodes, kind, lastLine, nonzero, last]
    · have same : (Form.readAll [.trivia t] l).lastLine = line := by
        simp [Form.readAll, Form.read, Level.pass, kind, lastLine, nonzero]
      rw [Level.attaches_later same (by omega)]
      cases child with
      | comment _ _ attachment _ =>
        cases attachment with
        | trailing => cases hf
        | leading => rfl
      | _ => rfl

theorem tidyAll_blank (inProgram : Bool) (loc loc' : Location) (nodes : List Node) :
    tidyAll inProgram (some (.blank loc)) nodes = tidyAll inProgram (some (.blank loc')) nodes := by
  cases nodes with
  | nil => rfl
  | cons child rest =>
    have same : follows inProgram (some (.blank loc)) child =
        follows inProgram (some (.blank loc')) child := by
      unfold follows
      split <;> rfl
    rw [tidyAll, tidyAll, same]

/-- The tokens of printed nodes are read as these nodes, one after another. -/
theorem forms_printsAll {indent : Int} {inProgram : Bool} {nodes : List Node}
    (h : ∀ child ∈ nodes, child.isBlank = false → child.Recovers) (previous? : Option Node)
    (emptyLine : Bool) {line last : Nat} {ts : List Token} (hline : 1 ≤ line)
    (he : emptyLine → previous?.isSome)
    (ht : tidyAll inProgram (if emptyLine then some (.blank .nowhere) else previous?) nodes)
    (hm : Matches line (printsAll indent inProgram previous? emptyLine nodes) ts last) :
    ∃ forms : List Form, (∀ form ∈ forms, form.Wf) ∧ Form.tokensAll forms = ts ∧
      ∀ l : Level, l.frame.Clean → l.Behind inProgram previous? line →
        plainAll (previous?.any endsLine) (Form.nodesAll forms l) =
          plainAll (previous?.any endsLine)
            ((if emptyLine then [.blank .nowhere] else []) ++ nodes) := by
  induction nodes generalizing previous? emptyLine line ts with
  | nil =>
    cases emptyLine with
    | true => cases ht
    | false =>
      rw [printsAll] at hm
      obtain ⟨forms, wf, tokens, silent⟩ := Form.exists_of_whitespace hm.whitespace_of_atEnd
      refine ⟨forms, wf, tokens, fun l _ _ => ?_⟩
      rw [(silent l).1]
      rfl
  | cons child rest ih =>
    have recovers := h child (List.mem_cons_self ..)
    have hrest := fun node hn => h node (List.mem_cons_of_mem _ hn)
    simp only [tidyAll, Bool.and_eq_true] at ht
    obtain ⟨⟨hf, hc⟩, ht⟩ := ht
    cases hb : child.isBlank with
    | true =>
      obtain ⟨loc, rfl⟩ := exists_of_isBlank hb
      cases emptyLine with
      | true => cases hf
      | false =>
        obtain ⟨previous, rfl⟩ : ∃ p, previous? = some p := by
          cases previous? with
          | none => cases hf
          | some previous => exact ⟨previous, rfl⟩
        rw [printsAll, hb, if_pos rfl] at hm
        rw [tidyAll_blank inProgram loc .nowhere] at ht
        obtain ⟨forms, wf, tokens, read⟩ := ih hrest (some previous) true hline (by simp) ht hm
        refine ⟨forms, wf, tokens, fun l clean behind => ?_⟩
        rw [read l clean behind]
        simp [plainAll, plain, endsLine]
    | false =>
      rw [printsAll, hb, if_neg Bool.false_ne_true] at hm
      obtain ⟨us, vs, middle, rfl, front, hm⟩ := hm.of_append
      obtain ⟨vs, ws, middle', rfl, here, back⟩ := hm.of_append
      obtain ⟨before, wfBefore, rfl, readBefore⟩ := forms_between hline he hf front
      have positive : 1 ≤ middle := Nat.le_trans hline front.le
      obtain ⟨form, wf, rfl, _, read⟩ := recovers hb indent middle middle' vs positive here
      have positive : 1 ≤ middle' := Nat.le_trans positive here.le
      obtain ⟨after, wfAfter, rfl, readAfter⟩ :=
        ih hrest (some child) false positive (by simp) ht back
      refine ⟨before ++ form :: after, ?_, ?_, fun l clean behind => ?_⟩
      · exact List.forall_mem_append.mpr ⟨wfBefore, List.forall_mem_cons.mpr ⟨wf, wfAfter⟩⟩
      · simp [Form.tokensAll_append, Form.tokensAll]
      obtain ⟨⟨loc, blanks⟩, attaches⟩ := readBefore l clean behind
      have cleanHere := Form.clean_readAll wfBefore clean
      obtain ⟨lastLine, found⟩ := read _ cleanHere
      obtain ⟨found, one, plain⟩ := found fun ends leading =>
        leading ▸ attaches ends fun _ => .inr leading
      have nonblank : found.isBlank = false := by
        rw [← isBlank_plain, plain, isBlank_attach, isBlank_plain, hb]
      have ends : found.endsLine = child.endsLine := by
        rw [← endsLine_plain, plain, endsLine_attach, endsLine_plain]
      have stands := wf.behind_read cleanHere one nonblank lastLine inProgram child
      have rest := readAfter _ (wf.clean_read cleanHere) stands
      simp only [Option.any_some, Bool.false_eq_true, if_false, List.nil_append] at rest
      -- Only behind another comment is the attachment of a comment lost.
      have same (own : previous?.any endsLine → emptyLine ∨ child.attachment = .leading) :
          found.plain = child.plain := by
        rw [plain]
        cases hends : child.endsLine with
        | false => exact attach_plain hends _
        | true => rw [attaches hends own, attach_attachment]
      rw [Form.nodesAll_append, blanks, Form.nodesAll, one]
      cases emptyLine with
      | true =>
        have noEnd (loc : Location) : (blank loc).endsLine = false := rfl
        simp [plainAll, noEnd, same (fun _ => .inl rfl), ends, rest, Node.plain, attach]
      | false =>
        cases remark : previous?.any endsLine with
        | true => simp [plainAll, plain, ends, rest]
        | false => simp [plainAll, same (by simp [remark]), ends, rest]

theorem map_isBlank_plainAll (afterRemark : Bool) (nodes : List Node) :
    (plainAll afterRemark nodes).map isBlank = nodes.map isBlank := by
  induction nodes generalizing afterRemark with
  | nil => rfl
  | cons child rest ih => cases afterRemark <;> simp [plainAll, ih]

/-- The last node is no blank line. -/
theorem getLast_of_tidyAll {inProgram : Bool} {previous? : Option Node} {nodes : List Node}
    (h : tidyAll inProgram previous? nodes) : (nodes.map isBlank).getLast? ≠ some true := by
  induction nodes generalizing previous? with
  | nil => simp
  | cons child rest ih =>
    simp only [tidyAll, Bool.and_eq_true] at h
    obtain ⟨_, hrest⟩ := h
    cases rest with
    | nil => simpa [tidyAll] using hrest
    | cons next rest => simpa using ih hrest

theorem children_trim {f : Frame}
    (h : (f.children.map isBlank).getLast? ≠ some true) : f.trim.children = f.children := by
  unfold Frame.children Frame.trim at *
  cases hn : f.nodes with
  | nil => rfl
  | cons last nodes =>
    have nonblank : last.isBlank = false := by simpa [hn] using h
    simp [nonblank]

/-- What is read of the tokens between two brackets, or of all, is what was printed. -/
theorem plainAll_readAll {forms : List Form} (wf : ∀ form ∈ forms, form.Wf) {l : Level}
    (empty : l.frame = {}) {inProgram : Bool} {nodes : List Node}
    (ht : tidyAll inProgram none nodes)
    (h : plainAll false (Form.nodesAll forms l) = plainAll false nodes) :
    plainAll false (Form.readAll forms l).frame.trim.children = plainAll false nodes := by
  have children : (Form.readAll forms l).frame.children = Form.nodesAll forms l := by
    rw [Form.children_readAll wf (by rw [empty]; exact ⟨rfl, rfl⟩), empty]
    rfl
  have last := getLast_of_tidyAll ht
  rw [← map_isBlank_plainAll false nodes, ← h, map_isBlank_plainAll, ← children] at last
  rw [children_trim last, children, h]

theorem recovers_list {loc : Location} {shape : Delimiter} {children : List Node}
    (h : ∀ child ∈ children, child.isBlank = false → child.Recovers)
    (ht : tidyAll false none children) : (list loc shape children).Recovers := by
  intro indent line last ts hline found
  rw [prints, ← List.singleton_append] at found
  obtain ⟨_, us, middle, rfl, front, found⟩ := found.of_append
  obtain ⟨us, _, middle', rfl, body, back⟩ := found.of_append
  obtain ⟨opener, rfl, opens, openLine⟩ := front.of_word
  obtain ⟨closer, rfl, closes, closeLine⟩ := back.of_word
  obtain ⟨forms, wf, rfl, read⟩ :=
    forms_printsAll h none false (Nat.le_trans hline front.le) (by simp) ht body
  have shapeOpen : opener.shape? = some shape := by
    rw [Token.shape?, opens.tag]
    rfl
  have shapeClose : closer.shape? = some shape := by
    rw [Token.shape?, closes.tag]
    rfl
  refine ⟨.list [] opener forms closer, ?_, ?_, fun _ _ => by simp,
    fun l _ => ⟨closeLine, fun _ => ?_⟩⟩
  · exact .list Form.isLead_nil opens.kind shapeOpen wf closes.kind shapeClose
  · simp [Form.tokens]
  · have inside := plainAll_readAll wf rfl ht
      (read { lastLine := opener.endLine, atHead := false } ⟨rfl, rfl⟩ ⟨rfl, openLine⟩)
    refine ⟨_, rfl, ?_⟩
    rw [attach_plain rfl]
    simp [Form.wrapped, Node.plain, shapeOpen, inside]

mutual

theorem recovers_of_legible : ∀ (node : Node) (glued : Bool), node.isDatum → node.Legible glued →
    node.tidy → node.Recovers
  | atom _ s, _, hd, _, _ => by
    refine recovers_leaf hd (fun _ => by rw [prints]) (.inl rfl) fun t kind text => ?_
    have atom : t.kind = .atom := kind
    simp [Token.leafNode, atom, plain, text, Word.atom]
  | string _ s, _, hd, _, _ => by
    refine recovers_leaf hd (fun _ => by rw [prints]) (.inr rfl) fun t kind text => ?_
    have string : t.kind = .string := kind
    simp [Token.leafNode, string, plain, text, Word.string]
  | quoted _ tag? lead inner, glued, _, h, ht => by
    simp only [tidy, Bool.and_eq_true] at ht
    exact recovers_quoted ht.1 (recovers_of_legible inner glued ht.1 h.2.2.1 ht.2)
  | list _ shape children, _, _, h, ht => by
    rw [tidy] at ht
    exact recovers_list (recovers_of_legibleAll children none h ht) ht
  | comment .., _, hd, _, _ => by cases hd
  | directive .., _, hd, _, _ => by cases hd
  | blank .., _, hd, _, _ => by cases hd
  | program .., _, hd, _, _ => by cases hd
  | unknown .., _, hd, _, _ => by cases hd

theorem recovers_of_legibleAll : ∀ (nodes : List Node) (previous? : Option Node), LegibleAll nodes →
    tidyAll false previous? nodes → ∀ child ∈ nodes, child.isBlank = false → child.Recovers
  | [], _, _, _ => by simp
  | child :: rest, previous?, h, ht => by
    simp only [tidyAll, Bool.and_eq_true] at ht
    have first (hb : child.isBlank = false) : child.Recovers := by
      by_cases datum : child.isDatum
      · exact recovers_of_legible child _ datum h.1 ht.1.2
      · cases child with
        | comment _ s _ block =>
          refine recovers_remark (fun _ => by rw [prints]) rfl (by rw [plain, attachment]) h.1.1 ?_
          exact fun directive => absurd directive h.1.2
        | atom | string | quoted | list => exact absurd rfl datum
        | blank => cases hb
        | directive | program | unknown => exact absurd h.1 id
    intro node hn hb
    rcases List.mem_cons.mp hn with same | hn
    · exact same ▸ first (same ▸ hb)
    · exact recovers_of_legibleAll rest (some child) h.2 ht.2 node hn hb

end

theorem recovers_of_legibleProgram {first : Bool} {previous? : Option Node} {nodes : List Node}
    (h : LegibleProgram first nodes) (ht : tidyAll true previous? nodes) :
    ∀ child ∈ nodes, child.isBlank = false → child.Recovers := by
  induction nodes generalizing first previous? with
  | nil => simp
  | cons child rest ih =>
    simp only [tidyAll, Bool.and_eq_true] at ht
    intro node hn hb
    rcases List.mem_cons.mp hn with rfl | hn
    · have legible := h.1
      cases node with
      | comment _ s _ block =>
        exact recovers_remark (fun _ => by rw [prints]) rfl (by rw [plain, attachment]) legible.1
          fun directive => (legible.2 directive).1
      | directive _ _ s =>
        exact recovers_remark (fun _ => by rw [prints]) rfl (by simp [plain, attachment]) legible.1
          fun _ => rfl
      | atom | string | quoted | list => exact recovers_of_legible _ false rfl legible.1 ht.1.2
      | blank => cases hb
      | program | unknown => exact absurd legible.1 id
    · exact ih h.2 ht.2 node hn hb

/-- A text of a legible program is read as this program again. -/
theorem parse_of_written {loc : Location} {nodes : List Node} (h : LegibleProgram true nodes)
    (ht : (program loc nodes).tidy) {s : List Char}
    (written : Written 0 ((program loc nodes).cells 0) s) (joined : Text.joinLineEnds s = s)
    (file? : Option String) :
    ∃ loc' nodes', parse file? s = .ok (program loc' nodes') ∧
      plainAll false nodes' = plainAll false nodes := by
  rw [← cellsAll_prints 0 ht, prints] at written
  rw [tidy] at ht
  have start : Outer true {} := ⟨rfl, Nat.le_refl 1, by simp, fun _ => rfl⟩
  obtain ⟨ts, eof, last, scan, _, found⟩ := (reads_program h).scan start written file?
  obtain ⟨forms, wf, rfl, read⟩ := forms_printsAll (recovers_of_legibleProgram h ht) none false
    (Nat.le_refl 1) (by simp) ht found
  have same := plainAll_readAll wf rfl ht (read {} ⟨rfl, rfl⟩ ⟨rfl, rfl⟩)
  have tokens := ofTokens_eq_ok_iff.mpr ⟨forms, wf, (Token.takeWhile_scanFrom scan).1, rfl⟩
  exact ⟨_, _, by rw [parse, Token.scan, joined, tokens], same⟩

end Node

end SexprFormat
