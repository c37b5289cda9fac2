import SexprFormat.Format
import SexprFormat.Proofs.Cell
import SexprFormat.Proofs.Form
import SexprFormat.Proofs.Scan

/-!
The cells of a tree. `Node.document_cells`: a tree without foreign nodes has a document, and its
cells are those of the tree. `Node.known_of_ofTokens`: what is read from tokens is such a tree.
-/

namespace SexprFormat

namespace Node

mutual

/-- No node of the tree is of a kind that is not part of the language. -/
def known : Node → Bool
  | atom _ _ | string _ _ | comment _ _ _ _ | directive _ _ _ | blank _ => true
  | quoted _ _ _ inner => known inner
  | list _ _ children | program _ children => knownAll children
  | unknown _ _ => false

def knownAll : List Node → Bool
  | [] => true
  | node :: nodes => known node && knownAll nodes

end

theorem knownAll_iff {nodes : List Node} : knownAll nodes ↔ ∀ node ∈ nodes, node.known := by
  induction nodes with
  | nil => simp [knownAll]
  | cons node nodes ih => simp [knownAll, ih]

theorem knownAll_append (a b : List Node) : knownAll (a ++ b) = (knownAll a && knownAll b) := by
  induction a with
  | nil => rfl
  | cons node a ih => simp [knownAll, ih, Bool.and_assoc]

mutual

/-- What is printed of a tree, in lines of the given indentation. -/
def cells (indent : Int) : Node → List Cell
  | atom _ s | string _ s => s.map .char
  | comment _ s _ _ | directive _ _ s => s.map .char ++ [.hard indent]
  | blank _ => [.hard indent]
  | quoted _ _ lead inner => lead.map .char ++ cells indent inner
  | list _ shape children =>
    .char shape.opener ::
      (cellsAll (indent + Doc.indentWidth) false none children ++ [.char shape.closer])
  | program _ children =>
    cellsAll indent true none children ++
      if (children.getLast?.map endsLine).getD true then [] else [.hard indent]
  | unknown _ _ => []

/-- What is printed of children behind a previous one, with the separators. -/
def cellsAll (indent : Int) (inProgram : Bool) (previous? : Option Node) : List Node → List Cell
  | [] => []
  | child :: rest =>
    (separator inProgram previous? child).cells indent ++
      (cells indent child ++ cellsAll indent inProgram (some child) rest)

end

theorem known_separator (inProgram : Bool) (previous? : Option Node) (child : Node) :
    (separator inProgram previous? child).known := by
  unfold separator
  repeat' split
  all_goals rfl

theorem document_quoted {loc : Location} {tag? : Option Token.Tag} {lead : List Char} {inner : Node}
    {d : Doc} (h : (quoted loc tag? lead inner).document = .ok d) :
    ∃ e, inner.document = .ok e ∧ d = .append [.text lead, e] := by
  rw [document] at h
  obtain ⟨e, built, made⟩ := exists_of_bind_eq_ok h
  cases made
  exact ⟨e, built, rfl⟩

theorem document_list {loc : Location} {shape : Delimiter} {children : List Node} {d : Doc}
    (h : (list loc shape children).document = .ok d) :
    ∃ ds, sequence false none children = .ok ds ∧
      d = .append [.text [shape.opener], .grouped (.indent Doc.indentWidth (.append ds)),
        .text [shape.closer]] := by
  rw [document] at h
  obtain ⟨ds, built, made⟩ := exists_of_bind_eq_ok h
  cases made
  exact ⟨ds, built, rfl⟩

theorem document_program {loc : Location} {children : List Node} {d : Doc}
    (h : (program loc children).document = .ok d) :
    ∃ ds, sequence true none children = .ok ds ∧
      (d = .append ds ∨ d = .append [.append ds, .hardLine]) := by
  rw [document] at h
  obtain ⟨ds, built, made⟩ := exists_of_bind_eq_ok h
  cases made
  refine ⟨ds, built, ?_⟩
  split
  · exact .inl rfl
  · exact .inr rfl

theorem sequence_cons {inProgram : Bool} {previous? : Option Node} {child : Node} {rest : List Node}
    {ds : List Doc} (h : sequence inProgram previous? (child :: rest) = .ok ds) :
    ∃ d es, child.document = .ok d ∧ sequence inProgram (some child) rest = .ok es ∧
      ds = separator inProgram previous? child :: d :: es := by
  rw [sequence] at h
  obtain ⟨d, first, h⟩ := exists_of_bind_eq_ok h
  obtain ⟨es, later, made⟩ := exists_of_bind_eq_ok h
  cases made
  exact ⟨d, es, first, later, rfl⟩

mutual

/-- A tree without foreign nodes has a document, and its cells are those of the tree. -/
theorem document_cells : ∀ node : Node, node.known →
    ∃ d, node.document = .ok d ∧ d.known ∧ ∀ indent, d.cells indent = node.cells indent
  | atom _ s, _ => ⟨.text s, by rw [document], rfl, fun _ => rfl⟩
  | string _ s, _ => ⟨.text s, by rw [document], rfl, fun _ => rfl⟩
  | comment _ s _ _, _ =>
    ⟨.append [.text s, .hardLine], by rw [document], by simp [Doc.known_append]; rfl,
      fun _ => by simp [Doc.cells_append, Doc.cellsAll, Doc.cells, cells]⟩
  | directive _ _ s, _ =>
    ⟨.append [.text s, .hardLine], by rw [document], by simp [Doc.known_append]; rfl,
      fun _ => by simp [Doc.cells_append, Doc.cellsAll, Doc.cells, cells]⟩
  | blank _, _ => ⟨.hardLine, by rw [document], rfl, fun _ => rfl⟩
  | quoted _ _ lead inner, h => by
    obtain ⟨d, hd, hk, hc⟩ := document_cells inner (by simpa [known] using h)
    refine ⟨.append [.text lead, d], by rw [document, hd]; rfl, ?_, fun indent => ?_⟩
    · simp [Doc.known_append, Doc.knownAll, Doc.known, hk]
    · simp [Doc.cells_append, Doc.cellsAll, Doc.cells, cells, hc]
  | list _ shape children, h => by
    obtain ⟨ds, hd, hk, hc⟩ := sequence_cells false none children (by simpa [known] using h)
    refine ⟨_, by rw [document, hd]; rfl, ?_, fun indent => ?_⟩
    · simp [Doc.known_append, Doc.knownAll, Doc.known, Doc.grouped, hk]
    · simp [Doc.cells_append, Doc.cellsAll, Doc.cells, cells, Doc.grouped, hc]
  | program _ children, h => by
    obtain ⟨ds, hd, hk, hc⟩ := sequence_cells true none children (by simpa [known] using h)
    refine ⟨_, by rw [document, hd]; rfl, ?_, fun indent => ?_⟩
    · split <;> simp [Doc.known_append, Doc.knownAll, Doc.known, hk]
    · rw [cells]
      split <;> simp [Doc.cells_append, Doc.cellsAll, Doc.cells, hc]
  | unknown _ _, h => by simp [known] at h

theorem sequence_cells (inProgram : Bool) (previous? : Option Node) :
    ∀ nodes : List Node, knownAll nodes → ∃ ds, sequence inProgram previous? nodes = .ok ds ∧
      Doc.knownAll ds ∧
      ∀ indent, Doc.cellsAll indent ds = cellsAll indent inProgram previous? nodes
  | [], _ => ⟨[], by rw [sequence], rfl, fun _ => rfl⟩
  | child :: rest, h => by
    simp only [knownAll, Bool.and_eq_true] at h
    obtain ⟨d, hd, hk, hc⟩ := document_cells child h.1
    obtain ⟨ds, hds, hks, hcs⟩ := sequence_cells inProgram (some child) rest h.2
    refine ⟨_, by rw [sequence, hd, hds]; rfl, ?_, fun indent => ?_⟩
    · simp [Doc.knownAll, known_separator, hk, hks]
    · simp [Doc.cellsAll, cellsAll, hc, hcs]

end

/-- A tree without foreign nodes is rendered, in any width, as one of the texts of its cells. -/
theorem render_written (width : Int) {node : Node} (h : node.known) :
    ∃ s, node.render width = .ok s ∧ Written 0 (node.cells 0) s := by
  obtain ⟨d, hd, hk, hc⟩ := document_cells node h
  obtain ⟨s, hs, written⟩ := d.render_written width hk
  refine ⟨s, ?_, hc 0 ▸ written⟩
  rw [render, hd]
  change (d.render width).mapError FormatError.render = .ok s
  rw [hs]
  rfl

end Node

namespace Form

theorem known_trim {f : Frame} (h : Node.knownAll f.children) : Node.knownAll f.trim.children := by
  obtain ⟨blanks, split, _⟩ := f.children_eq_trim
  rw [split, Node.knownAll_append, Bool.and_eq_true] at h
  exact h.1

theorem known_wrapped (lead : List Token) {node : Node} (h : node.known) :
    (wrapped lead node).known := by
  unfold wrapped
  induction lead.filter Token.isMark with
  | nil => exact h
  | cons mark marks ih => exact ih

theorem known_heldNodes (lead : List Token) : Node.knownAll (heldNodes lead) := by
  refine Node.knownAll_iff.mpr fun node hn => ?_
  obtain ⟨t, _, rfl⟩ := List.mem_map.mp hn
  rfl

theorem known_triviaNodes (l : Level) {t : Token} (ht : t.isTrivia) :
    Node.knownAll (l.triviaNodes t) := by
  cases l.triviaCase ht with
  | skipped nodes | dropped nodes | blank nodes | comment nodes | directive nodes => rw [nodes]; rfl

theorem known_nodesAll {forms : List Form}
    (h : ∀ form ∈ forms, ∀ l : Level, Node.knownAll (form.nodes l)) (l : Level) :
    Node.knownAll (nodesAll forms l) := by
  induction forms generalizing l with
  | nil => rfl
  | cons form forms ih =>
    rw [nodesAll, Node.knownAll_append, h form (List.mem_cons_self ..) l,
      ih (fun f hf => h f (List.mem_cons_of_mem _ hf))]
    rfl

theorem Wf.known_nodes {form : Form} (h : form.Wf) (l : Level) : Node.knownAll (form.nodes l) := by
  induction h generalizing l with
  | trivia ht => exact known_triviaNodes l ht
  | @leaf lead datum hlead ht =>
    have leaf : datum.leafNode.known := by
      unfold Token.leafNode
      split <;> rfl
    rw [nodes, Node.knownAll_append, known_heldNodes]
    simp [Node.knownAll, known_wrapped lead leaf]
  | @list lead opener closer body shape hlead ho hs hbody hc hcs ih =>
    rw [nodes, Node.knownAll_append, known_heldNodes]
    simp only [Node.knownAll, Bool.and_true, Bool.true_and]
    refine known_wrapped lead ?_
    rw [Node.known]
    exact known_trim (by rw [children_readAll hbody ⟨rfl, rfl⟩]; exact known_nodesAll ih _)

end Form

/-- What is read from tokens has no foreign nodes. -/
theorem Node.known_of_ofTokens {ts : List Token} {nodes : List Node} (h : ofTokens ts = .ok nodes) :
    knownAll nodes := by
  obtain ⟨forms, wf, _, rfl⟩ := ofTokens_eq_ok_iff.mp h
  refine Form.known_trim ?_
  rw [Form.children_readAll wf ⟨rfl, rfl⟩]
  exact Form.known_nodesAll (fun form hf => (wf form hf).known_nodes) _

/-- A source that parses has the nodes of its tokens below the node of the program. -/
theorem Node.parse_eq_ok {file? : Option String} {source : List Char} {tree : Node}
    (h : parse file? source = .ok tree) :
    ∃ loc nodes, tree = .program loc nodes ∧ ofTokens (Token.scan file? source) = .ok nodes := by
  unfold parse at h
  cases read : ofTokens (Token.scan file? source) with
  | error e => simp [read] at h
  | ok nodes =>
    simp only [read, Except.ok.injEq] at h
    exact ⟨_, nodes, h.symm, rfl⟩

theorem Node.parse_of_ok {file? : Option String} {source : List Char} {nodes : List Node}
    (h : ofTokens (Token.scan file? source) = .ok nodes) :
    ∃ loc, parse file? source = .ok (.program loc nodes) := by
  unfold parse
  rw [h]
  exact ⟨_, rfl⟩

theorem Node.parse_of_error {file? : Option String} {source : List Char} {e : ParseError}
    (h : ofTokens (Token.scan file? source) = .error e) :
    ∃ d, parse file? source = .error d ∧ d.fault = e.fault := by
  unfold parse
  rw [h]
  exact ⟨_, rfl, rfl⟩

/-- A document that is computed from a source is that of its tree. -/
theorem Node.parse_of_document {file? : Option String} {source : List Char} {doc : Doc}
    (h : (parse file? source).toOption.bind (·.document.toOption) = some doc) :
    ∃ tree, parse file? source = .ok tree ∧ tree.document = .ok doc := by
  cases parsed : parse file? source with
  | error e =>
    rw [parsed] at h
    cases h
  | ok tree =>
    rw [parsed] at h
    change tree.document.toOption = some doc at h
    cases built : tree.document with
    | error e =>
      rw [built] at h
      cases h
    | ok d =>
      rw [built] at h
      cases h
      exact ⟨tree, rfl, built⟩

/-- The tokens of a source that parses are those of well-formed forms and an end mark. -/
theorem Node.parse_forms {file? : Option String} {source : List Char} {tree : Node}
    (h : parse file? source = .ok tree) :
    ∃ loc forms eof, (∀ form ∈ forms, form.Wf) ∧
      Token.scan file? source = Form.tokensAll forms ++ [eof] ∧ eof.kind = .eof ∧ eof.text = [] ∧
      tree = .program loc (Form.readAll forms {}).frame.trim.children := by
  obtain ⟨loc, nodes, rfl, read⟩ := parse_eq_ok h
  obtain ⟨forms, wf, tokens, rfl⟩ := ofTokens_eq_ok_iff.mp read
  obtain ⟨ts, eof, scan, _⟩ := Token.scanFrom_eq_concat file? {} (Text.joinLineEnds source)
  obtain ⟨taken, isEof, empty⟩ := Token.takeWhile_scanFrom scan
  rw [Token.scan, taken] at tokens
  exact ⟨loc, forms, eof, wf, by rw [Token.scan, scan, tokens], isEof, empty, rfl⟩

/-- A source that parses is formatted, in any width, as one of the texts of the cells of its
tree. -/
theorem format_written {file? : Option String} {source : List Char} {tree : Node}
    (h : Node.parse file? source = .ok tree) (width : Int) :
    ∃ text, format file? width source = .ok text ∧ tree.render width = .ok text ∧
      Written 0 (tree.cells 0) text := by
  obtain ⟨loc, nodes, rfl, read⟩ := Node.parse_eq_ok h
  have known : (Node.program loc nodes).known := Node.known_of_ofTokens read
  obtain ⟨text, rendered, written⟩ := Node.render_written width known
  refine ⟨text, ?_, rendered, written⟩
  rw [format, h]
  exact rendered

/-- The formatted text of a source is that of the pieces of its layout. -/
theorem format_pieces {file? : Option String} {source : List Char} {tree : Node}
    (h : Node.parse file? source = .ok tree) :
    ∃ doc, tree.document = .ok doc ∧ doc.known ∧
      ∀ width, format file? width source = .ok ((doc.pieces width).flatMap Piece.chars) := by
  obtain ⟨loc, nodes, rfl, read⟩ := Node.parse_eq_ok h
  obtain ⟨doc, built, known, _⟩ :=
    Node.document_cells (.program loc nodes) (Node.known_of_ofTokens read)
  refine ⟨doc, built, known, fun width => ?_⟩
  rw [format, h]
  change (Node.program loc nodes).render width = _
  rw [Node.render, built]
  change (doc.render width).mapError FormatError.render = _
  rw [Doc.render_eq width known]
  rfl

/-- Sources with the same layout are formatted alike. -/
theorem format_eq_of_document {file? file'? : Option String} {a b : List Char} {tree tree' : Node}
    (ha : Node.parse file? a = .ok tree) (hb : Node.parse file'? b = .ok tree')
    (same : tree.document = tree'.document) (width : Int) :
    format file? width a = format file'? width b := by
  rw [format, format, ha, hb]
  change tree.render width = tree'.render width
  rw [Node.render, Node.render, same]

end SexprFormat
