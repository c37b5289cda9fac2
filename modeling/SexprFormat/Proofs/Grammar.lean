import SexprFormat.Proofs.Form

/-!
The grammar of S-expressions over tokens, with the tree of each derivation. Main statement:
`sequence_iff_ofTokens`, reading accepts exactly the derivable lists of tokens, and the data of its
nodes are the tree of the derivation.
-/

namespace SexprFormat

/-- The place of a node that is looked at without its place. -/
def Location.nowhere : Location := { line := 0, column := 0 }

namespace Node

/-- Comments, directives and blank lines, which are no data. -/
def isTrivia : Node → Bool
  | comment _ _ _ _ | directive _ _ _ | blank _ => true
  | _ => false

mutual

/-- A node without places, and without what is no datum at any depth below it. -/
def bare : Node → Node
  | atom _ s => atom .nowhere s
  | string _ s => string .nowhere s
  | comment _ s attachment block => comment .nowhere s attachment block
  | directive _ tag? s => directive .nowhere tag? s
  | quoted _ tag? lead inner => quoted .nowhere tag? lead (bare inner)
  | list _ shape children => list .nowhere shape (bareAll children)
  | program _ children => program .nowhere (bareAll children)
  | blank _ => blank .nowhere
  | unknown _ kind => unknown none kind

def bareAll : List Node → List Node
  | [] => []
  | node :: nodes => if node.isTrivia then bareAll nodes else bare node :: bareAll nodes

end

theorem bareAll_append (a b : List Node) : bareAll (a ++ b) = bareAll a ++ bareAll b := by
  induction a with
  | nil => rfl
  | cons node a ih =>
    simp only [List.cons_append, bareAll, ih]
    split <;> rfl

theorem bareAll_eq_nil {nodes : List Node} (h : ∀ node ∈ nodes, node.isTrivia) :
    bareAll nodes = [] := by
  induction nodes with
  | nil => rfl
  | cons node nodes ih =>
    rw [bareAll, if_pos (h node (List.mem_cons_self ..))]
    exact ih fun n hn => h n (List.mem_cons_of_mem _ hn)

/-- A datum behind quote marks: the first mark is outermost. -/
def quotedBy (marks : List Token) (datum : Node) : Node :=
  marks.foldr (fun mark node => quoted .nowhere mark.tag? mark.text node) datum

end Node

/-- `(mark trivia*)*`, and the marks in it. -/
inductive Marked : List Token → List Token → Prop where
  | nil : Marked [] []
  | mark {mark : Token} {trivia ts marks : List Token} :
      mark.kind = .quoteMark → (∀ t ∈ trivia, t.isTrivia) → Marked ts marks →
      Marked (mark :: (trivia ++ ts)) (mark :: marks)

mutual

/-- `item*`, where an item is a token of trivia or `(mark trivia*)* datum`, and its data. -/
inductive Sequence : List Token → List Node → Prop where
  | nil : Sequence [] []
  | trivia {t : Token} {ts : List Token} {trees : List Node} :
      t.isTrivia → Sequence ts trees → Sequence (t :: ts) trees
  | item {lead marks datum ts : List Token} {tree : Node} {trees : List Node} :
      Marked lead marks → Datum datum tree → Sequence ts trees →
      Sequence (lead ++ datum ++ ts) (tree.quotedBy marks :: trees)

/-- A closed atom or string, or a sequence between two brackets of one shape. -/
inductive Datum : List Token → Node → Prop where
  | atom {t : Token} : t.kind = .atom → t.closed → Datum [t] (.atom .nowhere t.text)
  | string {t : Token} : t.kind = .string → t.closed → Datum [t] (.string .nowhere t.text)
  | list {opener closer : Token} {ts : List Token} {trees : List Node} {shape : Delimiter} :
      opener.kind = .opening → opener.shape? = some shape → Sequence ts trees →
      closer.kind = .closing → closer.shape? = some shape →
      Datum (opener :: (ts ++ [closer])) (.list .nowhere shape trees)

end

namespace Marked

theorem isLead {lead marks : List Token} (h : Marked lead marks) : Form.IsLead lead := by
  refine ⟨?_, ?_⟩
  · induction h with
    | nil => simp
    | @mark m trivia ts marks hm ht _ ih =>
      intro t hmem
      rcases List.mem_cons.mp hmem with rfl | hmem
      · simp [Token.isMark, hm]
      · rcases List.mem_append.mp hmem with hmem | hmem
        · simp [ht t hmem]
        · exact ih t hmem
  · cases h with
    | nil => rfl
    | mark hm => simp [Token.isMark, hm]

theorem marks_eq {lead marks : List Token} (h : Marked lead marks) :
    marks = lead.filter Token.isMark := by
  induction h with
  | nil => rfl
  | @mark m trivia ts marks hm ht _ ih =>
    have none : trivia.filter Token.isMark = [] := by
      rw [List.filter_eq_nil_iff]
      intro t hmem
      have := ht t hmem
      cases hk : t.kind <;> simp_all [Token.isTrivia, Token.isMark]
    simp [Token.isMark, hm, List.filter_append, none, ← ih]

theorem of_marks_and_trivia {ts : List Token} (h : ∀ t ∈ ts, t.isMark || t.isTrivia) :
    ∃ trivia rest, ts = trivia ++ rest ∧ (∀ t ∈ trivia, t.isTrivia) ∧
      Marked rest (ts.filter Token.isMark) := by
  induction ts with
  | nil => exact ⟨[], [], rfl, by simp, .nil⟩
  | cons t ts ih =>
    obtain ⟨trivia, rest, rfl, htrivia, hrest⟩ := ih fun u hu => h u (List.mem_cons_of_mem _ hu)
    by_cases ht : t.isMark
    · have kind : t.kind = .quoteMark := by simpa [Token.isMark] using ht
      refine ⟨[], t :: (trivia ++ rest), rfl, by simp, ?_⟩
      simpa [ht] using Marked.mark kind htrivia hrest
    · have trivial : t.isTrivia := by simpa [ht] using h t (List.mem_cons_self ..)
      refine ⟨t :: trivia, rest, rfl, ?_, by simpa [ht] using hrest⟩
      intro u hu
      rcases List.mem_cons.mp hu with rfl | hu
      · exact trivial
      · exact htrivia u hu

/-- Every lead is derivable; the trivia go to the mark before them. -/
theorem of_isLead {lead : List Token} (h : Form.IsLead lead) :
    Marked lead (lead.filter Token.isMark) := by
  obtain ⟨trivia, rest, heq, htrivia, hrest⟩ := of_marks_and_trivia h.1
  cases trivia with
  | nil => simpa [heq] using hrest
  | cons t trivia =>
    have mark : t.isMark := by simpa [heq] using h.2
    have trivial := htrivia t (List.mem_cons_self ..)
    cases hk : t.kind <;> simp_all [Token.isMark, Token.isTrivia]

end Marked

theorem Token.datum_leafNode {t : Token} (h : t.isLeaf) : Datum [t] t.leafNode.bare := by
  cases hk : t.kind with
  | atom =>
    rw [leafNode, if_pos hk]
    exact .atom hk (by simpa [isLeaf, hk] using h)
  | string =>
    rw [leafNode, if_neg (by simp [hk])]
    exact .string hk (by simpa [isLeaf, hk] using h)
  | _ => simp [isLeaf, hk] at h

namespace Form

mutual

/-- The data of a form: none for trivia, else one. -/
def trees : Form → List Node
  | trivia _ => []
  | leaf lead datum => [datum.leafNode.bare.quotedBy (lead.filter Token.isMark)]
  | list lead opener body _ =>
    [(Node.list .nowhere (opener.shape?.getD default) (treesAll body)).quotedBy
      (lead.filter Token.isMark)]

def treesAll : List Form → List Node
  | [] => []
  | form :: forms => trees form ++ treesAll forms

end

theorem sequence_all {forms : List Form}
    (h : ∀ form ∈ forms, ∀ (ts : List Token) (rest : List Node),
      Sequence ts rest → Sequence (form.tokens ++ ts) (form.trees ++ rest)) :
    Sequence (tokensAll forms) (treesAll forms) := by
  induction forms with
  | nil => exact .nil
  | cons form forms ih =>
    exact h form (List.mem_cons_self ..) _ _ (ih fun f hf => h f (List.mem_cons_of_mem _ hf))

/-- A well-formed form is an item of the grammar. -/
theorem Wf.sequence {form : Form} (h : form.Wf) {ts : List Token} {rest : List Node}
    (hrest : Sequence ts rest) : Sequence (form.tokens ++ ts) (form.trees ++ rest) := by
  induction h generalizing ts rest with
  | trivia ht => exact .trivia ht hrest
  | leaf hlead ht =>
    simpa [tokens, trees] using
      Sequence.item (Marked.of_isLead hlead) (Token.datum_leafNode ht) hrest
  | @list lead opener closer body shape hlead ho hs hbody hc hcs ih =>
    have hdatum := Datum.list ho hs (sequence_all fun f hf _ _ h => ih f hf h) hc hcs
    simpa [tokens, trees, hs] using Sequence.item (Marked.of_isLead hlead) hdatum hrest

end Form

mutual

/-- What the grammar derives are the tokens and the data of well-formed forms. -/
theorem Sequence.forms {ts : List Token} {trees : List Node} :
    Sequence ts trees → ∃ forms : List Form, (∀ form ∈ forms, form.Wf) ∧
      Form.tokensAll forms = ts ∧ Form.treesAll forms = trees
  | .nil => ⟨[], by simp, rfl, rfl⟩
  | .trivia ht hs => by
    obtain ⟨forms, wf, rfl, rfl⟩ := hs.forms
    refine ⟨.trivia _ :: forms, ?_, rfl, rfl⟩
    intro f hf
    rcases List.mem_cons.mp hf with rfl | hf
    · exact .trivia ht
    · exact wf f hf
  | .item hlead hd hs => by
    obtain ⟨form, hform, tokens, tree⟩ := hd.form hlead
    obtain ⟨forms, wf, rfl, rfl⟩ := hs.forms
    refine ⟨form :: forms, ?_, by simp [Form.tokensAll, tokens], by simp [Form.treesAll, tree]⟩
    intro f hf
    rcases List.mem_cons.mp hf with rfl | hf
    · exact hform
    · exact wf f hf

theorem Datum.form {ts lead marks : List Token} {tree : Node} :
    Datum ts tree → Marked lead marks → ∃ form : Form, form.Wf ∧
      form.tokens = lead ++ ts ∧ form.trees = [tree.quotedBy marks]
  | .atom hk hc, hlead =>
    ⟨.leaf lead _, .leaf hlead.isLead (by simp [Token.isLeaf, hk, hc]), rfl,
      by simp [Form.trees, Token.leafNode, hk, Node.bare, hlead.marks_eq]⟩
  | .string hk hc, hlead =>
    ⟨.leaf lead _, .leaf hlead.isLead (by simp [Token.isLeaf, hk, hc]), rfl,
      by simp [Form.trees, Token.leafNode, hk, Node.bare, hlead.marks_eq]⟩
  | .list ho hs hseq hc hcs, hlead => by
    obtain ⟨body, wf, rfl, rfl⟩ := hseq.forms
    exact ⟨.list lead _ body _, .list hlead.isLead ho hs wf hc hcs, rfl,
      by simp [Form.trees, hs, hlead.marks_eq]⟩

end

/-- Blank lines at the end are no data. -/
theorem Frame.bareAll_trim (f : Frame) :
    Node.bareAll f.trim.children = Node.bareAll f.children := by
  obtain ⟨blanks, split, hblanks⟩ := f.children_eq_trim
  have none : Node.bareAll blanks = [] := by
    refine Node.bareAll_eq_nil fun node hn => ?_
    have blank := hblanks node hn
    cases node <;> simp_all [Node.isBlank, Node.isTrivia]
  rw [split, Node.bareAll_append, none, List.append_nil]

theorem Level.bareAll_triviaNodes (l : Level) {t : Token} (ht : t.isTrivia) :
    Node.bareAll (l.triviaNodes t) = [] := by
  cases l.triviaCase ht with
  | skipped nodes | dropped nodes | blank nodes | comment nodes | directive nodes => rw [nodes]; rfl

namespace Form

theorem bareAll_heldNodes (lead : List Token) : Node.bareAll (heldNodes lead) = [] := by
  refine Node.bareAll_eq_nil fun node hn => ?_
  obtain ⟨t, _, rfl⟩ := List.mem_map.mp hn
  rfl

theorem bareAll_wrapped (lead : List Token) {node : Node} (h : node.isTrivia = false) :
    Node.bareAll [wrapped lead node] = [node.bare.quotedBy (lead.filter Token.isMark)] := by
  have wraps : (wrapped lead node).isTrivia = false ∧
      (wrapped lead node).bare = node.bare.quotedBy (lead.filter Token.isMark) := by
    unfold wrapped Node.quotedBy
    induction lead.filter Token.isMark with
    | nil => exact ⟨h, rfl⟩
    | cons mark marks ih =>
      rw [List.foldr_cons, List.foldr_cons, ← ih.2]
      exact ⟨rfl, rfl⟩
  simp [Node.bareAll, wraps]

theorem isTrivia_leafNode (t : Token) : t.leafNode.isTrivia = false := by
  unfold Token.leafNode
  split <;> rfl

theorem bareAll_nodesAll {forms : List Form}
    (h : ∀ form ∈ forms, ∀ l : Level, Node.bareAll (form.nodes l) = form.trees) (l : Level) :
    Node.bareAll (nodesAll forms l) = treesAll forms := by
  induction forms generalizing l with
  | nil => rfl
  | cons form forms ih =>
    rw [nodesAll, treesAll, Node.bareAll_append, h form (List.mem_cons_self ..) l,
      ih (fun f hf => h f (List.mem_cons_of_mem _ hf))]

/-- The data among the nodes of a form are its trees. -/
theorem Wf.bareAll_nodes {form : Form} (h : form.Wf) (l : Level) :
    Node.bareAll (form.nodes l) = form.trees := by
  induction h generalizing l with
  | trivia ht => exact l.bareAll_triviaNodes ht
  | @leaf lead datum hlead ht =>
    rw [nodes, trees, Node.bareAll_append, bareAll_heldNodes,
      bareAll_wrapped lead (isTrivia_leafNode datum)]
    rfl
  | @list lead opener closer body shape hlead ho hs hbody hc hcs ih =>
    rw [nodes, trees, Node.bareAll_append, bareAll_heldNodes, bareAll_wrapped lead rfl, Node.bare,
      Frame.bareAll_trim, children_readAll hbody ⟨rfl, rfl⟩]
    exact congrArg (fun cs => [(Node.list .nowhere _ cs).quotedBy _]) (bareAll_nodesAll ih _)

end Form

/-- Reading succeeds on exactly the lists of tokens that the grammar derives, up to the first end
mark, and the data of its nodes are the tree of the derivation. -/
theorem sequence_iff_ofTokens (tokens : List Token) (trees : List Node) :
    Sequence (tokens.takeWhile (·.kind ≠ .eof)) trees ↔
      ∃ nodes, Node.ofTokens tokens = .ok nodes ∧ Node.bareAll nodes = trees := by
  have data {forms : List Form} (wf : ∀ form ∈ forms, form.Wf) :
      Node.bareAll (Form.readAll forms {}).frame.trim.children = Form.treesAll forms := by
    rw [Frame.bareAll_trim, Form.children_readAll wf ⟨rfl, rfl⟩]
    exact Form.bareAll_nodesAll (fun form hf => (wf form hf).bareAll_nodes) _
  constructor
  · intro h
    obtain ⟨forms, wf, tokens_eq, rfl⟩ := h.forms
    exact ⟨_, Node.ofTokens_eq_ok_iff.mpr ⟨forms, wf, tokens_eq.symm, rfl⟩, data wf⟩
  · rintro ⟨nodes, hn, rfl⟩
    obtain ⟨forms, wf, tokens_eq, rfl⟩ := Node.ofTokens_eq_ok_iff.mp hn
    rw [tokens_eq, data wf]
    exact Form.sequence_all fun form hf _ _ h => (wf form hf).sequence h

end SexprFormat
