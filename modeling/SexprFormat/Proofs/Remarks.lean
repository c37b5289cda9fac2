import Mathlib.Data.List.Forall2
import SexprFormat.Proofs.Preserve

/-!
Comments and directives are all kept, in their order and in the list they were met in. Lists are
told apart by their number in the order in which they open, which is the same among tokens and in
the tree. Main statement: `remarks_of_ofTokens`.
-/

namespace SexprFormat

/-- Where a node stands: right below the program, a list or anything else. -/
inductive Place where
  | program
  /-- Lists are counted as they open. -/
  | list (n : Nat)
  | other
  deriving DecidableEq, Repr

namespace Node

/-- The node stands at the place, among the given nodes of a program. -/
def StandsAt (nodes : List Node) (node : Node) : Place → Prop
  | .program => node ∈ nodes
  | .list n => ∃ loc shape children,
    ((subtreesAll nodes).filter isList)[n]? = some (.list loc shape children) ∧ node ∈ children
  | .other => False

def listCount (nodes : List Node) : Nat :=
  ((subtreesAll nodes).filter isList).length

mutual

/-- The comments and directives in the order of the tree, each with its place. The node itself has
the given one, and `n` lists come before it. -/
def remarks (place : Place) (n : Nat) : Node → List (Place × Node)
  | comment loc s attachment block => [(place, comment loc s attachment block)]
  | directive loc kind? s => [(place, directive loc kind? s)]
  | quoted _ _ _ inner => remarks .other n inner
  | list _ _ children => remarksAll (.list n) (n + 1) children
  | program _ children => remarksAll .other n children
  | atom _ _ | string _ _ | blank _ | unknown _ _ => []

def remarksAll (place : Place) (n : Nat) : List Node → List (Place × Node)
  | [] => []
  | child :: rest => remarks place n child ++ remarksAll place (n + listCount [child]) rest

end

theorem listCount_append (a b : List Node) : listCount (a ++ b) = listCount a + listCount b := by
  simp [listCount, subtreesAll_append]

theorem remarksAll_append (place : Place) (n : Nat) (a b : List Node) :
    remarksAll place n (a ++ b) = remarksAll place n a ++ remarksAll place (n + listCount a) b := by
  induction a generalizing n with
  | nil => rfl
  | cons child a ih =>
    have count := listCount_append [child] a
    rw [List.singleton_append] at count
    rw [List.cons_append, remarksAll, remarksAll, ih, count, List.append_assoc, Nat.add_assoc]

mutual

/-- Every comment and directive is among them, as they come in the tree. -/
theorem map_remarks (place : Place) (n : Nat) :
    ∀ node : Node, (remarks place n node).map Prod.snd = node.subtrees.filter endsLine
  | comment .. | directive .. | atom .. | string .. | blank _ | unknown .. => rfl
  | quoted _ _ _ inner => by
    rw [remarks, map_remarks, subtrees]
    rfl
  | list _ _ children => by
    rw [remarks, map_remarksAll, subtrees]
    rfl
  | program _ children => by
    rw [remarks, map_remarksAll, subtrees]
    rfl

theorem map_remarksAll (place : Place) (n : Nat) : ∀ nodes : List Node,
    (remarksAll place n nodes).map Prod.snd = (subtreesAll nodes).filter endsLine
  | [] => rfl
  | child :: rest => by
    rw [remarksAll, subtreesAll, List.map_append, List.filter_append, map_remarks, map_remarksAll]

end

/-- The node is a child of a list among the given subtrees, which come behind `n` lists. -/
def Within (n : Nat) (subtrees : List Node) (node : Node) (place : Place) : Prop :=
  ∃ k loc shape children, place = .list (n + k) ∧
    (subtrees.filter isList)[k]? = some (.list loc shape children) ∧ node ∈ children

theorem Within.append_right {n : Nat} {a : List Node} {node : Node} {place : Place}
    (h : Within n a node place) (b : List Node) : Within n (a ++ b) node place := by
  obtain ⟨k, loc, shape, children, rfl, list, hn⟩ := h
  refine ⟨k, loc, shape, children, rfl, ?_, hn⟩
  have bound := (List.getElem?_eq_some_iff.mp list).1
  rwa [List.filter_append, List.getElem?_append_left bound]

theorem Within.append_left {n : Nat} {a b : List Node} {node : Node} {place : Place}
    (h : Within (n + (a.filter isList).length) b node place) : Within n (a ++ b) node place := by
  obtain ⟨k, loc, shape, children, rfl, list, hn⟩ := h
  refine ⟨(a.filter isList).length + k, loc, shape, children, by rw [Nat.add_assoc], ?_, hn⟩
  rwa [List.filter_append, List.getElem?_append_right (Nat.le_add_right ..),
    Nat.add_sub_cancel_left]

mutual

/-- The place of a comment or a directive tells what it is a child of. -/
theorem within_of_mem_remarks {place place' : Place} {n : Nat} {node : Node} : ∀ root : Node,
    (place', node) ∈ remarks place n root → place' ≠ .other →
    (place' = place ∧ node = root) ∨ Within n root.subtrees node place'
  | comment .., h, _ | directive .., h, _ => by
    left
    simpa [remarks] using h
  | atom .., h, _ | string .., h, _ | blank _, h, _ | unknown .., h, _ => by simp [remarks] at h
  | quoted loc tag? lead inner, h, ne => by
    right
    rcases within_of_mem_remarks inner h ne with ⟨same, _⟩ | within
    · exact absurd same ne
    · exact within.append_left (a := [.quoted loc tag? lead inner])
  | program loc children, h, ne => by
    right
    rcases within_of_mem_remarksAll children h ne with ⟨same, _⟩ | within
    · exact absurd same ne
    · exact within.append_left (a := [.program loc children])
  | list loc shape children, h, ne => by
    right
    rcases within_of_mem_remarksAll children h ne with ⟨rfl, hn⟩ | within
    · exact ⟨0, loc, shape, children, rfl, rfl, hn⟩
    · exact within.append_left (a := [.list loc shape children])

theorem within_of_mem_remarksAll {place place' : Place} {n : Nat} {node : Node} :
    ∀ nodes : List Node, (place', node) ∈ remarksAll place n nodes → place' ≠ .other →
    (place' = place ∧ node ∈ nodes) ∨ Within n (subtreesAll nodes) node place'
  | [], h, _ => by simp [remarksAll] at h
  | child :: rest, h, ne => by
    rw [remarksAll, List.mem_append] at h
    rcases h with h | h
    · rcases within_of_mem_remarks child h ne with ⟨same, rfl⟩ | within
      · exact .inl ⟨same, List.mem_cons_self ..⟩
      · exact .inr (within.append_right _)
    · rcases within_of_mem_remarksAll rest h ne with ⟨same, hn⟩ | within
      · exact .inl ⟨same, List.mem_cons_of_mem _ hn⟩
      · right
        rw [listCount, subtreesAll, subtreesAll, List.append_nil] at within
        exact within.append_left

end

theorem standsAt_of_mem_remarksAll {nodes : List Node} {place : Place} {node : Node}
    (h : (place, node) ∈ remarksAll .program 0 nodes) (ne : place ≠ .other) :
    StandsAt nodes node place := by
  rcases within_of_mem_remarksAll nodes h ne with ⟨rfl, hn⟩
    | ⟨k, loc, shape, children, rfl, list, hn⟩
  · exact hn
  · rw [Nat.zero_add]
    exact ⟨loc, shape, children, list, hn⟩

/-- What is inside of a datum does not depend on where the datum stands. -/
theorem remarks_of_isDatum {node : Node} (h : node.isDatum) (place place' : Place) (n : Nat) :
    remarks place n node = remarks place' n node := by
  cases node <;> simp_all [isDatum, remarks]

/-- Blank lines are neither lists nor remarks. -/
theorem subtreesAll_blanks {blanks : List Node} (h : ∀ node ∈ blanks, node.isBlank) :
    subtreesAll blanks = blanks := by
  induction blanks with
  | nil => rfl
  | cons node blanks ih =>
    obtain ⟨loc, rfl⟩ := exists_of_isBlank (h node (List.mem_cons_self ..))
    rw [subtreesAll, ih fun n hn => h n (List.mem_cons_of_mem _ hn)]
    rfl

theorem filter_isList_blanks {blanks : List Node} (h : ∀ node ∈ blanks, node.isBlank) :
    (subtreesAll blanks).filter isList = [] := by
  rw [subtreesAll_blanks h, List.filter_eq_nil_iff]
  intro node hn
  obtain ⟨loc, rfl⟩ := exists_of_isBlank (h node hn)
  exact Bool.false_ne_true

theorem remarksAll_blanks {blanks : List Node} (h : ∀ node ∈ blanks, node.isBlank) (place : Place)
    (n : Nat) : remarksAll place n blanks = [] := by
  rw [← List.map_eq_nil_iff, map_remarksAll, subtreesAll_blanks h, List.filter_eq_nil_iff]
  intro node hn
  obtain ⟨loc, rfl⟩ := exists_of_isBlank (h node hn)
  exact Bool.false_ne_true

end Node

/-- The lists that are open, by their numbers and innermost first, and how many have been opened. -/
structure Nesting where
  opened : List Nat := []
  count : Nat := 0

namespace Nesting

def place (s : Nesting) : Place :=
  match s.opened with
  | [] => .program
  | n :: _ => .list n

def pass (s : Nesting) (t : Token) : Nesting :=
  match t.kind with
  | .opening => { opened := s.count :: s.opened, count := s.count + 1 }
  | .closing => { s with opened := s.opened.tail }
  | _ => s

end Nesting

namespace Token

/-- The comments and directives among tokens, each with the innermost list that is open there. -/
def remarks (s : Nesting) : List Token → List (Place × Token)
  | [] => []
  | t :: ts => (if t.isRemark then [(s.place, t)] else []) ++ remarks (s.pass t) ts

/-- The node is made from the comment or the directive. Only a directive that is kept as one keeps
white space at its end. -/
def Makes (t : Token) (node : Node) : Prop :=
  (t.kind = .directive ∧ node = .directive t.loc t.tag? t.text) ∨
    ∃ attachment, node = .comment t.loc (Text.trimEnd t.text) attachment (t.kind = .blockComment)

/-- The list is made from the bracket that opens it. -/
def Opens (opener : Token) (node : Node) : Prop :=
  ∃ last shape children, node = .list (opener.loc.spanTo last) shape children ∧
    opener.shape? = some shape

def isOpening (t : Token) : Bool :=
  t.kind = .opening

theorem remarks_append (s : Nesting) (a b : List Token) :
    remarks s (a ++ b) = remarks s a ++ remarks (a.foldl Nesting.pass s) b := by
  induction a generalizing s with
  | nil => rfl
  | cons t a ih => rw [List.cons_append, remarks, remarks, ih, List.foldl_cons, List.append_assoc]

theorem map_remarks (s : Nesting) (ts : List Token) :
    (remarks s ts).map Prod.snd = ts.filter isRemark := by
  induction ts generalizing s with
  | nil => rfl
  | cons t ts ih =>
    rw [remarks, List.map_append, ih, List.filter_cons]
    cases t.isRemark <;> rfl

theorem place_ne_other {s : Nesting} {ts : List Token} {place : Place} {t : Token}
    (h : (place, t) ∈ remarks s ts) : place ≠ .other := by
  induction ts generalizing s with
  | nil => cases h
  | cons u ts ih =>
    rw [remarks, List.mem_append] at h
    rcases h with h | h
    · have here : place = s.place := by
        cases hu : u.isRemark <;> simp_all
      rw [here, Nesting.place]
      cases s.opened <;> simp
    · exact ih h

/-- Only brackets change what is open. -/
theorem pass_plain {t : Token} (h : t.isMark || t.isTrivia || t.isLeaf) (s : Nesting) :
    s.pass t = s := by
  unfold Nesting.pass
  cases hk : t.kind <;> simp_all [isMark, isTrivia, isLeaf]

theorem foldl_pass_plain (s : Nesting) {ts : List Token}
    (h : ∀ t ∈ ts, t.isMark || t.isTrivia || t.isLeaf) : ts.foldl Nesting.pass s = s := by
  induction ts with
  | nil => rfl
  | cons t ts ih =>
    rw [List.foldl_cons, pass_plain (h t (List.mem_cons_self ..))]
    exact ih fun u hu => h u (List.mem_cons_of_mem _ hu)

theorem remarks_plain (s : Nesting) {ts : List Token}
    (h : ∀ t ∈ ts, t.isMark || t.isTrivia || t.isLeaf) :
    remarks s ts = (ts.filter isRemark).map (s.place, ·) := by
  induction ts with
  | nil => rfl
  | cons t ts ih =>
    rw [remarks, pass_plain (h t (List.mem_cons_self ..)),
      ih fun u hu => h u (List.mem_cons_of_mem _ hu), List.filter_cons]
    cases t.isRemark <;> rfl

theorem filter_isOpening_plain {ts : List Token}
    (h : ∀ t ∈ ts, t.isMark || t.isTrivia || t.isLeaf) :
    ts.filter isOpening = [] := by
  rw [List.filter_eq_nil_iff]
  intro t ht opening
  have kind : t.kind = .opening := of_decide_eq_true opening
  have plain := h t ht
  simp [isMark, isTrivia, isLeaf, kind] at plain

end Token

/-- A remark among the tokens and the node that is made from it stand at the same place. -/
def Remarked (a : Place × Token) (b : Place × Node) : Prop :=
  a.1 = b.1 ∧ a.2.Makes b.2

theorem Remarked.exists_of_mem {made : List (Place × Token)} {kept : List (Place × Node)}
    (h : List.Forall₂ Remarked made kept) {b : Place × Node} (hb : b ∈ kept) :
    ∃ a ∈ made, Remarked a b := by
  induction h with
  | nil => cases hb
  | cons first _ ih =>
    rcases List.mem_cons.mp hb with rfl | hb
    · exact ⟨_, List.mem_cons_self .., first⟩
    · obtain ⟨a, ha, related⟩ := ih hb
      exact ⟨a, List.mem_cons_of_mem _ ha, related⟩

/-- The tokens close every list that they open, and the nodes have the same lists and remarks, each
at its place. -/
structure Mirrors (ts : List Token) (nodes : List Node) : Prop where
  lists : List.Forall₂ Token.Opens (ts.filter Token.isOpening)
    ((Node.subtreesAll nodes).filter Node.isList)
  closes : ∀ s : Nesting, ts.foldl Nesting.pass s =
    { s with count := s.count + (ts.filter Token.isOpening).length }
  remarks : ∀ s : Nesting,
    List.Forall₂ Remarked (Token.remarks s ts) (Node.remarksAll s.place s.count nodes)

namespace Mirrors

variable {ts us : List Token} {nodes more : List Node}

theorem listCount (h : Mirrors ts nodes) :
    Node.listCount nodes = (ts.filter Token.isOpening).length :=
  h.lists.length_eq.symm

theorem append (h : Mirrors ts nodes) (h' : Mirrors us more) :
    Mirrors (ts ++ us) (nodes ++ more) := by
  constructor
  case lists =>
    rw [List.filter_append, Node.subtreesAll_append, List.filter_append]
    exact List.rel_append h.lists h'.lists
  case closes =>
    intro s
    rw [List.foldl_append, h.closes, h'.closes, List.filter_append, List.length_append,
      Nat.add_assoc]
  case remarks =>
    intro s
    rw [Token.remarks_append, Node.remarksAll_append, h.closes, h.listCount]
    exact List.rel_append (h.remarks s) (h'.remarks _)

/-- Where there are no brackets, all that counts are the remarks. -/
theorem of_plain (h : ∀ t ∈ ts, t.isMark || t.isTrivia || t.isLeaf)
    (lists : (Node.subtreesAll nodes).filter Node.isList = [])
    (remarks : ∀ place n, List.Forall₂ Remarked ((ts.filter Token.isRemark).map (place, ·))
      (Node.remarksAll place n nodes)) : Mirrors ts nodes := by
  have none := Token.filter_isOpening_plain h
  constructor
  case lists =>
    rw [none, lists]
    exact .nil
  case closes =>
    intro s
    rw [Token.foldl_pass_plain s h, none]
    rfl
  case remarks =>
    intro s
    rw [Token.remarks_plain s h]
    exact remarks s.place s.count

theorem of_append_blanks {blanks : List Node} (h : Mirrors ts (nodes ++ blanks))
    (hb : ∀ node ∈ blanks, node.isBlank) : Mirrors ts nodes := by
  constructor
  case lists =>
    have lists := h.lists
    rwa [Node.subtreesAll_append, List.filter_append, Node.filter_isList_blanks hb,
      List.append_nil] at lists
  case closes => exact h.closes
  case remarks =>
    intro s
    have remarks := h.remarks s
    rwa [Node.remarksAll_append, Node.remarksAll_blanks hb, List.append_nil] at remarks

/-- Around a list, its brackets open and close it. -/
theorem list {opener closer : Token} {shape : Delimiter} (h : Mirrors ts nodes)
    (ho : opener.kind = .opening) (hs : opener.shape? = some shape) (hc : closer.kind = .closing) :
    Mirrors (opener :: (ts ++ [closer])) [.list (opener.loc.spanTo closer.loc) shape nodes] := by
  have opens : opener.isOpening = true := by simp [Token.isOpening, ho]
  have closes : closer.isOpening = false := by simp [Token.isOpening, hc]
  constructor
  case lists =>
    rw [List.filter_cons_of_pos opens, List.filter_append,
      List.filter_cons_of_neg (by simp [closes]),
      List.filter_nil, List.append_nil, Node.subtreesAll, Node.subtrees, Node.subtreesAll,
      List.append_nil, List.filter_cons_of_pos rfl]
    exact .cons ⟨closer.loc, shape, nodes, rfl, hs⟩ h.lists
  case closes =>
    intro s
    rw [List.foldl_cons, List.foldl_append, h.closes]
    simp [Nesting.pass, ho, hc, opens, closes]
    omega
  case remarks =>
    intro s
    have inside := h.remarks (s.pass opener)
    rw [Token.remarks, Token.remarks_append, h.closes]
    simpa [Token.remarks, Token.isRemark, Nesting.pass, Nesting.place, ho, hc, Node.remarksAll,
      Node.remarks] using inside

theorem quoted {inner : Node} (h : Mirrors ts [inner]) (hd : inner.isDatum) (loc : Location)
    (tag? : Option Token.Tag) (lead : List Char) : Mirrors ts [.quoted loc tag? lead inner] := by
  constructor
  case lists =>
    have lists := h.lists
    rw [Node.subtreesAll, Node.subtreesAll, List.append_nil] at lists ⊢
    rwa [Node.subtrees, List.filter_cons_of_neg (by simp [Node.isList])]
  case closes => exact h.closes
  case remarks =>
    intro s
    have remarks := h.remarks s
    rw [Node.remarksAll, Node.remarksAll, List.append_nil] at remarks ⊢
    rwa [Node.remarks, Node.remarks_of_isDatum hd .other s.place]

/-- A datum behind quote marks has the lists and the remarks of the datum. -/
theorem wrapped {datum : Node} (h : Mirrors ts [datum]) (hd : datum.isDatum) (lead : List Token) :
    Mirrors ts [Form.wrapped lead datum] := by
  have all : Mirrors ts [Form.wrapped lead datum] ∧ (Form.wrapped lead datum).isDatum := by
    unfold Form.wrapped
    induction lead.filter Token.isMark with
    | nil => exact ⟨h, hd⟩
    | cons mark marks ih => exact ⟨ih.1.quoted ih.2 .., rfl⟩
  exact all.1

end Mirrors

namespace Form

theorem filter_isList_held (ts : List Token) :
    (Node.subtreesAll (ts.map Token.heldNode)).filter Node.isList = [] := by
  induction ts with
  | nil => rfl
  | cons t ts ih => exact ih

theorem remarked_held (ts : List Token) (place : Place) (n : Nat) :
    List.Forall₂ Remarked (ts.map (place, ·))
      (Node.remarksAll place n (ts.map Token.heldNode)) := by
  induction ts with
  | nil => exact .nil
  | cons t ts ih => exact .cons ⟨rfl, .inr ⟨.leading, rfl⟩⟩ ih

/-- The comments before a datum are those of its lead. -/
theorem mirrors_lead {lead : List Token} (h : IsLead lead) : Mirrors lead (heldNodes lead) := by
  apply Mirrors.of_plain
  · intro t ht
    simp [h.1 t ht]
  · exact filter_isList_held _
  · exact remarked_held _

theorem mirrors_leaf {t : Token} (ht : t.isLeaf) : Mirrors [t] [t.leafNode] := by
  have noRemark : t.isRemark = false := by
    cases hk : t.kind <;> simp_all [Token.isLeaf, Token.isRemark]
  apply Mirrors.of_plain
  · simp [ht]
  · unfold Token.leafNode
    split <;> rfl
  · intro place n
    unfold Token.leafNode
    split <;> simp [noRemark, Node.remarksAll, Node.remarks]

theorem mirrors_trivia {t : Token} (ht : t.isTrivia) (l : Level) :
    Mirrors [t] (l.triviaNodes t) := by
  apply Mirrors.of_plain
  · simp [ht]
  · cases l.triviaCase ht with
    | skipped nodes | dropped nodes | blank nodes | comment nodes | directive nodes =>
      rw [nodes]; rfl
  · intro place n
    cases l.triviaCase ht with
    | skipped nodes _ kind =>
      rcases kind with kind | kind <;> simp [nodes, Token.isRemark, kind, Node.remarksAll]
    | dropped nodes kind | blank nodes kind =>
      simp [nodes, Token.isRemark, kind, Node.remarksAll, Node.remarks]
    | comment nodes remark =>
      have makes : t.Makes (l.commentNode t) := .inr ⟨_, rfl⟩
      simpa [nodes, remark, Node.remarksAll, Node.remarks, Level.commentNode, Remarked] using makes
    | directive nodes kind =>
      have makes : t.Makes (.directive t.loc t.tag? t.text) := .inl ⟨kind, rfl⟩
      simpa [nodes, Token.isRemark, kind, Node.remarksAll, Node.remarks, Remarked] using makes

theorem mirrors_nodesAll {forms : List Form}
    (h : ∀ form ∈ forms, ∀ l, Mirrors form.tokens (form.nodes l)) (l : Level) :
    Mirrors (tokensAll forms) (nodesAll forms l) := by
  induction forms generalizing l with
  | nil => exact .of_plain (by simp [tokensAll]) rfl fun _ _ => .nil
  | cons form forms ih =>
    exact (h form (List.mem_cons_self ..) l).append
      (ih (fun f hf => h f (List.mem_cons_of_mem _ hf)) _)

theorem Wf.mirrors {form : Form} (h : form.Wf) (l : Level) :
    Mirrors form.tokens (form.nodes l) := by
  induction h generalizing l with
  | trivia ht => exact mirrors_trivia ht l
  | @leaf lead datum hlead ht =>
    exact (mirrors_lead hlead).append ((mirrors_leaf ht).wrapped (isDatum_leafNode datum) lead)
  | @list lead opener closer body shape hlead ho hs hbody hc hcs ih =>
    obtain ⟨blanks, split, hb⟩ := nodesAll_eq_trim hbody opener.endLine false
    have inside := mirrors_nodesAll ih { lastLine := opener.endLine, atHead := false }
    rw [split] at inside
    have list := (inside.of_append_blanks hb).list ho hs hc
    rw [tokens, nodes, hs]
    exact (mirrors_lead hlead).append (list.wrapped rfl lead)

end Form

/-- Reading keeps every comment and directive up to the end mark: in the order of the tree they are
those of the tokens, each with its own text, and each is a child of the list that is made from the
innermost bracket that is open there, or else of the program. -/
theorem Node.remarks_of_ofTokens {tokens : List Token} {nodes : List Node}
    (h : ofTokens tokens = .ok nodes) :
    let read := tokens.takeWhile (·.kind ≠ .eof)
    List.Forall₂ Remarked (Token.remarks {} read) (remarksAll .program 0 nodes) ∧
      (Token.remarks {} read).map Prod.snd = read.filter Token.isRemark ∧
      (remarksAll .program 0 nodes).map Prod.snd = (subtreesAll nodes).filter endsLine ∧
      (∀ place node, (place, node) ∈ remarksAll .program 0 nodes → StandsAt nodes node place) ∧
      List.Forall₂ Token.Opens (read.filter Token.isOpening)
        ((subtreesAll nodes).filter isList) := by
  intro read
  obtain ⟨forms, wf, split, rfl⟩ := ofTokens_eq_ok_iff.mp h
  have mirrors : Mirrors read (Form.readAll forms {}).frame.trim.children := by
    obtain ⟨blanks, nodes, hb⟩ := Form.nodesAll_eq_trim wf 0 true
    have all := Form.mirrors_nodesAll (fun form hf => (wf form hf).mirrors) {}
    rw [nodes, ← split] at all
    exact all.of_append_blanks hb
  have remarks := mirrors.remarks {}
  refine ⟨remarks, Token.map_remarks .., map_remarksAll .., ?_, mirrors.lists⟩
  intro place node hn
  obtain ⟨⟨place', t⟩, ht, same, _⟩ := Remarked.exists_of_mem remarks hn
  apply standsAt_of_mem_remarksAll hn
  cases same
  exact Token.place_ne_other ht

theorem Node.remarks_of_ofTokens_held :
    ∃ nodes,
      ofTokens (Token.scan none "#!r\n' ;a \n(b ;c\n `(#|d|# e) ;f\n);g".toList) = .ok nodes ∧
      (remarksAll .program 0 nodes).map Prod.fst =
        [.program, .program, .list 0, .list 1, .list 0, .program] ∧
      ∀ place node, (place, node) ∈ remarksAll .program 0 nodes → StandsAt nodes node place := by
  have places : (ofTokens
      (Token.scan none "#!r\n' ;a \n(b ;c\n `(#|d|# e) ;f\n);g".toList)).toOption.any
      fun nodes => (remarksAll .program 0 nodes).map Prod.fst =
        [.program, .program, .list 0, .list 1, .list 0, .program] := by cbv
  cases h : ofTokens (Token.scan none "#!r\n' ;a \n(b ;c\n `(#|d|# e) ;f\n);g".toList) with
  | error e =>
    rw [h] at places
    cases places
  | ok nodes =>
    rw [h] at places
    obtain ⟨_, _, _, stand, _⟩ := remarks_of_ofTokens h
    exact ⟨nodes, rfl, of_decide_eq_true places, stand⟩

/-- What comes behind an end mark is not read. -/
theorem Node.remarks_behind_eof :
    let loc : Location := { line := 1, column := 1 }
    let tokens : List Token :=
      [{ kind := .eof, text := [], loc }, { kind := .lineComment, text := ";c".toList, loc }]
    ∃ nodes, ofTokens tokens = .ok nodes ∧
      ¬List.Forall₂ Token.Makes (tokens.filter Token.isRemark)
        ((subtreesAll nodes).filter endsLine) := by
  intro loc tokens
  have read : ofTokens tokens = .ok [] := rfl
  refine ⟨[], read, ?_⟩
  intro all
  cases all

end SexprFormat
