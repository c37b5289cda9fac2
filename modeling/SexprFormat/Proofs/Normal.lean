import Mathlib.Data.List.Chain
import SexprFormat.Proofs.Preserve

/-!
The normal form of what is read. Blank lines stand between other nodes, directives at the head of
the program, data behind quote marks, and comments have no white space at their end; all this is so
at every depth and whatever the tokens are. Main statement: `normal_of_ofTokens`.
-/

namespace SexprFormat

namespace Node

def isDirective : Node → Bool
  | directive _ _ _ => true
  | _ => false

theorem isDirective_of_isDatum {node : Node} (h : node.isDatum) : node.isDirective = false := by
  cases node <;> simp_all [isDatum, isDirective]

/-- Every blank line has another node before it. -/
structure BlanksBehind (nodes : List Node) : Prop where
  first : nodes.head?.all (!·.isBlank)
  apart : nodes.IsChain fun a b => ¬(a.isBlank ∧ b.isBlank)

/-- Every blank line stands between two other nodes. -/
structure BlanksApart (nodes : List Node) : Prop extends BlanksBehind nodes where
  last : nodes.getLast?.all (!·.isBlank)

/-- The nodes of a program in normal form. -/
structure Normal (nodes : List Node) : Prop where
  blanks : BlanksApart nodes
  blanksInLists : ∀ loc shape children, .list loc shape children ∈ subtreesAll nodes →
    BlanksApart children
  directives : ∃ heads rest, nodes = heads ++ rest ∧ (∀ node ∈ heads, node.isDirective) ∧
    ∀ node ∈ subtreesAll rest, node.isDirective = false
  quoted : ∀ loc tag? lead inner, .quoted loc tag? lead inner ∈ subtreesAll nodes → inner.isDatum
  comments : ∀ loc s attachment block, .comment loc s attachment block ∈ subtreesAll nodes →
    s.getLast?.all (!Text.isBlank ·)

/-- What the normal form asks of a node and the nodes right below it. -/
def Settled : Node → Prop
  | comment _ s _ _ => s.getLast?.all (!Text.isBlank ·)
  | quoted _ _ _ inner => inner.isDatum
  | list _ _ children => BlanksApart children ∧ ∀ child ∈ children, child.isDirective = false
  | program _ _ | unknown _ _ => False
  | atom _ _ | string _ _ | directive _ _ _ | blank _ => True

/-- Below nodes that are settled there is no directive. -/
theorem not_isDirective_of_settled {nodes : List Node}
    (settled : ∀ node ∈ subtreesAll nodes, node.Settled)
    (top : ∀ node ∈ nodes, node.isDirective = false) :
    ∀ node ∈ subtreesAll nodes, node.isDirective = false := by
  intro node hn
  rcases parent_of_mem_subtreesAll nodes hn with here | ⟨parent, hp, below⟩
  · exact top node here
  · have held := settled parent hp
    cases parent with
    | quoted _ _ _ inner =>
      obtain rfl := List.mem_singleton.mp below
      exact isDirective_of_isDatum held
    | list => exact held.2 node below
    | program => exact held.elim
    | atom | string | comment | directive | blank | unknown => cases below

namespace BlanksBehind

/-- Nodes go on with other nodes than blank lines, or with one blank line behind another node. -/
theorem append {nodes more : List Node} (h : BlanksBehind nodes)
    (hm : (∀ node ∈ more, node.isBlank = false) ∨
      ∃ loc, more = [.blank loc] ∧ nodes.getLast?.any (!·.isBlank)) :
    BlanksBehind (nodes ++ more) := by
  rcases hm with none | ⟨loc, rfl, behind⟩
  · constructor
    · cases nodes with
      | nil => cases more <;> simp_all
      | cons => simpa using h.first
    · refine h.apart.append ?_ ?_
      · induction more with
        | nil => exact .nil
        | cons node more ih =>
          refine List.isChain_cons.mpr ⟨?_, ih fun n hn => none n (List.mem_cons_of_mem _ hn)⟩
          simp [none node (List.mem_cons_self ..)]
      · intro a _ b hb both
        have first := none b (List.mem_of_mem_head? hb)
        simp [first] at both
  · constructor
    · cases nodes with
      | nil => simp at behind
      | cons => simpa using h.first
    · refine h.apart.append (.singleton _) ?_
      intro a ha b _ both
      rw [Option.mem_def.mp ha] at behind
      simp [both.1] at behind

/-- Once the blank lines at the end are dropped, every other one stands between two nodes. -/
theorem trim {f : Frame} (h : BlanksBehind f.children) : BlanksApart f.trim.children := by
  obtain ⟨blanks, split, _⟩ := f.children_eq_trim
  rw [split] at h
  refine { first := ?_, apart := h.apart.left_of_append, last := ?_ }
  · have first := h.first
    cases hc : f.trim.children with
    | nil => rfl
    | cons => simpa [hc] using first
  · rw [Frame.children, Frame.trim, List.getLast?_reverse]
    have top := List.head?_dropWhile_not Node.isBlank f.nodes
    cases hn : (f.nodes.dropWhile Node.isBlank).head? with
    | none => rfl
    | some last => simpa [hn] using top

end BlanksBehind

/-- Directives come first, and there is none among the rest. -/
def Headed (nodes : List Node) : Prop :=
  ∃ heads rest, nodes = heads ++ rest ∧ (∀ node ∈ heads, node.isDirective) ∧
    ∀ node ∈ rest, node.isDirective = false

namespace Headed

theorem of_directives {nodes : List Node} (h : ∀ node ∈ nodes, node.isDirective) : Headed nodes :=
  ⟨nodes, [], (List.append_nil _).symm, h, by simp⟩

theorem append {nodes more : List Node} (h : Headed nodes)
    (hm : ∀ node ∈ more, node.isDirective = false) : Headed (nodes ++ more) := by
  obtain ⟨heads, rest, rfl, hh, hr⟩ := h
  refine ⟨heads, rest ++ more, List.append_assoc .., hh, ?_⟩
  intro node hn
  rcases List.mem_append.mp hn with hn | hn
  · exact hr node hn
  · exact hm node hn

theorem left_of_append {nodes more : List Node} (h : Headed (nodes ++ more)) : Headed nodes := by
  obtain ⟨heads, rest, split, hh, hr⟩ := h
  rcases List.append_eq_append_iff.mp split with ⟨extra, rfl, -⟩ | ⟨extra, rfl, rfl⟩
  · exact of_directives fun node hn => hh node (List.mem_append_left _ hn)
  · exact ⟨heads, extra, rfl, hh, fun node hn => hr node (List.mem_append_left _ hn)⟩

end Headed

end Node

namespace Form

/-- What a lead holds back are comments without white space at their end. -/
theorem comment_of_heldNodes {lead : List Token} {node : Node} (h : node ∈ heldNodes lead) :
    ∃ loc s attachment block, node = .comment loc (Text.trimEnd s) attachment block := by
  obtain ⟨t, _, rfl⟩ := List.mem_map.mp h
  exact ⟨_, _, _, _, rfl⟩

/-- A datum behind marks is a datum, and what is so of its nodes is so behind the marks. -/
theorem settled_wrapped (lead : List Token) {datum : Node} (h : datum.isDatum)
    (settled : ∀ node ∈ datum.subtrees, node.Settled) :
    (wrapped lead datum).isDatum ∧ ∀ node ∈ (wrapped lead datum).subtrees, node.Settled := by
  unfold wrapped
  induction lead.filter Token.isMark with
  | nil => exact ⟨h, settled⟩
  | cons mark marks ih =>
    rw [List.foldr_cons]
    refine ⟨rfl, ?_⟩
    intro node hn
    rw [Frame.wrap, Node.subtrees, List.mem_cons] at hn
    rcases hn with rfl | hn
    · exact ih.1
    · exact ih.2 node hn

/-- The nodes of a datum with its lead are a run of comments and the datum behind its marks. -/
theorem settled_datum (lead : List Token) {datum : Node} (h : datum.isDatum)
    (settled : ∀ node ∈ datum.subtrees, node.Settled) :
    ∀ node ∈ Node.subtreesAll (heldNodes lead ++ [wrapped lead datum]), node.Settled := by
  intro node hn
  obtain ⟨child, hc, hn⟩ := Node.mem_subtreesAll.mp hn
  rcases List.mem_append.mp hc with held | last
  · obtain ⟨loc, s, attachment, block, rfl⟩ := comment_of_heldNodes held
    obtain rfl : node = .comment loc (Text.trimEnd s) attachment block := by
      simpa [Node.subtrees] using hn
    exact Text.getLast_trimEnd s
  · obtain rfl := List.mem_singleton.mp last
    exact (settled_wrapped lead h settled).2 node hn

theorem plain_datum (lead : List Token) {datum : Node} (h : datum.isDatum) :
    ∀ node ∈ heldNodes lead ++ [wrapped lead datum],
      node.isBlank = false ∧ node.isDirective = false := by
  intro node hn
  rcases List.mem_append.mp hn with held | last
  · obtain ⟨loc, s, attachment, block, rfl⟩ := comment_of_heldNodes held
    exact ⟨rfl, rfl⟩
  · obtain rfl := List.mem_singleton.mp last
    have datum := isDatum_wrapped lead h
    exact ⟨Node.isBlank_of_isDatum datum, Node.isDirective_of_isDatum datum⟩

/-- A form adds no blank line, or one behind another node. -/
theorem Wf.blanks_read {form : Form} (h : form.Wf) {l : Level} (clean : l.frame.Clean)
    (blanks : Node.BlanksBehind l.frame.children) :
    Node.BlanksBehind (form.read l).frame.children := by
  rw [h.children_read clean]
  apply blanks.append
  cases h with
  | leaf =>
    left
    exact fun node hn => (plain_datum _ (isDatum_leafNode _) node hn).1
  | list =>
    left
    exact fun node hn => (plain_datum _ rfl node hn).1
  | trivia ht =>
    rw [Form.nodes]
    cases l.triviaCase ht with
    | skipped nodes | dropped nodes => simp [nodes]
    | comment nodes => simp [nodes, Level.commentNode, Node.isBlank]
    | directive nodes => simp [nodes, Node.isBlank]
    | blank nodes _ _ _ _ top nonblank =>
      simp [nodes, Frame.children, top, nonblank]

/-- Reading is at the head of the program as long as all that it has met there are directives. -/
theorem Wf.atHead_read {form : Form} (h : form.Wf) {l : Level} (head : (form.read l).atHead) :
    l.atHead ∧ ∀ node ∈ form.nodes l, node.isDirective := by
  cases h with
  | leaf _ ht => simp [read, Level.pass_leaf _ ht] at head
  | list => simp [read] at head
  | trivia ht =>
    rw [read] at head
    rw [Form.nodes]
    cases l.triviaCase ht with
    | skipped nodes same => simpa [nodes, same] using head
    | dropped _ _ _ _ later | blank _ _ _ _ later | comment _ _ _ later => simp [later] at head
    | directive nodes _ first => simp [nodes, first, Node.isDirective]

theorem Wf.isDirective_nodes {form : Form} (h : form.Wf) {l : Level}
    (head : (form.read l).atHead = false) : ∀ node ∈ form.nodes l, node.isDirective = false := by
  cases h with
  | leaf => exact fun node hn => (plain_datum _ (isDatum_leafNode _) node hn).2
  | list => exact fun node hn => (plain_datum _ rfl node hn).2
  | trivia ht =>
    rw [read] at head
    rw [Form.nodes]
    cases l.triviaCase ht with
    | skipped nodes | dropped nodes => simp [nodes]
    | blank nodes => simp [nodes, Node.isDirective]
    | comment nodes => simp [nodes, Level.commentNode, Node.isDirective]
    | directive _ _ _ _ still => simp [still] at head

end Form

/-- What holds of the nodes of a list or a program while it is read. -/
structure Level.Ordered (l : Level) : Prop where
  blanks : Node.BlanksBehind l.frame.children
  headed : Node.Headed l.frame.children
  atHead : l.atHead → ∀ node ∈ l.frame.children, node.isDirective

theorem Level.ordered_start (lastLine : Int) (atHead : Bool) :
    ({ lastLine, atHead } : Level).Ordered :=
  ⟨⟨rfl, .nil⟩, .of_directives (by simp [Frame.children]), by simp [Frame.children]⟩

namespace Form

theorem Wf.ordered_read {form : Form} (h : form.Wf) {l : Level} (clean : l.frame.Clean)
    (ordered : l.Ordered) : (form.read l).Ordered := by
  have children := h.children_read clean
  have blanks := h.blanks_read clean ordered.blanks
  cases head : (form.read l).atHead with
  | true =>
    obtain ⟨before, added⟩ := h.atHead_read head
    have all : ∀ node ∈ (form.read l).frame.children, node.isDirective := by
      intro node hn
      rw [children, List.mem_append] at hn
      rcases hn with hn | hn
      · exact ordered.atHead before node hn
      · exact added node hn
    exact ⟨blanks, .of_directives all, fun _ => all⟩
  | false =>
    refine ⟨blanks, ?_, fun still => absurd (head.symm.trans still) (by decide)⟩
    rw [children]
    exact ordered.headed.append (h.isDirective_nodes head)

theorem ordered_readAll {forms : List Form} (h : ∀ form ∈ forms, form.Wf) {l : Level}
    (clean : l.frame.Clean) (ordered : l.Ordered) : (readAll forms l).Ordered := by
  induction forms generalizing l with
  | nil => exact ordered
  | cons form forms ih =>
    have first := h form (List.mem_cons_self ..)
    exact ih (fun f hf => h f (List.mem_cons_of_mem _ hf)) (first.clean_read clean)
      (first.ordered_read clean ordered)

/-- Behind the head of the program there are no directives. -/
theorem isDirective_nodesAll {forms : List Form} (h : ∀ form ∈ forms, form.Wf) {l : Level}
    (head : l.atHead = false) : ∀ node ∈ nodesAll forms l, node.isDirective = false := by
  induction forms generalizing l with
  | nil => simp [nodesAll]
  | cons form forms ih =>
    have first := h form (List.mem_cons_self ..)
    have still : (form.read l).atHead = false := by
      by_contra later
      have earlier := (first.atHead_read (by simpa using later)).1
      simp [head] at earlier
    intro node hn
    rw [nodesAll, List.mem_append] at hn
    rcases hn with hn | hn
    · exact first.isDirective_nodes still node hn
    · exact ih (fun f hf => h f (List.mem_cons_of_mem _ hf)) still node hn

theorem settled_nodesAll {forms : List Form}
    (h : ∀ form ∈ forms, ∀ l, ∀ node ∈ Node.subtreesAll (form.nodes l), node.Settled) (l : Level) :
    ∀ node ∈ Node.subtreesAll (nodesAll forms l), node.Settled := by
  induction forms generalizing l with
  | nil => simp [nodesAll, Node.subtreesAll]
  | cons form forms ih =>
    intro node hn
    rw [nodesAll, Node.subtreesAll_append, List.mem_append] at hn
    rcases hn with hn | hn
    · exact h form (List.mem_cons_self ..) l node hn
    · exact ih (fun f hf => h f (List.mem_cons_of_mem _ hf)) _ node hn

theorem settled_triviaNodes (l : Level) {t : Token} (ht : t.isTrivia) :
    ∀ node ∈ Node.subtreesAll (l.triviaNodes t), node.Settled := by
  cases l.triviaCase ht with
  | skipped nodes | dropped nodes => simp [nodes, Node.subtreesAll]
  | blank nodes | directive nodes => simp [nodes, Node.subtreesAll, Node.subtrees, Node.Settled]
  | comment nodes =>
    have settled : (l.commentNode t).Settled := Text.getLast_trimEnd t.text
    simpa [nodes, Node.subtreesAll, Node.subtrees, Level.commentNode] using settled

/-- Every node of a form is settled, at every depth: the brackets of a list come with a frame of its
own, which begins with nothing in it and behind the head of the program. -/
theorem Wf.settled {form : Form} (h : form.Wf) (l : Level) :
    ∀ node ∈ Node.subtreesAll (form.nodes l), node.Settled := by
  induction h generalizing l with
  | trivia ht => exact settled_triviaNodes l ht
  | @leaf lead datum =>
    apply settled_datum lead (isDatum_leafNode datum)
    intro node hn
    unfold Token.leafNode at hn
    split at hn <;> simp_all [Node.subtrees, Node.Settled]
  | @list lead opener closer body shape _ _ _ wf _ _ ih =>
    apply settled_datum lead rfl
    obtain ⟨blanks, split, _⟩ := nodesAll_eq_trim wf opener.endLine false
    have plain := isDirective_nodesAll wf (l := { lastLine := opener.endLine, atHead := false }) rfl
    have inside := settled_nodesAll ih { lastLine := opener.endLine, atHead := false }
    rw [split] at plain
    rw [split, Node.subtreesAll_append] at inside
    intro node hn
    rw [Node.subtrees, List.mem_cons] at hn
    rcases hn with rfl | hn
    · constructor
      · exact (ordered_readAll wf ⟨rfl, rfl⟩ (Level.ordered_start ..)).blanks.trim
      · exact fun child hc => plain child (List.mem_append_left _ hc)
    · exact inside node (List.mem_append_left _ hn)

end Form

theorem Node.settled_of_ofTokens {tokens : List Token} {nodes : List Node}
    (h : ofTokens tokens = .ok nodes) : ∀ node ∈ subtreesAll nodes, node.Settled := by
  obtain ⟨forms, wf, _, rfl⟩ := ofTokens_eq_ok_iff.mp h
  obtain ⟨blanks, split, _⟩ := Form.nodesAll_eq_trim wf 0 true
  have settled := Form.settled_nodesAll (fun form hf => (wf form hf).settled) {}
  rw [split, subtreesAll_append] at settled
  exact fun node hn => settled node (List.mem_append_left _ hn)

/-- What is read of tokens is in normal form, whatever the tokens are. -/
theorem Node.normal_of_ofTokens {tokens : List Token} {nodes : List Node}
    (h : ofTokens tokens = .ok nodes) : Normal nodes := by
  have settled := settled_of_ofTokens h
  obtain ⟨forms, wf, _, rfl⟩ := ofTokens_eq_ok_iff.mp h
  have ordered := Form.ordered_readAll wf ⟨rfl, rfl⟩ (Level.ordered_start 0 true)
  constructor
  case blanks => exact ordered.blanks.trim
  case blanksInLists =>
    intro loc shape children hn
    exact (settled _ hn).1
  case directives =>
    obtain ⟨blanks, split, _⟩ := (Form.readAll forms {}).frame.children_eq_trim
    have headed := ordered.headed
    rw [split] at headed
    obtain ⟨heads, rest, eq, directives, others⟩ := headed.left_of_append
    refine ⟨heads, rest, eq, directives, ?_⟩
    rw [eq, subtreesAll_append] at settled
    exact not_isDirective_of_settled
      (fun node hn => settled node (List.mem_append_right _ hn)) others
  case quoted =>
    intro loc tag? lead inner hn
    exact settled _ hn
  case comments =>
    intro loc s attachment block hn
    exact settled _ hn

theorem Node.normal_of_ofTokens_adjacent :
    let loc : Location := { line := 1, column := 1 }
    let blank : Token := { kind := .blankLine, text := "\n\n".toList, loc }
    let tokens : List Token :=
      [blank, { kind := .directive, text := "#!x".toList, loc }, blank, blank,
        { kind := .quoteMark, text := "'".toList, loc },
        { kind := .lineComment, text := ";c ".toList, loc }, blank,
        { kind := .opening, tag? := some (.bracket .paren), text := "(".toList, loc }, blank,
        { kind := .atom, text := "a".toList, loc }, blank, blank,
        { kind := .closing, tag? := some (.bracket .paren), text := ")".toList, loc },
        { kind := .directive, text := "#!y ".toList, loc }, blank]
    ∃ nodes, ofTokens tokens = .ok nodes ∧ nodes.map isBlank = [false, true, false, false, false] ∧
      nodes.map isDirective = [true, false, false, false, false] ∧ Normal nodes := by
  intro loc blank tokens
  have checks : (ofTokens tokens).toOption.any (fun nodes =>
      nodes.map isBlank = [false, true, false, false, false] &&
        nodes.map isDirective = [true, false, false, false, false]) := by rfl
  cases read : ofTokens tokens with
  | error e =>
    rw [read] at checks
    cases checks
  | ok nodes =>
    rw [read] at checks
    simp only [Except.toOption, Option.any_some, Bool.and_eq_true, decide_eq_true_eq] at checks
    exact ⟨nodes, rfl, checks.1, checks.2, normal_of_ofTokens read⟩
end SexprFormat
