import SexprFormat.Proofs.Spelling

/-!
The words of a tree in the order in which they are printed. Main statement: `Node.words_of_parse`,
the words of a tree are those of the tokens of its source, and only the comments between a quote
mark and its datum have moved, before the mark (`Token.hoist`).
-/

namespace SexprFormat

namespace Token

/-- The marks and the comments of a lead, the comments first. -/
def commentsFirst (lead : List Token) : List Token :=
  lead.filter isRemark ++ lead.filter (!·.isRemark)

/-- The order in which tokens are printed. Comments between a mark and its datum move before the
first mark that waits for that datum; `lead` is what was met since that mark. -/
def hoist (lead : List Token) : List Token → List Token
  | [] => commentsFirst lead
  | t :: ts =>
    if t.isMark || (!lead.isEmpty && t.isTrivia) then hoist (lead ++ [t]) ts
    else commentsFirst lead ++ t :: hoist [] ts

theorem perm_hoist (lead ts : List Token) : (hoist lead ts).Perm (lead ++ ts) := by
  have first (lead : List Token) : (commentsFirst lead).Perm lead :=
    List.filter_append_perm isRemark lead
  induction ts generalizing lead with
  | nil => simpa [hoist] using first lead
  | cons t ts ih =>
    unfold hoist
    split
    · simpa using ih (lead ++ [t])
    · exact (first lead).append (by simpa using (ih []).cons t)

/-- No comment or directive stands between a mark and its datum. -/
def NoneBetween (ts : List Token) : Prop :=
  ∀ before mark between remark after, ts = before ++ mark :: (between ++ remark :: after) →
    mark.isMark → remark.isRemark → ∃ t ∈ between, (t.isMark || t.isTrivia) = false

theorem NoneBetween.of_append {a b : List Token} (h : NoneBetween (a ++ b)) : NoneBetween b :=
  fun before mark between remark after heq =>
    h (a ++ before) mark between remark after (by simp [heq])

theorem commentsFirst_eq_self {lead ts : List Token} (h : NoneBetween (lead ++ ts))
    (hlead : Form.IsLead lead) : commentsFirst lead = lead := by
  have none : ∀ t ∈ lead, t.isRemark = false := by
    intro t ht
    cases remark : t.isRemark with
    | false => rfl
    | true =>
      obtain ⟨all, first⟩ := hlead
      cases lead with
      | nil => cases ht
      | cons mark lead =>
        have isMark : mark.isMark := by simpa using first
        rcases List.mem_cons.mp ht with rfl | ht
        · have kind : t.kind = .quoteMark := by simpa [Token.isMark] using isMark
          simp [isRemark, kind] at remark
        · obtain ⟨between, after, rfl⟩ := List.append_of_mem ht
          obtain ⟨u, hu, hfalse⟩ := h [] mark between t (after ++ ts) (by simp) isMark remark
          have := all u (by simp [hu])
          simp [hfalse] at this
  have noComments : lead.filter isRemark = [] := by
    rw [List.filter_eq_nil_iff]
    intro t ht
    simp [none t ht]
  have rest : lead.filter (!·.isRemark) = lead := by
    rw [List.filter_eq_self]
    intro t ht
    simp [none t ht]
  rw [commentsFirst, noComments, rest, List.nil_append]

theorem hoist_eq_self {lead ts : List Token} (h : NoneBetween (lead ++ ts))
    (hlead : Form.IsLead lead) : hoist lead ts = lead ++ ts := by
  induction ts generalizing lead with
  | nil => simpa [hoist] using commentsFirst_eq_self h hlead
  | cons t ts ih =>
    unfold hoist
    split
    · rename_i next
      have lead' : Form.IsLead (lead ++ [t]) := by
        refine hlead.concat ?_ ?_
        · cases mark : t.isMark <;> simp_all
        · rintro rfl
          simpa using next
      simpa using ih (by simpa using h) lead'
    · have rest : NoneBetween ([] ++ ts) := (h.of_append (b := t :: ts)).of_append (a := [t])
      rw [commentsFirst_eq_self h hlead, ih rest Form.isLead_nil]
      rfl

/-- What is met up to a datum is printed before it, the comments first. -/
theorem hoist_lead (begun : List Token) {lead : List Token}
    (h : ∀ t ∈ lead, t.isMark || t.isTrivia) (hb : begun = [] → Form.IsLead lead) {t : Token}
    (ht : (t.isMark || t.isTrivia) = false) (ts : List Token) :
    hoist begun (lead ++ t :: ts) = commentsFirst (begun ++ lead) ++ t :: hoist [] ts := by
  induction lead generalizing begun with
  | nil =>
    simp only [Bool.or_eq_false_iff] at ht
    simp [hoist, ht.1, ht.2]
  | cons u lead ih =>
    have next : u.isMark || (!begun.isEmpty && u.isTrivia) := by
      cases begun with
      | nil => simpa using (hb rfl).2
      | cons => simpa using h u (List.mem_cons_self ..)
    rw [List.cons_append, hoist, if_pos next,
      ih _ (fun v hv => h v (List.mem_cons_of_mem _ hv)) (by simp)]
    simp

end Token

namespace Form

mutual

/-- The tokens of a form in the order in which they are printed. -/
def printed : Form → List Token
  | trivia t => [t]
  | leaf lead datum => Token.commentsFirst lead ++ [datum]
  | list lead opener body closer =>
    Token.commentsFirst lead ++ opener :: (printedAll body ++ [closer])

def printedAll : List Form → List Token
  | [] => []
  | form :: forms => printed form ++ printedAll forms

end

theorem hoist_all {forms : List Form}
    (h : ∀ form ∈ forms, ∀ ts, Token.hoist [] (form.tokens ++ ts) =
      form.printed ++ Token.hoist [] ts)
    (ts : List Token) :
    Token.hoist [] (tokensAll forms ++ ts) = printedAll forms ++ Token.hoist [] ts := by
  induction forms with
  | nil => rfl
  | cons form forms ih =>
    rw [tokensAll, printedAll, List.append_assoc, h form (List.mem_cons_self ..),
      ih (fun f hf => h f (List.mem_cons_of_mem _ hf)), List.append_assoc]

/-- Moving comments before marks stays inside of one form. -/
theorem Wf.hoist_tokens {form : Form} (h : form.Wf) (ts : List Token) :
    Token.hoist [] (form.tokens ++ ts) = form.printed ++ Token.hoist [] ts := by
  induction h generalizing ts with
  | @trivia t ht =>
    have noMark : t.isMark = false := by
      cases hk : t.kind <;> simp_all [Token.isTrivia, Token.isMark]
    simp [tokens, printed, Token.hoist, noMark, Token.commentsFirst]
  | @leaf lead datum hlead ht =>
    have other : (datum.isMark || datum.isTrivia) = false := by
      cases hk : datum.kind <;> simp_all [Token.isLeaf, Token.isTrivia, Token.isMark]
    simpa [tokens, printed] using Token.hoist_lead [] hlead.1 (fun _ => hlead) other ts
  | @list lead opener closer body shape hlead ho hs hbody hc hcs ih =>
    have opens : (opener.isMark || opener.isTrivia) = false := by
      simp [Token.isMark, Token.isTrivia, ho]
    have closes : Token.hoist [] (closer :: ts) = closer :: Token.hoist [] ts := by
      simp [Token.hoist, Token.isMark, hc, Token.commentsFirst]
    have before :=
      Token.hoist_lead [] hlead.1 (fun _ => hlead) opens (tokensAll body ++ closer :: ts)
    rw [hoist_all ih, closes] at before
    simpa [tokens, printed] using before

end Form

namespace Token

/-- Everything but white space and the end of a text is printed. -/
def isWord (t : Token) : Bool :=
  match t.kind with
  | .whitespace | .blankLine | .eof => false
  | _ => true

/-- The words of some tokens. -/
def words (ts : List Token) : List Word :=
  (ts.filter isWord).map word

theorem words_append (a b : List Token) : words (a ++ b) = words a ++ words b := by
  simp [words]

theorem words_cons (t : Token) (ts : List Token) :
    words (t :: ts) = (if t.isWord then [t.word] else []) ++ words ts := by
  cases h : t.isWord <;> simp [words, h]

/-- The token was read somewhere. -/
def Scanned (t : Token) : Prop :=
  ∃ cur rest, t.ReadAt cur rest

namespace ReadAt

variable {t : Token} {cur : Cursor} {rest : List Char}

theorem kind_ne_eof (h : t.ReadAt cur rest) : t.kind ≠ .eof := by
  obtain ⟨c, s, _, read⟩ := h
  have kind := Lexeme.kind_read_ne_eof cur c (s ++ rest)
  rwa [read] at kind

theorem blank_of_kind (h : t.ReadAt cur rest) (hk : t.kind = .whitespace ∨ t.kind = .blankLine) :
    ∀ c ∈ t.text, Text.isBlank c := by
  obtain ⟨c, s, text, hc, tail, _⟩ := h.white hk
  intro d hd
  rw [text] at hd
  rcases List.mem_cons.mp hd with rfl | hd
  · exact hc
  · exact List.all_eq_true.mp List.all_takeWhile d (tail ▸ hd)

/-- A bracket is its own word. -/
theorem word_of_shape (h : t.ReadAt cur rest) {shape : Delimiter} (hs : t.shape? = some shape) :
    (t.kind = .opening → t.word = .opening shape) ∧
      (t.kind = .closing → t.word = .closing shape) := by
  obtain ⟨c, s, input, lexeme, text, _, rule, kind, tag, more, _⟩ := h.rule
  rw [Token.word, isRemark, text, ← kind, ← tag]
  rw [shape?, ← tag] at hs
  cases rule with
  | opening d =>
    obtain rfl : s = [] := List.length_eq_zero_iff.mp more.symm
    obtain rfl : d = shape := Option.some.inj hs
    exact ⟨fun _ => rfl, fun closing => (by cases closing)⟩
  | closing d =>
    obtain rfl : s = [] := List.length_eq_zero_iff.mp more.symm
    obtain rfl : d = shape := Option.some.inj hs
    exact ⟨fun opening => (by cases opening), fun _ => rfl⟩
  | hashRun => rcases Lexeme.hashRun_cases input with ⟨run, _⟩ | run <;> rw [run] at hs <;> cases hs
  | _ => cases hs

end ReadAt

theorem scanned_of_scan {file? : Option String} {source : List Char} {ts : List Token}
    {eof : Token} (h : scan file? source = ts ++ [eof]) {t : Token} (ht : t ∈ ts) : t.Scanned := by
  obtain ⟨before, after, rfl⟩ := List.append_of_mem ht
  have split : scanFrom file? {} (Text.joinLineEnds source) = before ++ t :: (after ++ [eof]) := by
    rw [← scan, h]
    simp
  exact ⟨_, _, readAt_of_scanFrom split (by simp)⟩

end Token

namespace Node

mutual

/-- The words of a tree, in the order in which they are printed. -/
def words : Node → List Word
  | atom _ s => [.atom s]
  | string _ s => [.string s]
  | comment _ s _ block => [.remark block s]
  | directive _ _ s => [.remark false s]
  | quoted _ tag? lead inner => { kind := .quoteMark, tag?, text := lead } :: words inner
  | list _ shape children => .opening shape :: (wordsAll children ++ [.closing shape])
  | program _ children => wordsAll children
  | blank _ | unknown _ _ => []

def wordsAll : List Node → List Word
  | [] => []
  | node :: nodes => words node ++ wordsAll nodes

end

theorem wordsAll_append (a b : List Node) : wordsAll (a ++ b) = wordsAll a ++ wordsAll b := by
  induction a with
  | nil => rfl
  | cons node a ih => simp [wordsAll, ih]

theorem wordsAll_trim (f : Frame) : wordsAll f.trim.children = wordsAll f.children := by
  obtain ⟨blanks, split, hblanks⟩ := f.children_eq_trim
  have none : wordsAll blanks = [] := by
    clear split
    induction blanks with
    | nil => rfl
    | cons node blanks ih =>
      obtain ⟨loc, rfl⟩ := exists_of_isBlank (hblanks node (List.mem_cons_self ..))
      rw [wordsAll, ih fun n hn => hblanks n (List.mem_cons_of_mem _ hn)]
      rfl
  rw [split, wordsAll_append, none, List.append_nil]

end Node

namespace Form

theorem words_heldNodes (lead : List Token) :
    Node.wordsAll (heldNodes lead) = Token.words (lead.filter Token.isRemark) := by
  induction lead with
  | nil => rfl
  | cons t lead ih =>
    cases hk : t.isRemark with
    | false => simpa [heldNodes, hk] using ih
    | true =>
      have isWord : t.isWord := by
        cases kind : t.kind <;> simp_all [Token.isRemark, Token.isWord]
      have held : heldNodes (t :: lead) = t.heldNode :: heldNodes lead := by simp [heldNodes, hk]
      rw [held, Node.wordsAll, ih, List.filter_cons_of_pos hk, Token.words_cons, if_pos isWord,
        Token.word, if_pos hk]
      rfl

theorem words_wrapped (lead : List Token) (node : Node) :
    (wrapped lead node).words = Token.words (lead.filter Token.isMark) ++ node.words := by
  induction lead with
  | nil => rfl
  | cons t lead ih =>
    cases hm : t.isMark with
    | false => simpa [wrapped, hm] using ih
    | true =>
      have kind : t.kind = .quoteMark := by simpa [Token.isMark] using hm
      have wraps : wrapped (t :: lead) node = Frame.wrap (wrapped lead node) t := by
        simp [wrapped, hm]
      rw [wraps, Frame.wrap, Node.words, ih, List.filter_cons_of_pos hm, Token.words_cons]
      simp [Token.isWord, Token.word, Token.isRemark, kind]

/-- White space in a lead is not printed, so only its marks and comments are. -/
theorem words_commentsFirst {lead : List Token} (h : ∀ t ∈ lead, t.isMark || t.isTrivia) :
    Token.words (Token.commentsFirst lead) =
      Token.words (lead.filter Token.isRemark) ++ Token.words (lead.filter Token.isMark) := by
  rw [Token.commentsFirst, Token.words_append]
  congr 1
  simp only [Token.words, List.filter_filter]
  congr 1
  refine List.filter_congr fun t ht => ?_
  have one := h t ht
  cases kind : t.kind <;>
    simp_all [Token.isMark, Token.isTrivia, Token.isRemark, Token.isWord]

theorem words_triviaNodes (l : Level) {t : Token} (ht : t.isTrivia) (read : t.Scanned) :
    Node.wordsAll (l.triviaNodes t) = Token.words [t] := by
  obtain ⟨cur, rest, read⟩ := read
  have said (hk : t.isRemark) : Token.words [t] = [t.word] := by
    cases kind : t.kind <;> simp_all [Token.words, Token.isWord, Token.isRemark]
  cases l.triviaCase ht with
  | skipped nodes _ kind =>
    rcases kind with kind | kind <;> simp [nodes, Token.words, Token.isWord, kind, Node.wordsAll]
  | dropped nodes kind | blank nodes kind =>
    simp [nodes, Token.words, Token.isWord, kind, Node.wordsAll, Node.words]
  | comment nodes remark =>
    rw [nodes, said remark, Token.word, if_pos remark]
    rfl
  | directive nodes kind =>
    obtain ⟨_, _, trimmed, _⟩ := read.directive kind
    rw [nodes, said (by simp [Token.isRemark, kind])]
    simp [Node.wordsAll, Node.words, Token.word, Token.isRemark, kind, trimmed]

theorem words_nodesAll {forms : List Form}
    (h : ∀ form ∈ forms, ∀ l : Level, Node.wordsAll (form.nodes l) = Token.words form.printed)
    (l : Level) : Node.wordsAll (nodesAll forms l) = Token.words (printedAll forms) := by
  induction forms generalizing l with
  | nil => rfl
  | cons form forms ih =>
    rw [nodesAll, printedAll, Node.wordsAll_append, Token.words_append,
      h form (List.mem_cons_self ..) l, ih fun f hf => h f (List.mem_cons_of_mem _ hf)]

theorem mem_tokensAll {t : Token} {forms : List Form} :
    t ∈ tokensAll forms ↔ ∃ form ∈ forms, t ∈ form.tokens := by
  induction forms with
  | nil => simp [tokensAll]
  | cons form forms ih => simp [tokensAll, ih]

/-- The nodes of a form have the words of its tokens. -/
theorem Wf.words_nodes {form : Form} (h : form.Wf) (hs : ∀ t ∈ form.tokens, t.Scanned) (l : Level) :
    Node.wordsAll (form.nodes l) = Token.words form.printed := by
  induction h generalizing l with
  | @trivia t ht =>
    rw [nodes, printed]
    exact words_triviaNodes l ht (hs t (by simp [tokens]))
  | @leaf lead datum hlead ht =>
    obtain ⟨cur, rest, read⟩ := hs datum (by simp [tokens])
    have leaf : datum.leafNode.words = Token.words [datum] := by
      unfold Token.leafNode
      cases hk : datum.kind with
      | atom | string =>
        have untagged := read.tag_of_leaf (by simp [hk])
        simp [Node.words, Token.words, Token.isWord, Token.word, Token.isRemark, hk, untagged,
          Word.atom, Word.string]
      | _ => simp [Token.isLeaf, hk] at ht
    rw [nodes, printed, Node.wordsAll_append, words_heldNodes, Token.words_append,
      words_commentsFirst hlead.1]
    simp [Node.wordsAll, words_wrapped, leaf]
  | @list lead opener closer body shape hlead ho hshape hbody hc hcs ih =>
    obtain ⟨_, _, openRead⟩ := hs opener (by simp [tokens])
    obtain ⟨_, _, closeRead⟩ := hs closer (by simp [tokens])
    have inner (t : Token) (ht : t ∈ tokensAll body) : t.Scanned := hs t (by simp [tokens, ht])
    have body_eq := words_nodesAll
      (fun f hf l => ih f hf (fun t ht => inner t (mem_tokensAll.mpr ⟨f, hf, ht⟩)) l)
      { lastLine := opener.endLine, atHead := false }
    have children : Node.wordsAll
        (readAll body { lastLine := opener.endLine, atHead := false }).frame.trim.children =
        Token.words (printedAll body) := by
      rw [Node.wordsAll_trim, children_readAll hbody ⟨rfl, rfl⟩, ← body_eq]
      rfl
    have bracketed : Token.words (opener :: (printedAll body ++ [closer])) =
        .opening shape :: (Token.words (printedAll body) ++ [.closing shape]) := by
      rw [Token.words_cons, Token.words_append, Token.words_cons,
        (openRead.word_of_shape hshape).1 ho,
        (closeRead.word_of_shape hcs).2 hc]
      simp [Token.isWord, ho, hc, Token.words]
    rw [nodes, printed, Node.wordsAll_append, words_heldNodes, Token.words_append,
      words_commentsFirst hlead.1, bracketed, ← children]
    simp [Node.wordsAll, words_wrapped, Node.words, hshape]

end Form

/-- The words of a tree are those of the tokens of its source, in the order in which they are
printed. -/
theorem Node.words_of_parse {file? : Option String} {source : List Char} {tree : Node}
    (h : parse file? source = .ok tree) :
    tree.words = Token.words (Token.hoist [] (Token.scan file? source)) := by
  obtain ⟨loc, forms, eof, wf, scan, isEof, _, rfl⟩ := parse_forms h
  have last : Token.hoist [] [eof] = [eof] := by
    simp [Token.hoist, Token.isMark, isEof, Token.commentsFirst]
  have none : Token.words [eof] = [] := by simp [Token.words, Token.isWord, isEof]
  have each (form : Form) (hf : form ∈ forms) (l : Level) :
      wordsAll (form.nodes l) = Token.words form.printed :=
    (wf form hf).words_nodes
      (fun t ht => Token.scanned_of_scan scan (Form.mem_tokensAll.mpr ⟨form, hf, ht⟩)) l
  have hoisted := Form.hoist_all (fun form hf => (wf form hf).hoist_tokens) [eof]
  rw [scan, hoisted, last, Token.words_append, none, List.append_nil, words, wordsAll_trim,
    Form.children_readAll wf ⟨rfl, rfl⟩]
  exact Form.words_nodesAll each {}

end SexprFormat
