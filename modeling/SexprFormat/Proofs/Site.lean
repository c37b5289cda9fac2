import SexprFormat.Proofs.Fit
import SexprFormat.Proofs.Preserve

/-!
How lists are set, read off the tree. A list stands in other lists, in front of a sibling and behind
quote marks; from this `Site.column` and `Site.size` tell where its children start and how long they
are in one line with what follows, in any width. Main statement: `modes_of_format`, each list of a
source is set flat if and only if one around it is or the sum fits.
-/

namespace SexprFormat

namespace Node

mutual

/-- A node in one line, with single spaces between siblings. -/
def inline : Node → List Char
  | atom _ s | string _ s | comment _ s _ _ | directive _ _ s => s
  | quoted _ _ lead inner => lead ++ inline inner
  | list _ shape children => shape.opener :: (inlineAll true children ++ [shape.closer])
  | program _ children => inlineAll true children
  | blank _ | unknown _ _ => []

def inlineAll (first : Bool) : List Node → List Char
  | [] => []
  | child :: rest => (if first then [] else [' ']) ++ (inline child ++ inlineAll false rest)

end

/-- What cannot stand within a line. -/
def isRemark (node : Node) : Bool :=
  node.endsLine || node.isBlank

end Node

/-- A list of a tree, with the marks in front of it, whether it is the first one of its siblings,
and the sibling behind it. -/
structure Site where
  lead : List Char
  first : Bool
  next? : Option Node
  loc : Location
  shape : Delimiter
  children : List Node

namespace Site

def node (site : Site) : Node :=
  .list site.loc site.shape site.children

/-- Where the children of the first list start that stands in the others. A list that is no first
child starts a line. -/
def column : List Site → Int
  | [] => 0
  | site :: outer =>
    (if site.first then column outer else Doc.indentWidth * outer.length) + site.lead.length + 1

/-- What follows on the line of a node in a broken list: a comment at its side, or what follows the
list. -/
def follow (next? : Option Node) (outside : List Char) : List Char :=
  match next? with
  | none => outside
  | some (.comment _ s .trailing _) => ' ' :: s
  | some _ => []

/-- What follows on the line behind the children of the first list. -/
def behind : List Site → List Char
  | [] => []
  | site :: outer => site.shape.closer :: follow site.next? (behind outer)

/-- The length of the line that the children of a list and what follows them make up. -/
def size (site : Site) (outer : List Site) : Nat :=
  (Text.firstLine (Node.inlineAll true site.children ++ behind (site :: outer))).length

/-- Nothing below the list ends its line. -/
def inlines (site : Site) : Bool :=
  (Node.subtreesAll site.children).all (!·.isRemark)

/-- A list is flat if one around it is, or if it can be in one line and that line fits. -/
def flat (width : Int) : List Site → Bool
  | [] => false
  | site :: outer =>
    flat width outer || (site.inlines && column (site :: outer) + site.size outer ≤ width)

def mode (width : Int) (sites : List Site) : Mode :=
  if flat width sites then .flat else .broken

end Site

namespace Node

mutual

/-- The lists of a node, each with those around it, in the order of their brackets. -/
def sites (outer : List Site) (lead : List Char) (first : Bool) (next? : Option Node) :
    Node → List (List Site)
  | quoted _ _ mark inner => sites outer (lead ++ mark) first next? inner
  | list loc shape children =>
    ({ lead, first, next?, loc, shape, children } :: outer) ::
      sitesAll ({ lead, first, next?, loc, shape, children } :: outer) true children
  | atom _ _ | string _ _ | comment _ _ _ _ | directive _ _ _ | program _ _ | blank _
      | unknown _ _ => []

def sitesAll (outer : List Site) (first : Bool) : List Node → List (List Site)
  | [] => []
  | child :: rest => sites outer [] first rest.head? child ++ sitesAll outer false rest

end

end Node

/-- A quote mark is within one line. -/
def Word.MarkInLine (w : Word) : Prop :=
  w.kind = .quoteMark → '\n' ∉ w.text

namespace Node

variable {W : Word → Prop}

theorem isRemark_of_mustBreak {previous? : Option Node} {child : Node}
    (h : (separator false previous? child).mustBreak) : child.isRemark := by
  unfold separator at h
  split at h
  · rfl
  · cases h
  · split at h
    · cases h
    · split at h
      · rfl
      · rfl
      · rfl
      · cases h

mutual

/-- The document of a node must break if a remark stands below the node. -/
theorem mustBreak_document : ∀ (node : Node) {inList : Bool} {d : Doc}, node.Spelled W inList →
    node.document = .ok d → d.mustBreak = node.subtrees.any isRemark
  | atom .., _, _, _, h | string .., _, _, _, h => by
    cases h
    rfl
  | comment .., _, _, _, h | directive .., _, _, _, h => by
    cases h
    simp [Doc.mustBreak_append, Doc.anyMustBreak, Doc.mustBreak, subtrees, isRemark, endsLine]
  | blank _, _, _, _, h => by
    cases h
    rfl
  | quoted _ _ lead inner, inList, d, spelled, h => by
    obtain ⟨e, built, rfl⟩ := document_quoted h
    have below := mustBreak_document inner spelled.2.2.1 built
    simp [Doc.mustBreak_append, Doc.anyMustBreak, Doc.mustBreak, subtrees, isRemark,
      endsLine, isBlank,
      below]
  | list _ shape children, inList, d, spelled, h => by
    obtain ⟨ds, body, rfl⟩ := document_list h
    have below := anyMustBreak_sequence children spelled body
    simp [Doc.mustBreak_append, Doc.anyMustBreak, Doc.mustBreak, Doc.grouped, subtrees, isRemark,
      endsLine, isBlank, below]
  | program .., _, _, spelled, _ => spelled.elim
  | unknown .., _, _, spelled, _ => spelled.elim

theorem anyMustBreak_sequence : ∀ (nodes : List Node) {inList : Bool} {previous? : Option Node}
    {ds : List Doc}, SpelledAll W inList nodes → sequence false previous? nodes = .ok ds →
      Doc.anyMustBreak ds = (subtreesAll nodes).any isRemark
  | [], _, _, _, _, h => by
    cases h
    rfl
  | child :: rest, inList, previous?, ds, spelled, h => by
    obtain ⟨d, es, first, later, rfl⟩ := sequence_cons h
    have here := mustBreak_document child spelled.1 first
    have below := anyMustBreak_sequence rest spelled.2 later
    rw [Doc.anyMustBreak, Doc.anyMustBreak, here, below, subtreesAll, List.any_append]
    cases breaks : (separator false previous? child).mustBreak with
    | false => rfl
    | true =>
      have remark : child.subtrees.any isRemark :=
        List.any_eq_true.mpr ⟨child, mem_subtrees_self child, isRemark_of_mustBreak breaks⟩
      simp [remark]

end

theorem preview_separator {previous? : Option Node} {child : Node}
    (before : ∀ previous ∈ previous?, previous.isRemark = false) (here : child.isRemark = false) :
    (separator false previous? child).preview .flat = if previous?.isNone then [] else [' '] := by
  cases previous? with
  | none =>
    cases child with
    | comment => simp [isRemark, endsLine] at here
    | _ => rfl
  | some previous =>
    have plain : (previous.endsLine || previous.isBlank) = false := before previous rfl
    cases child with
    | comment | directive | blank => simp [isRemark, endsLine, isBlank] at here
    | _ => simp [separator, plain, Doc.preview]

mutual

/-- Without remarks, the document of a node shows the node in one line. -/
theorem preview_document : ∀ (node : Node) {inList : Bool} {d : Doc}, node.Spelled W inList →
    node.document = .ok d → (∀ n ∈ node.subtrees, n.isRemark = false) →
      d.preview .flat = node.inline
  | atom .., _, _, _, h, _ | string .., _, _, _, h, _ => by
    cases h
    rfl
  | comment .., _, _, _, _, free | directive .., _, _, _, _, free | blank _, _, _, _, _, free => by
    cases free _ (mem_subtrees_self _)
  | quoted _ _ lead inner, inList, d, spelled, h, free => by
    obtain ⟨e, built, rfl⟩ := document_quoted h
    have below := preview_document inner spelled.2.2.1 built fun n hn =>
      free n (by simp [subtrees, hn])
    simp [Doc.preview_append, Doc.previewAll, Doc.preview, inline, below]
  | list _ shape children, inList, d, spelled, h, free => by
    obtain ⟨ds, body, rfl⟩ := document_list h
    have plain : ∀ n ∈ subtreesAll children, n.isRemark = false := fun n hn =>
      free n (by simp [subtrees, hn])
    have below := previewAll_sequence children spelled body (by simp) plain
    have unbroken : Doc.anyMustBreak ds = false := by
      rw [anyMustBreak_sequence children spelled body]
      simpa using plain
    simp [Doc.preview_append, Doc.previewAll, Doc.preview, Doc.grouped, Doc.mustBreak,
      Doc.mustBreak_append, unbroken, inline, below]
  | program .., _, _, spelled, _, _ => spelled.elim
  | unknown .., _, _, spelled, _, _ => spelled.elim

theorem previewAll_sequence : ∀ (nodes : List Node) {inList : Bool} {previous? : Option Node}
    {ds : List Doc}, SpelledAll W inList nodes → sequence false previous? nodes = .ok ds →
      (∀ previous ∈ previous?, previous.isRemark = false) →
      (∀ n ∈ subtreesAll nodes, n.isRemark = false) →
      Doc.previewAll .flat ds = inlineAll previous?.isNone nodes
  | [], _, _, _, _, h, _, _ => by
    cases h
    rfl
  | child :: rest, inList, previous?, ds, spelled, h, before, free => by
    obtain ⟨d, es, first, later, rfl⟩ := sequence_cons h
    have below (n : Node) (hn : n ∈ child.subtrees) : n.isRemark = false :=
      free n (by simp [subtreesAll, hn])
    have own := below child (mem_subtrees_self child)
    have here := preview_document child spelled.1 first below
    have others := previewAll_sequence rest spelled.2 later (by simpa using own) fun n hn =>
      free n (by simp [subtreesAll, hn])
    rw [Doc.previewAll, Doc.previewAll, preview_separator before own, here, others, inlineAll]
    rfl

end

end Node

def Piece.mode? : Piece → Option Mode
  | group mode => some mode
  | text _ | space | newline | margin _ | failed _ => none

/-- The modes of the groups among some pieces. -/
def Piece.modes (ps : List Piece) : List Mode :=
  ps.filterMap mode?

theorem Piece.modes_append (a b : List Piece) : modes (a ++ b) = modes a ++ modes b :=
  List.filterMap_append

theorem Position.modes_marginPieces (pos : Position) : Piece.modes pos.marginPieces = [] := by
  unfold marginPieces
  split <;> rfl

namespace Doc

/-- A line goes on through what is still to be set as through a text. -/
structure Ahead (after : List Pending) (next : List Char) : Prop where
  known : KnownPending after
  line : Text.firstLine (previewPending after) = Text.firstLine next

theorem Ahead.cons {after : List Pending} {next : List Char} (h : Ahead after next) (indent : Int)
    (mode : Mode) (s : List Char) :
    Ahead ({ indent, mode, docs := [text s] } :: after) (s ++ next) := by
  refine ⟨h.known.cons rfl, ?_⟩
  have shown : previewPending ({ indent, mode, docs := [text s] } :: after) =
      s ++ previewPending after := by
    simp [previewPending, previewAll, preview]
  rw [shown]
  exact Text.firstLine_append_congr s h.line

variable (width indent : Int) (mode : Mode) (after : List Pending) (pos : Position)

theorem modes_text (s : List Char) :
    Piece.modes (layout width indent mode after pos (text s)).1 = [] := by
  cases s with
  | nil => simp [layout, Piece.modes]
  | cons c s =>
    simp only [layout, Piece.modes_append, pos.modes_marginPieces]
    rfl

theorem modes_line : Piece.modes (layout width indent mode after pos line).1 = [] := by
  cases mode with
  | flat =>
    simp only [layout, Piece.modes_append, pos.modes_marginPieces]
    rfl
  | broken =>
    rw [layout]
    rfl

theorem modes_hardLine : Piece.modes (layout width indent mode after pos hardLine).1 = [] := by
  rw [layout]
  rfl

/-- A text has no groups, so those of a text and a document are those of the document. -/
theorem modes_text_append (s : List Char) (d : Doc) :
    Piece.modes (layout width indent mode after pos (append [text s, d])).1 =
      Piece.modes (layout width indent mode after
        (layout width indent mode ({ indent, mode, docs := [d] } :: after) pos (text s)).2
          d).1 := by
  rw [layout_append, layoutAll_cons, layoutAll_singleton, Piece.modes_append, modes_text,
    List.nil_append]

theorem modes_between (a b : Char) (d : Doc) :
    Piece.modes (layout width indent mode after pos (append [text [a], d, text [b]])).1 =
      Piece.modes (layout width indent mode ({ indent, mode, docs := [text [b]] } :: after)
        (pos.pass [a]) d).1 := by
  rw [layout_append, layoutAll_cons, layoutAll_cons, layoutAll_singleton, Piece.modes_append,
    Piece.modes_append, modes_text, modes_text, List.nil_append, List.append_nil]
  simp only [layout]

theorem column_text {s : List Char} (h : '\n' ∉ s) :
    (layout width indent mode after pos (text s)).2.column = pos.column + s.length := by
  cases s with
  | nil => simp [layout]
  | cons c s =>
    rw [layout, Position.pass, if_neg (by simpa using h)]
    simp

end Doc

namespace Node

theorem modes_separator (width indent : Int) (mode : Mode) (after : List Pending) (pos : Position)
    (inProgram : Bool) (previous? : Option Node) (child : Node) :
    Piece.modes (Doc.layout width indent mode after pos (separator inProgram previous? child)).1 =
      [] := by
  unfold separator
  repeat' split
  all_goals first
    | exact Doc.modes_text width indent mode after pos _
    | exact Doc.modes_line width indent mode after pos
    | exact Doc.modes_hardLine width indent mode after pos

end Node

namespace Site

/-- Where a child of the first list starts if the list is broken. -/
def start (first : Bool) (outer : List Site) : Int :=
  if first then column outer else Doc.indentWidth * outer.length

section

variable {W : Word → Prop} {inList : Bool} {site : Site} {ds : List Doc}
  (spelled : Node.SpelledAll W inList site.children)
  (body : Node.sequence false none site.children = .ok ds)

include body

theorem known_body : (Doc.indent Doc.indentWidth (.append ds)).known := by
  rw [Doc.known, Doc.known_append]
  exact Doc.knownAll_of_soundAll ds (Node.soundAll_of_sequence site.children body)

include spelled

theorem mustBreak_body : (Doc.indent Doc.indentWidth (.append ds)).mustBreak = !site.inlines := by
  rw [Doc.mustBreak, Doc.mustBreak_append, Node.anyMustBreak_sequence site.children spelled body,
    inlines]
  simp [List.not_all_eq_any_not]

theorem preview_body (h : site.inlines) :
    (Doc.indent Doc.indentWidth (.append ds)).preview .flat =
      Node.inlineAll true site.children := by
  have free : ∀ n ∈ Node.subtreesAll site.children, n.isRemark = false := by
    simpa [inlines] using h
  rw [Doc.preview, Doc.preview_append]
  exact Node.previewAll_sequence site.children spelled body nofun free

/-- A list is set as its site tells. In a flat list it does not matter where it stands. -/
theorem groupMode_body {width : Int} {outer : List Site} {after : List Pending} {pos : Position}
    (around : flat width outer = false →
      Doc.Ahead after (behind (site :: outer)) ∧ pos.column = column (site :: outer)) :
    Doc.groupMode (width - pos.column) (mode width outer)
        (Doc.indent Doc.indentWidth (.append ds)).mustBreak
          (.indent Doc.indentWidth (.append ds)) after =
      .ok (mode width (site :: outer)) := by
  cases inside : flat width outer with
  | true => simp [mode, flat, inside, Doc.groupMode]
  | false =>
    obtain ⟨ahead, column⟩ := around inside
    rw [mode, mode, inside, if_neg Bool.false_ne_true,
      Doc.groupMode_broken _ _ (known_body body) ahead.known, flat, inside]
    cases inlines : site.inlines with
    | false => simp [mustBreak_body spelled body, inlines]
    | true =>
      have line := Text.firstLine_append_congr (Node.inlineAll true site.children) ahead.line
      have fits : ((site.size outer : Int) ≤ width - Site.column (site :: outer)) ↔
          Site.column (site :: outer) + site.size outer ≤ width := by omega
      rw [mustBreak_body spelled body, inlines, preview_body spelled body inlines, line, column]
      change Except.ok (if _ ∧ (site.size outer : Int) ≤ _ then _ else _) = _
      simp [fits]

end

/-- From where a list stands, where its children do. -/
theorem column_pass (site : Site) (outer : List Site) {pos : Position}
    (h : pos.column = start site.first outer + site.lead.length) :
    (pos.pass [site.shape.opener]).column = column (site :: outer) := by
  have opener : '\n' ∉ [site.shape.opener] := by cases site.shape <;> decide
  simp [Position.pass, opener, column, h, start]

end Site

namespace Node

/-- What is shown behind a datum in a broken list is what follows on its line. -/
theorem firstLine_sequence {inProgram : Bool} {child : Node} {rest : List Node} {ds : List Doc}
    (datum : child.isDatum) (h : sequence inProgram (some child) rest = .ok ds) {a b : List Char}
    (same : Text.firstLine a = Text.firstLine b) :
    Text.firstLine (Doc.previewAll .broken ds ++ a) =
      Text.firstLine (Site.follow rest.head? b) := by
  have plain : (child.endsLine || child.isBlank) = false := by
    cases child <;> simp_all [isDatum, endsLine, isBlank]
  cases rest with
  | nil =>
    cases h
    exact same
  | cons next rest =>
    obtain ⟨d, es, built, _, rfl⟩ := sequence_cons h
    cases next with
    | comment loc s attachment block =>
      cases built
      cases attachment with
      | trailing =>
        have shown := Text.firstLine_append_newline (' ' :: s) (Doc.previewAll .broken es ++ a)
        simpa [separator, plain, Doc.previewAll, Doc.preview_append, Doc.preview, Doc.space,
          Site.follow] using shown
      | leading => simp [separator, plain, Doc.previewAll, Doc.preview, Site.follow, Text.firstLine]
    | _ =>
      cases inProgram <;>
        simp [separator, plain, Doc.previewAll, Doc.preview, Site.follow, Text.firstLine]

/-- In a broken list a datum stands where the list begins or where its line does. -/
theorem column_separator (width : Int) {indent : Int} {after : List Pending} {pos : Position}
    {inProgram : Bool} {previous? : Option Node} {child : Node} (datum : child.isDatum)
    {column : Int}
    (before : previous?.all isRemark → pos.column = column)
    (later : previous?.isSome → indent = column) :
    (Doc.layout width indent .broken after pos (separator inProgram previous? child)).2.column =
      column := by
  cases previous? with
  | none =>
    have same : separator inProgram none child = .text [] := by
      cases child <;> simp_all [separator, isDatum, Doc.empty]
    rw [same, Doc.layout]
    exact before rfl
  | some previous =>
    cases remark : previous.isRemark with
    | true =>
      have same : separator inProgram (some previous) child = .text [] := by
        rw [isRemark] at remark
        simp [separator, remark, Doc.empty]
      rw [same, Doc.layout]
      exact before remark
    | false =>
      have same : separator inProgram (some previous) child =
          if inProgram then .hardLine else .line := by
        rw [isRemark] at remark
        cases child <;> simp_all [separator, isDatum]
      rw [same]
      cases inProgram <;> exact later rfl

/-- Behind a remark a line begins. -/
theorem column_remark (width indent : Int) (after : List Pending) (pos : Position) {node : Node}
    (h : node.isRemark) {d : Doc} (built : node.document = .ok d) :
    (Doc.layout width indent .broken after pos d).2.column = indent := by
  cases node with
  | comment | directive =>
    cases built
    rw [Doc.layout_append, Doc.layoutAll_cons, Doc.layoutAll_singleton]
    rfl
  | blank =>
    cases built
    rfl
  | atom | string | quoted | list | program | unknown => simp [isRemark, endsLine, isBlank] at h

mutual

/-- The groups of the document of a node are set as the sites of its lists tell. -/
theorem modes_document (width : Int) {outer : List Site} {lead : List Char} {first : Bool}
    {next? : Option Node} {indent : Int} {after : List Pending} {pos : Position} :
    ∀ (node : Node) {inList : Bool} {d : Doc}, node.Spelled Word.MarkInLine inList →
      node.document = .ok d →
      (Site.flat width outer = false → node.isDatum →
        Doc.Ahead after (Site.follow next? (Site.behind outer)) ∧
          indent = Doc.indentWidth * outer.length ∧
          pos.column = Site.start first outer + lead.length) →
      Piece.modes (d.layout width indent (Site.mode width outer) after pos).1 =
        (node.sites outer lead first next?).map (Site.mode width)
  | atom .., _, _, _, h, _ | string .., _, _, _, h, _ => by
    cases h
    exact Doc.modes_text ..
  | comment .., _, _, _, h, _ | directive .., _, _, _, h, _ => by
    cases h
    rw [Doc.modes_text_append, Doc.modes_hardLine, sites, List.map_nil]
  | blank _, _, _, _, h, _ => by
    cases h
    exact Doc.modes_hardLine ..
  | quoted _ tag? mark inner, inList, d, spelled, h, around => by
    obtain ⟨e, built, rfl⟩ := document_quoted h
    have inLine : '\n' ∉ mark := spelled.1 rfl
    rw [Doc.modes_text_append, sites]
    refine modes_document width inner spelled.2.2.1 built fun broken _ => ?_
    obtain ⟨ahead, inward, column⟩ := around broken rfl
    refine ⟨ahead, inward, ?_⟩
    rw [Doc.column_text _ _ _ _ _ inLine, column, List.length_append]
    omega
  | list loc shape children, inList, d, spelled, h, around => by
    obtain ⟨ds, body, rfl⟩ := document_list h
    obtain ⟨site, here⟩ : ∃ site : Site, site = { lead, first, next?, loc, shape, children } :=
      ⟨_, rfl⟩
    rw [sites, Doc.modes_between, ← here]
    -- In a flat list nothing is known of the position, and the test is not made.
    have inside (broken : Site.flat width outer = false) :
        Doc.Ahead
          ({ indent, mode := Site.mode width outer, docs := [.text [shape.closer]] } :: after)
          (Site.behind (site :: outer)) ∧
        (pos.pass [shape.opener]).column = Site.column (site :: outer) := by
      obtain ⟨ahead, _, column⟩ := around broken rfl
      subst here
      exact ⟨ahead.cons indent _ [shape.closer],
        Site.column_pass { lead, first, next?, loc, shape, children } outer column⟩
    have chosen := Site.groupMode_body (by rwa [here]) (by rwa [here]) inside
    rw [Doc.grouped, Doc.layout_group _ _ _ _ _ chosen, Doc.layout, Doc.layout_append,
      List.map_cons]
    refine congrArg (Site.mode width (site :: outer) :: ·) ?_
    refine modes_sequence width none children spelled body fun broken => ?_
    rw [Site.flat, Bool.or_eq_false_iff] at broken
    obtain ⟨_, inward, _⟩ := around broken.1 rfl
    obtain ⟨ahead, column⟩ := inside broken.1
    refine ⟨ahead, ?_, fun _ => column⟩
    rw [inward, List.length_cons, Int.natCast_add, Int.mul_add]
    rfl
  | program .., _, _, spelled, _, _ => spelled.elim
  | unknown .., _, _, spelled, _, _ => spelled.elim

theorem modes_sequence (width : Int) {outer : List Site} {indent : Int} {after : List Pending}
    {pos : Position} (previous? : Option Node) : ∀ (nodes : List Node) {inProgram inList : Bool}
    {ds : List Doc}, SpelledAll Word.MarkInLine inList nodes →
      sequence inProgram previous? nodes = .ok ds →
      (Site.flat width outer = false → Doc.Ahead after (Site.behind outer) ∧
        indent = Doc.indentWidth * outer.length ∧
        (previous?.all isRemark → pos.column = Site.start previous?.isNone outer)) →
      Piece.modes (Doc.layoutAll width indent (Site.mode width outer) after pos ds).1 =
        (sitesAll outer previous?.isNone nodes).map (Site.mode width)
  | [], _, _, _, _, h, _ => by
    cases h
    rfl
  | child :: rest, inProgram, inList, ds, spelled, h, around => by
    obtain ⟨d, es, built, later, rfl⟩ := sequence_cons h
    rw [Doc.layoutAll_cons, Doc.layoutAll_cons, Piece.modes_append, Piece.modes_append,
      modes_separator,
      List.nil_append, sitesAll, List.map_append]
    have known := Doc.knownAll_of_soundAll es (soundAll_of_sequence rest later)
    congr 1
    · refine modes_document width child spelled.1 built fun broken datum => ?_
      obtain ⟨ahead, inward, column⟩ := around broken
      have flat : Site.mode width outer = .broken := by simp [Site.mode, broken]
      refine ⟨⟨ahead.known.cons known, ?_⟩, inward, ?_⟩
      · rw [flat, Doc.previewPending, List.flatMap_cons]
        exact firstLine_sequence datum later ahead.line
      -- Only the first child and one behind a remark stand where the layout was left.
      · have line : previous?.isSome → indent = Site.start previous?.isNone outer := by
          cases previous? with
          | none => nofun
          | some _ => exact fun _ => inward
        rw [flat, column_separator width datum column line, List.length_nil]
        exact (Int.add_zero _).symm
    · refine modes_sequence width (some child) rest spelled.2 later fun broken => ?_
      obtain ⟨ahead, inward, _⟩ := around broken
      refine ⟨ahead, inward, fun remark => ?_⟩
      rw [Site.mode, broken, if_neg Bool.false_ne_true]
      exact (column_remark width indent _ _ remark built).trans inward

end

mutual

/-- The sites of a node are those of the lists among its subtrees. -/
theorem node_sites : ∀ (node : Node) {inList : Bool}, node.Spelled W inList →
    ∀ (outer : List Site) (lead : List Char) (first : Bool) (next? : Option Node),
      (node.sites outer lead first next?).filterMap (·.head?.map Site.node) =
        node.subtrees.filter isList
  | atom .., _, _, _, _, _, _ | string .., _, _, _, _, _, _ | comment .., _, _, _, _, _, _
  | directive .., _, _, _, _, _, _ | blank _, _, _, _, _, _, _ => rfl
  | quoted _ _ mark inner, _, spelled, outer, lead, first, next? => by
    rw [sites, subtrees, List.filter_cons_of_neg (by simp [isList])]
    exact node_sites inner spelled.2.2.1 outer (lead ++ mark) first next?
  | list _ _ children, _, spelled, outer, lead, first, next? => by
    rw [sites, subtrees, List.filter_cons_of_pos rfl, ← node_sitesAll children spelled]
    rfl
  | program .., _, spelled, _, _, _, _ => spelled.elim
  | unknown .., _, spelled, _, _, _, _ => spelled.elim

theorem node_sitesAll : ∀ (nodes : List Node) {inList : Bool}, SpelledAll W inList nodes →
    ∀ (outer : List Site) (first : Bool),
      (sitesAll outer first nodes).filterMap (·.head?.map Site.node) =
        (subtreesAll nodes).filter isList
  | [], _, _, _, _ => rfl
  | child :: rest, _, spelled, outer, first => by
    rw [sitesAll, subtreesAll, List.filterMap_append, List.filter_append,
      node_sites child spelled.1 outer [] first rest.head?,
      node_sitesAll rest spelled.2 outer false]

end

/-- The quote marks of a tree that is read are within one line each. -/
theorem markInLine_of_parse {file? : Option String} {source : List Char} {loc : Location}
    {nodes : List Node} (h : parse file? source = .ok (.program loc nodes)) :
    SpelledAll Word.MarkInLine false nodes := by
  refine spelled_of_parse h fun t ht eof closed kind mark => ?_
  have noAtom : t.kind ≠ .atom := by
    intro atom
    simp [Token.word, Token.isRemark, atom] at mark
  have sound := Token.sound_of_scan ht eof closed kind (by simp [Token.escapes, noAtom])
  have word : t.word = { kind := .quoteMark, tag? := t.word.tag?, text := t.word.text } := by
    rw [← mark]
  rw [word] at sound
  exact sound.oneLine_mark

end Node

/-- The groups of the document of a program are set as the sites of its lists tell. -/
theorem Node.modes_program (width : Int) {loc : Location} {nodes : List Node}
    {inList : Bool} {doc : Doc}
    (spelled : SpelledAll Word.MarkInLine inList nodes)
    (built : (program loc nodes).document = .ok doc) :
    Piece.modes (doc.pieces width) = (sitesAll [] true nodes).map (Site.mode width) := by
  obtain ⟨ds, body, shape⟩ := document_program built
  have top {after : List Pending} (ahead : Doc.Ahead after []) :
      Piece.modes (Doc.layout width 0 .broken after {} (.append ds)).1 =
        (sitesAll [] true nodes).map (Site.mode width) := by
    rw [Doc.layout_append]
    exact @modes_sequence width [] 0 after {} none nodes _ _ _ spelled body fun _ =>
      ⟨ahead, rfl, fun _ => rfl⟩
  rcases shape with rfl | rfl
  · exact top ⟨by simp [Doc.KnownPending], rfl⟩
  · rw [Doc.pieces, Doc.layout_append, Doc.layoutAll_cons, Doc.layoutAll_singleton,
      Piece.modes_append,
      Doc.modes_hardLine, List.append_nil]
    exact top ⟨by simp [Doc.KnownPending, Doc.knownAll, Doc.known], by
      simp [Doc.previewPending, Doc.previewAll, Doc.preview, Text.firstLine]⟩

/-- How the lists of a source are set in a width, in the order of their brackets: a list is flat if
one around it is, or else if nothing below it ends its line and the column behind its bracket and
the size of its line add up to the width at most. -/
theorem modes_of_format {file? : Option String} {source : List Char} {loc : Location}
    {nodes : List Node} (h : Node.parse file? source = .ok (.program loc nodes)) (width : Int) :
    ∃ doc, (Node.program loc nodes).document = .ok doc ∧
      format file? width source = .ok ((doc.pieces width).flatMap Piece.chars) ∧
      Piece.modes (doc.pieces width) = (Node.sitesAll [] true nodes).map (Site.mode width) ∧
      (Node.sitesAll [] true nodes).filterMap (·.head?.map Site.node) =
        (Node.subtreesAll nodes).filter Node.isList := by
  obtain ⟨doc, built, _, formatted⟩ := format_pieces h
  have marks := Node.markInLine_of_parse h
  exact ⟨doc, built, formatted width, Node.modes_program width marks built,
    Node.node_sitesAll nodes marks [] true⟩

theorem modes_of_format_nested :
    ∃ loc nodes doc, Node.parse none "((a b) '(c d) ; note\n e)".toList = .ok (.program loc nodes) ∧
      (Node.program loc nodes).document = .ok doc ∧
      Piece.modes (doc.pieces 12) = [.broken, .flat, .broken] ∧
      (Node.sitesAll [] true nodes).map (Site.mode 12) = [.broken, .flat, .broken] := by
  have document : (Node.parse none "((a b) '(c d) ; note\n e)".toList).toOption.bind
      (·.document.toOption) = some (.concat [.text ['('], .group true (.indent 2 (.concat
        [.text ['('], .group false (.indent 2 (.concat [.text ['a'], .line, .text ['b']])),
          .text [')'],
          .line, .text ['\''], .text ['('],
          .group false (.indent 2 (.concat [.text ['c'], .line, .text ['d']])), .text [')'],
          .text [' '], .text "; note".toList, .hardLine, .text ['e']])), .text [')'],
          .hardLine]) := by
    cbv
  obtain ⟨tree, parsed, built⟩ := Node.parse_of_document document
  obtain ⟨loc, nodes, rfl, _⟩ := Node.parse_eq_ok parsed
  obtain ⟨doc, built', _, modes, _⟩ := modes_of_format parsed 12
  obtain rfl := Except.ok.inj (built.symm.trans built')
  exact ⟨loc, nodes, _, parsed, built, rfl, modes.symm⟩

end SexprFormat
