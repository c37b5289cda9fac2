import SexprFormat.Proofs.Fit

/-!
Lines and the width. A line that is longer than the width holds no space at which it could have been
broken, but for one case: a text with a line end of its own in a flat group hides the rest of the
group from the test whether it fits. Main statement: `spaces_of_format`, for the layout of a source;
`Doc.spaces_of_pieces` is the same for documents.
-/

namespace SexprFormat

/-- A position behind a text: the columns are those of its last line and of the margin that is
due. -/
structure Position.Behind (pos : Position) (s : List Char) : Prop where
  due : 0 ≤ pos.margin
  column : pos.column = (Text.lastLine s).length + pos.margin

namespace Position.Behind

variable {pos : Position} {s : List Char}

theorem pass (h : pos.Behind s) (u : List Char) :
    (pos.pass u).Behind (s ++ (spaces pos.margin ++ u)) := by
  unfold Position.pass
  by_cases ends : '\n' ∈ u
  · have all : '\n' ∈ spaces pos.margin ++ u := List.mem_append_right _ ends
    refine ⟨by simp [ends], ?_⟩
    simp [ends, Text.lastLine_append_of_mem]
  · have none : '\n' ∉ spaces pos.margin ++ u := by simp [ends, newline_not_mem_spaces]
    have margin : (spaces pos.margin).length = pos.margin := by
      have due := h.due
      rw [spaces, List.length_replicate]
      omega
    refine ⟨by simp [ends], ?_⟩
    have column := h.column
    simp [ends, Text.lastLine_append_of_not_mem s none]
    omega

theorem newline (s : List Char) {indent : Int} (h : 0 ≤ indent) :
    (Position.newline indent).Behind (s ++ ['\n']) := by
  refine ⟨h, ?_⟩
  rw [Text.lastLine_append_of_mem s (List.mem_singleton_self _)]
  simp [Position.newline, Text.lastLine]

end Position.Behind

theorem Position.not_mem_marginPieces (pos : Position) {p : Piece}
    (h : ∀ width, p ≠ .margin width) :
    p ∉ pos.marginPieces := by
  unfold marginPieces
  split <;> simp [h]

namespace Doc

mutual

/-- A document and all documents below it, each in front of its parts. -/
def subdocs : Doc → List Doc
  | concat ds => concat ds :: subdocsAll ds
  | indent extra d => indent extra d :: subdocs d
  | group breaks d => group breaks d :: subdocs d
  | text s => [text s]
  | line => [line]
  | hardLine => [hardLine]
  | unknown kind => [unknown kind]

def subdocsAll : List Doc → List Doc
  | [] => []
  | d :: ds => subdocs d ++ subdocsAll ds

end

theorem subdocsAll_eq (ds : List Doc) : subdocsAll ds = ds.flatMap subdocs := by
  induction ds with
  | nil => rfl
  | cons d ds ih => rw [subdocsAll, ih, List.flatMap_cons]

theorem mem_subdocs_self (d : Doc) : d ∈ d.subdocs := by
  cases d <;> simp [subdocs]

/-- These are the pieces of a group among some documents, set flat. -/
def GivesFlat (width : Int) (parts : List Doc) (ps : List Piece) : Prop :=
  ∃ breaks d indent after pos, .group breaks d ∈ parts ∧
    ps = (layout width indent .flat after pos d).1

end Doc

namespace Piece

/-- The line around the place between two rows of pieces. -/
def lineAt (front back : List Piece) : List Char :=
  Text.lastLine (front.flatMap chars) ++ Text.firstLine (back.flatMap chars)

/-- The line around a space starts inside of a text. Both the text and the space are in a flat
group, one of the given parts. -/
def Spills (width : Int) (parts : List Doc) (front back : List Piece) : Prop :=
  ∃ before inside s rest tail later,
    front = before ++ .group .flat :: (inside ++ .text s :: rest) ∧ back = tail ++ later ∧
    Doc.GivesFlat width parts (inside ++ .text s :: rest ++ .space :: tail) ∧
    .newline ∉ inside ∧ '\n' ∈ s ∧ '\n' ∉ rest.flatMap chars

/-- Unless a piece is a new line, only a text ends a line. -/
theorem text_of_newline {ps : List Piece} (h : .newline ∉ ps) (ends : '\n' ∈ ps.flatMap chars) :
    ∃ front s back, ps = front ++ .text s :: back ∧ '\n' ∈ s ∧ '\n' ∉ back.flatMap chars := by
  induction ps with
  | nil => cases ends
  | cons p ps ih =>
    rw [List.mem_cons, not_or] at h
    by_cases later : '\n' ∈ ps.flatMap chars
    · obtain ⟨front, s, back, rfl, mem, last⟩ := ih h.2 later
      exact ⟨p :: front, s, back, rfl, mem, last⟩
    · have here : '\n' ∈ p.chars := by simpa [later] using ends
      cases p with
      | text s => exact ⟨[], s, ps, rfl, here, later⟩
      | newline => exact absurd rfl h.1
      | space | margin _ | group _ | failed _ => simp [chars] at here

/-- Each space among some pieces is on a line that fits, or behind a text that spills. -/
def SpacesFit (width : Int) (parts : List Doc) (front ps : List Piece) (rest : List Char) : Prop :=
  ∀ a b, ps = a ++ .space :: b →
    (Text.lastLine ((front ++ a).flatMap chars)).length + 1 +
      (Text.firstLine (b.flatMap chars ++ rest)).length ≤ width ∨
    Spills width parts (front ++ a) b

namespace SpacesFit

variable {width : Int} {parts : List Doc} {front : List Piece} {rest : List Char}

theorem of_not_mem {ps : List Piece} (h : .space ∉ ps) : SpacesFit width parts front ps rest := by
  rintro a b rfl
  exact absurd (List.mem_append_right _ (List.mem_cons_self ..)) h

theorem mono {more : List Doc} {ps : List Piece} (h : SpacesFit width parts front ps rest)
    (sub : parts ⊆ more) : SpacesFit width more front ps rest := by
  intro a b split
  refine (h a b split).imp_right ?_
  rintro ⟨before, inside, s, last, tail, later, ha, hb, group, ends⟩
  obtain ⟨breaks, d, indent, after, pos, mem, flat⟩ := group
  exact ⟨before, inside, s, last, tail, later, ha, hb,
    ⟨breaks, d, indent, after, pos, sub mem, flat⟩, ends⟩

theorem append {ps qs : List Piece}
    (hp : SpacesFit width parts front ps (qs.flatMap chars ++ rest))
    (hq : SpacesFit width parts (front ++ ps) qs rest) :
    SpacesFit width parts front (ps ++ qs) rest := by
  intro a b split
  rcases List.append_eq_append_iff.mp split with ⟨a', rfl, rfl⟩ | ⟨b', rfl, later⟩
  · have := hq a' b rfl
    rwa [List.append_assoc] at this
  · cases b' with
    | nil =>
      have := hq [] b later.symm
      simpa using this
    | cons p b' =>
      obtain ⟨rfl, rfl⟩ := List.cons_eq_cons.mp later
      have line := hp a b' rfl
      rw [← List.append_assoc, ← List.flatMap_append] at line
      refine line.imp_right ?_
      rintro ⟨before, inside, s, last, tail, more, ha, rfl, spills⟩
      exact ⟨before, inside, s, last, tail, more ++ qs, ha, List.append_assoc .., spills⟩

theorem broken {ps : List Piece}
    (h : SpacesFit width parts (front ++ [.group .broken]) ps rest) :
    SpacesFit width parts front (.group .broken :: ps) rest := by
  rw [← List.singleton_append]
  exact append (of_not_mem (by simp)) h

/-- A flat group has no new lines, so up to its first text with a line end it is on one line. -/
theorem flat {ps : List Piece} (group : Doc.GivesFlat width parts ps) (none : .newline ∉ ps)
    (fits : (Text.lastLine (front.flatMap chars)).length +
      (Text.firstLine (ps.flatMap chars ++ rest)).length ≤ width) :
    SpacesFit width parts front (.group .flat :: ps) rest := by
  intro a b split
  cases a with
  | nil => cases split
  | cons p a =>
    obtain ⟨rfl, rfl⟩ : .group .flat = p ∧ ps = a ++ .space :: b := by simpa using split
    by_cases ends : '\n' ∈ a.flatMap chars
    · right
      have early : .newline ∉ a := fun h => none (List.mem_append_left _ h)
      obtain ⟨inside, s, last, rfl, mem, tail⟩ := text_of_newline early ends
      exact ⟨front, inside, s, last, b, [], rfl, (List.append_nil b).symm, group,
        fun h => early (List.mem_append_left _ h), mem, tail⟩
    · left
      have one : (front ++ .group .flat :: a).flatMap chars =
          front.flatMap chars ++ a.flatMap chars := by
        simp [chars]
      have line : (a ++ .space :: b).flatMap chars ++ rest =
          a.flatMap chars ++ ([' '] ++ (b.flatMap chars ++ rest)) := by
        simp [chars]
      have space : '\n' ∉ [' '] := by decide
      rw [line, Text.firstLine_append_of_not_mem ends, Text.firstLine_append_of_not_mem space,
        List.length_append, List.length_append, List.length_singleton] at fits
      rw [one, Text.lastLine_append_of_not_mem _ ends, List.length_append]
      omega

end SpacesFit

end Piece

namespace Doc

mutual

/-- The position behind a layout is where its last line ends. -/
theorem behind_layout (width : Int) {indent : Int} (hi : 0 ≤ indent) (mode : Mode)
    (after : List Pending) {pos : Position} {s : List Char} (h : pos.Behind s) :
    ∀ d : Doc, d.sound → (layout width indent mode after pos d).2.Behind
      (s ++ (layout width indent mode after pos d).1.flatMap Piece.chars)
  | text [], _ => by simpa [layout] using h
  | text (c :: u), _ => by
    simpa [layout, Position.chars_marginPieces, Piece.chars] using h.pass (c :: u)
  | concat ds, hd => by
    rw [layout]
    exact behind_layoutAll width hi mode after h ds (by simpa [sound] using hd)
  | .indent extra d, hd => by
    simp only [sound, Bool.and_eq_true, decide_eq_true_eq] at hd
    rw [layout]
    exact behind_layout width (by omega) mode after h d hd.2
  | line, _ => by
    cases mode with
    | flat => simpa [layout, Position.chars_marginPieces, Piece.chars] using h.pass [' ']
    | broken => simpa [layout, Piece.chars] using Position.Behind.newline s hi
  | hardLine, _ => by simpa [layout, Piece.chars] using Position.Behind.newline s hi
  | group breaks d, hd => by
    simp only [sound, Bool.and_eq_true] at hd
    rw [layout]
    split
    · rename_i inner _
      simpa [Piece.chars] using behind_layout width hi inner after h d hd.2
    · simpa [Piece.chars] using h
  | unknown _, hd => by simp [sound] at hd

theorem behind_layoutAll (width : Int) {indent : Int} (hi : 0 ≤ indent) (mode : Mode)
    (after : List Pending) {pos : Position} {s : List Char} (h : pos.Behind s) :
    ∀ ds : List Doc, soundAll ds → (layoutAll width indent mode after pos ds).2.Behind
      (s ++ (layoutAll width indent mode after pos ds).1.flatMap Piece.chars)
  | [], _ => by simpa [layoutAll] using h
  | d :: ds, hd => by
    simp only [soundAll, Bool.and_eq_true] at hd
    have first := behind_layout width hi mode ({ indent, mode, docs := ds } :: after) h d hd.1
    have rest := behind_layoutAll width hi mode after first ds hd.2
    simpa [layoutAll_cons] using rest

end

mutual

/-- What is flat has no new line. -/
theorem newline_not_mem_layout (width indent : Int) (after : List Pending) (pos : Position) :
    ∀ d : Doc, d.sound → d.mustBreak = false → .newline ∉ (layout width indent .flat after pos d).1
  | text [], _, _ => by simp [layout]
  | text (_ :: _), _, _ => by simp [layout, pos.not_mem_marginPieces]
  | concat ds, hd, flat => by
    rw [layout]
    exact newline_not_mem_layoutAll width indent after pos ds (by simpa [sound] using hd)
      (by simpa [mustBreak] using flat)
  | .indent extra d, hd, flat => by
    simp only [sound, Bool.and_eq_true] at hd
    rw [layout]
    exact newline_not_mem_layout width (indent + extra) after pos d hd.2
      (by simpa [mustBreak] using flat)
  | line, _, _ => by simp [layout, pos.not_mem_marginPieces]
  | hardLine, _, flat => by simp [mustBreak] at flat
  | group breaks d, hd, flat => by
    simp only [sound, Bool.and_eq_true, beq_iff_eq] at hd
    simp only [mustBreak] at flat
    have chosen : groupMode (width - pos.column) .flat breaks d after = .ok .flat := by
      simp [groupMode]
    have none := newline_not_mem_layout width indent after pos d hd.2 (by rw [← hd.1, flat])
    simpa [layout_group _ _ _ _ _ chosen] using none
  | unknown _, hd, _ => by simp [sound] at hd

theorem newline_not_mem_layoutAll (width indent : Int) (after : List Pending) (pos : Position) :
    ∀ ds : List Doc, soundAll ds → anyMustBreak ds = false →
      .newline ∉ (layoutAll width indent .flat after pos ds).1
  | [], _, _ => by simp [layoutAll]
  | d :: ds, hd, flat => by
    simp only [soundAll, Bool.and_eq_true] at hd
    simp only [anyMustBreak, Bool.or_eq_false_iff] at flat
    have first :=
      newline_not_mem_layout width indent ({ indent, mode := .flat, docs := ds } :: after)
      pos d hd.1 flat.1
    have rest := newline_not_mem_layoutAll width indent after
      (layout width indent .flat ({ indent, mode := .flat, docs := ds } :: after) pos d).2
        ds hd.2 flat.2
    simp [layoutAll_cons, first, rest]

end

mutual

/-- The spaces in a layout are those of flat groups, and each of these was found to fit. -/
theorem spaces_layout (width : Int) {indent : Int} (hi : 0 ≤ indent) {after : List Pending}
    (ha : KnownPending after) {set : Position → List Char}
    (keeps : Keeps width (previewPending after) set) {pos : Position} {front : List Piece}
    (behind : pos.Behind (front.flatMap Piece.chars)) :
    ∀ d : Doc, d.sound →
      Piece.SpacesFit width d.subdocs front (layout width indent .broken after pos d).1
        (set (layout width indent .broken after pos d).2)
  | text [], _ => by simpa [layout] using .of_not_mem List.not_mem_nil
  | text (c :: s), _ => by
    refine .of_not_mem ?_
    simp [layout, pos.not_mem_marginPieces]
  | concat ds, hd => by
    rw [layout]
    exact (spaces_layoutAll width hi ha keeps behind ds (by simpa [sound] using hd)).mono
      (List.subset_cons_self ..)
  | .indent extra d, hd => by
    simp only [sound, Bool.and_eq_true, decide_eq_true_eq] at hd
    rw [layout]
    exact (spaces_layout width (by omega) ha keeps behind d hd.2).mono (List.subset_cons_self ..)
  | line, _ => by
    refine .of_not_mem ?_
    simp [layout]
  | hardLine, _ => by
    refine .of_not_mem ?_
    simp [layout]
  | group breaks d, hd => by
    simp only [sound, Bool.and_eq_true, beq_iff_eq] at hd
    obtain ⟨rfl, hd⟩ := hd
    have chosen := groupMode_broken (width - pos.column) d.mustBreak (known_of_sound d hd) ha
    split at chosen
    · rename_i fit
      rw [layout_group _ _ _ _ _ chosen]
      -- The test has seen the line on which the group starts, up to where a text ends it.
      have safe : d.mustBreak = false := by simpa using fit.1
      have kept := keeps_layout width indent .flat ha keeps d hd (fun _ => safe) pos behind.due
        (Int.add_le_of_le_sub_left fit.2)
      have own : GivesFlat width (group d.mustBreak d).subdocs
          (layout width indent .flat after pos d).1 :=
        ⟨_, d, indent, after, pos, mem_subdocs_self _, rfl⟩
      refine .flat own (newline_not_mem_layout width indent after pos d hd safe) ?_
      have column := behind.column
      simp only at kept ⊢
      omega
    · rw [layout_group _ _ _ _ _ chosen]
      have same : pos.Behind ((front ++ [Piece.group .broken]).flatMap Piece.chars) := by
        simpa [Piece.chars] using behind
      exact ((spaces_layout width hi ha keeps same d hd).mono (List.subset_cons_self ..)).broken
  | unknown _, hd => by simp [sound] at hd

theorem spaces_layoutAll (width : Int) {indent : Int} (hi : 0 ≤ indent) {after : List Pending}
    (ha : KnownPending after) {set : Position → List Char}
    (keeps : Keeps width (previewPending after) set) {pos : Position} {front : List Piece}
    (behind : pos.Behind (front.flatMap Piece.chars)) :
    ∀ ds : List Doc, soundAll ds →
      Piece.SpacesFit width (subdocsAll ds) front (layoutAll width indent .broken after pos ds).1
        (set (layoutAll width indent .broken after pos ds).2)
  | [], _ => by simpa [layoutAll] using .of_not_mem List.not_mem_nil
  | d :: ds, hd => by
    simp only [soundAll, Bool.and_eq_true] at hd
    have pending : KnownPending ({ indent, mode := .broken, docs := ds } :: after) :=
      ha.cons (knownAll_of_soundAll ds hd.2)
    have line := keeps_layoutAll width indent .broken ha keeps ds hd.2 nofun
    have first := spaces_layout width hi pending line behind d hd.1
    have there := behind_layout width hi .broken ({ indent, mode := .broken, docs := ds } :: after)
      behind d hd.1
    rw [← List.flatMap_append] at there
    have rest := spaces_layoutAll width hi ha keeps there ds hd.2
    rw [layoutAll_cons]
    exact (first.mono (List.subset_append_left ..)).append
      (rest.mono (List.subset_append_right ..))

end

/-- A line with a space of an unbroken line fits, unless it starts inside of a text of a flat
group. -/
theorem spaces_of_pieces (width : Int) {d : Doc} (h : d.sound) {front back : List Piece}
    (pieces : d.pieces width = front ++ .space :: back) :
    (Piece.lineAt front (.space :: back)).length ≤ width ∨
      Piece.Spills width d.subdocs front back := by
  have keeps : Keeps width (previewPending []) fun _ => [] := by
    intro pos due fits
    simp only [Text.firstLine, List.takeWhile_nil, List.length_nil]
    omega
  have start : Position.Behind {} (List.flatMap Piece.chars []) := ⟨Int.le_refl 0, rfl⟩
  have all := spaces_layout width (Int.le_refl 0) (by simp [KnownPending]) keeps start d h
  have line := all front back pieces
  have space : '\n' ∉ [' '] := by decide
  have length : (Piece.lineAt front (.space :: back)).length =
      (Text.lastLine (front.flatMap Piece.chars)).length + 1 +
        (Text.firstLine (back.flatMap Piece.chars)).length := by
    rw [Piece.lineAt, List.flatMap_cons, Piece.chars, Text.firstLine_append_of_not_mem space]
    simp only [List.length_append, List.length_singleton]
    omega
  rw [length]
  simpa using line

end Doc

/-- Every space of a formatted source at which a line could have been broken is on a line that fits,
unless the line starts inside of an atom or a string of a flat list. -/
theorem spaces_of_format {file? : Option String} {source : List Char} {tree : Node}
    (h : Node.parse file? source = .ok tree) (width : Int) :
    ∃ doc, tree.document = .ok doc ∧
      format file? width source = .ok ((doc.pieces width).flatMap Piece.chars) ∧
      ∀ front back, doc.pieces width = front ++ .space :: back →
        (Piece.lineAt front (.space :: back)).length ≤ width ∨
          Piece.Spills width doc.subdocs front back := by
  obtain ⟨doc, built, _, formatted⟩ := format_pieces h
  refine ⟨doc, built, formatted width, fun front back pieces => ?_⟩
  exact Doc.spaces_of_pieces width (Node.sound_of_document tree built) pieces

theorem spaces_of_format_string :
    ∃ tree doc, Node.parse none "(f \"a\nb\" c d)".toList = .ok tree ∧ tree.document = .ok doc ∧
      ∀ front back, doc.pieces 6 = front ++ .space :: back →
        ((Piece.lineAt front (.space :: back)).length : Int) ≤ 6 ∨
          Piece.Spills 6 doc.subdocs front back := by
  have parses : (Node.parse none "(f \"a\nb\" c d)".toList).isOk := by cbv
  cases h : Node.parse none "(f \"a\nb\" c d)".toList with
  | error e =>
    rw [h] at parses
    cases parses
  | ok tree =>
    obtain ⟨doc, built, _, spaces⟩ := spaces_of_format h 6
    exact ⟨tree, doc, rfl, built, spaces⟩

/-- The list fits up to the line end in its string, and its other children are not looked at. -/
theorem space_beyond_width :
    ∃ tree doc front back, Node.parse none "(\"a\nb\" c d)".toList = .ok tree ∧
      tree.document = .ok doc ∧ doc.pieces 3 = front ++ .space :: back ∧
      Piece.lineAt front (.space :: back) = "b\" c d)".toList ∧
      3 < (Piece.lineAt front (.space :: back)).length := by
  have document : (Node.parse none "(\"a\nb\" c d)".toList).toOption.bind (·.document.toOption) =
      some (.concat [.text ['('], .group false (.indent 2 (.concat
        [.text "\"a\nb\"".toList, .line, .text ['c'], .line, .text ['d']])), .text [')'],
        .hardLine]) := by
    cbv
  obtain ⟨tree, parsed, built⟩ := Node.parse_of_document document
  exact ⟨tree, _, [.text ['('], .group .flat, .text "\"a\nb\"".toList],
    [.text ['c'], .space, .text ['d'], .text [')'], .newline], parsed, built, rfl, rfl, by decide⟩

end SexprFormat
