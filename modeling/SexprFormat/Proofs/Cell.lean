import SexprFormat.Doc.Layout

/-!
What a layout can look like, whatever the width. A document is laid out as a row of cells:
characters, lines that may end and lines that end. `Written` relates the cells to the texts that
they can stand for; `Doc.render_written` is the main statement: rendering a document whose parts are
all known succeeds, with one of these texts.
-/

namespace SexprFormat

inductive Cell where
  | char (c : Char)
  /-- A space, or a new line with this indentation. -/
  | soft (indent : Int)
  /-- A new line with this indentation. -/
  | hard (indent : Int)
  deriving DecidableEq, Repr

/-- The indentation of a line; it is empty for a negative width. -/
def spaces (width : Int) : List Char :=
  List.replicate width.toNat ' '

/-- The texts of some cells behind which a margin is due. The margin is written in front of the next
character or space, and not at all if the line ends first. -/
inductive Written : (margin : Int) → List Cell → List Char → Prop where
  | nil {margin : Int} : Written margin [] []
  | char {margin : Int} {c : Char} {cells : List Cell} {s : List Char} :
      Written 0 cells s → Written margin (.char c :: cells) (spaces margin ++ c :: s)
  | space {margin indent : Int} {cells : List Cell} {s : List Char} :
      Written 0 cells s → Written margin (.soft indent :: cells) (spaces margin ++ ' ' :: s)
  | newline {margin indent : Int} {cells : List Cell} {s : List Char} :
      Written indent cells s → Written margin (.soft indent :: cells) ('\n' :: s)
  | hard {margin indent : Int} {cells : List Cell} {s : List Char} :
      Written indent cells s → Written margin (.hard indent :: cells) ('\n' :: s)

namespace Written

theorem chars {cells : List Cell} {s : List Char} (h : Written 0 cells s) (margin : Int)
    (text : List Char) (hm : text = [] → margin = 0) :
    Written margin (text.map .char ++ cells) (spaces margin ++ text ++ s) := by
  induction text generalizing margin with
  | nil => simpa [hm rfl, spaces] using h
  | cons c text ih =>
    have rest : Written 0 (text.map .char ++ cells) (text ++ s) := by
      simpa [spaces] using ih 0 fun _ => rfl
    simpa using Written.char rest

end Written

namespace Position

theorem chars_marginPieces (pos : Position) :
    pos.marginPieces.flatMap Piece.chars = spaces pos.margin := by
  unfold marginPieces
  split
  · rename_i h
    simp [h, spaces]
  · simp [Piece.chars, spaces]

/-- A margin can be set, and so can what stands behind it. -/
theorem error_margin_append (pos : Position) {p : Piece} (h : p.error? = none) :
    ∀ q ∈ pos.marginPieces ++ [p], q.error? = none := by
  have margin : ∀ q ∈ pos.marginPieces, q.error? = none := by
    unfold marginPieces
    split <;> simp [Piece.error?]
  exact List.forall_mem_append.mpr ⟨margin, List.forall_mem_singleton.mpr h⟩

theorem margin_pass (pos : Position) (s : List Char) : (pos.pass s).margin = 0 := by
  unfold pass
  split <;> rfl

end Position

namespace Doc

mutual

def cells (indent : Int) : Doc → List Cell
  | text s => s.map .char
  | concat ds => cellsAll indent ds
  | .indent extra d => cells (indent + extra) d
  | line => [.soft indent]
  | hardLine => [.hard indent]
  | group _ d => cells indent d
  | unknown _ => []

def cellsAll (indent : Int) : List Doc → List Cell
  | [] => []
  | d :: ds => cells indent d ++ cellsAll indent ds

end

mutual

/-- No part of the document is of a kind that is not known. -/
def known : Doc → Bool
  | text _ | line | hardLine => true
  | concat ds => knownAll ds
  | indent _ d | group _ d => known d
  | unknown _ => false

def knownAll : List Doc → Bool
  | [] => true
  | d :: ds => known d && knownAll ds

end

theorem knownAll_append (a b : List Doc) : knownAll (a ++ b) = (knownAll a && knownAll b) := by
  induction a with
  | nil => rfl
  | cons d a ih => simp [knownAll, ih, Bool.and_assoc]

theorem cellsAll_append (indent : Int) (a b : List Doc) :
    cellsAll indent (a ++ b) = cellsAll indent a ++ cellsAll indent b := by
  induction a with
  | nil => rfl
  | cons d a ih => simp [cellsAll, ih]

/-- Splicing and dropping parts changes nothing in what is put together from the parts. -/
theorem append_eq {α : Type} {one : Doc → α} {all : List Doc → α} {op : α → α → α}
    (empty : one (text []) = all []) (single : ∀ d, all [d] = one d)
    (concat : ∀ ds, one (concat ds) = all ds) (join : ∀ a b, all (a ++ b) = op (all a) (all b))
    (ds : List Doc) : one (append ds) = all ds := by
  have part (d : Doc) : all d.parts = one d := by
    unfold parts
    split
    · exact empty.symm
    · exact (concat _).symm
    · exact single _
  have flat : all (ds.flatMap parts) = all ds := by
    induction ds with
    | nil => rfl
    | cons d ds ih =>
      rw [List.flatMap_cons, join, part, ih, ← single, ← join, List.singleton_append]
  unfold append
  split
  · rename_i d only
    rw [← flat, only, single]
  · rw [concat, flat]

theorem cells_append (indent : Int) (ds : List Doc) :
    cells indent (append ds) = cellsAll indent ds :=
  append_eq rfl (fun d => by simp [cellsAll]) (fun _ => by rw [cells]) (cellsAll_append indent) ds

theorem known_append (ds : List Doc) : known (append ds) = knownAll ds :=
  append_eq rfl (fun d => by simp [knownAll]) (fun _ => by rw [known]) knownAll_append ds

theorem anyMustBreak_append (a b : List Doc) :
    anyMustBreak (a ++ b) = (anyMustBreak a || anyMustBreak b) := by
  induction a with
  | nil => rfl
  | cons d a ih => simp [anyMustBreak, ih, Bool.or_assoc]

theorem mustBreak_append (ds : List Doc) : mustBreak (append ds) = anyMustBreak ds :=
  append_eq rfl (fun d => by simp [anyMustBreak])
    (fun _ => by rw [mustBreak]) anyMustBreak_append ds

mutual

/-- Following a line through a document fails only at a part that is not known. -/
theorem probe_ok (mode : Mode) (columns : Int) :
    ∀ d : Doc, d.known → ∃ p, probe mode columns d = .ok p
  | text s, _ => by
    unfold probe
    split <;> exact ⟨_, rfl⟩
  | concat ds, h => by
    unfold probe
    exact probeAll_ok mode columns ds (by simpa [known] using h)
  | indent _ d, h => by
    unfold probe
    exact probe_ok mode columns d (by simpa [known] using h)
  | line, _ => ⟨_, by unfold probe; rfl⟩
  | hardLine, _ => ⟨_, by unfold probe; rfl⟩
  | group breaks d, h => by
    unfold probe
    exact probe_ok _ columns d (by simpa [known] using h)
  | unknown _, h => by simp [known] at h

theorem probeAll_ok (mode : Mode) (columns : Int) :
    ∀ ds : List Doc, knownAll ds → ∃ p, probeAll mode columns ds = .ok p
  | [], _ => ⟨_, by unfold probeAll; rfl⟩
  | d :: ds, h => by
    simp only [knownAll, Bool.and_eq_true] at h
    obtain ⟨p, hp⟩ := probe_ok mode columns d h.1
    unfold probeAll
    rw [hp]
    cases p with
    | overflow | ends => exact ⟨_, rfl⟩
    | left columns => exact probeAll_ok mode columns ds h.2

end

/-- All that is still to be set is known. -/
def KnownPending (after : List Pending) : Prop :=
  ∀ p ∈ after, knownAll p.docs

theorem KnownPending.cons {after : List Pending} (h : KnownPending after) {p : Pending}
    (hp : knownAll p.docs) : KnownPending (p :: after) := by
  intro q hq
  rcases List.mem_cons.mp hq with rfl | hq
  · exact hp
  · exact h q hq

theorem probePending_ok (columns : Int) {after : List Pending} (h : KnownPending after) :
    ∃ p, probePending columns after = .ok p := by
  induction after generalizing columns with
  | nil => exact ⟨_, rfl⟩
  | cons p after ih =>
    obtain ⟨result, hp⟩ := probeAll_ok p.mode columns p.docs (h p (List.mem_cons_self ..))
    unfold probePending
    rw [hp]
    cases result with
    | overflow | ends => exact ⟨_, rfl⟩
    | left columns => exact ih columns fun q hq => h q (List.mem_cons_of_mem _ hq)

theorem groupMode_ok (columns : Int) (mode : Mode) (breaks : Bool) {d : Doc} (hd : d.known)
    {after : List Pending} (h : KnownPending after) :
    ∃ inner, groupMode columns mode breaks d after = .ok inner := by
  unfold groupMode fits
  split
  · exact ⟨_, rfl⟩
  · split
    · exact ⟨_, rfl⟩
    · split
      · exact ⟨_, rfl⟩
      · obtain ⟨p, hp⟩ := probePending_ok columns
          (h.cons (p := { indent := 0, mode := .flat, docs := [d] }) (by simp [knownAll, hd]))
        rw [hp]
        exact ⟨_, rfl⟩

/-- The pieces set all of a document, in front of whatever comes behind it. -/
structure Sets (pos : Position) (cells : List Cell) (result : List Piece × Position) : Prop where
  ok : ∀ p ∈ result.1, p.error? = none
  written {rest : List Cell} {s : List Char} : Written result.2.margin rest s →
    Written pos.margin (cells ++ rest) (result.1.flatMap Piece.chars ++ s)

theorem Sets.nil (pos : Position) : Sets pos [] ([], pos) :=
  ⟨by simp, fun h => h⟩

theorem Sets.newline {pos : Position} {cell : Cell} (indent : Int)
    (h : cell = .soft indent ∨ cell = .hard indent) :
    Sets pos [cell] ([.newline], .newline indent) := by
  refine ⟨by simp [Piece.error?], fun {rest s} hs => ?_⟩
  have hs : Written indent rest s := hs
  rcases h with rfl | rfl
  · simpa [Piece.chars] using Written.newline hs
  · simpa [Piece.chars] using Written.hard hs

theorem Sets.space (pos : Position) (indent : Int) :
    Sets pos [.soft indent] (pos.marginPieces ++ [.space], pos.pass [' ']) := by
  refine ⟨pos.error_margin_append rfl, fun {rest s} h => ?_⟩
  rw [pos.margin_pass] at h
  simpa [Position.chars_marginPieces, Piece.chars] using Written.space h

/-- Characters that are set go behind the margin that is due. -/
theorem Sets.text (pos : Position) {s : List Char} (hs : s ≠ []) :
    Sets pos (s.map .char) (pos.marginPieces ++ [.text s], pos.pass s) := by
  refine ⟨pos.error_margin_append rfl, fun {rest u} h => ?_⟩
  rw [pos.margin_pass] at h
  simpa [Position.chars_marginPieces, Piece.chars] using
    h.chars pos.margin s fun e => absurd e hs

theorem Sets.append {pos : Position} {a b : List Cell} {first second : List Piece × Position}
    (ha : Sets pos a first) (hb : Sets first.2 b second) :
    Sets pos (a ++ b) (first.1 ++ second.1, second.2) := by
  refine ⟨List.forall_mem_append.mpr ⟨ha.ok, hb.ok⟩, fun {rest s} h => ?_⟩
  simpa using ha.written (hb.written h)

mutual

theorem sets_layout (width indent : Int) (mode : Mode) (after : List Pending) (pos : Position) :
    ∀ d : Doc, d.known → KnownPending after →
      Sets pos (d.cells indent) (layout width indent mode after pos d)
  | text [], _, _ => by simpa [layout, cells] using Sets.nil pos
  | text (c :: s), _, _ => by simpa [layout, cells] using Sets.text pos (List.cons_ne_nil c s)
  | concat ds, hd, ha => by
    rw [layout, cells]
    exact sets_layoutAll width indent mode after pos ds (by simpa [known] using hd) ha
  | .indent extra d, hd, ha => by
    rw [layout, cells]
    exact sets_layout width (indent + extra) mode after pos d (by simpa [known] using hd) ha
  | line, _, _ => by
    cases mode with
    | flat => simpa [layout, cells] using Sets.space pos indent
    | broken => simpa [layout, cells] using Sets.newline indent (.inl rfl)
  | hardLine, _, _ => by
    rw [layout, cells]
    exact Sets.newline indent (.inr rfl)
  | group breaks d, hd, ha => by
    have hd : d.known := by simpa [known] using hd
    rw [layout, cells]
    obtain ⟨inner, hi⟩ := groupMode_ok (width - pos.column) mode breaks hd ha
    rw [hi]
    have hs := sets_layout width indent inner after pos d hd ha
    refine ⟨?_, fun {rest s} h => ?_⟩
    · intro p hp
      rcases List.mem_cons.mp hp with rfl | hp
      · rfl
      · exact hs.ok p hp
    · simpa [Piece.chars] using hs.written h
  | unknown _, hd, _ => by simp [known] at hd

theorem sets_layoutAll (width indent : Int) (mode : Mode) (after : List Pending) (pos : Position) :
    ∀ ds : List Doc, knownAll ds → KnownPending after →
      Sets pos (cellsAll indent ds) (layoutAll width indent mode after pos ds)
  | [], _, _ => by
    rw [layoutAll, cellsAll]
    exact Sets.nil pos
  | d :: ds, hd, ha => by
    simp only [knownAll, Bool.and_eq_true] at hd
    rw [layoutAll, cellsAll]
    have first := sets_layout width indent mode ({ indent, mode, docs := ds } :: after) pos d hd.1
      (ha.cons hd.2)
    exact first.append (sets_layoutAll width indent mode after _ ds hd.2 ha)

end

/-- Rendering a document whose parts are known gives the text of its pieces. -/
theorem render_eq (width : Int) {d : Doc} (h : d.known) :
    d.render width = .ok ((d.pieces width).flatMap Piece.chars) := by
  have sets := sets_layout width 0 .broken [] {} d h (by simp [KnownPending])
  have ok : (d.pieces width).findSome? Piece.error? = none :=
    List.findSome?_eq_none_iff.mpr sets.ok
  simp [render, ok, Piece.write_eq]

/-- In any width the text is one of those of the cells. -/
theorem render_written (width : Int) {d : Doc} (h : d.known) :
    ∃ s, d.render width = .ok s ∧ Written 0 (d.cells 0) s := by
  have sets := sets_layout width 0 .broken [] {} d h (by simp [KnownPending])
  refine ⟨_, render_eq width h, ?_⟩
  simpa [pieces] using sets.written .nil

end Doc

end SexprFormat
