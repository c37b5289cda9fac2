import Mathlib.Data.List.Forall2
import SexprFormat.Proofs.Site

/-!
A wider layout breaks no more. A list that is flat in some width is flat in every wider one, since
what decides it does not depend on the width (`Site.flat_of_le`); and of two layouts of one
document, the one that keeps the flat groups of the other has no more line ends
(`Doc.relaxes_layout`). Main statement: `lineEnds_of_wider`, for the layouts of a source.
-/

namespace SexprFormat

/-- Flat stays flat. -/
def Mode.Stays (mode mode' : Mode) : Prop :=
  mode = .flat → mode' = .flat

namespace Site

/-- A wider line has room for all that a line has room for. -/
theorem flat_of_le {width width' : Int} (le : width ≤ width') (sites : List Site)
    (h : flat width sites) : flat width' sites := by
  induction sites with
  | nil => cases h
  | cons site outer ih =>
    simp only [flat, Bool.or_eq_true, Bool.and_eq_true, decide_eq_true_eq] at h ⊢
    rcases h with around | ⟨inlines, fits⟩
    · exact .inl (ih around)
    · exact .inr ⟨inlines, Int.le_trans fits le⟩

theorem stays_of_le {width width' : Int} (le : width ≤ width') (sites : List Site) :
    (mode width sites).Stays (mode width' sites) := by
  intro h
  have narrow : flat width sites := by
    by_contra broken
    simp [mode, broken] at h
  simp [mode, flat_of_le le sites narrow]

end Site

namespace Piece

/-- The line feeds in the text of some pieces. -/
def lineEnds (ps : List Piece) : Nat :=
  (ps.flatMap chars).count '\n'

theorem lineEnds_append (ps qs : List Piece) : lineEnds (ps ++ qs) = lineEnds ps + lineEnds qs := by
  simp [lineEnds]

/-- What one document is set as in two modes: the groups are the same ones, and if what is flat at
first stays flat, no line ends are added. -/
structure Relaxes (mode mode' : Mode) (ps qs : List Piece) : Prop where
  groups : (modes ps).length = (modes qs).length
  lineEnds : mode.Stays mode' → List.Forall₂ Mode.Stays (modes ps) (modes qs) →
    lineEnds qs ≤ lineEnds ps

namespace Relaxes

variable {mode mode' : Mode}

theorem of_lineEnds {ps qs : List Piece} (hp : modes ps = []) (hq : modes qs = [])
    (le : mode.Stays mode' → Piece.lineEnds qs ≤ Piece.lineEnds ps) : Relaxes mode mode' ps qs :=
  ⟨by rw [hp, hq], fun stays _ => le stays⟩

theorem append {ps qs ps' qs' : List Piece} (first : Relaxes mode mode' ps qs)
    (rest : Relaxes mode mode' ps' qs') : Relaxes mode mode' (ps ++ ps') (qs ++ qs') := by
  constructor
  · simp only [modes_append, List.length_append, first.groups, rest.groups]
  · intro outer stays
    rw [modes_append, modes_append] at stays
    have front := List.forall₂_take_append _ _ _ stays
    have back := List.forall₂_drop_append _ _ _ stays
    rw [← first.groups, List.take_left] at front
    rw [← first.groups, List.drop_left] at back
    have few := first.lineEnds outer front
    have fewer := rest.lineEnds outer back
    rw [lineEnds_append, lineEnds_append]
    omega

/-- What is in a group is set in the mode of the group. -/
theorem group {inner inner' : Mode} {ps qs : List Piece} (h : Relaxes inner inner' ps qs) :
    Relaxes mode mode' (.group inner :: ps) (.group inner' :: qs) := by
  constructor
  · exact congrArg (· + 1) h.groups
  · intro _ stays
    cases stays with
    | cons own inside => exact h.lineEnds own inside

end Relaxes

end Piece

namespace Doc

/-- A text has the same line feeds wherever it is set. -/
theorem lineEnds_text (width indent : Int) (mode : Mode) (after : List Pending) (pos : Position)
    (s : List Char) :
    Piece.lineEnds (layout width indent mode after pos (text s)).1 = s.count '\n' := by
  cases s with
  | nil => simp [layout, Piece.lineEnds]
  | cons c s =>
    have margin : (spaces pos.margin).count '\n' = 0 := by simp [spaces, List.count_replicate]
    simp [layout, Piece.lineEnds, Position.chars_marginPieces, Piece.chars, margin]

mutual

/-- Of two layouts of a document, one that keeps the flat groups of the other has no more line ends,
whatever the positions and the documents behind it. -/
theorem relaxes_layout (width width' indent indent' : Int) (mode mode' : Mode)
    {after after' : List Pending}
    (ha : KnownPending after) (ha' : KnownPending after') (pos pos' : Position) :
    ∀ d : Doc, d.known → Piece.Relaxes mode mode' (layout width indent mode after pos d).1
      (layout width' indent' mode' after' pos' d).1
  | text s, _ => by
    refine .of_lineEnds (modes_text ..) (modes_text ..) fun _ => ?_
    rw [lineEnds_text, lineEnds_text]
  | concat ds, hd => by
    rw [layout, layout]
    exact relaxes_layoutAll width width' indent indent' mode mode' ha ha' pos pos' ds
      (by simpa [known] using hd)
  | .indent extra d, hd => by
    rw [layout, layout]
    exact relaxes_layout width width' _ _ mode mode' ha ha' pos pos' d (by simpa [known] using hd)
  | line, _ => by
    refine .of_lineEnds (modes_line ..) (modes_line ..) fun stays => ?_
    have margin : (spaces pos'.margin).count '\n' = 0 := by simp [spaces, List.count_replicate]
    cases mode' with
    | flat =>
      simp [layout, Piece.lineEnds, Position.chars_marginPieces, Piece.chars, margin]
    | broken =>
      -- A line that ends now has ended before.
      cases mode with
      | flat => cases stays rfl
      | broken => simp [layout, Piece.lineEnds]
  | hardLine, _ => .of_lineEnds (modes_hardLine ..) (modes_hardLine ..) fun _ => by
    rw [layout, layout]
  | group breaks d, hd => by
    have hd : d.known := by simpa [known] using hd
    obtain ⟨inner, chosen⟩ := groupMode_ok (width - pos.column) mode breaks hd ha
    obtain ⟨inner', chosen'⟩ := groupMode_ok (width' - pos'.column) mode' breaks hd ha'
    rw [layout_group _ _ _ _ _ chosen, layout_group _ _ _ _ _ chosen']
    exact (relaxes_layout width width' indent indent' inner inner' ha ha' pos pos' d hd).group
  | unknown _, hd => by simp [known] at hd

theorem relaxes_layoutAll (width width' indent indent' : Int) (mode mode' : Mode)
    {after after' : List Pending} (ha : KnownPending after) (ha' : KnownPending after')
    (pos pos' : Position) :
    ∀ ds : List Doc, knownAll ds →
      Piece.Relaxes mode mode' (layoutAll width indent mode after pos ds).1
      (layoutAll width' indent' mode' after' pos' ds).1
  | [], _ => by
    rw [layoutAll, layoutAll]
    exact .of_lineEnds rfl rfl fun _ => Nat.le_refl _
  | d :: ds, hd => by
    simp only [knownAll, Bool.and_eq_true] at hd
    rw [layoutAll_cons, layoutAll_cons]
    exact (relaxes_layout width width' indent indent' mode mode' (ha.cons hd.2)
      (ha'.cons hd.2) pos pos'
      d hd.1).append (relaxes_layoutAll width width' indent indent' mode mode' ha ha' _ _ ds hd.2)

end

end Doc

namespace Node

mutual

theorem ne_nil_of_mem_sites (outer : List Site) (lead : List Char) (first : Bool)
    (next? : Option Node) : ∀ node : Node, ∀ sites ∈ node.sites outer lead first next?, sites ≠ []
  | quoted _ _ mark inner => by
    rw [sites]
    exact ne_nil_of_mem_sites outer (lead ++ mark) first next? inner
  | list loc shape children => by
    rw [sites]
    intro sites mem
    rcases List.mem_cons.mp mem with rfl | below
    · exact List.cons_ne_nil _ _
    · exact ne_nil_of_mem_sitesAll _ true children sites below
  | atom .. | string .. | comment .. | directive .. | program .. | blank .. | unknown .. => nofun

theorem ne_nil_of_mem_sitesAll (outer : List Site) (first : Bool) :
    ∀ nodes : List Node, ∀ sites ∈ sitesAll outer first nodes, sites ≠ []
  | [] => nofun
  | child :: rest => by
    rw [sitesAll]
    intro sites mem
    rcases List.mem_append.mp mem with here | later
    · exact ne_nil_of_mem_sites outer [] first rest.head? child sites here
    · exact ne_nil_of_mem_sitesAll outer false rest sites later

end

/-- There is a site for each list. -/
theorem length_sitesAll {W : Word → Prop} {inList : Bool} {nodes : List Node}
    (spelled : SpelledAll W inList nodes) :
    (sitesAll [] true nodes).length = ((subtreesAll nodes).filter isList).length := by
  rw [← node_sitesAll nodes spelled [] true]
  symm
  rw [List.length_filterMap_eq_countP, List.countP_eq_length]
  intro sites mem
  cases sites with
  | nil => exact absurd rfl (ne_nil_of_mem_sitesAll [] true nodes [] mem)
  | cons site outer => rfl

end Node

/-- In every width a source has a group for each list, in the order of the brackets. In a wider
layout each list stays flat that was flat, and there are no more line feeds. -/
theorem lineEnds_of_wider {file? : Option String} {source : List Char} {loc : Location}
    {nodes : List Node} (h : Node.parse file? source = .ok (.program loc nodes))
    {width width' : Int}
    (le : width ≤ width') :
    ∃ doc, (Node.program loc nodes).document = .ok doc ∧
      (∀ w, (Piece.modes (doc.pieces w)).length =
        ((Node.subtreesAll nodes).filter Node.isList).length) ∧
      (∀ i : Nat, (Piece.modes (doc.pieces width))[i]? = some .flat →
        (Piece.modes (doc.pieces width'))[i]? = some .flat) ∧
      ∃ text text', format file? width source = .ok text ∧ format file? width' source = .ok text' ∧
        text = (doc.pieces width).flatMap Piece.chars ∧
        text' = (doc.pieces width').flatMap Piece.chars ∧ text'.count '\n' ≤ text.count '\n' := by
  obtain ⟨doc, built, known, formatted⟩ := format_pieces h
  have marks := Node.markInLine_of_parse h
  have modes (w : Int) := Node.modes_program w marks built
  refine ⟨doc, built, fun w => ?_, fun i flat => ?_, _, _, formatted width,
    formatted width', rfl, rfl, ?_⟩
  · rw [modes w, List.length_map, Node.length_sitesAll marks]
  · rw [modes, List.getElem?_map, Option.map_eq_some_iff] at flat ⊢
    obtain ⟨sites, here, narrow⟩ := flat
    exact ⟨sites, here, Site.stays_of_le le sites narrow⟩
  · have stays : List.Forall₂ Mode.Stays (Piece.modes (doc.pieces width))
        (Piece.modes (doc.pieces width')) := by
      rw [modes, modes, List.forall₂_map_left_iff, List.forall₂_map_right_iff, List.forall₂_same]
      exact fun sites _ => Site.stays_of_le le sites
    have none : Doc.KnownPending [] := by simp [Doc.KnownPending]
    exact (Doc.relaxes_layout width width' 0 0 .broken .broken none none {} {} doc known).lineEnds
      id stays

theorem lineEnds_of_wider_nested :
    ∃ loc nodes doc text text', Node.parse none "((a b) c)".toList = .ok (.program loc nodes) ∧
      (7 : Int) ≤ 9 ∧ (Node.program loc nodes).document = .ok doc ∧
      Piece.modes (doc.pieces 7) = [.broken, .flat] ∧ Piece.modes (doc.pieces 9) = [.flat, .flat] ∧
      format none 7 "((a b) c)".toList = .ok text ∧ format none 9 "((a b) c)".toList = .ok text' ∧
      text = "((a b)\n  c)\n".toList ∧ text' = "((a b) c)\n".toList ∧
      text'.count '\n' ≤ text.count '\n' := by
  have document : (Node.parse none "((a b) c)".toList).toOption.bind (·.document.toOption) =
      some (.concat [.text ['('], .group false (.indent 2 (.concat [.text ['('],
        .group false (.indent 2 (.concat [.text ['a'], .line, .text ['b']])), .text [')'], .line,
        .text ['c']])), .text [')'], .hardLine]) := by
    cbv
  obtain ⟨tree, parsed, built⟩ := Node.parse_of_document document
  obtain ⟨loc, nodes, rfl, _⟩ := Node.parse_eq_ok parsed
  obtain ⟨doc, built', _, _, text, text', narrow, wide, rfl, rfl, fewer⟩ :=
    lineEnds_of_wider parsed (show (7 : Int) ≤ 9 by decide)
  obtain rfl := Except.ok.inj (built.symm.trans built')
  exact ⟨loc, nodes, _, _, _, parsed, by decide, built, rfl, rfl, narrow, wide, rfl, rfl, fewer⟩

end SexprFormat
