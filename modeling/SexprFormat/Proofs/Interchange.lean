import Mathlib.Data.List.Forall2
import SexprFormat.Doc.Print
import SexprFormat.Proofs.Cell
import SexprFormat.Proofs.Compose

/-!
Documents that can stand for each other. A layout looks at what follows a group, so it is not enough
that two documents are set alike: a line has to be followed through both alike, too.
`Interchangeable` asks for both, and every way to put documents together keeps it. Main statement:
`Doc.print_normalize`, a document may be normalized, as a whole or when it is put together, and the
output stays the same.
-/

namespace SexprFormat

namespace Doc

/-- A line goes on alike through both, both are laid out alike, and groups around them break
alike. -/
structure Interchangeable (d e : Doc) : Prop where
  probe (mode : Mode) {columns : Int} : 0 ≤ columns → d.probe mode columns = e.probe mode columns
  layout (width indent : Int) (mode : Mode) (after : List Pending) (pos : Position) :
    d.layout width indent mode after pos = e.layout width indent mode after pos
  mustBreak : d.mustBreak = e.mustBreak

theorem probeAll_interchange {ds es : List Doc}
    (h : List.Forall₂ Interchangeable ds es) (mode : Mode)
    {columns : Int} (enough : 0 ≤ columns) :
    probeAll mode columns ds = probeAll mode columns es := by
  induction h generalizing columns with
  | nil => rfl
  | @cons d e _ _ first _ ih =>
    rw [probeAll_cons, probeAll_cons, first.probe mode enough]
    exact goOn_congr fun left found => ih (nonneg_of_probe enough e found)

theorem layoutAll_interchange {ds es : List Doc} (h : List.Forall₂ Interchangeable ds es)
    (width indent : Int) (mode : Mode) (after : List Pending) (pos : Position) :
    layoutAll width indent mode after pos ds = layoutAll width indent mode after pos es := by
  induction h generalizing pos with
  | nil => rfl
  | @cons d e ds es first others ih =>
    have alike : Alike ({ indent, mode, docs := ds } :: after)
        ({ indent, mode, docs := es } :: after) :=
      Alike.cons (fun _ _ => rfl) indent indent mode fun _ enough =>
        probeAll_interchange others mode enough
    rw [layoutAll_cons, layoutAll_cons, layout_congr width indent mode pos alike d, first.layout]
    simp only [ih]

theorem anyMustBreak_interchange {ds es : List Doc} (h : List.Forall₂ Interchangeable ds es) :
    anyMustBreak ds = anyMustBreak es := by
  induction h with
  | nil => rfl
  | cons first _ ih => rw [anyMustBreak, anyMustBreak, first.mustBreak, ih]

/-- Whether a group fits does not depend on which of the two is inside. -/
theorem groupMode_interchange {d e : Doc} (h : Interchangeable d e) (columns : Int) (mode : Mode)
    (breaks : Bool) (after : List Pending) :
    groupMode columns mode breaks d after = groupMode columns mode breaks e after := by
  unfold groupMode fits
  by_cases short : columns < 0
  · simp only [if_pos short]
  · have alike : Alike ({ indent := 0, mode := .flat, docs := [d] } :: after)
        ({ indent := 0, mode := .flat, docs := [e] } :: after) :=
      Alike.cons (fun _ _ => rfl) 0 0 .flat fun left enough => by
        rw [probeAll_singleton, probeAll_singleton, h.probe .flat enough]
    simp only [if_neg short]
    rw [alike columns (Int.not_lt.mp short)]

namespace Interchangeable

theorem refl (d : Doc) : Interchangeable d d :=
  ⟨fun _ _ _ => rfl, fun _ _ _ _ _ => rfl, rfl⟩

theorem symm {d e : Doc} (h : Interchangeable d e) : Interchangeable e d where
  probe mode _ enough := (h.probe mode enough).symm
  layout width indent mode after pos := (h.layout width indent mode after pos).symm
  mustBreak := h.mustBreak.symm

theorem trans {c d e : Doc} (h : Interchangeable c d) (h' : Interchangeable d e) :
    Interchangeable c e where
  probe mode _ enough := (h.probe mode enough).trans (h'.probe mode enough)
  layout width indent mode after pos :=
    (h.layout width indent mode after pos).trans (h'.layout width indent mode after pos)
  mustBreak := h.mustBreak.trans h'.mustBreak

theorem concat {ds es : List Doc} (h : List.Forall₂ Interchangeable ds es) :
    Interchangeable (.concat ds) (.concat es) where
  probe mode _ enough := by
    rw [Doc.probe, Doc.probe]
    exact probeAll_interchange h mode enough
  layout width indent mode after pos := by
    rw [Doc.layout, Doc.layout]
    exact layoutAll_interchange h width indent mode after pos
  mustBreak := by
    rw [Doc.mustBreak, Doc.mustBreak]
    exact anyMustBreak_interchange h

theorem indent {d e : Doc} (h : Interchangeable d e) (extra : Int) :
    Interchangeable (.indent extra d) (.indent extra e) where
  probe mode _ enough := by
    rw [Doc.probe, Doc.probe]
    exact h.probe mode enough
  layout width indent mode after pos := by
    rw [Doc.layout, Doc.layout]
    exact h.layout width (indent + extra) mode after pos
  mustBreak := by
    rw [Doc.mustBreak, Doc.mustBreak]
    exact h.mustBreak

theorem group {d e : Doc} (h : Interchangeable d e) (breaks : Bool) :
    Interchangeable (.group breaks d) (.group breaks e) where
  probe mode _ enough := by
    rw [Doc.probe, Doc.probe]
    exact h.probe _ enough
  layout width indent mode after pos := by
    rw [Doc.layout, Doc.layout, groupMode_interchange h]
    simp only [h.layout]
  mustBreak := by rw [Doc.mustBreak, Doc.mustBreak]

/-- The flag of the group is found anew, and is the same. -/
theorem grouped {d e : Doc} (h : Interchangeable d e) :
    Interchangeable (.grouped d) (.grouped e) := by
  rw [Doc.grouped, Doc.grouped, h.mustBreak]
  exact h.group e.mustBreak

/-- Splicing, dropping and standing for oneself make no difference. -/
theorem append (ds : List Doc) : Interchangeable (.append ds) (.concat ds) where
  probe mode columns enough := by
    rw [Doc.probe, ← probeAll_flatMap_parts mode enough]
    unfold Doc.append
    split
    · rename_i d single
      rw [single, probeAll_singleton]
    · rw [Doc.probe]
  layout width indent mode after pos := by rw [layout_append, Doc.layout]
  mustBreak := by rw [mustBreak_append, Doc.mustBreak]

theorem pieces {d e : Doc} (h : Interchangeable d e) (width : Int) :
    d.pieces width = e.pieces width := by
  rw [Doc.pieces, Doc.pieces, h.layout]

theorem print {d e : Doc} (h : Interchangeable d e) (width : Int) :
    d.print width = e.print width := by
  rw [Doc.print, Doc.print, h.pieces]

theorem render {d e : Doc} (h : Interchangeable d e) (width : Int) :
    d.render width = e.render width := by
  rw [Doc.render, Doc.render, h.pieces]

end Interchangeable

/-- A document with a place in it for another one. -/
inductive Context where
  | hole
  | concat (before : List Doc) (inner : Context) (after : List Doc)
  | indent (extra : Int) (inner : Context)
  | group (breaks : Bool) (inner : Context)
  /-- A concatenation that is spliced once the place is filled. -/
  | append (before : List Doc) (inner : Context) (after : List Doc)
  /-- A group whose flag is found once the place is filled. -/
  | grouped (inner : Context)

def Context.fill (d : Doc) : Context → Doc
  | hole => d
  | concat before inner after => .concat (before ++ inner.fill d :: after)
  | indent extra inner => .indent extra (inner.fill d)
  | group breaks inner => .group breaks (inner.fill d)
  | append before inner after => .append (before ++ inner.fill d :: after)
  | grouped inner => .grouped (inner.fill d)

/-- In a larger document, too, the one may stand for the other. -/
theorem Interchangeable.fill {d e : Doc} (h : Interchangeable d e) (around : Context) :
    Interchangeable (around.fill d) (around.fill e) := by
  have row (before after : List Doc) {a b : Doc} (same : Interchangeable a b) :
      Interchangeable (.concat (before ++ a :: after)) (.concat (before ++ b :: after)) := by
    have refl (ds : List Doc) : List.Forall₂ Interchangeable ds ds :=
      List.forall₂_same.mpr fun d _ => .refl d
    exact .concat (List.rel_append (refl before) (.cons same (refl after)))
  induction around with
  | hole => exact h
  | concat before _ after ih => exact row before after ih
  | indent extra _ ih => exact ih.indent extra
  | group breaks _ ih => exact ih.group breaks
  | append before _ after ih => exact ((append _).trans (row before after ih)).trans (append _).symm
  | grouped _ ih => exact ih.grouped

mutual

/-- A document in which, at every depth, concatenations are spliced, empty texts are dropped and a
single part stands for itself. -/
def normalize : Doc → Doc
  | concat ds => append (normalizeAll ds)
  | indent extra d => indent extra (normalize d)
  | group breaks d => group breaks (normalize d)
  | text s => text s
  | line => line
  | hardLine => hardLine
  | unknown kind => unknown kind

def normalizeAll : List Doc → List Doc
  | [] => []
  | d :: ds => normalize d :: normalizeAll ds

end

/-- Neither a concatenation nor an empty text. -/
def isPart : Doc → Bool
  | text [] | concat _ => false
  | _ => true

mutual

/-- At every depth a concatenation has no part that could be spliced or dropped, nor a single
one. -/
def isNormal : Doc → Bool
  | concat ds => ds.length ≠ 1 && areParts ds
  | indent _ d | group _ d => isNormal d
  | text _ | line | hardLine | unknown _ => true

def areParts : List Doc → Bool
  | [] => true
  | d :: ds => isPart d && isNormal d && areParts ds

end

theorem areParts_append (a b : List Doc) : areParts (a ++ b) = (areParts a && areParts b) := by
  induction a with
  | nil => rfl
  | cons d a ih => simp [areParts, ih, Bool.and_assoc]

theorem areParts_parts {d : Doc} (h : d.isNormal) : areParts d.parts := by
  unfold parts
  split
  · rfl
  · simp only [isNormal, Bool.and_eq_true] at h
    exact h.2
  · rename_i noText noConcat
    have part : d.isPart := by
      unfold isPart
      split
      · exact absurd rfl noText
      · exact absurd rfl (noConcat _)
      · rfl
    simp [areParts, part, h]

theorem isNormal_append {ds : List Doc} (h : areParts (ds.flatMap parts)) :
    (append ds).isNormal := by
  unfold append
  split
  · rename_i d single
    simp only [single, areParts, Bool.and_eq_true] at h
    exact h.1.2
  · rename_i more
    simp only [isNormal, Bool.and_eq_true, decide_eq_true_eq]
    refine ⟨fun one => ?_, h⟩
    obtain ⟨d, single⟩ := List.length_eq_one_iff.mp one
    exact more d single

mutual

theorem isNormal_normalize : ∀ d : Doc, d.normalize.isNormal
  | text _ | line | hardLine | unknown _ => rfl
  | indent _ d => by
    rw [normalize, isNormal]
    exact isNormal_normalize d
  | group _ d => by
    rw [normalize, isNormal]
    exact isNormal_normalize d
  | concat ds => by
    rw [normalize]
    exact isNormal_append (areParts_normalizeAll ds)

theorem areParts_normalizeAll : ∀ ds : List Doc, areParts ((normalizeAll ds).flatMap parts)
  | [] => rfl
  | d :: ds => by
    rw [normalizeAll, List.flatMap_cons, areParts_append, areParts_parts (isNormal_normalize d),
      areParts_normalizeAll ds]
    rfl

end

mutual

theorem interchangeable_normalize : ∀ d : Doc, Interchangeable d.normalize d
  | text _ | line | hardLine | unknown _ => .refl _
  | indent extra d => by
    rw [normalize]
    exact (interchangeable_normalize d).indent extra
  | group breaks d => by
    rw [normalize]
    exact (interchangeable_normalize d).group breaks
  | concat ds => by
    rw [normalize]
    exact (Interchangeable.append _).trans (.concat (interchangeable_normalizeAll ds))

theorem interchangeable_normalizeAll : ∀ ds : List Doc,
    List.Forall₂ Interchangeable (normalizeAll ds) ds
  | [] => by
    rw [normalizeAll]
    exact .nil
  | d :: ds => by
    rw [normalizeAll]
    exact .cons (interchangeable_normalize d) (interchangeable_normalizeAll ds)

end

/-- In any width a document and its normal form give the same text or fail alike. So does a larger
document if one of its parts is put together with splicing and dropping or without. -/
theorem print_normalize (width : Int) (d : Doc) :
    d.normalize.isNormal ∧
    d.normalize.print width = d.print width ∧ d.normalize.render width = d.render width ∧
    ∀ (around : Context) (ds : List Doc) (separator : Doc),
      ((around.fill (append ds)).print width = (around.fill (concat ds)).print width ∧
        (around.fill (append ds)).render width = (around.fill (concat ds)).render width) ∧
      ((around.fill (join separator ds)).print width =
          (around.fill (concat (ds.intersperse separator))).print width ∧
        (around.fill (join separator ds)).render width =
          (around.fill (concat (ds.intersperse separator))).render width) := by
  have normal := interchangeable_normalize d
  refine ⟨isNormal_normalize d, normal.print width, normal.render width,
    fun around ds separator => ?_⟩
  have spliced := (Interchangeable.append ds).fill around
  have joined := (Interchangeable.append (ds.intersperse separator)).fill around
  exact ⟨⟨spliced.print width, spliced.render width⟩, joined.print width, joined.render width⟩

end Doc

end SexprFormat
