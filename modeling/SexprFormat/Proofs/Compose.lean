import SexprFormat.Doc.Layout

/-!
Layouts of compound documents. What follows a document matters for its layout only by how a line
goes on through it (`Doc.layout_congr`), so documents in a row are laid out one after another
(`Doc.layoutAll_append`), and it makes no difference that concatenations are spliced and empty texts
dropped (`Doc.layout_append`).
-/

namespace SexprFormat

namespace Doc

/-- The columns left behind a line that goes on. -/
theorem nonneg_of_spend {columns used left : Int} (h : Probe.spend columns used = .left left) :
    0 ≤ left := by
  unfold Probe.spend at h
  split at h
  · cases h
  · cases h
    omega

mutual

theorem nonneg_of_probe {mode : Mode} {columns left : Int} (h : 0 ≤ columns) :
    ∀ d : Doc, probe mode columns d = .ok (.left left) → 0 ≤ left
  | text s, hd => by
    rw [probe] at hd
    split at hd
    · rename_i rest spent
      split at hd
      · cases hd
      · cases hd
        exact nonneg_of_spend spent
    · rename_i more
      exact absurd (Except.ok.inj hd) (more left)
  | concat ds, hd => by
    rw [probe] at hd
    exact nonneg_of_probeAll h ds hd
  | indent _ d, hd => by
    rw [probe] at hd
    exact nonneg_of_probe h d hd
  | line, hd => by
    rw [probe] at hd
    split at hd
    · exact nonneg_of_spend (Except.ok.inj hd)
    · cases hd
  | hardLine, hd => by
    rw [probe] at hd
    cases hd
  | group _ d, hd => by
    rw [probe] at hd
    exact nonneg_of_probe h d hd
  | unknown _, hd => by
    rw [probe] at hd
    cases hd

theorem nonneg_of_probeAll {mode : Mode} {columns left : Int} (h : 0 ≤ columns) :
    ∀ ds : List Doc, probeAll mode columns ds = .ok (.left left) → 0 ≤ left
  | [], hd => by
    rw [probeAll] at hd
    cases hd
    exact h
  | d :: ds, hd => by
    rw [probeAll] at hd
    split at hd
    · rename_i first
      exact nonneg_of_probeAll (nonneg_of_probe h d first) ds hd
    · rename_i more
      exact absurd hd (more left)

end

/-- Follows a line on from where it was followed to. -/
def goOn (found : Except RenderError Probe) (next : Int → Except RenderError Probe) :
    Except RenderError Probe :=
  match found with
  | .ok (.left columns) => next columns
  | result => result

theorem probeAll_cons (mode : Mode) (columns : Int) (d : Doc) (ds : List Doc) :
    probeAll mode columns (d :: ds) = goOn (probe mode columns d) (probeAll mode · ds) := by
  rw [probeAll]
  rfl

theorem probePending_cons (columns : Int) (p : Pending) (after : List Pending) :
    probePending columns (p :: after) =
      goOn (probeAll p.mode columns p.docs) (probePending · after) := by
  rw [probePending]
  rfl

theorem goOn_congr {found : Except RenderError Probe} {next next' : Int → Except RenderError Probe}
    (h : ∀ columns, found = .ok (.left columns) → next columns = next' columns) :
    goOn found next = goOn found next' := by
  unfold goOn
  split
  · exact h _ rfl
  · rfl

theorem goOn_assoc (found : Except RenderError Probe) (next last : Int → Except RenderError Probe) :
    goOn (goOn found next) last = goOn found fun columns => goOn (next columns) last := by
  match found with
  | .ok (.left _) | .ok .overflow | .ok .ends | .error _ => rfl

theorem goOn_left (found : Except RenderError Probe) :
    goOn found (fun c => .ok (.left c)) = found := by
  match found with
  | .ok (.left _) | .ok .overflow | .ok .ends | .error _ => rfl

theorem probeAll_append (mode : Mode) (columns : Int) (a b : List Doc) :
    probeAll mode columns (a ++ b) = goOn (probeAll mode columns a) (probeAll mode · b) := by
  induction a generalizing columns with
  | nil => simp only [List.nil_append, probeAll, goOn]
  | cons d a ih => simp only [List.cons_append, probeAll_cons, ih, goOn_assoc]

theorem probeAll_singleton (mode : Mode) (columns : Int) (d : Doc) :
    probeAll mode columns [d] = probe mode columns d := by
  rw [probeAll_cons]
  exact goOn_left (probe mode columns d)

/-- An empty text takes no columns. -/
theorem probeAll_parts (mode : Mode) {columns : Int} (h : 0 ≤ columns) (d : Doc) :
    probeAll mode columns d.parts = probe mode columns d := by
  unfold parts
  split
  · simp [probeAll, probe, Probe.spend, Text.firstLine, Int.not_lt.mpr h]
  · rw [probe]
  · exact probeAll_singleton mode columns d

theorem probeAll_flatMap_parts (mode : Mode) {columns : Int} (h : 0 ≤ columns) (ds : List Doc) :
    probeAll mode columns (ds.flatMap parts) = probeAll mode columns ds := by
  induction ds generalizing columns with
  | nil => rfl
  | cons d ds ih =>
    rw [List.flatMap_cons, probeAll_append, probeAll_parts mode h, probeAll_cons]
    exact goOn_congr fun _ first => ih (nonneg_of_probe h d first)

/-- A line goes on alike through two rows of documents that are still to be set. -/
def Alike (after after' : List Pending) : Prop :=
  ∀ columns, 0 ≤ columns → probePending columns after = probePending columns after'

namespace Alike

theorem cons {after after' : List Pending} (h : Alike after after') (indent indent' : Int)
    (mode : Mode) {ds ds' : List Doc}
    (same : ∀ columns, 0 ≤ columns → probeAll mode columns ds = probeAll mode columns ds') :
    Alike ({ indent, mode, docs := ds } :: after)
      ({ indent := indent', mode, docs := ds' } :: after') := by
  intro columns enough
  rw [probePending_cons, probePending_cons, same columns enough]
  exact goOn_congr fun rest found => h rest (nonneg_of_probeAll enough ds' found)

/-- Documents in a row are pending together or apart. -/
theorem append (indent : Int) (mode : Mode) (a b : List Doc) (after : List Pending) :
    Alike ({ indent, mode, docs := a ++ b } :: after)
      ({ indent, mode, docs := a } :: { indent, mode, docs := b } :: after) := by
  intro columns _
  simp only [probePending_cons, probeAll_append, goOn_assoc]

theorem nil (indent : Int) (mode : Mode) (after : List Pending) :
    Alike ({ indent, mode, docs := [] } :: after) after := by
  intro columns _
  rw [probePending, probeAll]

theorem groupMode_eq {after after' : List Pending} (h : Alike after after') (columns : Int)
    (mode : Mode) (breaks : Bool) (d : Doc) :
    groupMode columns mode breaks d after = groupMode columns mode breaks d after' := by
  unfold groupMode fits
  by_cases short : columns < 0
  · simp only [if_pos short]
  · simp only [if_neg short]
    rw [h.cons 0 0 .flat (fun _ _ => rfl) columns (Int.not_lt.mp short)]

end Alike

section

variable (width indent : Int) (mode : Mode) (after : List Pending) (pos : Position)

theorem layout_group {breaks : Bool} {d : Doc} {inner : Mode}
    (h : groupMode (width - pos.column) mode breaks d after = .ok inner) :
    layout width indent mode after pos (group breaks d) =
      (.group inner :: (layout width indent inner after pos d).1,
        (layout width indent inner after pos d).2) := by
  rw [layout, h]

theorem layoutAll_cons (d : Doc) (ds : List Doc) :
    layoutAll width indent mode after pos (d :: ds) =
      ((layout width indent mode ({ indent, mode, docs := ds } :: after) pos d).1 ++
        (layoutAll width indent mode after
          (layout width indent mode ({ indent, mode, docs := ds } :: after) pos d).2 ds).1,
        (layoutAll width indent mode after
          (layout width indent mode ({ indent, mode, docs := ds } :: after) pos d).2 ds).2) := by
  rw [layoutAll]

end

mutual

/-- The layout of a document depends on what follows it only by how a line goes on there. -/
theorem layout_congr (width indent : Int) (mode : Mode) {after after' : List Pending}
    (pos : Position)
    (h : Alike after after') :
    ∀ d : Doc, layout width indent mode after pos d = layout width indent mode after' pos d
  | text [] => by rw [layout, layout]
  | text (_ :: _) => by simp only [layout]
  | concat ds => by
    rw [layout, layout]
    exact layoutAll_congr width indent mode pos h ds
  | .indent extra d => by
    rw [layout, layout]
    exact layout_congr width (indent + extra) mode pos h d
  | line => by cases mode <;> simp only [layout]
  | hardLine => by rw [layout, layout]
  | group breaks d => by
    rw [layout, layout, h.groupMode_eq]
    split
    · rename_i inner _
      rw [layout_congr width indent inner pos h d]
    · rfl
  | unknown _ => by rw [layout, layout]

theorem layoutAll_congr (width indent : Int) (mode : Mode) {after after' : List Pending}
    (pos : Position) (h : Alike after after') :
    ∀ ds : List Doc,
      layoutAll width indent mode after pos ds = layoutAll width indent mode after' pos ds
  | [] => by rw [layoutAll, layoutAll]
  | d :: ds => by
    have alike : Alike ({ indent, mode, docs := ds } :: after)
        ({ indent, mode, docs := ds } :: after') :=
      h.cons indent indent mode fun _ _ => rfl
    rw [layoutAll_cons, layoutAll_cons, layout_congr width indent mode pos alike d]
    simp only [layoutAll_congr width indent mode _ h ds]

end

section

variable (width indent : Int) (mode : Mode) (after : List Pending) (pos : Position)

/-- Documents in a row are laid out one after another. -/
theorem layoutAll_append (a b : List Doc) :
    layoutAll width indent mode after pos (a ++ b) =
      let first := layoutAll width indent mode ({ indent, mode, docs := b } :: after) pos a
      let rest := layoutAll width indent mode after first.2 b
      (first.1 ++ rest.1, rest.2) := by
  induction a generalizing pos with
  | nil => simp [layoutAll]
  | cons d a ih =>
    have first := layout_congr width indent mode pos (Alike.append indent mode a b after) d
    simp only [List.cons_append, layoutAll_cons, first, ih, List.append_assoc]

theorem layoutAll_singleton (d : Doc) :
    layoutAll width indent mode after pos [d] = layout width indent mode after pos d := by
  have only := layout_congr width indent mode pos (Alike.nil indent mode after) d
  simp only [layoutAll, only, List.append_nil]

theorem layoutAll_parts (d : Doc) :
    layoutAll width indent mode after pos d.parts = layout width indent mode after pos d := by
  unfold parts
  split
  · simp only [layoutAll, layout]
  · rw [layout]
  · exact layoutAll_singleton width indent mode after pos d

theorem layoutAll_flatMap_parts (ds : List Doc) :
    layoutAll width indent mode after pos (ds.flatMap parts) =
      layoutAll width indent mode after pos ds := by
  induction ds generalizing pos with
  | nil => rfl
  | cons d ds ih =>
    have alike : Alike ({ indent, mode, docs := ds.flatMap parts } :: after)
        ({ indent, mode, docs := ds } :: after) :=
      Alike.cons (fun _ _ => rfl) indent indent mode fun _ enough =>
        probeAll_flatMap_parts mode enough ds
    rw [List.flatMap_cons, layoutAll_append, layoutAll_parts, layout_congr _ _ _ _ alike,
      layoutAll_cons]
    simp only [ih]

/-- A concatenation is laid out like its parts, spliced or not. -/
theorem layout_append (ds : List Doc) :
    layout width indent mode after pos (append ds) = layoutAll width indent mode after pos ds := by
  rw [← layoutAll_flatMap_parts]
  unfold append
  split
  · rename_i d single
    rw [single, layoutAll_singleton]
  · rw [layout]

end

end Doc

end SexprFormat
