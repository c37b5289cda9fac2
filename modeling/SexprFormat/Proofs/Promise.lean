import SexprFormat.Proofs.Typesetter

/-!
What the test of a group promises. A document that is put together by the operations on documents is
sound (`Doc.Built.sound`). When its typesetter meets a group that it may break, it sets the group
flat exactly if the rest of the line, as long as it has to be, fits; and then the line is never
longer than the width, however the groups behind it are set. Main statement: `groups_of_render`.
-/

namespace SexprFormat

open StateTransition (Reaches eval)

namespace Doc

/-- The documents that can be put together, with indentations that are allowed. -/
inductive Built (allowed : Int → Prop) : Doc → Prop where
  | text (s : List Char) : Built allowed (.text s)
  | append {ds : List Doc} : (∀ d ∈ ds, Built allowed d) → Built allowed (.append ds)
  | join {separator : Doc} {ds : List Doc} :
      Built allowed separator → (∀ d ∈ ds, Built allowed d) → Built allowed (.join separator ds)
  | indent {extra : Int} {d : Doc} : allowed extra → Built allowed d →
      Built allowed (.indent extra d)
  | grouped {d : Doc} : Built allowed d → Built allowed (.grouped d)
  | line : Built allowed .line
  | hardLine : Built allowed .hardLine

theorem soundAll_intersperse {separator : Doc} (h : separator.sound) :
    ∀ ds : List Doc, soundAll (ds.intersperse separator) = soundAll ds
  | [] | [_] => rfl
  | d :: e :: ds => by
    simp [List.intersperse_cons_cons, soundAll, h, soundAll_intersperse h (e :: ds)]

theorem Built.sound {d : Doc} (h : d.Built (0 ≤ ·)) : d.sound := by
  induction h with
  | text | line | hardLine => rfl
  | append _ ih =>
    rw [sound_append]
    exact soundAll_iff.mpr ih
  | join _ _ ihs ih =>
    rw [Doc.join, sound_append, soundAll_intersperse ihs]
    exact soundAll_iff.mpr ih
  | indent inward _ ih => simp [Doc.sound, inward, ih]
  | grouped _ ih => simp [Doc.grouped, Doc.sound, ih]

mutual

/-- The text of a document with one character for every line that may end. -/
def withLines (c : Char) : Doc → List Char
  | text s => s
  | concat ds => withLinesAll c ds
  | indent _ d | group _ d => withLines c d
  | line => [c]
  | hardLine => ['\n']
  | unknown _ => []

def withLinesAll (c : Char) : List Doc → List Char
  | [] => []
  | d :: ds => withLines c d ++ withLinesAll c ds

end

mutual

theorem preview_broken : ∀ d : Doc, d.preview .broken = d.withLines '\n'
  | text _ | line | hardLine | unknown _ => rfl
  | concat ds => by
    rw [preview, withLines]
    exact previewAll_broken ds
  | indent _ d => by
    rw [preview, withLines]
    exact preview_broken d
  | group breaks d => by
    rw [preview, withLines, ite_self]
    exact preview_broken d

theorem previewAll_broken : ∀ ds : List Doc, previewAll .broken ds = withLinesAll '\n' ds
  | [] => rfl
  | d :: ds => by rw [previewAll, withLinesAll, preview_broken d, previewAll_broken ds]

end

mutual

/-- No group breaks in a document that need not break. -/
theorem preview_flat : ∀ d : Doc, d.sound → d.mustBreak = false → d.preview .flat = d.withLines ' '
  | text _, _, _ | line, _, _ => rfl
  | hardLine, _, flat => by simp [mustBreak] at flat
  | concat ds, hd, flat => by
    rw [preview, withLines]
    exact previewAll_flat ds (by simpa [sound] using hd) (by simpa [mustBreak] using flat)
  | indent _ d, hd, flat => by
    simp only [sound, Bool.and_eq_true] at hd
    rw [preview, withLines]
    exact preview_flat d hd.2 (by simpa [mustBreak] using flat)
  | group breaks d, hd, flat => by
    simp only [sound, Bool.and_eq_true, beq_iff_eq] at hd
    simp only [mustBreak] at flat
    rw [preview, withLines, flat]
    exact preview_flat d hd.2 (by rw [← hd.1, flat])
  | unknown _, hd, _ => by simp [sound] at hd

theorem previewAll_flat : ∀ ds : List Doc, soundAll ds → anyMustBreak ds = false →
    previewAll .flat ds = withLinesAll ' ' ds
  | [], _, _ => rfl
  | d :: ds, hd, flat => by
    simp only [soundAll, Bool.and_eq_true] at hd
    simp only [anyMustBreak, Bool.or_eq_false_iff] at flat
    rw [previewAll, withLinesAll, preview_flat d hd.1 flat.1, previewAll_flat ds hd.2 flat.2]

end

end Doc

namespace Typesetter

/-- If the preview of all jobs fits on a line, so does what is set there. -/
theorem keeps_layoutJobs (width : Int) {jobs : List Job} (h : ∀ job ∈ jobs, job.Careful) :
    Doc.Keeps width (Doc.previewPending (jobs.map Job.pending)) fun pos =>
      (layoutJobs width pos jobs).1.flatMap Piece.chars := by
  induction jobs with
  | nil =>
    intro pos due fits
    simp only [layoutJobs, List.flatMap_nil, Text.firstLine, List.takeWhile_nil, List.length_nil]
    omega
  | cons job rest ih =>
    obtain ⟨sound, _, flat⟩ := h job (List.mem_cons_self ..)
    have hr : ∀ job ∈ rest, job.Careful := fun j hj => h j (List.mem_cons_of_mem _ hj)
    have known := knownPending_jobs fun j hj => Doc.known_of_sound j.doc (hr j hj).sound
    have kept := Doc.keeps_layout width job.indent job.mode known (ih hr) job.doc sound flat
    simpa [layoutJobs_cons, Doc.previewPending, Job.pending, Doc.previewAll] using kept

/-- What is shown of broken jobs ends at the first line that may end. -/
theorem previewPending_jobs {jobs : List Job} (h : ∀ job ∈ jobs, job.mode = .broken) :
    Doc.previewPending (jobs.map Job.pending) = jobs.flatMap (·.doc.withLines '\n') := by
  rw [Doc.previewPending, List.flatMap_map]
  refine List.flatMap_congr fun job mem => ?_
  simp [Job.pending, Doc.previewAll, h job mem, Doc.preview_broken]

/-- If the preview of the jobs that are left fits, then so does the line on which they start. -/
theorem length_lineAt_le (width : Int) {ts : Typesetter} (careful : ts.Careful)
    (fits : ts.pos.column + (Text.firstLine (Doc.previewPending (ts.jobs.map Job.pending))).length ≤
      width) :
    (Piece.lineAt ts.done (layoutJobs width ts.pos ts.jobs).1).length ≤ width := by
  have kept := keeps_layoutJobs width careful.jobs ts.pos careful.behind.due fits
  have column := careful.behind.column
  rw [Piece.lineAt, List.length_append]
  simp only at kept
  omega

/-- How a group is set that may be broken, by the text that has to follow on its line. -/
theorem groupMode_jobs (width : Int) (pos : Position) {inner : Doc} (sound : inner.sound)
    {rest : List Job}
    (careful : ∀ job ∈ rest, job.Careful) (broken : ∀ job ∈ rest, job.mode = .broken) :
    ∃ mode,
      Doc.groupMode (width - pos.column) .broken inner.mustBreak inner (rest.map Job.pending) =
        .ok mode ∧
      (mode = .flat ↔ inner.mustBreak = false ∧ pos.column + (Text.firstLine (inner.withLines ' ' ++
        rest.flatMap (·.doc.withLines '\n'))).length ≤ width) := by
  have pending := knownPending_jobs fun j hj => Doc.known_of_sound j.doc (careful j hj).sound
  refine ⟨_, Doc.groupMode_broken _ _ (Doc.known_of_sound inner sound) pending, ?_⟩
  rw [previewPending_jobs broken]
  cases breaks : inner.mustBreak with
  | true => simp
  | false =>
    rw [Doc.preview_flat inner sound breaks]
    constructor
    · intro flat
      split at flat
      · rename_i fit
        exact ⟨rfl, by omega⟩
      · cases flat
    · rintro ⟨_, fits⟩
      exact if_pos ⟨rfl, by omega⟩

end Typesetter

/-- A document that is put together with indentations inward is set by its typesetter. Whenever this
comes to a group that it may break, in some column, it sets the group flat exactly if the group need
not break and the column and the line that has to follow, up to the first place where it can end,
add up to the width at most. Then the whole line on which the group starts has no more characters
than the width. -/
theorem groups_of_render (width : Int) {d : Doc} (built : d.Built (0 ≤ ·)) :
    d.render width = .ok ((d.pieces width).flatMap Piece.chars) ∧
    (∃ final ∈ eval (Typesetter.next width) (.start d), final.jobs = [] ∧
      final.done = d.pieces width) ∧
    ∀ ts indent breaks inner rest, Reaches (Typesetter.next width) (.start d) ts →
      ts.jobs = { indent, mode := .broken, doc := .group breaks inner } :: rest →
      ts.pos.column = (Text.lastLine (ts.done.flatMap Piece.chars)).length + ts.pos.margin ∧
      ∃ mode, ts.next width = some { ts with
          jobs := { indent, mode, doc := inner } :: rest, done := ts.done ++ [.group mode] } ∧
        (mode = .flat ↔ breaks = false ∧ ts.pos.column + (Text.firstLine (inner.withLines ' ' ++
          rest.flatMap (·.doc.withLines '\n'))).length ≤ width) ∧
        (mode = .flat → ∃ back, d.pieces width = ts.done ++ back ∧
          (Piece.lineAt ts.done back).length ≤ width) := by
  have sound := built.sound
  have known := Doc.known_of_sound d sound
  refine ⟨Doc.render_eq width known, ⟨_, Typesetter.mem_eval_start width known, rfl, rfl⟩, ?_⟩
  intro ts indent breaks inner rest reached next
  have careful := Typesetter.careful_of_reaches sound reached
  obtain ⟨jobs, pos, done⟩ := ts
  obtain rfl : jobs = _ := next
  refine ⟨careful.behind.column, ?_⟩
  obtain ⟨own, _, _⟩ := careful.jobs _ (List.mem_cons_self ..)
  simp only [Doc.sound, Bool.and_eq_true, beq_iff_eq] at own
  obtain ⟨rfl, own⟩ := own
  have later : ∀ job ∈ rest, job.Careful := fun j hj => careful.jobs j (List.mem_cons_of_mem _ hj)
  -- Below a job that may break there are only such jobs, so their lines end in the preview.
  have broken : ∀ job ∈ rest, job.mode = .broken := fun j hj =>
    (List.pairwise_cons.mp careful.outward).1 j hj rfl
  obtain ⟨mode, chosen, fits_iff⟩ := Typesetter.groupMode_jobs width pos own later broken
  have step : Typesetter.next width
      { jobs := { indent, mode := .broken, doc := .group inner.mustBreak inner } :: rest
        pos, done } =
      some { jobs := { indent, mode, doc := inner } :: rest
             pos, done := done ++ [.group mode] } := by
    simp [Typesetter.next, chosen]
  refine ⟨mode, step, fits_iff, fun flat => ?_⟩
  obtain ⟨unbroken, fits⟩ := fits_iff.mp flat
  subst flat
  have pieces := Typesetter.pieces_of_reaches (reached.tail step)
  rw [List.append_assoc] at pieces
  have preview :
      Doc.previewPending (({ indent, mode := .flat, doc := inner } :: rest).map Job.pending) =
      inner.withLines ' ' ++ rest.flatMap (·.doc.withLines '\n') := by
    rw [← Typesetter.previewPending_jobs broken, ← Doc.preview_flat inner own unbroken]
    simp [Doc.previewPending, Job.pending, Doc.previewAll]
  have line := Typesetter.length_lineAt_le width (careful.next step) (by rwa [preview])
  exact ⟨_, pieces, by simpa [Piece.lineAt, Piece.chars] using line⟩

/-- The second group is broken when it is met, and the line of the first one is full then. -/
theorem groups_of_render_row :
    ∃ d ts back, d.Built (0 ≤ ·) ∧ d.render 4 = .ok "a bc\nd".toList ∧
      Reaches (Typesetter.next 4) (.start d) ts ∧ d.pieces 4 = ts.done ++ back ∧
      back.filter (· matches .group _) = [.group .flat, .group .broken] ∧
      Piece.lineAt ts.done back = "a bc".toList ∧
      (Piece.lineAt ts.done back).length ≤ (4 : Int) := by
  have pair (a b : Char) : Doc.Built (0 ≤ ·) (.grouped (.join .line [.text [a], .text [b]])) := by
    refine .grouped (.join .line fun d hd => ?_)
    simp only [List.mem_cons, List.not_mem_nil, or_false] at hd
    rcases hd with rfl | rfl <;> exact .text _
  have built : Doc.Built (0 ≤ ·) (.append [.grouped (.join .line [.text ['a'], .text ['b']]),
      .grouped (.join .line [.text ['c'], .text ['d']])]) := by
    refine .append fun d hd => ?_
    simp only [List.mem_cons, List.not_mem_nil, or_false] at hd
    rcases hd with rfl | rfl <;> exact pair ..
  obtain ⟨rendered, _, groups⟩ := groups_of_render 4 built
  obtain ⟨_, mode, step, fits, line⟩ := groups _ _ _ _ _ (.single rfl) rfl
  obtain rfl : mode = .flat := fits.mpr ⟨rfl, by decide⟩
  obtain ⟨back, pieces, short⟩ := line rfl
  obtain rfl : back = _ := pieces.symm.trans rfl
  exact ⟨_, _, _, built, rendered, .single rfl, pieces, rfl, rfl, short⟩

end SexprFormat
