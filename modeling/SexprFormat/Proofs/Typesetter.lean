import Mathlib.Computability.StateTransition
import SexprFormat.Proofs.Width

/-!
Setting a document step by step. A typesetter takes the next document from a stack of jobs, sets it
or puts its parts on the stack, and goes on until the stack is empty or a job cannot be set. Here it
is shown to give the layout of the document:

* `Typesetter.steps_of_next`: what a step does, a rule for each kind of job;
* `Typesetter.result_of_reaches`: no step changes what the typesetter comes to, which is the layout;
* `Typesetter.left_next`, `Typesetter.exists_final`: each step is done with one part of the
  document, so the typesetter comes to an end, whatever the document;
* `Typesetter.mem_eval_start`: from a document whose parts are known it ends with the pieces of that
  document;
* `Typesetter.careful_of_reaches`: along the way no job is set flat that must break, the jobs below
  a broken one are broken, and the position is the one behind the text so far.
-/

namespace SexprFormat

open StateTransition (Reaches eval)

namespace Doc

theorem knownAll_iff {ds : List Doc} : knownAll ds ↔ ∀ d ∈ ds, d.known := by
  induction ds with
  | nil => simp [knownAll]
  | cons d ds ih => simp [knownAll, ih]

theorem soundAll_iff {ds : List Doc} : soundAll ds ↔ ∀ d ∈ ds, d.sound := by
  induction ds with
  | nil => simp [soundAll]
  | cons d ds ih => simp [soundAll, ih]

theorem anyMustBreak_iff {ds : List Doc} : anyMustBreak ds ↔ ∃ d ∈ ds, d.mustBreak := by
  induction ds with
  | nil => simp [anyMustBreak]
  | cons d ds ih => simp [anyMustBreak, ih]

theorem mustBreak_of_mem {d : Doc} {ds : List Doc} (h : (concat ds).mustBreak = false)
    (mem : d ∈ ds) :
    d.mustBreak = false := by
  by_contra breaks
  have all : anyMustBreak ds := anyMustBreak_iff.mpr ⟨d, mem, by simpa using breaks⟩
  simp [mustBreak, all] at h

mutual

/-- Following a line fails only at an unknown part. -/
theorem unknown_of_probe {mode : Mode} {columns : Int} {e : RenderError} :
    ∀ d : Doc, probe mode columns d = .error e →
      ∃ kind, e = .unknownDoc kind ∧ unknown kind ∈ d.subdocs
  | text s, h => by
    rw [probe] at h
    split at h <;> cases h
  | concat ds, h => by
    rw [probe] at h
    obtain ⟨kind, rfl, mem⟩ := unknown_of_probeAll ds h
    exact ⟨kind, rfl, List.mem_cons_of_mem _ mem⟩
  | indent _ d, h => by
    rw [probe] at h
    obtain ⟨kind, rfl, mem⟩ := unknown_of_probe d h
    exact ⟨kind, rfl, List.mem_cons_of_mem _ mem⟩
  | line, h => by
    rw [probe] at h
    cases h
  | hardLine, h => by
    rw [probe] at h
    cases h
  | group _ d, h => by
    rw [probe] at h
    obtain ⟨kind, rfl, mem⟩ := unknown_of_probe d h
    exact ⟨kind, rfl, List.mem_cons_of_mem _ mem⟩
  | unknown kind, h => by
    rw [probe] at h
    cases h
    exact ⟨kind, rfl, mem_subdocs_self _⟩

theorem unknown_of_probeAll {mode : Mode} {columns : Int} {e : RenderError} :
    ∀ ds : List Doc, probeAll mode columns ds = .error e →
      ∃ kind, e = .unknownDoc kind ∧ unknown kind ∈ subdocsAll ds
  | [], h => by
    rw [probeAll] at h
    cases h
  | d :: ds, h => by
    rw [probeAll] at h
    split at h
    · obtain ⟨kind, rfl, mem⟩ := unknown_of_probeAll ds h
      exact ⟨kind, rfl, List.mem_append_right _ mem⟩
    · obtain ⟨kind, rfl, mem⟩ := unknown_of_probe d h
      exact ⟨kind, rfl, List.mem_append_left _ mem⟩

end

theorem unknown_of_probePending {columns : Int} {after : List Pending} {e : RenderError}
    (h : probePending columns after = .error e) :
    ∃ kind, e = .unknownDoc kind ∧ ∃ p ∈ after, unknown kind ∈ subdocsAll p.docs := by
  induction after generalizing columns with
  | nil => cases h
  | cons p after ih =>
    rw [probePending] at h
    split at h
    · obtain ⟨kind, rfl, q, hq, mem⟩ := ih h
      exact ⟨kind, rfl, q, List.mem_cons_of_mem _ hq, mem⟩
    · obtain ⟨kind, rfl, mem⟩ := unknown_of_probeAll p.docs h
      exact ⟨kind, rfl, p, List.mem_cons_self .., mem⟩

/-- A group cannot be set only if a part of it or of what follows is unknown. -/
theorem unknown_of_groupMode {columns : Int} {mode : Mode} {breaks : Bool} {d : Doc}
    {after : List Pending} {e : RenderError}
    (h : groupMode columns mode breaks d after = .error e) :
    ∃ kind, e = .unknownDoc kind ∧
      (unknown kind ∈ d.subdocs ∨ ∃ p ∈ after, unknown kind ∈ subdocsAll p.docs) := by
  unfold groupMode fits at h
  split at h
  · cases h
  · split at h
    · cases h
    · split at h
      · cases h
      · cases probed : probePending columns
            ({ indent := 0, mode := .flat, docs := [d] } :: after) with
        | ok p =>
          rw [probed] at h
          cases h
        | error e' =>
          rw [probed] at h
          cases h
          obtain ⟨kind, rfl, p, hp, mem⟩ := unknown_of_probePending probed
          refine ⟨kind, rfl, ?_⟩
          rcases List.mem_cons.mp hp with rfl | hp
          · exact .inl (by simpa [subdocsAll] using mem)
          · exact .inr ⟨p, hp, mem⟩

mutual

theorem known_iff : ∀ d : Doc, d.known ↔ ∀ kind, unknown kind ∉ d.subdocs
  | text _ => by simp [known, subdocs]
  | line => by simp [known, subdocs]
  | hardLine => by simp [known, subdocs]
  | unknown _ => by simp [known, subdocs]
  | concat ds => by simpa [known, subdocs] using knownAll_iff_subdocs ds
  | indent _ d => by simpa [known, subdocs] using known_iff d
  | group _ d => by simpa [known, subdocs] using known_iff d

theorem knownAll_iff_subdocs : ∀ ds : List Doc, knownAll ds ↔ ∀ kind, unknown kind ∉ subdocsAll ds
  | [] => by simp [knownAll, subdocsAll]
  | d :: ds => by
    simp only [knownAll, subdocsAll, Bool.and_eq_true, known_iff d, knownAll_iff_subdocs ds,
      List.mem_append, not_or, forall_and]

end

end Doc

/-- A document that is still to be set. -/
structure Job where
  indent : Int
  mode : Mode
  doc : Doc
  deriving Repr

def Job.pending (job : Job) : Pending :=
  { indent := job.indent, mode := job.mode, docs := [job.doc] }

/-- A job that can be set as it is to be: what is flat need not break. -/
structure Job.Careful (job : Job) : Prop where
  sound : job.doc.sound
  inward : 0 ≤ job.indent
  flat : job.mode = .flat → job.doc.mustBreak = false

/-- Where setting a document stands. -/
structure Typesetter where
  /-- What is still to be set, the next one first. -/
  jobs : List Job
  pos : Position := {}
  /-- The pieces so far. -/
  done : List Piece := []
  deriving Repr

namespace Typesetter

def start (d : Doc) : Typesetter :=
  { jobs := [{ indent := 0, mode := .broken, doc := d }] }

/-- Takes the next job. There is no next state when all is set, nor when a job cannot be set. -/
def next (width : Int) (ts : Typesetter) : Option Typesetter :=
  match ts.jobs with
  | [] => none
  | job :: rest =>
    match job.doc with
    | .text [] => some { ts with jobs := rest }
    | .text s =>
      some { jobs := rest, pos := ts.pos.pass s
             done := ts.done ++ (ts.pos.marginPieces ++ [.text s]) }
    | .concat ds => some { ts with jobs := ds.map (.mk job.indent job.mode) ++ rest }
    | .indent extra d => some { ts with jobs := .mk (job.indent + extra) job.mode d :: rest }
    | .line =>
      match job.mode with
      | .flat =>
        some { jobs := rest, pos := ts.pos.pass [' ']
               done := ts.done ++ (ts.pos.marginPieces ++ [.space]) }
      | .broken => some { jobs := rest, pos := .newline job.indent, done := ts.done ++ [.newline] }
    | .hardLine => some { jobs := rest, pos := .newline job.indent, done := ts.done ++ [.newline] }
    | .group breaks d =>
      match Doc.groupMode (width - ts.pos.column) job.mode breaks d (rest.map Job.pending) with
      | .ok inner =>
        some { ts with jobs := .mk job.indent inner d :: rest, done := ts.done ++ [.group inner] }
      | .error _ => none
    | .unknown _ => none

/-- What a step does with the next job, by the kind of the job. -/
inductive Steps (width : Int) : Typesetter → Typesetter → Prop where
  | empty {indent : Int} {mode : Mode} {rest : List Job} {pos : Position} {done : List Piece} :
      Steps width { jobs := { indent, mode, doc := .text [] } :: rest, pos, done }
        { jobs := rest, pos, done }
  | text {indent : Int} {mode : Mode} {c : Char} {s : List Char} {rest : List Job} {pos : Position}
      {done : List Piece} :
      Steps width { jobs := { indent, mode, doc := .text (c :: s) } :: rest, pos, done }
        { jobs := rest, pos := pos.pass (c :: s)
          done := done ++ (pos.marginPieces ++ [.text (c :: s)]) }
  | concat {indent : Int} {mode : Mode} {ds : List Doc} {rest : List Job} {pos : Position}
      {done : List Piece} :
      Steps width { jobs := { indent, mode, doc := .concat ds } :: rest, pos, done }
        { jobs := ds.map (.mk indent mode) ++ rest, pos, done }
  | indent {indent extra : Int} {mode : Mode} {d : Doc} {rest : List Job} {pos : Position}
      {done : List Piece} :
      Steps width { jobs := { indent, mode, doc := .indent extra d } :: rest, pos, done }
        { jobs := { indent := indent + extra, mode, doc := d } :: rest, pos, done }
  | space {indent : Int} {rest : List Job} {pos : Position} {done : List Piece} :
      Steps width { jobs := { indent, mode := .flat, doc := .line } :: rest, pos, done }
        { jobs := rest, pos := pos.pass [' '], done := done ++ (pos.marginPieces ++ [.space]) }
  | line {indent : Int} {rest : List Job} {pos : Position} {done : List Piece} :
      Steps width { jobs := { indent, mode := .broken, doc := .line } :: rest, pos, done }
        { jobs := rest, pos := .newline indent, done := done ++ [.newline] }
  | hardLine {indent : Int} {mode : Mode} {rest : List Job} {pos : Position} {done : List Piece} :
      Steps width { jobs := { indent, mode, doc := .hardLine } :: rest, pos, done }
        { jobs := rest, pos := .newline indent, done := done ++ [.newline] }
  | group {indent : Int} {mode inner : Mode} {breaks : Bool} {d : Doc} {rest : List Job}
      {pos : Position}
      {done : List Piece} :
      Doc.groupMode (width - pos.column) mode breaks d (rest.map Job.pending) = .ok inner →
      Steps width { jobs := { indent, mode, doc := .group breaks d } :: rest, pos, done }
        { jobs := { indent, mode := inner, doc := d } :: rest, pos, done := done ++ [.group inner] }

theorem steps_of_next {width : Int} {ts ts' : Typesetter} (step : ts' ∈ ts.next width) :
    ts.Steps width ts' := by
  obtain ⟨jobs, pos, done⟩ := ts
  cases jobs with
  | nil => cases step
  | cons job rest =>
    obtain ⟨indent, mode, doc⟩ := job
    cases doc with
    | text s =>
      cases s with
      | nil =>
        cases step
        exact .empty
      | cons c s =>
        cases step
        exact .text
    | concat ds =>
      cases step
      exact .concat
    | indent extra d =>
      cases step
      exact .indent
    | line =>
      cases mode with
      | flat =>
        cases step
        exact .space
      | broken =>
        cases step
        exact .line
    | hardLine =>
      cases step
      exact .hardLine
    | group breaks d =>
      cases chosen : Doc.groupMode (width - pos.column) mode breaks d (rest.map Job.pending) with
      | error _ => simp [next, chosen] at step
      | ok inner =>
        obtain rfl : _ = ts' := by simpa [next, chosen] using step
        exact .group chosen
    | unknown kind => cases step

/-- All jobs, one after another. -/
def layoutJobs (width : Int) (pos : Position) : List Job → List Piece × Position
  | [] => ([], pos)
  | job :: rest =>
    let (first, pos) := job.doc.layout width job.indent job.mode (rest.map Job.pending) pos
    let (others, pos) := layoutJobs width pos rest
    (first ++ others, pos)

theorem layoutJobs_cons (width : Int) (pos : Position) (job : Job) (rest : List Job) :
    layoutJobs width pos (job :: rest) =
      ((job.doc.layout width job.indent job.mode (rest.map Job.pending) pos).1 ++
        (layoutJobs width
          (job.doc.layout width job.indent job.mode (rest.map Job.pending) pos).2 rest).1,
        (layoutJobs width (job.doc.layout width job.indent job.mode (rest.map Job.pending) pos).2
          rest).2) := by
  rw [layoutJobs]

theorem knownPending_jobs {jobs : List Job} (h : ∀ job ∈ jobs, job.doc.known) :
    Doc.KnownPending (jobs.map Job.pending) := by
  intro p mem
  obtain ⟨job, hj, rfl⟩ := List.mem_map.mp mem
  simp [Job.pending, Doc.knownAll, h job hj]

/-- A line goes on alike through documents in a row and through a job for each of them. -/
theorem alike_jobs (indent : Int) (mode : Mode) (ds : List Doc) (rest : List Job) :
    Doc.Alike ({ indent, mode, docs := ds } :: rest.map Job.pending)
      ((ds.map (Job.mk indent mode) ++ rest).map Job.pending) := by
  induction ds with
  | nil => exact Doc.Alike.nil indent mode _
  | cons d ds ih =>
    intro columns enough
    have apart := Doc.Alike.append indent mode [d] ds (rest.map Job.pending) columns enough
    rw [List.singleton_append] at apart
    rw [apart]
    simp only [List.map_cons, List.cons_append, Doc.probePending_cons]
    exact Doc.goOn_congr fun left found =>
      ih left (Doc.nonneg_of_probeAll enough [d] found)

/-- Jobs for documents in a row are set as the row is. -/
theorem layoutJobs_row (width indent : Int) (mode : Mode) (pos : Position) (ds : List Doc)
    (rest : List Job) :
    layoutJobs width pos (ds.map (.mk indent mode) ++ rest) =
      let row := Doc.layoutAll width indent mode (rest.map Job.pending) pos ds
      (row.1 ++ (layoutJobs width row.2 rest).1, (layoutJobs width row.2 rest).2) := by
  induction ds generalizing pos with
  | nil => simp [Doc.layoutAll]
  | cons d ds ih =>
    have first := Doc.layout_congr width indent mode pos (alike_jobs indent mode ds rest) d
    simp only [List.map_cons, List.cons_append, layoutJobs_cons, ← first, ih, Doc.layoutAll_cons,
      List.append_assoc]

/-- What a typesetter comes to: the pieces so far, and the layout of its jobs. -/
def result (width : Int) (ts : Typesetter) : List Piece × Position :=
  (ts.done ++ (layoutJobs width ts.pos ts.jobs).1, (layoutJobs width ts.pos ts.jobs).2)

theorem result_start (width : Int) (d : Doc) :
    (start d).result width = d.layout width 0 .broken [] {} := by
  simp [result, start, layoutJobs]

theorem result_next {width : Int} {ts ts' : Typesetter} (step : ts' ∈ ts.next width) :
    ts'.result width = ts.result width := by
  cases steps_of_next step with
  | empty | text | indent | space | line | hardLine => simp [result, layoutJobs_cons, Doc.layout]
  | concat => simp [result, layoutJobs_cons, layoutJobs_row, Doc.layout]
  | group chosen => simp [result, layoutJobs_cons, Doc.layout_group _ _ _ _ _ chosen]

theorem result_of_reaches {width : Int} {ts ts' : Typesetter}
    (reached : Reaches (next width) ts ts') :
    ts'.result width = ts.result width := by
  induction reached with
  | refl => rfl
  | tail _ step ih => rw [result_next step, ih]

/-- What is set at the end is what is done so far and the layout of the jobs that are left. -/
theorem pieces_of_reaches {width : Int} {d : Doc} {ts : Typesetter}
    (reached : Reaches (next width) (start d) ts) :
    d.pieces width = ts.done ++ (layoutJobs width ts.pos ts.jobs).1 := by
  rw [Doc.pieces, ← result_start, ← result_of_reaches reached, result]

/-- The parts that are still to be met, in their order. -/
def left (ts : Typesetter) : List Doc :=
  ts.jobs.flatMap (·.doc.subdocs)

/-- A step is done with one part, the one that it meets. -/
theorem left_next {width : Int} {ts ts' : Typesetter} (step : ts' ∈ ts.next width) :
    ∃ job rest, ts.jobs = job :: rest ∧ ts.left = job.doc :: ts'.left := by
  cases steps_of_next step with
  | empty | text | indent | space | line | hardLine | group =>
    exact ⟨_, _, rfl, by simp [left, Doc.subdocs]⟩
  | concat => exact ⟨_, _, rfl, by simp [left, Doc.subdocs, Doc.subdocsAll_eq, List.flatMap_map]⟩

theorem left_subset_of_reaches {width : Int} {ts ts' : Typesetter}
    (reached : Reaches (next width) ts ts') : ts'.left ⊆ ts.left := by
  induction reached with
  | refl => exact List.Subset.refl _
  | tail _ step ih =>
    obtain ⟨_, _, _, met⟩ := left_next step
    intro d hd
    apply ih
    rw [met]
    exact List.mem_cons_of_mem _ hd

/-- The typesetter comes to an end, since there is less to be met after each step. -/
theorem exists_final (width : Int) (ts : Typesetter) : ∃ final, final ∈ eval (next width) ts := by
  induction met : ts.left generalizing ts with
  | nil =>
    refine ⟨ts, StateTransition.mem_eval.mpr ⟨.refl, ?_⟩⟩
    cases step : ts.next width with
    | none => rfl
    | some ts' =>
      obtain ⟨_, _, _, first⟩ := left_next step
      rw [met] at first
      cases first
  | cons d later ih =>
    cases step : ts.next width with
    | none => exact ⟨ts, StateTransition.mem_eval.mpr ⟨.refl, step⟩⟩
    | some ts' =>
      obtain ⟨_, _, _, first⟩ := left_next step
      rw [met] at first
      obtain ⟨final, ends⟩ := ih ts' (List.cons_eq_cons.mp first).2.symm
      rw [← StateTransition.reaches_eval (.single step)] at ends
      exact ⟨final, ends⟩

/-- It ends when all is set, or at a job that cannot be set because some part is unknown. -/
theorem jobs_of_next_eq_none {width : Int} {ts : Typesetter} (stuck : ts.next width = none) :
    ts.jobs = [] ∨ ∃ kind back, .unknown kind ∈ ts.left ∧
      (layoutJobs width ts.pos ts.jobs).1 = .failed (.unknownDoc kind) :: back := by
  obtain ⟨jobs, pos, done⟩ := ts
  cases jobs with
  | nil => exact .inl rfl
  | cons job rest =>
    right
    obtain ⟨indent, mode, doc⟩ := job
    cases doc with
    | text s => cases s <;> cases stuck
    | line => cases mode <;> cases stuck
    | concat | indent | hardLine => cases stuck
    | group breaks d =>
      cases chosen : Doc.groupMode (width - pos.column) mode breaks d (rest.map Job.pending) with
      | ok inner => simp [next, chosen] at stuck
      | error e =>
        obtain ⟨kind, rfl, mem⟩ := Doc.unknown_of_groupMode chosen
        refine ⟨kind, (layoutJobs width pos rest).1, ?_,
          by simp [layoutJobs_cons, Doc.layout, chosen]⟩
        rcases mem with mem | ⟨p, hp, mem⟩
        · simp [left, Doc.subdocs, mem]
        · obtain ⟨job, hj, rfl⟩ := List.mem_map.mp hp
          have later : .unknown kind ∈ job.doc.subdocs := by
            simpa [Job.pending, Doc.subdocsAll] using mem
          simp only [left, List.flatMap_cons, List.mem_append, List.mem_flatMap]
          exact .inr ⟨job, hj, later⟩
    | unknown kind =>
      exact ⟨kind, (layoutJobs width pos rest).1, by simp [left, Doc.subdocs], by
        simp [layoutJobs_cons, Doc.layout]⟩

/-- The typesetter ends with the pieces of the document. -/
theorem mem_eval_start (width : Int) {d : Doc} (h : d.known) :
    { jobs := [], pos := (d.layout width 0 .broken [] {}).2, done := d.pieces width } ∈
      eval (next width) (start d) := by
  obtain ⟨final, ends⟩ := exists_final width (start d)
  obtain ⟨reached, stuck⟩ := StateTransition.mem_eval.mp ends
  have same := result_of_reaches reached
  rcases jobs_of_next_eq_none stuck with all | ⟨kind, _, mem, _⟩
  · obtain ⟨jobs, pos, done⟩ := final
    obtain rfl : jobs = [] := all
    rw [result_start] at same
    simpa [Doc.pieces, ← same, result, layoutJobs] using ends
  · have met : .unknown kind ∈ d.subdocs := by
      simpa [left, start] using left_subset_of_reaches reached mem
    exact absurd met ((Doc.known_iff d).mp h kind)

/-- What holds between two steps: each job can be set as it is to be, around what is broken all is
broken, and the position is the one behind the text so far. -/
structure Careful (ts : Typesetter) : Prop where
  jobs : ∀ job ∈ ts.jobs, job.Careful
  outward : ts.jobs.Pairwise fun job below => job.mode = .broken → below.mode = .broken
  behind : ts.pos.Behind (ts.done.flatMap Piece.chars)

namespace Careful

theorem start {d : Doc} (h : d.sound) : (start d).Careful where
  jobs job mem := by
    obtain rfl := List.mem_singleton.mp mem
    exact ⟨h, Int.le_refl 0, nofun⟩
  outward := List.pairwise_singleton ..
  behind := ⟨Int.le_refl 0, rfl⟩

theorem known {ts : Typesetter} (h : ts.Careful) : ∀ job ∈ ts.jobs, job.doc.known :=
  fun job mem => Doc.known_of_sound job.doc (h.jobs job mem).sound

section

variable {job : Job} {rest : List Job} {pos : Position} {done : List Piece}

/-- The next job is done, and the position is behind what it adds. -/
theorem pop (h : Careful { jobs := job :: rest, pos, done }) {pos' : Position} {ps : List Piece}
    (behind : pos'.Behind ((done ++ ps).flatMap Piece.chars)) :
    Careful { jobs := rest, pos := pos', done := done ++ ps } :=
  ⟨fun j hj => h.jobs j (List.mem_cons_of_mem _ hj), (List.pairwise_cons.mp h.outward).2, behind⟩

/-- The next job is replaced by one that is as careful. -/
theorem replace (h : Careful { jobs := job :: rest, pos, done }) {job' : Job} {done' : List Piece}
    (careful : job'.Careful) (outward : job'.mode = .broken → job.mode = .broken)
    (same : done'.flatMap Piece.chars = done.flatMap Piece.chars) :
    Careful { jobs := job' :: rest, pos, done := done' } := by
  refine ⟨?_, ?_, by rw [same]; exact h.behind⟩
  · intro j hj
    rcases List.mem_cons.mp hj with rfl | hj
    · exact careful
    · exact h.jobs j (List.mem_cons_of_mem _ hj)
  · obtain ⟨below, others⟩ := List.pairwise_cons.mp h.outward
    exact List.pairwise_cons.mpr ⟨fun j hj broken => below j hj (outward broken), others⟩

/-- The parts of a document are as careful as the document. -/
theorem split {indent : Int} {mode : Mode} {ds : List Doc}
    (h : Careful { jobs := { indent, mode, doc := .concat ds } :: rest, pos, done }) :
    Careful { jobs := ds.map (.mk indent mode) ++ rest, pos, done } := by
  obtain ⟨sound, inward, flat⟩ := h.jobs _ (List.mem_cons_self ..)
  obtain ⟨below, others⟩ := List.pairwise_cons.mp h.outward
  refine ⟨?_, ?_, h.behind⟩
  · intro j hj
    rcases List.mem_append.mp hj with hj | hj
    · obtain ⟨d, hd, rfl⟩ := List.mem_map.mp hj
      exact ⟨Doc.soundAll_iff.mp (by simpa [Doc.sound] using sound) d hd, inward, fun isFlat =>
        Doc.mustBreak_of_mem (flat isFlat) hd⟩
    · exact h.jobs j (List.mem_cons_of_mem _ hj)
  · rw [List.pairwise_append]
    refine ⟨?_, others, ?_⟩
    · rw [List.pairwise_map]
      exact List.pairwise_of_forall fun _ _ broken => broken
    · intro j hj k hk broken
      obtain ⟨d, _, rfl⟩ := List.mem_map.mp hj
      exact below k hk broken

end

/-- A step keeps what holds. -/
theorem next {width : Int} {ts ts' : Typesetter} (h : ts.Careful) (step : ts' ∈ ts.next width) :
    ts'.Careful := by
  cases steps_of_next step with
  | @empty _ _ _ pos done =>
    have behind : pos.Behind ((done ++ []).flatMap Piece.chars) := by simpa using h.behind
    simpa using h.pop behind
  | @text _ _ c s =>
    refine h.pop ?_
    simpa [Position.chars_marginPieces, Piece.chars] using h.behind.pass (c :: s)
  | concat => exact h.split
  | indent =>
    obtain ⟨sound, inward, flat⟩ := h.jobs _ (List.mem_cons_self ..)
    simp only [Doc.sound, Bool.and_eq_true, decide_eq_true_eq] at sound
    exact h.replace ⟨sound.2, Int.add_nonneg inward sound.1,
      by simpa [Doc.mustBreak] using flat⟩ id rfl
  | space =>
    refine h.pop ?_
    simpa [Position.chars_marginPieces, Piece.chars] using h.behind.pass [' ']
  | line | hardLine =>
    have inward := (h.jobs _ (List.mem_cons_self ..)).inward
    refine h.pop ?_
    simpa [Piece.chars] using Position.Behind.newline _ inward
  | @group indent mode inner breaks d rest pos done chosen =>
    obtain ⟨sound, inward, flat⟩ := h.jobs _ (List.mem_cons_self ..)
    simp only [Doc.sound, Bool.and_eq_true, beq_iff_eq] at sound
    obtain ⟨rfl, sound⟩ := sound
    have others : ∀ job ∈ rest, job.doc.known := fun j hj => h.known j (List.mem_cons_of_mem _ hj)
    obtain ⟨found, same, safe, _⟩ := Doc.groupMode_of_mustBreak (width - pos.column)
      (Doc.known_of_sound d sound) (knownPending_jobs others) (by simpa [Doc.mustBreak] using flat)
    obtain rfl : found = inner := Except.ok.inj (same.symm.trans chosen)
    refine h.replace ⟨sound, inward, safe⟩ (fun broken => ?_) (by simp [Piece.chars])
    by_contra isFlat
    cases mode with
    | flat => simp_all [Doc.groupMode]
    | broken => exact isFlat rfl

end Careful

theorem careful_of_reaches {width : Int} {d : Doc} (h : d.sound) {ts : Typesetter}
    (reached : Reaches (next width) (start d) ts) : ts.Careful := by
  induction reached with
  | refl => exact .start h
  | tail _ step ih => exact ih.next step

end Typesetter

end SexprFormat
