import Mathlib.Data.List.Nodup
import Mathlib.Logic.Relation
import SexprFormat.Proofs.Document
import SexprFormat.Proofs.FileTree
import SexprFormat.Proofs.Utf8

/-!
What a run makes of the files that it selects. The bytes of each of them alone decide its fate
(`Fate`, `fate_iff`): what it holds in the end, whether it makes the run fail, and the line that
tells of it. All other files stay as they are. The files may be worked on in any order, and the work
on one may be broken off for others (`Pool`). Main statement: `files_of_run`.
-/

namespace SexprFormat.Command

/-- What a run makes of one file: what the file holds in the end, whether the run fails because of
it, and the line that tells of it. -/
structure Account where
  contents : List UInt8
  failed : Bool
  line : List Char
  deriving DecidableEq, Repr

/-- A line that tells of a file. -/
def lineOn (path : Path) (word : String) (rest : List Char) : List Char :=
  word.toList ++ '\t' :: path.toString.toList ++ rest ++ ['\n']

/-- The word for a file that did not fail. -/
def Task.success : Task → String
  | .format => "FORMAT"
  | .check => "OK"

/-- What a run makes of a file, from its bytes at the start. -/
inductive Fate (task : Task) (verbose : Bool) (width : Int) (path : Path) (old : List UInt8) :
    Account → Prop where
  /-- The bytes are those of no text. -/
  | undecodable {e : Text.Utf8Error} :
      (∀ s, Text.encodeUtf8 s ≠ old) → Text.decodeUtf8 old = .error e →
      Fate task verbose width path old
        { contents := old, failed := true, line := lineOn path "ERROR" ('\t' :: e.message.toList) }
  | unparsed {s : List Char} {d : Diagnostic} : Text.encodeUtf8 s = old →
      Node.parse (some path.toString) (Text.unifyLineEnds s) = .error d →
      Fate task verbose width path old
        { contents := old, failed := true, line := lineOn path "ERROR" ('\t' :: d.message) }
  | formatted {s : List Char} : Text.encodeUtf8 s = old →
      format (some path.toString) width (Text.unifyLineEnds s) = .ok (Text.unifyLineEnds s) →
      Fate task verbose width path old
        { contents := old, failed := false
          line := if verbose then lineOn path task.success [] else [] }
  /-- Formatting mends a file that is not formatted. -/
  | mended {s text : List Char} : task = .format → Text.encodeUtf8 s = old →
      format (some path.toString) width (Text.unifyLineEnds s) = .ok text →
      text ≠ Text.unifyLineEnds s →
      Fate task verbose width path old
        { contents := Text.encodeUtf8 text, failed := false
          line := if verbose then lineOn path task.success [] else [] }
  /-- Checking refuses it. -/
  | refused {s text : List Char} : task = .check → Text.encodeUtf8 s = old →
      format (some path.toString) width (Text.unifyLineEnds s) = .ok text →
      text ≠ Text.unifyLineEnds s →
      Fate task verbose width path old
        { contents := old, failed := true, line := lineOn path "FAIL" [] }

namespace Outcome

/-- What a file holds after it was worked on. -/
def contents (task : Task) (old : List UInt8) : Outcome → List UInt8
  | changed text => if task = .format then Text.encodeUtf8 text else old
  | kept | failed _ => old

def account (task : Task) (verbose : Bool) (path : Path) (old : List UInt8) (outcome : Outcome) :
    Account where
  contents := outcome.contents task old
  failed := outcome.fails task
  line := outcome.report task verbose path

end Outcome

section

variable {width : Int} {path : Path} {old : List UInt8} {s : List Char}

theorem judge_of_error {e : Text.Utf8Error} (h : Text.decodeUtf8 old = .error e) :
    judge width path old = .failed e.message.toList := by
  rw [judge, readText, h]
  rfl

theorem judge_of_ok (h : Text.encodeUtf8 s = old) :
    judge width path old =
      match format (some path.toString) width (Text.unifyLineEnds s) with
      | .error e => .failed e.message
      | .ok text => if text ≠ Text.unifyLineEnds s then .changed text else .kept := by
  rw [judge, readText, Text.decodeUtf8_eq_ok_iff.mpr h]
  simp only [Except.map, formatStatus]
  cases format (some path.toString) width (Text.unifyLineEnds s) with
  | error e => rfl
  | ok text => simp [bind, Except.bind, pure, Except.pure]

/-- Only a source that does not parse is not formatted. -/
theorem parse_of_format_error {file? : Option String} {source : List Char} {e : FormatError}
    (h : format file? width source = .error e) :
    ∃ d, Node.parse file? source = .error d ∧ e = .parse d := by
  cases parsed : Node.parse file? source with
  | error d =>
    rw [format, parsed] at h
    cases h
    exact ⟨d, rfl, rfl⟩
  | ok tree =>
    obtain ⟨doc, _, _, text⟩ := format_pieces parsed
    rw [text] at h
    cases h

/-- The bytes of a file alone decide its fate, and it is the one that is found. -/
theorem fate_iff {task : Task} {verbose : Bool} {account : Account} :
    Fate task verbose width path old account ↔
      account = (judge width path old).account task verbose path old := by
  constructor
  · intro fate
    cases fate with
    | undecodable _ failed =>
      rw [judge_of_error failed]
      cases task <;> rfl
    | unparsed encoded failed =>
      rw [judge_of_ok encoded, format, failed]
      cases task <;> rfl
    | formatted encoded same =>
      simp only [judge_of_ok encoded, same, ne_eq, not_true_eq_false, if_false]
      cases task <;> rfl
    | mended asked encoded text other =>
      subst asked
      simp only [judge_of_ok encoded, text, ne_eq, other, not_false_eq_true, if_true]
      rfl
    | refused asked encoded text other =>
      subst asked
      simp only [judge_of_ok encoded, text, ne_eq, other, not_false_eq_true, if_true]
      rfl
  · rintro rfl
    cases decoded : Text.decodeUtf8 old with
    | error e =>
      rw [judge_of_error decoded]
      have none (s : List Char) (encoded : Text.encodeUtf8 s = old) : False := by
        rw [Text.decodeUtf8_eq_ok_iff.mpr encoded] at decoded
        cases decoded
      cases task <;> exact .undecodable none decoded
    | ok s =>
      have encoded := Text.decodeUtf8_eq_ok_iff.mp decoded
      rw [judge_of_ok encoded]
      cases found : format (some path.toString) width (Text.unifyLineEnds s) with
      | error e =>
        obtain ⟨d, failed, rfl⟩ := parse_of_format_error found
        cases task <;> exact .unparsed encoded failed
      | ok text =>
        by_cases same : text = Text.unifyLineEnds s
        · subst same
          simp only [ne_eq, not_true_eq_false, if_false]
          cases task <;> exact .formatted encoded found
        · simp only [ne_eq, same, not_false_eq_true, if_true]
          cases task with
          | format => exact .mended rfl encoded found same
          | check => exact .refused rfl encoded found same

end

namespace Selection

/-- All that was met is a file of the tree. -/
def AllFiles (tree : FileTree) (s : Selection) : Prop :=
  ∀ v ∈ s.verdicts, ∃ bytes, tree.read? v.1 = some bytes

variable {tree : FileTree} {ignore : List (Option String)}

theorem read_of_lookup {path : Path} (h : tree.lookup path.toString = .found .file) :
    ∃ bytes, tree.read? path = some bytes := by
  unfold FileTree.lookup at h
  cases leads : tree.follow path.toString with
  | above | nowhere | tooLong =>
    rw [leads] at h
    cases h
  | inside found =>
    rw [leads] at h
    have entry : tree.entryAt? found = some .file := by
      cases he : tree.entryAt? found <;> simp_all [Lookup.ofOption]
    have file : tree.isFile found := by
      by_contra other
      simp only [FileTree.entryAt?, other] at entry
      grind
    obtain ⟨bytes, contents⟩ := Option.isSome_iff_exists.mp file
    exact ⟨bytes, by simp [FileTree.read?, FileTree.resolve, leads, entry, contents]⟩

theorem AllFiles.meet {s : Selection} (h : s.AllFiles tree) {path : Path}
    (file : ∃ bytes, tree.read? path = some bytes) : (s.meet ignore path).AllFiles tree := by
  unfold Selection.meet
  split
  · intro v hv
    rcases List.mem_cons.mp hv with rfl | hv
    · exact file
    · exact h v hv
  · exact h

theorem AllFiles.addPath {s : Selection} (h : s.AllFiles tree) (path : Path) :
    AllFiles tree (Id.run (s.addPath tree.view ignore path)) := by
  unfold Selection.addPath
  split
  · exact h
  · have seen : tree.view.lookup path.toString = pure (tree.lookup path.toString) := rfl
    rw [seen, pure_bind]
    cases leads : tree.lookup path.toString with
    | missing | tooLong => exact h
    | found entry =>
      cases entry with
      | directory => exact h
      | file => exact h.meet (read_of_lookup leads)

/-- What a step keeps is kept by all steps. -/
theorem allFiles_foldlM {α : Type} {f : Selection → α → Id Selection}
    (step : ∀ s a, AllFiles tree s → AllFiles tree (Id.run (f s a))) (l : List α) {s : Selection}
    (h : s.AllFiles tree) : AllFiles tree (Id.run (l.foldlM f s)) := by
  induction l generalizing s with
  | nil => exact h
  | cons a l ih => exact ih (step s a h)

theorem AllFiles.addPattern {s : Selection} (h : s.AllFiles tree) (depth : Nat) (pattern : String) :
    AllFiles tree (Id.run (s.addPattern tree.view depth ignore pattern)) := by
  unfold Selection.addPattern
  split
  · exact h
  · split
    · exact h
    · exact allFiles_foldlM (fun _ path hs => hs.addPath path) _ h

/-- A run works on files only. -/
theorem read_of_selected {depth : Nat} {patterns : List String} {path : Path}
    (h : path ∈ (Id.run (ofPatterns tree.view depth patterns ignore)).selected) :
    ∃ bytes, tree.read? path = some bytes := by
  have start : AllFiles tree {} := nofun
  have all : AllFiles tree (Id.run (ofPatterns tree.view depth patterns ignore)) :=
    allFiles_foldlM (fun _ pattern hs => hs.addPattern depth pattern) patterns start
  obtain ⟨v, hv, rfl⟩ := List.mem_map.mp h
  exact all v (List.mem_reverse.mp (List.mem_filter.mp hv).1)

end Selection

namespace Batch

variable {task : Task}

theorem writes_append (a b : List (Path × Outcome)) :
    writes { task, outcomes := a ++ b } =
      writes { task, outcomes := a } ++ writes { task, outcomes := b } := by
  cases task with
  | check => rfl
  | format => simp [writes]

/-- Only the files that were judged are written. -/
theorem mem_of_writes {outcomes : List (Path × Outcome)} {w : Path × List UInt8}
    (h : w ∈ writes { task, outcomes }) : w.1 ∈ outcomes.map (·.1) := by
  cases task with
  | check => cases h
  | format =>
    obtain ⟨⟨path, outcome⟩, among, found⟩ := List.mem_filterMap.mp h
    cases outcome with
    | failed | kept => cases found
    | changed text =>
      cases found
      exact List.mem_map.mpr ⟨_, among, rfl⟩

end Batch

/-- Of some paths that lead to different files, no other leads to the file of a given one. -/
theorem apart {α : Type} {tree : FileTree} {front back : List (Path × α)} {path : Path} {x : α}
    (distinct : ((front ++ (path, x) :: back).map fun y => tree.resolve y.1.toString).Nodup) :
    ∀ q ∈ (front ++ back).map (·.1), tree.resolve q.toString ≠ tree.resolve path.toString := by
  rw [List.map_append, List.map_cons, List.nodup_middle, List.nodup_cons, ← List.map_append]
    at distinct
  intro q hq leads
  obtain ⟨y, hy, rfl⟩ := List.mem_map.mp hq
  exact distinct.1 (List.mem_map.mpr ⟨y, hy, leads⟩)

/-- How far the work on a file is. -/
inductive Progress where
  | waiting
  | judged (outcome : Outcome)
  | done (outcome : Outcome)

namespace Progress

def outcome? : Progress → Option Outcome
  | waiting => none
  | judged outcome | done outcome => some outcome

/-- How many pieces of work are left. -/
def left : Progress → Nat
  | waiting => 2
  | judged _ => 1
  | done _ => 0

end Progress

/-- Files that are worked on at the same time, with the tree that they share. -/
structure Pool where
  tree : FileTree
  jobs : List (Path × Progress)

namespace Pool

/-- Nothing is done yet. -/
def start (tree : FileTree) (paths : List Path) : Pool where
  tree := tree
  jobs := paths.map (·, .waiting)

/-- One piece of work on one file: to read and judge it, or to write what was found. -/
inductive Step (task : Task) (width : Int) : Pool → Pool → Prop where
  | judge {tree : FileTree} {front back : List (Path × Progress)} {path : Path} :
      Step task width { tree, jobs := front ++ (path, .waiting) :: back }
        { tree, jobs := front ++ (path, .judged (judge? width path (tree.read? path))) :: back }
  | settle {tree : FileTree} {front back : List (Path × Progress)} {path : Path}
      {outcome : Outcome} :
      Step task width { tree, jobs := front ++ (path, .judged outcome) :: back }
        { tree := tree.writeAll (Batch.writes { task, outcomes := [(path, outcome)] })
          jobs := front ++ (path, .done outcome) :: back }

/-- The files that are done, with what was found about them. -/
def finished (jobs : List (Path × Progress)) : List (Path × Outcome) :=
  jobs.filterMap fun
    | (path, .done outcome) => some (path, outcome)
    | _ => none

/-- What was found about the files that are done, in the order in which they were given. -/
def batch (task : Task) (pool : Pool) : Batch where
  task := task
  outcomes := finished pool.jobs

/-- In the middle of a run from a given tree: what was found about a file is what its contents at
the start give, and the files that are done are written, in whatever order that was. -/
structure Sound (task : Task) (width : Int) (tree : FileTree) (paths : List Path) (pool : Pool) :
    Prop where
  paths : pool.jobs.map (·.1) = paths
  found : ∀ job ∈ pool.jobs, ∀ outcome ∈ job.2.outcome?,
    outcome = judge? width job.1 (tree.read? job.1)
  written : pool.tree = tree.writeAll (Batch.writes { task, outcomes := finished pool.jobs })

section

variable (front back : List (Path × Progress)) (path : Path) (outcome : Outcome)

theorem finished_waiting :
    finished (front ++ (path, .waiting) :: back) = finished front ++ finished back :=
  List.filterMap_append ..

theorem finished_judged :
    finished (front ++ (path, .judged outcome) :: back) = finished front ++ finished back :=
  List.filterMap_append ..

theorem finished_done :
    finished (front ++ (path, .done outcome) :: back) =
      finished front ++ ([(path, outcome)] ++ finished back) :=
  List.filterMap_append ..

end

theorem mem_of_finished {jobs : List (Path × Progress)} {path : Path}
    (h : path ∈ (finished jobs).map (·.1)) : path ∈ jobs.map (·.1) := by
  obtain ⟨⟨_, outcome⟩, among, rfl⟩ := List.mem_map.mp h
  obtain ⟨⟨path, progress⟩, mem, found⟩ := List.mem_filterMap.mp among
  cases progress with
  | waiting | judged => cases found
  | done =>
    cases found
    exact List.mem_map.mpr ⟨_, mem, rfl⟩

section

variable {task : Task} {width : Int} {tree : FileTree} {paths : List Path}

theorem sound_start : Sound task width tree paths (start tree paths) where
  paths := by simp [start, Function.comp_def]
  found := by simp [start, Progress.outcome?]
  written := by
    have none : finished (start tree paths).jobs = [] := by simp [finished, start]
    rw [none]
    cases task <;> rfl

theorem Sound.step {pool next : Pool} (h : Sound task width tree paths pool)
    (distinct : (paths.map fun p => tree.resolve p.toString).Nodup)
    (step : Step task width pool next) :
    Sound task width tree paths next := by
  obtain ⟨same, found, written⟩ := h
  rw [← same, List.map_map] at distinct
  cases step with
  | @judge now front back path =>
    obtain ⟨inFront, here⟩ := List.forall_mem_append.mp found
    obtain ⟨_, inBack⟩ := List.forall_mem_cons.mp here
    dsimp only at written
    rw [finished_waiting] at written
    -- No file that was written in the meantime is the one that is read here.
    have unwritten : now.read? path = tree.read? path := by
      rw [written]
      refine FileTree.read_writeAll_other fun w hw => apart distinct _ ?_
      have among := Batch.mem_of_writes hw
      rw [List.map_append, List.mem_append] at among ⊢
      exact among.imp mem_of_finished mem_of_finished
    refine ⟨by simpa using same, ?_, by dsimp only; rw [finished_judged, written]⟩
    refine List.forall_mem_append.mpr ⟨inFront,
      List.forall_mem_cons.mpr ⟨fun outcome ho => ?_, inBack⟩⟩
    cases ho
    rw [unwritten]
  | @settle now front back path outcome =>
    obtain ⟨inFront, here⟩ := List.forall_mem_append.mp found
    obtain ⟨judged, inBack⟩ := List.forall_mem_cons.mp here
    dsimp only at written
    rw [finished_judged, Batch.writes_append, FileTree.writeAll_append] at written
    refine ⟨by simpa using same, ?_, ?_⟩
    · exact List.forall_mem_append.mpr ⟨inFront, List.forall_mem_cons.mpr ⟨judged, inBack⟩⟩
    · -- The write comes after those of all files that are done, and may as well come in its place.
      dsimp only
      rw [finished_done, Batch.writes_append, Batch.writes_append, FileTree.writeAll_append,
        FileTree.writeAll_append, written]
      refine FileTree.writeAll_comm fun v hv w hw => ?_
      have mine : w.1 = path := by simpa using Batch.mem_of_writes hw
      have other : v.1 ∈ (front ++ back).map (·.1) := by
        rw [List.map_append]
        exact List.mem_append_right _ (mem_of_finished (Batch.mem_of_writes hv))
      rw [mine, FileTree.resolve_writeAll, FileTree.resolve_writeAll]
      exact (apart distinct v.1 other).symm

/-- What is true at each point of a run. -/
theorem sound_of_reaches (distinct : (paths.map fun p => tree.resolve p.toString).Nodup)
    {pool : Pool}
    (h : Relation.ReflTransGen (Step task width) (start tree paths) pool) :
    Sound task width tree paths pool := by
  induction h with
  | refl => exact sound_start
  | tail _ step ih => exact ih.step distinct step

/-- When nothing is left to do, all files are done. -/
theorem Sound.jobs_eq {pool : Pool} (h : Sound task width tree paths pool)
    (stuck : ∀ next, ¬Step task width pool next) :
    pool.jobs = paths.map fun path => (path, .done (judge? width path (tree.read? path))) := by
  have each (job : Path × Progress) (hj : job ∈ pool.jobs) :
      job = (job.1, .done (judge? width job.1 (tree.read? job.1))) := by
    obtain ⟨front, back, split⟩ := List.append_of_mem hj
    have shape : pool = { tree := pool.tree, jobs := front ++ job :: back } := by rw [← split]
    obtain ⟨path, progress⟩ := job
    cases progress with
    | waiting => exact absurd (shape ▸ Step.judge) (stuck _)
    | judged outcome => exact absurd (shape ▸ Step.settle) (stuck _)
    | done outcome => rw [h.found _ hj outcome rfl]
  rw [← h.paths, List.map_map]
  exact (List.map_id _).symm.trans (List.map_congr_left each)

end

/-- From every point of a run, work can go on until nothing is left to do. -/
theorem exists_stuck (task : Task) (width : Int) (pool : Pool) :
    ∃ final, Relation.ReflTransGen (Step task width) pool final ∧
      ∀ next, ¬Step task width final next := by
  induction h : (pool.jobs.map (·.2.left)).sum using Nat.strongRecOn generalizing pool with
  | ind n ih =>
    by_cases stuck : ∀ next, ¬Step task width pool next
    · exact ⟨pool, .refl, stuck⟩
    · obtain ⟨next, step⟩ := not_forall_not.mp stuck
      have less : (next.jobs.map (·.2.left)).sum < n := by
        subst h
        cases step <;> simp [Progress.left]
      obtain ⟨final, later, stuck⟩ := ih _ less next rfl
      exact ⟨final, later.head step, stuck⟩

end Pool

/-- The last line about some files, of which a number failed. -/
def summaryLine (task : Task) (failures files : Nat) : List Char :=
  let verb := match task with
    | .check => "failed"
    | .format => "failed to format"
  if failures = 0 then [] else s!"{failures} / {files} file(s) {verb}\n".toList

/-- The file of a path holds in the end what was found about it, if no other path leads to it. -/
theorem read_writes {task : Task} {tree : FileTree} {outcomes : List (Path × Outcome)}
    (distinct : (outcomes.map fun x => tree.resolve x.1.toString).Nodup) {path : Path}
    {outcome : Outcome}
    (mem : (path, outcome) ∈ outcomes) {old : List UInt8} (h : tree.read? path = some old) :
    (tree.writeAll (Batch.writes { task, outcomes })).read? path =
      some (outcome.contents task old) := by
  obtain ⟨front, back, rfl⟩ := List.append_of_mem mem
  have others := apart distinct
  rw [← List.singleton_append, Batch.writes_append, Batch.writes_append, FileTree.writeAll_append,
    FileTree.writeAll_append, FileTree.read_writeAll_other]
  · have before : (tree.writeAll (Batch.writes { task, outcomes := front })).read? path =
        some old := by
      rw [FileTree.read_writeAll_other, h]
      exact fun w hw => others w.1 (by simp [Batch.mem_of_writes hw])
    cases task with
    | check => cases outcome <;> exact before
    | format =>
      cases outcome with
      | failed | kept => exact before
      | changed text => exact FileTree.read_write before _
  · intro w hw
    simp only [FileTree.resolve_writeAll]
    exact others w.1 (by simp [Batch.mem_of_writes hw])

theorem run_eq_runFiles {arguments : List String} {tree : FileTree} {o : Options} {s : Selection}
    (parsed : Options.parse arguments = .ok o) (given : o.paths ≠ [])
    (selects : Id.run (Selection.ofPatterns tree.view tree.depth o.paths o.ignore) = s)
    (complete : s.error? = none) (input : List UInt8) :
    run arguments input tree =
      runFiles o s (s.selected.map fun path => (path, tree.read? path)) := by
  have some : o.paths.isEmpty = false := by simpa using given
  rw [run, parsed]
  simp only [some, Bool.false_eq_true, ↓reduceIte, selects, complete]

/-- Beside the log, a run tells the report of its files. -/
theorem stderr_runFiles (o : Options) (s : Selection) (files : List (Path × Option (List UInt8))) :
    ∃ log, (o.debug = false → log = []) ∧ (runFiles o s files).stderr =
      log ++ (Batch.ofFiles (if o.check then .check else .format) o.width files).report o.verbose :=
  ⟨_, fun quiet => by simp [quiet], rfl⟩

namespace Batch

variable (task : Task) (paths : List Path) (outcome : Path → Outcome)

theorem exitCode_map :
    exitCode { task, outcomes := paths.map fun path => (path, outcome path) } =
      if paths.any fun path => (outcome path).fails task then 1 else 0 := by
  have none : failures { task, outcomes := paths.map fun path => (path, outcome path) } = 0 ↔
      (paths.any fun path => (outcome path).fails task) = false := by
    simp [failures, List.countP_eq_zero]
  rw [exitCode]
  cases h : paths.any fun path => (outcome path).fails task <;> simp [none, h]

theorem report_map (verbose : Bool) :
    report { task, outcomes := paths.map fun path => (path, outcome path) } verbose =
      (paths.flatMap fun path => (outcome path).report task verbose path) ++
        summaryLine task (paths.countP fun path => (outcome path).fails task) paths.length := by
  have count : failures { task, outcomes := paths.map fun path => (path, outcome path) } =
      paths.countP fun path => (outcome path).fails task := by
    simp [failures, List.countP_map, Function.comp_def]
  have total : (Batch.mk task (paths.map fun path => (path, outcome path))).outcomes.length =
      paths.length :=
    List.length_map ..
  rw [report, summary, count, total, List.flatMap_map]
  rfl

end Batch

/-- What a run makes of files that are all different. Each has the fate that its own bytes give it,
and no other file changes. The run fails if one of them does; the report has their lines in the
order of the files, and then the number of those that failed. However the work on the files is
ordered, it comes to an end, and to this one. -/
theorem files_of_run {arguments : List String} {input : List UInt8} {tree : FileTree} {o : Options}
    {s : Selection} {task : Task} {result : Result} (parsed : Options.parse arguments = .ok o)
    (given : o.paths ≠ [])
    (selects : Id.run (Selection.ofPatterns tree.view tree.depth o.paths o.ignore) = s)
    (complete : s.error? = none)
    (distinct : (s.selected.map fun path => tree.resolve path.toString).Nodup)
    (asked : (if o.check then .check else .format) = task)
    (ran : run arguments input tree = result) :
    ∃ (account : Path → Account) (log : List Char),
      (∀ path ∈ s.selected, ∃ old, tree.read? path = some old ∧
        Fate task o.verbose o.width path old (account path) ∧
        (result.apply tree).read? path = some (account path).contents) ∧
      (∀ file, (∀ path ∈ s.selected, tree.resolve path.toString ≠ some file) →
        (result.apply tree).files.lookup file = tree.files.lookup file) ∧
      (result.apply tree).names = tree.names ∧
      (task = .check → result.apply tree = tree) ∧
      result.exit = .code (if s.selected.any fun path => (account path).failed then 1 else 0) ∧
      (o.debug = false → log = []) ∧
      result.stderr = log ++ (s.selected.flatMap fun path => (account path).line) ++
        summaryLine task (s.selected.countP fun path => (account path).failed)
          s.selected.length ∧
      (∃ pool, Relation.ReflTransGen (Pool.Step task o.width) (.start tree s.selected) pool ∧
        ∀ next, ¬Pool.Step task o.width pool next) ∧
      ∀ pool, Relation.ReflTransGen (Pool.Step task o.width) (.start tree s.selected) pool →
        (∀ next, ¬Pool.Step task o.width pool next) →
        pool.tree = result.apply tree ∧ (pool.batch task).outcomes.map (·.1) = s.selected ∧
          result.exit = .code (pool.batch task).exitCode ∧
          result.stderr = log ++ (pool.batch task).report o.verbose := by
  let outcome (path : Path) : Outcome := judge? o.width path (tree.read? path)
  let batch : Batch := { task, outcomes := s.selected.map fun path => (path, outcome path) }
  have found : Batch.ofFiles task o.width (s.selected.map fun path => (path, tree.read? path)) =
      batch := by
    simp [Batch.ofFiles, Function.comp_def, batch, outcome]
  rw [run_eq_runFiles parsed given selects complete] at ran
  obtain ⟨log, quiet, told⟩ :=
    stderr_runFiles o s (s.selected.map fun path => (path, tree.read? path))
  rw [ran, asked, found] at told
  rw [runFiles, asked, found] at ran
  have applied : result.apply tree = tree.writeAll batch.writes := by
    rw [← ran]
    rfl
  have ended : result.exit = .code batch.exitCode := by rw [← ran]
  rw [applied]
  refine ⟨fun path => (outcome path).account task o.verbose path ((tree.read? path).getD []), log,
    fun path hp => ?_, fun file unselected => ?_, FileTree.names_writeAll _, ?_, ?_, quiet, ?_,
    Pool.exists_stuck .., fun pool reached stuck => ?_⟩
  · obtain ⟨old, contents⟩ := Selection.read_of_selected (selects ▸ hp)
    have judged : outcome path = judge o.width path old := by simp [outcome, contents, judge?]
    simp only [contents, Option.getD_some]
    refine ⟨old, rfl, fate_iff.mpr (by rw [judged]), ?_⟩
    · refine read_writes ?_ (List.mem_map.mpr ⟨path, hp, rfl⟩) contents
      simpa [Function.comp_def] using distinct
  · refine FileTree.lookup_writeAll fun w hw => unselected w.1 ?_
    simpa [Function.comp_def] using Batch.mem_of_writes hw
  · rintro rfl
    rfl
  · rw [ended, Batch.exitCode_map]
    rfl
  · rw [told, Batch.report_map, ← List.append_assoc]
    rfl
  · have sound := Pool.sound_of_reaches distinct reached
    have all : pool.batch task = batch := by
      rw [Pool.batch, sound.jobs_eq stuck]
      simp [Pool.finished, batch, outcome]
    rw [all]
    refine ⟨?_, by simp [batch, Function.comp_def], ended, told⟩
    rw [sound.written]
    exact congrArg (fun b => tree.writeAll (Batch.writes b)) all

/-- A file that is no program, one that is no text, one that is to be formatted, and one that is
formatted. -/
def mixedFiles : List (Path × List UInt8) :=
  [({ parts := ["c"] }, [0x28]), ({ parts := ["b"] }, [0xff]),
    ({ parts := ["a"] }, Text.encodeUtf8 "(a )".toList),
    ({ parts := ["e"] }, Text.encodeUtf8 "(a)\n".toList)]

def mixedPaths : List Path :=
  mixedFiles.map (·.1)

/-- They and one beside them. -/
def mixedTree : FileTree where
  files := (["d"], [0x20]) :: mixedFiles.map fun (path, bytes) => (path.parts, bytes)

/-- What a run makes of them. -/
def mixedAccounts (task : Task) : List Account :=
  [{ contents := [0x28], failed := true
     line := ("ERROR\tc\tc:1:1 unclosed '(': expected ')' before end of input\n" ++
      "    (\n    ^\n").toList },
   { contents := [0xff], failed := true
     line := ("ERROR\tb\t'utf-8' codec can't decode byte 0xff in position 0: " ++
      "invalid start byte\n").toList },
   match task with
    | .format =>
      { contents := Text.encodeUtf8 "(a)\n".toList, failed := false, line := "FORMAT\ta\n".toList }
    | .check =>
      { contents := Text.encodeUtf8 "(a )".toList, failed := true, line := "FAIL\ta\n".toList },
   { contents := Text.encodeUtf8 "(a)\n".toList, failed := false
     line := match task with
      | .format => "FORMAT\te\n".toList
      | .check => "OK\te\n".toList }]

theorem selection_mixedTree :
    Id.run (Selection.ofPatterns mixedTree.view mixedTree.depth ["c", "b", "a", "e"] []) =
      { verdicts := mixedFiles.reverse.map fun x => (x.1, true) } := by
  decide +kernel

theorem read_mixedTree :
    mixedFiles.map (fun x => mixedTree.read? x.1) = mixedFiles.map fun x => some x.2 := by
  decide +kernel

theorem resolve_mixedTree :
    mixedPaths.map (fun path => mixedTree.resolve path.toString) =
      [some ["c"], some ["b"], some ["a"], some ["e"]] := by
  decide +kernel

section

variable {task : Task} {account : Path → Account} {result : Result}
  (fates : ∀ path ∈ mixedPaths, ∃ old, mixedTree.read? path = some old ∧
    Fate task true 80 path old (account path) ∧
    (result.apply mixedTree).read? path = some (account path).contents)

include fates

theorem accounts_mixedTree : mixedPaths.map account = mixedAccounts task := by
  have found : mixedPaths.map account =
      mixedFiles.map fun x => (judge 80 x.1 x.2).account task true x.1 x.2 := by
    rw [mixedPaths, List.map_map]
    refine List.map_congr_left fun x hx => ?_
    obtain ⟨old, contents, fate, -⟩ := fates x.1 (List.mem_map_of_mem hx)
    rw [List.map_inj_left.mp read_mixedTree x hx] at contents
    cases contents
    exact fate_iff.mp fate
  rw [found]
  cases task <;> decide +kernel

theorem result_mixedTree
    (ended : result.exit =
      .code (if mixedPaths.any fun path => (account path).failed then 1 else 0))
    (told : result.stderr = (mixedPaths.flatMap fun path => (account path).line) ++
      summaryLine task (mixedPaths.countP fun path => (account path).failed)
        mixedPaths.length) :
    mixedPaths.map (result.apply mixedTree).read? =
        (mixedAccounts task).map (fun a => some a.contents) ∧
      result.exit = .code (if (mixedAccounts task).any (·.failed) then 1 else 0) ∧
      result.stderr = (mixedAccounts task).flatMap (·.line) ++
        summaryLine task ((mixedAccounts task).countP (·.failed)) 4 := by
  rw [← accounts_mixedTree fates, List.any_map, List.flatMap_map, List.countP_map]
  refine ⟨?_, ended, told⟩
  rw [List.map_map (f := account)]
  refine List.map_congr_left fun path hp => ?_
  obtain ⟨_, _, _, now⟩ := fates path hp
  exact now

end

theorem files_of_run_mixed :
    ∃ formats checks, run ["-v", "c", "b", "a", "e"] [] mixedTree = formats ∧
      run ["-v", "--check", "c", "b", "a", "e"] [] mixedTree = checks ∧
      mixedPaths.map (formats.apply mixedTree).read? =
        (mixedAccounts .format).map (fun a => some a.contents) ∧
      (formats.apply mixedTree).files.lookup ["d"] = some [0x20] ∧
      checks.apply mixedTree = mixedTree ∧
      formats.exit = .code 1 ∧ checks.exit = .code 1 ∧
      formats.stderr = (mixedAccounts .format).flatMap (·.line) ++
        "2 / 4 file(s) failed to format\n".toList ∧
      checks.stderr = (mixedAccounts .check).flatMap (·.line) ++
        "3 / 4 file(s) failed\n".toList := by
  have distinct : (mixedPaths.map fun path => mixedTree.resolve path.toString).Nodup := by
    rw [resolve_mixedTree]
    decide
  obtain ⟨_, log, fates, others, -, -, ended, quiet, told, -⟩ :=
    files_of_run (o := { paths? := some ["c", "b", "a", "e"], verbose := true }) (by decide +kernel)
      (by simp [Options.paths]) selection_mixedTree rfl distinct rfl
      (Eq.refl (run ["-v", "c", "b", "a", "e"] [] mixedTree))
  cases quiet rfl
  obtain ⟨contents, exit, stderr⟩ := result_mixedTree fates ended told
  obtain ⟨_, log, fates, -, -, untouched, ended, quiet, told, -⟩ :=
    files_of_run (o := { paths? := some ["c", "b", "a", "e"], verbose := true, check := true })
      (by decide +kernel) (by simp [Options.paths]) selection_mixedTree rfl distinct rfl
      (Eq.refl (run ["-v", "--check", "c", "b", "a", "e"] [] mixedTree))
  cases quiet rfl
  obtain ⟨-, exit', stderr'⟩ := result_mixedTree fates ended told
  refine ⟨_, _, rfl, rfl, contents, ?_, untouched rfl, exit, exit', ?_, ?_⟩
  · rw [others ["d"]]
    · rfl
    · intro path hp found
      have among : some ["d"] ∈ [some ["c"], some ["b"], some ["a"], some ["e"]] := by
        rw [← resolve_mixedTree]
        exact List.mem_map.mpr ⟨path, hp, found⟩
      exact absurd among (by decide)
  · rw [stderr]
    decide +kernel
  · rw [stderr']
    decide +kernel

end SexprFormat.Command
