import SexprFormat.Proofs.Interchange
import SexprFormat.Proofs.Promise
import SexprFormat.Proofs.Site

/-!
The flags of groups. In a document that is put together by the operations on documents the flag of
each group tells whether a line below it must end (`Doc.Built.flagged`,
`Doc.mustBreak_iff_hardLine`), although it is found without a look into the groups inside. So a
typesetter never meets such a line, nor a group around one, in a flat group (`Typesetter.Orderly`).
Main statement: `broken_of_hardLine`; a list with a comment, a directive or an empty line anywhere
below it is broken, and so are the lists around it.
-/

namespace SexprFormat

open StateTransition (Reaches eval)

namespace Doc

mutual

theorem subdocs_subset {e : Doc} : ∀ d : Doc, e ∈ d.subdocs → e.subdocs ⊆ d.subdocs
  | text _, h | line, h | hardLine, h | unknown _, h => by
    rw [List.mem_singleton.mp h]
    exact List.Subset.refl _
  | concat ds, h => by
    rcases List.mem_cons.mp h with rfl | below
    · exact List.Subset.refl _
    · exact List.subset_cons_of_subset _ (subdocsAll_subset ds below)
  | indent _ d, h => by
    rcases List.mem_cons.mp h with rfl | below
    · exact List.Subset.refl _
    · exact List.subset_cons_of_subset _ (subdocs_subset d below)
  | group _ d, h => by
    rcases List.mem_cons.mp h with rfl | below
    · exact List.Subset.refl _
    · exact List.subset_cons_of_subset _ (subdocs_subset d below)

theorem subdocsAll_subset {e : Doc} : ∀ ds : List Doc, e ∈ subdocsAll ds → e.subdocs ⊆ subdocsAll ds
  | [], h => by cases h
  | d :: ds, h => by
    rw [subdocsAll] at h ⊢
    rcases List.mem_append.mp h with here | later
    · exact List.subset_append_of_subset_left _ (subdocs_subset d here)
    · exact List.subset_append_of_subset_right _ (subdocsAll_subset ds later)

end

/-- Splicing and dropping keep all other parts. -/
theorem mem_subdocs_append {e : Doc} (part : e.isPart) (ds : List Doc) :
    e ∈ (append ds).subdocs ↔ ∃ d ∈ ds, e ∈ d.subdocs := by
  have noText : e ≠ text [] := by
    rintro rfl
    cases part
  have noConcat (es : List Doc) : e ≠ concat es := by
    rintro rfl
    cases part
  have all : (e ∈ (append ds).subdocs) = (e ∈ subdocsAll ds) := by
    refine @append_eq Prop (fun d => e ∈ d.subdocs) (fun ds => e ∈ subdocsAll ds) Or ?_ ?_ ?_ ?_ ds
    · simp [subdocs, subdocsAll, noText]
    · intro d
      simp [subdocsAll]
    · intro es
      simp [subdocs, noConcat]
    · intro a b
      simp [subdocsAll_eq]
  rw [all, subdocsAll_eq, List.mem_flatMap]

theorem eq_or_mem_of_mem_intersperse {separator d : Doc} :
    ∀ ds : List Doc, d ∈ ds.intersperse separator → d = separator ∨ d ∈ ds
  | [], h => .inr h
  | [_], h => .inr h
  | e :: e' :: ds, h => by
    rw [List.intersperse_cons_cons, List.mem_cons, List.mem_cons] at h
    rcases h with rfl | rfl | later
    · exact .inr (List.mem_cons_self ..)
    · exact .inl rfl
    · exact (eq_or_mem_of_mem_intersperse (e' :: ds) later).imp_right (List.mem_cons_of_mem _)

/-- The flag of every group tells whether the group must break. -/
def Flagged (d : Doc) : Prop :=
  ∀ breaks inner, .group breaks inner ∈ d.subdocs → breaks = inner.mustBreak

namespace Flagged

theorem below {d e : Doc} (h : d.Flagged) (mem : e ∈ d.subdocs) : e.Flagged :=
  fun breaks inner hi => h breaks inner (subdocs_subset d mem hi)

theorem append {ds : List Doc} (h : ∀ d ∈ ds, d.Flagged) : (append ds).Flagged := by
  intro breaks inner mem
  obtain ⟨d, hd, below⟩ := (mem_subdocs_append rfl ds).mp mem
  exact h d hd breaks inner below

theorem grouped {d : Doc} (h : d.Flagged) : (grouped d).Flagged := by
  intro breaks inner mem
  rcases List.mem_cons.mp mem with same | below
  · cases same
    rfl
  · exact h breaks inner below

end Flagged

theorem Built.flagged {allowed : Int → Prop} {d : Doc} (h : d.Built allowed) : d.Flagged := by
  induction h with
  | text | line | hardLine =>
    intro breaks inner mem
    cases List.mem_singleton.mp mem
  | append _ ih => exact .append ih
  | @join separator ds _ _ ihs ih =>
    refine .append fun d hd => ?_
    rcases eq_or_mem_of_mem_intersperse ds hd with rfl | mem
    · exact ihs
    · exact ih d mem
  | indent _ _ ih =>
    intro breaks inner mem
    rcases List.mem_cons.mp mem with same | below
    · cases same
    · exact ih breaks inner below
  | grouped _ ih => exact ih.grouped

theorem Built.known {allowed : Int → Prop} {d : Doc} (h : d.Built allowed) : d.known := by
  induction h with
  | text | line | hardLine => rfl
  | append _ ih =>
    rw [known_append]
    exact knownAll_iff.mpr ih
  | @join separator ds _ _ ihs ih =>
    rw [Doc.join, known_append]
    refine knownAll_iff.mpr fun d hd => ?_
    rcases eq_or_mem_of_mem_intersperse ds hd with rfl | mem
    · exact ihs
    · exact ih d mem
  | indent _ _ ih | grouped _ ih => exact ih

mutual

/-- Where the flags are right, it makes no difference that the test does not look into groups. -/
theorem mustBreak_iff_hardLine : ∀ d : Doc, d.Flagged → (d.mustBreak = true ↔ hardLine ∈ d.subdocs)
  | text _, _ => by simp [mustBreak, subdocs]
  | line, _ => by simp [mustBreak, subdocs]
  | hardLine, _ => by simp [mustBreak, subdocs]
  | unknown _, _ => by simp [mustBreak, subdocs]
  | concat ds, h => by
    have parts := anyMustBreak_iff_hardLine ds fun e he => h.below (List.mem_cons_of_mem _ he)
    simpa [mustBreak, subdocs] using parts
  | indent _ d, h => by
    have inner := mustBreak_iff_hardLine d (h.below (List.mem_cons_of_mem _ (mem_subdocs_self d)))
    simpa [mustBreak, subdocs] using inner
  | group breaks d, h => by
    have inner := mustBreak_iff_hardLine d (h.below (List.mem_cons_of_mem _ (mem_subdocs_self d)))
    have flag := h breaks d (mem_subdocs_self _)
    simpa [mustBreak, subdocs, flag] using inner

theorem anyMustBreak_iff_hardLine : ∀ ds : List Doc, (∀ d ∈ subdocsAll ds, d.Flagged) →
    (anyMustBreak ds = true ↔ hardLine ∈ subdocsAll ds)
  | [], _ => by simp [anyMustBreak, subdocsAll]
  | d :: ds, h => by
    have first := mustBreak_iff_hardLine d (h d (List.mem_append_left _ (mem_subdocs_self d)))
    have others := anyMustBreak_iff_hardLine ds fun e he => h e (List.mem_append_right _ he)
    simp [anyMustBreak, subdocsAll, first, others]

end

/-- A group is set flat only in a flat group, or if it need not break. -/
theorem flat_of_groupMode {columns : Int} {mode : Mode} {breaks : Bool} {d : Doc}
    {after : List Pending}
    (h : groupMode columns mode breaks d after = .ok .flat) : mode = .flat ∨ breaks = false := by
  unfold groupMode at h
  split at h
  · rename_i flat
    exact .inl flat
  · split at h
    · cases h
    · rename_i unbroken
      exact .inr (by simpa using unbroken)

/-- The flag of a group. -/
def flag? : Doc → Option Bool
  | group breaks _ => some breaks
  | _ => none

/-- The flags of all groups, each group in front of those in it. -/
def flags (d : Doc) : List Bool :=
  d.subdocs.filterMap flag?

theorem flags_append (ds : List Doc) : flags (append ds) = ds.flatMap flags := by
  refine append_eq rfl (fun d => ?_) (fun ds => ?_) (fun _ _ => List.flatMap_append) ds
  · simp
  · rw [flags, subdocs, List.filterMap_cons_none rfl, subdocsAll_eq, List.filterMap_flatMap]
    rfl

end Doc

/-- A job with flags that are right, and one that need not break if it is set flat. -/
structure Job.Safe (job : Job) : Prop where
  flagged : job.doc.Flagged
  flat : job.mode = .flat → job.doc.mustBreak = false

/-- A flat job is no line that must end and no group that must break. -/
theorem Job.Safe.doc_ne {job : Job} (h : job.Safe) (flat : job.mode = .flat) :
    job.doc ≠ .hardLine ∧ ∀ inner, job.doc ≠ .group true inner := by
  have unbroken := h.flat flat
  constructor
  · intro same
    rw [same] at unbroken
    cases unbroken
  · intro inner same
    rw [same] at unbroken
    cases unbroken

namespace Typesetter

/-- What a step does with groups: it chooses the mode of one, or leaves the modes as they are and
goes on with parts of what it met. -/
theorem next_cases {width : Int} {ts ts' : Typesetter} (step : ts' ∈ ts.next width) :
    ∃ job rest, ts.jobs = job :: rest ∧ ts.left = job.doc :: ts'.left ∧
      ((∃ breaks inner mode, job.doc = .group breaks inner ∧
          Doc.groupMode (width - ts.pos.column) job.mode breaks inner (rest.map Job.pending) =
            .ok mode ∧
          ts'.jobs = { job with mode, doc := inner } :: rest ∧
          ts'.done = ts.done ++ [.group mode]) ∨
        (job.doc.flag? = none ∧ Piece.modes ts'.done = Piece.modes ts.done ∧
          ∀ part ∈ ts'.jobs, part ∈ rest ∨ part.mode = job.mode ∧ part.doc ∈ job.doc.subdocs ∧
            (job.doc.mustBreak = false → part.doc.mustBreak = false))) := by
  obtain ⟨job, rest, first, met⟩ := left_next step
  refine ⟨job, rest, first, met, ?_⟩
  have plain {p : Piece} (none : p.mode? = none) :
      Piece.modes (ts.done ++ (ts.pos.marginPieces ++ [p])) = Piece.modes ts.done := by
    rw [Piece.modes_append, Piece.modes_append, ts.pos.modes_marginPieces]
    simp [Piece.modes, none]
  cases steps_of_next step with
  | empty =>
    cases first
    exact .inr ⟨rfl, rfl, fun part mem => .inl mem⟩
  | text | space =>
    cases first
    exact .inr ⟨rfl, plain rfl, fun part mem => .inl mem⟩
  | line | hardLine =>
    cases first
    exact .inr ⟨rfl, by simp [Piece.modes, Piece.mode?], fun part mem => .inl mem⟩
  | concat =>
    cases first
    refine .inr ⟨rfl, rfl, fun part mem => ?_⟩
    rcases List.mem_append.mp mem with here | later
    · obtain ⟨d, hd, rfl⟩ := List.mem_map.mp here
      refine .inr ⟨rfl, ?_, fun unbroken => Doc.mustBreak_of_mem unbroken hd⟩
      simp only [Doc.subdocs, Doc.subdocsAll_eq, List.mem_cons, List.mem_flatMap]
      exact .inr ⟨d, hd, Doc.mem_subdocs_self d⟩
    · exact .inl later
  | @indent _ _ _ d =>
    cases first
    refine .inr ⟨rfl, rfl, fun part mem => ?_⟩
    rcases List.mem_cons.mp mem with rfl | later
    · exact .inr ⟨rfl, List.mem_cons_of_mem _ (Doc.mem_subdocs_self d), id⟩
    · exact .inl later
  | group chosen =>
    cases first
    exact .inl ⟨_, _, _, rfl, chosen, rfl, rfl⟩

/-- All jobs are safe, and the groups so far that must break are broken. -/
structure Orderly (d : Doc) (ts : Typesetter) : Prop where
  jobs : ∀ job ∈ ts.jobs, job.Safe
  modes : ∃ flags, d.flags = flags ++ ts.left.filterMap Doc.flag? ∧
    List.Forall₂ (fun flag mode => flag = true → mode = .broken) flags (Piece.modes ts.done)

namespace Orderly

theorem start {d : Doc} (h : d.Flagged) : (start d).Orderly d where
  jobs job mem := by
    obtain rfl := List.mem_singleton.mp mem
    exact ⟨h, by simp⟩
  modes := ⟨[], by simp [Doc.flags, left, Typesetter.start], .nil⟩

theorem next {width : Int} {d : Doc} {ts ts' : Typesetter} (h : ts.Orderly d)
    (step : ts' ∈ ts.next width) : ts'.Orderly d := by
  obtain ⟨flags, all, broken⟩ := h.modes
  obtain ⟨job, rest, first, met, taken⟩ := next_cases step
  have safe := h.jobs job (first ▸ List.mem_cons_self ..)
  have others (part : Job) (mem : part ∈ rest) : part.Safe :=
    h.jobs part (first ▸ List.mem_cons_of_mem _ mem)
  rcases taken with ⟨breaks, inner, mode, group, chosen, jobs, done⟩ | ⟨noGroup, same, parts⟩
  · have flag : breaks = inner.mustBreak :=
      safe.flagged breaks inner (group ▸ Doc.mem_subdocs_self _)
    have flat : mode = .flat → breaks = false := by
      rintro rfl
      rcases Doc.flat_of_groupMode chosen with around | unbroken
      · have unbroken := safe.flat around
        rwa [group, Doc.mustBreak] at unbroken
      · exact unbroken
    refine ⟨fun part mem => ?_, flags ++ [breaks], ?_, ?_⟩
    · rw [jobs] at mem
      rcases List.mem_cons.mp mem with rfl | later
      · refine ⟨safe.flagged.below ?_, fun isFlat => flag ▸ flat isFlat⟩
        rw [group]
        exact List.mem_cons_of_mem _ (Doc.mem_subdocs_self inner)
      · exact others part later
    · rw [all, met, group, List.append_assoc]
      rfl
    · rw [done, Piece.modes_append]
      refine List.rel_append broken (.cons (fun must => ?_) .nil)
      cases mode with
      | broken => rfl
      | flat => rw [flat rfl] at must; cases must
  · refine ⟨fun part mem => ?_, flags, ?_, by rwa [same]⟩
    · rcases parts part mem with later | ⟨mode, below, unbroken⟩
      · exact others part later
      · exact ⟨safe.flagged.below below, fun flat => unbroken (safe.flat (mode ▸ flat))⟩
    · rw [all, met, List.filterMap_cons_none noGroup]

end Orderly

theorem orderly_of_reaches {width : Int} {d : Doc} (h : d.Flagged) {ts : Typesetter}
    (reached : Reaches (Typesetter.next width) (start d) ts) : ts.Orderly d := by
  induction reached with
  | refl => exact .start h
  | tail _ step ih => exact ih.next step

/-- Each group that must break is broken. -/
theorem modes_of_flags (width : Int) {d : Doc} (h : d.Flagged) (known : d.known) :
    List.Forall₂ (fun flag mode => flag = true → mode = .broken) d.flags
      (Piece.modes (d.pieces width)) := by
  obtain ⟨reached, _⟩ := StateTransition.mem_eval.mp (mem_eval_start width known)
  obtain ⟨flags, all, broken⟩ := (orderly_of_reaches h reached).modes
  rw [left, List.flatMap_nil, List.filterMap_nil, List.append_nil] at all
  rwa [all]

end Typesetter

namespace Node

theorem built_separator (inProgram : Bool) (previous? : Option Node) (child : Node) :
    (separator inProgram previous? child).Built fun _ => True := by
  unfold separator
  repeat' split
  all_goals first
    | exact .text _
    | exact .line
    | exact .hardLine

mutual

/-- The document of a node is put together by the operations on documents. -/
theorem built_document : ∀ (node : Node) {d : Doc}, node.document = .ok d → d.Built fun _ => True
  | atom .., d, h | string .., d, h => by
    cases h
    exact .text _
  | comment .., d, h | directive .., d, h => by
    cases h
    refine .append ?_
    rw [List.forall_mem_cons, List.forall_mem_singleton]
    exact ⟨.text _, .hardLine⟩
  | blank _, d, h => by
    cases h
    exact .hardLine
  | quoted .., d, h => by
    obtain ⟨e, inner, rfl⟩ := document_quoted h
    refine .append ?_
    rw [List.forall_mem_cons, List.forall_mem_singleton]
    exact ⟨.text _, built_document _ inner⟩
  | list _ _ children, d, h => by
    obtain ⟨ds, body, rfl⟩ := document_list h
    refine .append ?_
    rw [List.forall_mem_cons, List.forall_mem_cons, List.forall_mem_singleton]
    exact ⟨.text _, .grouped (.indent trivial (.append (built_sequence children body))), .text _⟩
  | program _ children, d, h => by
    obtain ⟨ds, body, rfl | rfl⟩ := document_program h
    · exact .append (built_sequence children body)
    · refine .append ?_
      rw [List.forall_mem_cons, List.forall_mem_singleton]
      exact ⟨.append (built_sequence children body), .hardLine⟩
  | unknown .., d, h => by cases h

theorem built_sequence :
    ∀ (nodes : List Node) {inProgram : Bool} {previous? : Option Node} {ds : List Doc},
    sequence inProgram previous? nodes = .ok ds → ∀ d ∈ ds, d.Built fun _ => True
  | [], inProgram, previous?, ds, h => by
    cases h
    simp
  | child :: rest, inProgram, previous?, ds, h => by
    obtain ⟨d, es, first, later, rfl⟩ := sequence_cons h
    rw [List.forall_mem_cons, List.forall_mem_cons]
    exact ⟨built_separator _ _ _, built_document child first, built_sequence rest later⟩

end

mutual

/-- A line that must end in the document of a node must end in those of the nodes above. -/
theorem hardLine_of_below {n : Node} :
    ∀ (node : Node) {d : Doc}, node.document = .ok d → n ∈ node.subtrees →
    ∃ e, n.document = .ok e ∧ (.hardLine ∈ e.subdocs → .hardLine ∈ d.subdocs)
  | atom .., d, h, mem | string .., d, h, mem | comment .., d, h, mem | directive .., d, h, mem
  | blank _, d, h, mem | unknown .., d, h, mem => by
    obtain rfl := List.mem_singleton.mp mem
    exact ⟨d, h, id⟩
  | quoted _ _ lead inner, d, h, mem => by
    rcases List.mem_cons.mp mem with rfl | below
    · exact ⟨d, h, id⟩
    · obtain ⟨own, built, rfl⟩ := document_quoted h
      obtain ⟨e, he, up⟩ := hardLine_of_below inner built below
      exact ⟨e, he, fun hard => (Doc.mem_subdocs_append rfl _).mpr ⟨own, by simp, up hard⟩⟩
  | list _ shape children, d, h, mem => by
    rcases List.mem_cons.mp mem with rfl | below
    · exact ⟨d, h, id⟩
    · obtain ⟨ds, body, rfl⟩ := document_list h
      obtain ⟨e, he, up⟩ := hardLine_of_belowAll children body below
      refine ⟨e, he,
        fun hard => (Doc.mem_subdocs_append rfl _).mpr ⟨_, List.mem_cons_of_mem _ (.head _), ?_⟩⟩
      refine List.mem_cons_of_mem _ (List.mem_cons_of_mem _ ?_)
      exact (Doc.mem_subdocs_append rfl ds).mpr (up hard)
  | program _ children, d, h, mem => by
    rcases List.mem_cons.mp mem with rfl | below
    · exact ⟨d, h, id⟩
    · obtain ⟨ds, body, rfl | rfl⟩ := document_program h
      · obtain ⟨e, he, up⟩ := hardLine_of_belowAll children body below
        exact ⟨e, he, fun hard => (Doc.mem_subdocs_append rfl ds).mpr (up hard)⟩
      · obtain ⟨e, he, _⟩ := hardLine_of_belowAll children body below
        exact ⟨e, he,
          fun _ => (Doc.mem_subdocs_append rfl _).mpr ⟨.hardLine, by simp, by simp [Doc.subdocs]⟩⟩

theorem hardLine_of_belowAll {n : Node} :
    ∀ (nodes : List Node) {inProgram : Bool} {previous? : Option Node}
    {ds : List Doc}, sequence inProgram previous? nodes = .ok ds → n ∈ subtreesAll nodes →
      ∃ e, n.document = .ok e ∧ (.hardLine ∈ e.subdocs → ∃ d ∈ ds, .hardLine ∈ d.subdocs)
  | [], _, _, _, _, mem => by cases mem
  | child :: rest, inProgram, previous?, ds, h, mem => by
    obtain ⟨d, es, first, later, rfl⟩ := sequence_cons h
    rcases List.mem_append.mp mem with here | behind
    · obtain ⟨e, he, up⟩ := hardLine_of_below child first here
      exact ⟨e, he, fun hard => ⟨d, by simp, up hard⟩⟩
    · obtain ⟨e, he, up⟩ := hardLine_of_belowAll rest later behind
      refine ⟨e, he, fun hard => ?_⟩
      obtain ⟨x, hx, inside⟩ := up hard
      exact ⟨x, by simp [hx], inside⟩

end

theorem hardLine_of_isRemark {n : Node} {d : Doc} (remark : n.isRemark) (h : n.document = .ok d) :
    .hardLine ∈ d.subdocs := by
  cases n with
  | comment | directive =>
    cases h
    exact (Doc.mem_subdocs_append rfl _).mpr ⟨.hardLine, by simp, by simp [Doc.subdocs]⟩
  | blank =>
    cases h
    exact List.mem_singleton_self _
  | atom | string | quoted | list | program | unknown => cases remark

/-- Whether a line in the document of a node must end. -/
def breaks (node : Node) : Bool :=
  match node.document with
  | .ok d => d.mustBreak
  | .error _ => false

/-- A list breaks if a remark stands anywhere below one of the lists in it. -/
theorem breaks_of_remark {node outer inner n : Node} {d : Doc} (h : node.document = .ok d)
    (ho : outer ∈ node.subtrees) (hi : inner ∈ outer.subtrees) (hn : n ∈ inner.subtrees)
    (remark : n.isRemark) : outer.breaks := by
  obtain ⟨own, outside, _⟩ := hardLine_of_below node h ho
  obtain ⟨e, inside, up⟩ := hardLine_of_below outer outside hi
  obtain ⟨x, built, up'⟩ := hardLine_of_below inner inside hn
  have hard := up (up' (hardLine_of_isRemark remark built))
  rw [breaks, outside]
  exact (Doc.mustBreak_iff_hardLine own (built_document outer outside).flagged).mpr hard

theorem flags_separator (inProgram : Bool) (previous? : Option Node) (child : Node) :
    (separator inProgram previous? child).flags = [] := by
  unfold separator
  repeat' split
  all_goals rfl

mutual

/-- The groups of a document are those of the lists of its node. -/
theorem flags_document : ∀ (node : Node) {d : Doc}, node.document = .ok d →
    d.flags = (node.subtrees.filter isList).map breaks
  | atom .., d, h | string .., d, h | blank _, d, h => by
    cases h
    rfl
  | comment .., d, h | directive .., d, h => by
    cases h
    rw [Doc.flags_append]
    rfl
  | quoted .., d, h => by
    obtain ⟨e, inner, rfl⟩ := document_quoted h
    rw [Doc.flags_append, subtrees, List.filter_cons_of_neg (by simp [isList]),
      ← flags_document _ inner]
    simp [Doc.flags, Doc.subdocs, Doc.flag?]
  | list _ _ children, d, h => by
    obtain ⟨ds, body, shape⟩ := document_list h
    rw [subtrees, List.filter_cons_of_pos rfl, List.map_cons,
      ← flags_sequence children body, breaks, h,
      shape, Doc.flags_append, ← Doc.flags_append ds]
    have text (t : List Char) : (Doc.text t).flags = [] := rfl
    have group : (Doc.indent Doc.indentWidth (Doc.append ds)).grouped.flags =
        (Doc.append ds).mustBreak :: (Doc.append ds).flags := rfl
    have own : (Doc.indent Doc.indentWidth (Doc.append ds)).grouped.mustBreak =
        (Doc.append ds).mustBreak := rfl
    simp [text, group, own, Doc.mustBreak_append, Doc.anyMustBreak, Doc.mustBreak]
  | program _ children, d, h => by
    obtain ⟨ds, body, rfl | rfl⟩ := document_program h
    · rw [Doc.flags_append, subtrees, List.filter_cons_of_neg (by simp [isList]),
        flags_sequence children body]
    · rw [Doc.flags_append, subtrees, List.filter_cons_of_neg (by simp [isList]),
        ← flags_sequence children body, ← Doc.flags_append ds]
      simp [Doc.flags, Doc.subdocs, Doc.flag?]
  | unknown .., d, h => by cases h

theorem flags_sequence :
    ∀ (nodes : List Node) {inProgram : Bool} {previous? : Option Node} {ds : List Doc},
    sequence inProgram previous? nodes = .ok ds →
      ds.flatMap Doc.flags = ((subtreesAll nodes).filter isList).map breaks
  | [], _, _, _, h => by
    cases h
    rfl
  | child :: rest, inProgram, previous?, ds, h => by
    obtain ⟨d, es, first, later, rfl⟩ := sequence_cons h
    rw [subtreesAll, List.filter_append, List.map_append, ← flags_document child first,
      ← flags_sequence rest later, List.flatMap_cons, List.flatMap_cons, flags_separator,
      List.nil_append]

end

end Node

/-- In a document that is put together by its operations the flag of each group tells whether a line
below it must end, and when the document is set, no such line and no such group is ever met in a
flat one. In the layout of a tree, therefore, a list with a comment, a directive or an empty line
anywhere below it is broken, and so are the lists around it. -/
theorem broken_of_hardLine :
    (∀ d : Doc, d.Built (fun _ => True) →
      (∀ breaks inner, .group breaks inner ∈ d.subdocs →
        (breaks = true ↔ .hardLine ∈ inner.subdocs)) ∧
      ∀ width,
        d.render width = .ok ((d.pieces width).flatMap Piece.chars) ∧
        (∃ final ∈ eval (Typesetter.next width) (.start d), final.jobs = [] ∧
          final.done = d.pieces width) ∧
        ∀ ts indent doc rest, Reaches (Typesetter.next width) (.start d) ts →
          ts.jobs = { indent, mode := .flat, doc } :: rest →
            doc ≠ .hardLine ∧ ∀ inner, doc ≠ .group true inner) ∧
    ∀ (node : Node) (d : Doc), node.document = .ok d → ∀ width,
      node.render width = .ok ((d.pieces width).flatMap Piece.chars) ∧
      List.Forall₂ (fun list mode => ∀ inner ∈ list.subtrees, inner.isList →
          (∃ n ∈ inner.subtrees, n.isRemark) → mode = .broken)
        (node.subtrees.filter Node.isList) (Piece.modes (d.pieces width)) := by
  constructor
  · intro d built
    have flagged := built.flagged
    refine ⟨fun breaks inner mem => ?_, fun width => ⟨Doc.render_eq width built.known, ?_, ?_⟩⟩
    · have inside : inner ∈ (Doc.group breaks inner).subdocs :=
        List.mem_cons_of_mem _ (Doc.mem_subdocs_self inner)
      rw [flagged breaks inner mem]
      exact Doc.mustBreak_iff_hardLine inner ((flagged.below mem).below inside)
    · exact ⟨_, Typesetter.mem_eval_start width built.known, rfl, rfl⟩
    · intro ts indent doc rest reached next
      have safe :=
        (Typesetter.orderly_of_reaches flagged reached).jobs _ (next ▸ List.mem_cons_self ..)
      exact safe.doc_ne rfl
  · intro node d h width
    have built := node.built_document h
    refine ⟨?_, ?_⟩
    · rw [Node.render, h]
      change (d.render width).mapError FormatError.render = _
      rw [Doc.render_eq width built.known]
      rfl
    · have modes := Typesetter.modes_of_flags width built.flagged built.known
      rw [Node.flags_document node h, List.forall₂_map_left_iff] at modes
      have lists : ∀ list ∈ node.subtrees.filter Node.isList, list ∈ node.subtrees :=
          fun list mem =>
        (List.mem_filter.mp mem).1
      refine (List.forall₂_and_left _ _ |>.mpr ⟨lists, modes⟩).imp ?_
      rintro list mode ⟨mem, must⟩ inner hi _ ⟨n, hn, remark⟩
      exact must (Node.breaks_of_remark h mem hi hn remark)

/-- The comment stands two lists deep, and the width has room for all. -/
theorem broken_of_hardLine_nested :
    ∃ (note inner outer : Node) (d own : Doc), note.isRemark ∧ note ∈ inner.subtrees ∧
      inner ∈ outer.subtrees ∧ outer.subtrees.filter Node.isList = [outer, inner] ∧
      outer.document = .ok d ∧
      d.Built (fun _ => True) ∧ .group true own ∈ d.subdocs ∧ .hardLine ∈ own.subdocs ∧
      Piece.modes (d.pieces 80) = [.broken, .broken] := by
  let note : Node := .comment default [';'] .trailing false
  let inner : Node := .list default .paren [note]
  let outer : Node := .list default .paren [inner]
  let own : Doc := .indent 2 (.concat [.text ['('],
    .group true (.indent 2 (.concat [.text [';'], .hardLine])), .text [')']])
  let d : Doc := .concat [.text ['('], .group true own, .text [')']]
  have lists : outer.subtrees.filter Node.isList = [outer, inner] := rfl
  have noted : note ∈ inner.subtrees := List.mem_cons_of_mem _ (.head _)
  have within : inner ∈ outer.subtrees := List.mem_cons_of_mem _ (.head _)
  have document : outer.document = .ok d := rfl
  have built := outer.built_document document
  have group : .group true own ∈ d.subdocs := by simp [d, Doc.subdocs, Doc.subdocsAll]
  obtain ⟨flags, _⟩ := broken_of_hardLine.1 d built
  obtain ⟨_, modes⟩ := broken_of_hardLine.2 outer d document 80
  refine ⟨note, inner, outer, d, own, rfl, noted, within, lists, document, built, group,
    (flags true own group).mp rfl, ?_⟩
  rw [lists] at modes
  obtain ⟨first, _, around, rest, same⟩ := List.forall₂_cons_left_iff.mp modes
  obtain ⟨second, _, own, last, rfl⟩ := List.forall₂_cons_left_iff.mp rest
  rw [same, List.forall₂_nil_left_iff.mp last, around inner within rfl ⟨note, noted, rfl⟩,
    own inner (Node.mem_subtrees_self inner) rfl ⟨note, noted, rfl⟩]

end SexprFormat
