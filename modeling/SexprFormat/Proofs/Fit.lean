import SexprFormat.Proofs.Compose
import SexprFormat.Proofs.Document

/-!
The test that decides how a group is set. It compares the columns that are left with the first line
of a text, the `preview` of the group and of what follows it (`Doc.fits_eq`). The preview is the
least that can come to stand on the line: `Doc.keeps_layout` is the main statement, if the preview
fits from some position, the line that is set from there fits, however the groups behind it are set.
-/

namespace SexprFormat

namespace Text

theorem firstLine_append_of_not_mem {a : List Char} (h : '\n' ∉ a) (b : List Char) :
    firstLine (a ++ b) = a ++ firstLine b := by
  refine List.takeWhile_append_of_pos fun c hc => ?_
  simpa using fun e : c = '\n' => h (e ▸ hc)

theorem firstLine_eq_self {s : List Char} (h : '\n' ∉ s) : firstLine s = s := by
  simpa [firstLine] using firstLine_append_of_not_mem h []

theorem firstLine_append_of_mem {a : List Char} (h : '\n' ∈ a) (b : List Char) :
    firstLine (a ++ b) = firstLine a := by
  induction a with
  | nil => cases h
  | cons c a ih =>
    by_cases hc : c = '\n'
    · simp [firstLine, hc]
    · have later : '\n' ∈ a := (List.mem_cons.mp h).resolve_left (Ne.symm hc)
      simpa [firstLine, hc] using ih later

/-- The first line of a text depends on its end only by the first line of that. -/
theorem firstLine_append_congr (a : List Char) {b b' : List Char} (h : firstLine b = firstLine b') :
    firstLine (a ++ b) = firstLine (a ++ b') := by
  by_cases ha : '\n' ∈ a
  · rw [firstLine_append_of_mem ha, firstLine_append_of_mem ha]
  · rw [firstLine_append_of_not_mem ha, firstLine_append_of_not_mem ha, h]

theorem firstLine_newline (s : List Char) : firstLine ('\n' :: s) = [] := by
  simp [firstLine]

theorem firstLine_append_newline (a b : List Char) : firstLine (a ++ '\n' :: b) = firstLine a := by
  have ends : firstLine ('\n' :: b) = firstLine [] := firstLine_newline b
  rw [firstLine_append_congr a ends, List.append_nil]

theorem lastLine_append_of_not_mem (a : List Char) {b : List Char} (h : '\n' ∉ b) :
    lastLine (a ++ b) = lastLine a ++ b := by
  have back : firstLine (b.reverse ++ a.reverse) = b.reverse ++ firstLine a.reverse :=
    firstLine_append_of_not_mem (by simpa using h) a.reverse
  calc lastLine (a ++ b) = (firstLine (b.reverse ++ a.reverse)).reverse := by
        rw [← List.reverse_append]
        rfl
    _ = (firstLine a.reverse).reverse ++ b := by
      rw [back, List.reverse_append, List.reverse_reverse]
    _ = lastLine a ++ b := rfl

theorem lastLine_append_of_mem (a : List Char) {b : List Char} (h : '\n' ∈ b) :
    lastLine (a ++ b) = lastLine b := by
  have back : firstLine (b.reverse ++ a.reverse) = firstLine b.reverse :=
    firstLine_append_of_mem (by simpa using h) a.reverse
  calc lastLine (a ++ b) = (firstLine (b.reverse ++ a.reverse)).reverse := by
        rw [← List.reverse_append]
        rfl
    _ = lastLine b := by
        rw [back]
        rfl

end Text

theorem newline_not_mem_spaces (width : Int) : '\n' ∉ spaces width := by
  simp [spaces]

/-- What following a line through a text finds. -/
def Probe.of (columns : Int) (s : List Char) : Probe :=
  if columns < (Text.firstLine s).length then overflow
  else if '\n' ∈ s then ends
  else left (columns - s.length)

theorem Probe.of_nil {columns : Int} (h : 0 ≤ columns) : Probe.of columns [] = .left columns := by
  simp [Probe.of, Text.firstLine, Int.not_lt.mpr h]

theorem Probe.of_ne_overflow {columns : Int} {s : List Char} :
    Probe.of columns s ≠ .overflow ↔ (Text.firstLine s).length ≤ columns := by
  unfold Probe.of
  repeat' split
  all_goals simp
  all_goals omega

namespace Doc

mutual

/-- The text of a document whose lines that may end are spaces if it is flat and end if it is
broken. -/
def preview (mode : Mode) : Doc → List Char
  | text s => s
  | concat ds => previewAll mode ds
  | indent _ d => preview mode d
  | line => if mode = .flat then [' '] else ['\n']
  | hardLine => ['\n']
  | group breaks d => preview (if breaks then .broken else mode) d
  | unknown _ => []

def previewAll (mode : Mode) : List Doc → List Char
  | [] => []
  | d :: ds => preview mode d ++ previewAll mode ds

end

def previewPending (after : List Pending) : List Char :=
  after.flatMap fun p => previewAll p.mode p.docs

theorem previewAll_append (mode : Mode) (a b : List Doc) :
    previewAll mode (a ++ b) = previewAll mode a ++ previewAll mode b := by
  induction a with
  | nil => rfl
  | cons d a ih => simp [previewAll, ih]

theorem preview_append (mode : Mode) (ds : List Doc) :
    preview mode (append ds) = previewAll mode ds :=
  append_eq rfl (fun d => by simp [previewAll]) (fun _ => by rw [preview])
    (previewAll_append mode) ds

/-- A text is followed through part by part. -/
theorem goOn_of (columns : Int) (a b : List Char) :
    goOn (.ok (.of columns a)) (fun left => .ok (.of left b)) = .ok (.of columns (a ++ b)) := by
  unfold Probe.of
  by_cases ends : '\n' ∈ a
  · rw [Text.firstLine_append_of_mem ends]
    by_cases short : columns < (Text.firstLine a).length
    · simp only [if_pos short, goOn]
    · simp only [if_neg short, ends, List.mem_append, true_or, ↓reduceIte, goOn]
  · rw [Text.firstLine_append_of_not_mem ends, Text.firstLine_eq_self ends]
    by_cases short : columns < a.length
    · have long : columns < (a ++ Text.firstLine b).length := by
        rw [List.length_append]
        omega
      simp only [if_pos short, if_pos long, goOn]
    · have same : columns - a.length < (Text.firstLine b).length ↔
          columns < (a ++ Text.firstLine b).length := by
        rw [List.length_append]
        omega
      have left : columns - a.length - b.length = columns - (a ++ b).length := by
        rw [List.length_append]
        omega
      simp only [if_neg short, ends, List.mem_append, false_or, ↓reduceIte, goOn, same, left]

theorem probe_text (mode : Mode) (columns : Int) (s : List Char) :
    probe mode columns (text s) = .ok (.of columns s) := by
  rw [probe, Probe.spend, Probe.of]
  by_cases short : columns < (Text.firstLine s).length
  · rw [if_pos (by omega), if_pos short]
  · rw [if_neg (by omega), if_neg short]
    by_cases ends : '\n' ∈ s
    · simp [ends]
    · simp [ends, Text.firstLine_eq_self ends]

mutual

/-- Following a line through a document finds what its preview shows. -/
theorem probe_eq (mode : Mode) {columns : Int} (h : 0 ≤ columns) :
    ∀ d : Doc, d.known → probe mode columns d = .ok (.of columns (preview mode d))
  | text s, _ => probe_text mode columns s
  | concat ds, hd => by
    rw [probe, preview]
    exact probeAll_eq mode h ds (by simpa [known] using hd)
  | indent _ d, hd => by
    rw [probe, preview]
    exact probe_eq mode h d (by simpa [known] using hd)
  | line, _ => by
    cases mode with
    | flat =>
      rw [probe, preview, if_pos rfl, if_pos rfl]
      by_cases short : columns < 1
      · have spent : columns - 1 < 0 := by omega
        simp [Probe.spend, Probe.of, Text.firstLine, short, spent]
      · have more : ¬columns - 1 < 0 := by omega
        simp [Probe.spend, Probe.of, Text.firstLine, short, more]
    | broken => simp [probe, preview, Probe.of, Text.firstLine, Int.not_lt.mpr h]
  | hardLine, _ => by simp [probe, preview, Probe.of, Text.firstLine, Int.not_lt.mpr h]
  | group _ d, hd => by
    rw [probe, preview]
    exact probe_eq _ h d (by simpa [known] using hd)
  | unknown _, hd => by simp [known] at hd

theorem probeAll_eq (mode : Mode) {columns : Int} (h : 0 ≤ columns) :
    ∀ ds : List Doc, knownAll ds → probeAll mode columns ds = .ok (.of columns (previewAll mode ds))
  | [], _ => by rw [probeAll, previewAll, Probe.of_nil h]
  | d :: ds, hd => by
    simp only [knownAll, Bool.and_eq_true] at hd
    have first := probe_eq mode h d hd.1
    rw [probeAll_cons, previewAll, ← goOn_of, ← first]
    exact goOn_congr fun left found => probeAll_eq mode (nonneg_of_probe h d found) ds hd.2

end

theorem probePending_eq {columns : Int} (h : 0 ≤ columns) {after : List Pending}
    (ha : KnownPending after) :
    probePending columns after = .ok (.of columns (previewPending after)) := by
  induction after generalizing columns with
  | nil => rw [probePending, previewPending, List.flatMap_nil, Probe.of_nil h]
  | cons p after ih =>
    have first := probeAll_eq p.mode h p.docs (ha p (List.mem_cons_self ..))
    rw [probePending_cons, previewPending, List.flatMap_cons, ← goOn_of, ← first]
    exact goOn_congr fun left found =>
      ih (nonneg_of_probeAll h p.docs found) fun q hq => ha q (List.mem_cons_of_mem _ hq)

/-- A document fits if the first line of its preview and of what follows does. -/
theorem fits_eq (columns : Int) {d : Doc} (hd : d.known) {after : List Pending}
    (ha : KnownPending after) :
    fits columns d after = .ok (decide
      ((Text.firstLine (preview .flat d ++ previewPending after)).length ≤ columns)) := by
  unfold fits
  by_cases short : columns < 0
  · rw [if_pos short, decide_eq_false (by omega)]
  · have all : KnownPending ({ indent := 0, mode := .flat, docs := [d] } :: after) :=
      ha.cons (by simp [knownAll, hd])
    have shown : previewPending ({ indent := 0, mode := .flat, docs := [d] } :: after) =
        preview .flat d ++ previewPending after := by
      simp [previewPending, previewAll]
    rw [if_neg short, probePending_eq (Int.not_lt.mp short) all, shown, Except.map]
    simp only [Probe.of_ne_overflow]

theorem groupMode_broken (columns : Int) (breaks : Bool) {d : Doc} (hd : d.known)
    {after : List Pending} (ha : KnownPending after) :
    groupMode columns .broken breaks d after = .ok
      (if !breaks ∧ (Text.firstLine (preview .flat d ++ previewPending after)).length ≤ columns
        then .flat else .broken) := by
  unfold groupMode
  rw [fits_eq columns hd ha]
  cases breaks <;> simp [Except.map]

mutual

/-- No part is of an unknown kind, indentation goes inward, and each group has the flag that is
due. -/
def sound : Doc → Bool
  | text _ | line | hardLine => true
  | concat ds => soundAll ds
  | indent extra d => decide (0 ≤ extra) && sound d
  | group breaks d => breaks == mustBreak d && sound d
  | unknown _ => false

def soundAll : List Doc → Bool
  | [] => true
  | d :: ds => sound d && soundAll ds

end

mutual

theorem known_of_sound : ∀ d : Doc, d.sound → d.known
  | text _, _ | line, _ | hardLine, _ => rfl
  | concat ds, h => by
    rw [known]
    exact knownAll_of_soundAll ds (by simpa [sound] using h)
  | indent extra d, h => by
    simp only [sound, Bool.and_eq_true] at h
    exact known_of_sound d h.2
  | group breaks d, h => by
    simp only [sound, Bool.and_eq_true] at h
    exact known_of_sound d h.2
  | unknown _, h => by simp [sound] at h

theorem knownAll_of_soundAll : ∀ ds : List Doc, soundAll ds → knownAll ds
  | [], _ => rfl
  | d :: ds, h => by
    simp only [soundAll, Bool.and_eq_true] at h
    simp [knownAll, known_of_sound d h.1, knownAll_of_soundAll ds h.2]

end

theorem soundAll_append (a b : List Doc) : soundAll (a ++ b) = (soundAll a && soundAll b) := by
  induction a with
  | nil => rfl
  | cons d a ih => simp [soundAll, ih, Bool.and_assoc]

theorem sound_append (ds : List Doc) : sound (append ds) = soundAll ds :=
  append_eq rfl (fun d => by simp [soundAll]) (fun _ => by rw [sound]) soundAll_append ds

/-- From any position from which a text fits, the line that is set fits. -/
def Keeps (width : Int) (shown : List Char) (set : Position → List Char) : Prop :=
  ∀ pos : Position, 0 ≤ pos.margin → pos.column + (Text.firstLine shown).length ≤ width →
    pos.column - pos.margin + (Text.firstLine (set pos)).length ≤ width

namespace Keeps

variable {width : Int} {shown : List Char} {set : Position → List Char}

/-- Characters that are shown are set behind the margin that is due. -/
theorem text (h : Keeps width shown set) (s : List Char) :
    Keeps width (s ++ shown) fun pos => spaces pos.margin ++ s ++ set (pos.pass s) := by
  intro pos due fits
  have margin : (spaces pos.margin).length = pos.margin := by
    rw [spaces, List.length_replicate]
    omega
  simp only
  rw [List.append_assoc, Text.firstLine_append_of_not_mem (newline_not_mem_spaces _),
    List.length_append]
  by_cases ends : '\n' ∈ s
  · rw [Text.firstLine_append_of_mem ends] at fits ⊢
    omega
  · have passed : pos.pass s = { column := pos.column + s.length } := by
      simp [Position.pass, ends]
    rw [Text.firstLine_append_of_not_mem ends, List.length_append] at fits ⊢
    have rest := h (pos.pass s) (by simp [passed]) (by simp only [passed]; omega)
    simp only [passed] at rest ⊢
    omega

theorem newline (width : Int) (shown : List Char) (set : Position → List Char) :
    Keeps width ('\n' :: shown) fun pos => '\n' :: set pos := by
  intro pos due fits
  simp only [Text.firstLine_newline, List.length_nil] at fits ⊢
  omega

end Keeps

/-- A group that can be flat becomes flat only if it need not break. If it fits as it may come to be
set, then it fits as it is set. -/
theorem groupMode_of_mustBreak (columns : Int) {d : Doc} (hd : d.known) {after : List Pending}
    (ha : KnownPending after) {mode : Mode} (flat : mode = .flat → d.mustBreak = false) :
    ∃ inner, groupMode columns mode d.mustBreak d after = .ok inner ∧
      (inner = .flat → d.mustBreak = false) ∧
      ((Text.firstLine (preview mode (group d.mustBreak d) ++ previewPending after)).length ≤
        columns →
        (Text.firstLine (preview inner d ++ previewPending after)).length ≤ columns) := by
  cases mode with
  | flat =>
    refine ⟨.flat, by simp [groupMode], fun _ => flat rfl, fun h => ?_⟩
    simpa [preview, flat rfl] using h
  | broken =>
    rw [groupMode_broken columns d.mustBreak hd ha]
    split
    · rename_i fit
      exact ⟨.flat, rfl, fun _ => by simpa using fit.1, fun _ => fit.2⟩
    · refine ⟨.broken, rfl, nofun, fun h => ?_⟩
      simpa [preview] using h

mutual

/-- If the preview of a document and of what follows fits on a line, so does what is set there. -/
theorem keeps_layout (width indent : Int) (mode : Mode) {after : List Pending}
    {set : Position → List Char} (ha : KnownPending after)
    (keeps : Keeps width (previewPending after) set) :
    ∀ d : Doc, d.sound → (mode = .flat → d.mustBreak = false) →
      Keeps width (preview mode d ++ previewPending after) fun pos =>
        (layout width indent mode after pos d).1.flatMap Piece.chars ++
          set (layout width indent mode after pos d).2
  | text [], _, _ => by simpa [layout, preview] using keeps
  | text (c :: s), _, _ => by
    simpa [layout, preview, Position.chars_marginPieces, Piece.chars] using keeps.text (c :: s)
  | concat ds, hd, flat => by
    simp only [layout, preview]
    exact keeps_layoutAll width indent mode ha keeps ds (by simpa [sound] using hd)
      (by simpa [mustBreak] using flat)
  | .indent extra d, hd, flat => by
    simp only [sound, Bool.and_eq_true] at hd
    simp only [layout, preview]
    exact keeps_layout width (indent + extra) mode ha keeps d hd.2 (by simpa [mustBreak] using flat)
  | line, _, _ => by
    cases mode with
    | flat =>
      simpa [layout, preview, Position.chars_marginPieces, Piece.chars] using keeps.text [' ']
    | broken =>
      simpa [layout, preview, Piece.chars] using
        Keeps.newline width (previewPending after) fun _ => set (.newline indent)
  | hardLine, _, _ => by
    simpa [layout, preview, Piece.chars] using
      Keeps.newline width (previewPending after) fun _ => set (.newline indent)
  | group breaks d, hd, flat => by
    simp only [sound, Bool.and_eq_true, beq_iff_eq] at hd
    obtain ⟨rfl, hd⟩ := hd
    intro pos due fits
    obtain ⟨inner, chosen, safe, enough⟩ :=
      groupMode_of_mustBreak (width - pos.column) (known_of_sound d hd) ha flat
    -- A flat group has passed the test; the preview of any other one is that of the broken group.
    have fit := enough (by omega)
    have kept := keeps_layout width indent inner ha keeps d hd safe pos due (by omega)
    simpa [layout_group _ _ _ _ _ chosen, Piece.chars] using kept
  | unknown _, hd, _ => by simp [sound] at hd

theorem keeps_layoutAll (width indent : Int) (mode : Mode) {after : List Pending}
    {set : Position → List Char} (ha : KnownPending after)
    (keeps : Keeps width (previewPending after) set) :
    ∀ ds : List Doc, soundAll ds → (mode = .flat → anyMustBreak ds = false) →
      Keeps width (previewAll mode ds ++ previewPending after) fun pos =>
        (layoutAll width indent mode after pos ds).1.flatMap Piece.chars ++
          set (layoutAll width indent mode after pos ds).2
  | [], _, _ => by simpa [layoutAll, previewAll] using keeps
  | d :: ds, hd, flat => by
    simp only [soundAll, Bool.and_eq_true] at hd
    simp only [anyMustBreak, Bool.or_eq_false_iff] at flat
    have pending : KnownPending ({ indent, mode, docs := ds } :: after) :=
      ha.cons (knownAll_of_soundAll ds hd.2)
    -- What the later documents keep is what is asked of all that follows the first one.
    have rest := keeps_layoutAll width indent mode ha keeps ds hd.2 fun h => (flat h).2
    have first := keeps_layout width indent mode pending rest d hd.1 fun h => (flat h).1
    simpa [layoutAll_cons, previewAll, previewPending] using first

end

end Doc

namespace Node

theorem sound_separator (inProgram : Bool) (previous? : Option Node) (child : Node) :
    (separator inProgram previous? child).sound := by
  unfold separator
  repeat' split
  all_goals rfl

mutual

theorem sound_of_document : ∀ (node : Node) {d : Doc}, node.document = .ok d → d.sound
  | atom .., d, h | string .., d, h => by
    cases h
    rfl
  | comment .., d, h | directive .., d, h => by
    cases h
    simp [Doc.sound_append, Doc.soundAll, Doc.sound]
  | blank _, d, h => by
    cases h
    rfl
  | quoted .., d, h => by
    obtain ⟨e, inner, rfl⟩ := document_quoted h
    simp [Doc.sound_append, Doc.soundAll, Doc.sound, sound_of_document _ inner]
  | list _ _ children, d, h => by
    obtain ⟨ds, body, rfl⟩ := document_list h
    simp [Doc.sound_append, Doc.soundAll, Doc.sound, Doc.grouped, Doc.indentWidth,
      soundAll_of_sequence children body]
  | program _ children, d, h => by
    obtain ⟨ds, body, rfl | rfl⟩ := document_program h
    all_goals simp [Doc.sound_append, Doc.soundAll, Doc.sound, soundAll_of_sequence children body]
  | unknown .., d, h => by cases h

theorem soundAll_of_sequence : ∀ (nodes : List Node) {inProgram : Bool} {previous? : Option Node}
    {ds : List Doc}, sequence inProgram previous? nodes = .ok ds → Doc.soundAll ds
  | [], inProgram, previous?, ds, h => by
    cases h
    rfl
  | child :: rest, inProgram, previous?, ds, h => by
    obtain ⟨d, es, first, later, rfl⟩ := sequence_cons h
    simp [Doc.soundAll, sound_separator, sound_of_document child first,
      soundAll_of_sequence rest later]

end

end Node

end SexprFormat
