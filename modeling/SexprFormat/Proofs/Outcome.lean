import SexprFormat.Doc.Print
import SexprFormat.Proofs.Typesetter

/-!
How writing a document ends. `Typesetter.Covers` says how much of a document is done and how much is
left, and no step loses any of it. So the text is that of the document but for spaces and line
feeds, and an unknown part is always met. Main statement: `Doc.print_outcome`; only a margin that
cannot be written comes in between (`Doc.print_margin_out_of_range`).
-/

namespace SexprFormat

open StateTransition (Reaches eval)

namespace Text

/-- The characters of a text other than spaces and line feeds. -/
def ink (s : List Char) : List Char :=
  s.filter fun c => c ≠ ' ' && c ≠ '\n'

@[simp] theorem ink_nil : ink [] = [] := rfl

@[simp] theorem ink_append (a b : List Char) : ink (a ++ b) = ink a ++ ink b :=
  List.filter_append ..

theorem ink_spaces (width : Int) : ink (spaces width) = [] := by
  rw [ink, List.filter_eq_nil_iff]
  intro c hc
  simp [List.eq_of_mem_replicate hc]

end Text

namespace Doc

/-- The characters of a text; other documents have none of their own. -/
def ownText : Doc → List Char
  | text s => s
  | _ => []

/-- The texts of a document from left to right. -/
def texts (d : Doc) : List Char :=
  d.subdocs.flatMap ownText

/-- A line of the document, one that may end or one that must, is indented by so many columns. -/
def Indents (d : Doc) (columns : Int) : Prop :=
  .soft columns ∈ d.cells 0 ∨ .hard columns ∈ d.cells 0

theorem cells_subset_cellsAll (indent : Int) {d : Doc} {ds : List Doc} (h : d ∈ ds) :
    d.cells indent ⊆ cellsAll indent ds := by
  induction ds with
  | nil => cases h
  | cons e ds ih =>
    intro cell hc
    rw [cellsAll, List.mem_append]
    rcases List.mem_cons.mp h with rfl | later
    · exact .inl hc
    · exact .inr (ih later hc)

end Doc

theorem Position.eq_of_mem_marginPieces {pos : Position} {p : Piece} (h : p ∈ pos.marginPieces) :
    p = .margin pos.margin ∧ pos.margin ≠ 0 := by
  unfold marginPieces at h
  split at h
  · cases h
  · rename_i due
    exact ⟨List.mem_singleton.mp h, due⟩

namespace Typesetter

/-- What is done and what is left are all of a document. -/
structure Covers (d : Doc) (ts : Typesetter) : Prop where
  unknown (kind : String) : .unknown kind ∈ d.subdocs ↔ .unknown kind ∈ ts.left
  ink : Text.ink (ts.done.flatMap Piece.chars) ++ Text.ink (ts.left.flatMap Doc.ownText) =
    Text.ink d.texts
  cells : ∀ job ∈ ts.jobs, job.doc.cells job.indent ⊆ d.cells 0
  due : ts.pos.margin ≠ 0 → d.Indents ts.pos.margin
  margins : ∀ columns, .margin columns ∈ ts.done → d.Indents columns
  set : ∀ p ∈ ts.done, p.error? = none

namespace Covers

theorem start (d : Doc) : (start d).Covers d where
  unknown kind := by simp [left, Typesetter.start]
  ink := by simp [left, Typesetter.start, Doc.texts]
  cells job mem := by
    obtain rfl := List.mem_singleton.mp mem
    exact List.Subset.refl _
  due nonzero := absurd rfl nonzero
  margins := by simp [Typesetter.start]
  set := by simp [Typesetter.start]

section

variable {d : Doc} {ts ts' : Typesetter} {job : Job} {rest : List Job}

/-- A step that meets a known part, adds the text of this part, and takes margins and lines from
where they are due. -/
theorem advance (h : ts.Covers d) (first : ts.jobs = job :: rest)
    (met : ts.left = job.doc :: ts'.left)
    (known : ∀ kind, job.doc ≠ .unknown kind) {ps : List Piece} (done : ts'.done = ts.done ++ ps)
    (ink : Text.ink (ps.flatMap Piece.chars) = Text.ink job.doc.ownText)
    (set : ∀ p ∈ ps, p.error? = none)
    (margins : ∀ columns, .margin columns ∈ ps → d.Indents columns)
    (cells : ∀ j ∈ ts'.jobs, j ∈ rest ∨ j.doc.cells j.indent ⊆ job.doc.cells job.indent)
    (due : ts'.pos.margin ≠ 0 → d.Indents ts'.pos.margin) : ts'.Covers d where
  unknown kind := by
    rw [h.unknown kind, met, List.mem_cons]
    exact or_iff_right (Ne.symm (known kind))
  ink := by
    rw [← h.ink, met, done, List.flatMap_append, Text.ink_append, ink, List.flatMap_cons,
      Text.ink_append,
      List.append_assoc]
  cells j mem := by
    rcases cells j mem with later | part
    · exact h.cells j (first ▸ List.mem_cons_of_mem _ later)
    · exact List.Subset.trans part (h.cells job (first ▸ List.mem_cons_self ..))
  due := due
  margins columns mem := by
    rw [done, List.mem_append] at mem
    exact mem.elim (h.margins columns) (margins columns)
  set p mem := by
    rw [done, List.mem_append] at mem
    exact mem.elim (h.set p) (set p)

/-- A part that is printed stands behind the margin that is due. -/
theorem printed (h : ts.Covers d) (first : ts.jobs = job :: rest)
    (met : ts.left = job.doc :: ts'.left)
    (known : ∀ kind, job.doc ≠ .unknown kind) {p : Piece} (plain : ∀ columns, p ≠ .margin columns)
    (done : ts'.done = ts.done ++ (ts.pos.marginPieces ++ [p])) (set : p.error? = none)
    (ink : Text.ink p.chars = Text.ink job.doc.ownText) (jobs : ts'.jobs = rest)
    (pos : ts'.pos = ts.pos.pass p.chars) : ts'.Covers d := by
  refine h.advance first met known done ?_ ?_ ?_ (fun j mem => .inl (jobs ▸ mem)) ?_
  · simp [Position.chars_marginPieces, Text.ink_spaces, ink]
  · exact ts.pos.error_margin_append set
  · intro columns mem
    rcases List.mem_append.mp mem with mem | mem
    · obtain ⟨same, nonzero⟩ := Position.eq_of_mem_marginPieces mem
      cases same
      exact h.due nonzero
    · exact absurd (List.mem_singleton.mp mem).symm (plain columns)
  · intro nonzero
    rw [pos, Position.margin_pass] at nonzero
    exact absurd rfl nonzero

/-- A line that ends makes its own indentation due. -/
theorem ended (h : ts.Covers d) (first : ts.jobs = job :: rest)
    (met : ts.left = job.doc :: ts'.left)
    (ends : job.doc = .line ∨ job.doc = .hardLine) (done : ts'.done = ts.done ++ [.newline])
    (jobs : ts'.jobs = rest) (pos : ts'.pos = .newline job.indent) : ts'.Covers d := by
  have own := h.cells job (first ▸ List.mem_cons_self ..)
  have indents : d.Indents job.indent := by
    rcases ends with line | hardLine
    · exact .inl (own (by simp [line, Doc.cells]))
    · exact .inr (own (by simp [hardLine, Doc.cells]))
  refine h.advance first met ?_ done ?_ (by simp [Piece.error?]) (by simp)
    (fun j mem => .inl (jobs ▸ mem)) (fun _ => by rw [pos]; exact indents)
  · rcases ends with same | same <;> simp [same]
  · rcases ends with same | same <;> simp [same, Doc.ownText, Piece.chars, Text.ink]

end

theorem next {width : Int} {d : Doc} {ts ts' : Typesetter} (h : ts.Covers d)
    (step : ts' ∈ ts.next width) :
    ts'.Covers d := by
  obtain ⟨job, rest, first, met⟩ := left_next step
  cases steps_of_next step with
  | empty =>
    cases first
    exact h.advance rfl met (by simp) (List.append_nil _).symm rfl (by simp) (by simp)
      (fun j mem => .inl mem) h.due
  | text | space =>
    cases first
    exact h.printed rfl met (by simp) (by simp) rfl rfl rfl rfl rfl
  | line =>
    cases first
    exact h.ended rfl met (.inl rfl) rfl rfl rfl
  | hardLine =>
    cases first
    exact h.ended rfl met (.inr rfl) rfl rfl rfl
  | @concat indent =>
    cases first
    refine h.advance rfl met (by simp) (List.append_nil _).symm rfl (by simp) (by simp)
      (fun j mem => ?_) h.due
    rcases List.mem_append.mp mem with part | later
    · obtain ⟨e, he, rfl⟩ := List.mem_map.mp part
      rw [Doc.cells]
      exact .inr (Doc.cells_subset_cellsAll indent he)
    · exact .inl later
  | indent =>
    cases first
    refine h.advance rfl met (by simp) (List.append_nil _).symm rfl (by simp) (by simp)
      (fun j mem => ?_) h.due
    rcases List.mem_cons.mp mem with rfl | later
    · rw [Doc.cells]
      exact .inr (List.Subset.refl _)
    · exact .inl later
  | group =>
    cases first
    refine h.advance rfl met (by simp) rfl rfl (by simp [Piece.error?]) (by simp)
      (fun j mem => ?_) h.due
    rcases List.mem_cons.mp mem with rfl | later
    · rw [Doc.cells]
      exact .inr (List.Subset.refl _)
    · exact .inl later

end Covers

theorem covers_of_reaches {width : Int} {d : Doc} {ts : Typesetter}
    (reached : Reaches (Typesetter.next width) (start d) ts) : ts.Covers d := by
  induction reached with
  | refl => exact .start d
  | tail _ step ih => exact ih.next step

end Typesetter

namespace Piece

/-- The width of a margin is a 64-bit number. -/
def InRange (columns : Int) : Prop :=
  -2 ^ 63 ≤ columns ∧ columns < 2 ^ 63

theorem marginError_eq_none_iff {columns : Int} :
    marginError? columns = none ↔ InRange columns := by
  unfold marginError? InRange
  split
  · rename_i out
    simp only [Bool.or_eq_true, decide_eq_true_eq] at out
    simp only [reduceCtorEq, false_iff]
    omega
  · rename_i inside
    simp only [Bool.or_eq_true, decide_eq_true_eq] at inside
    simp only [true_iff]
    omega

/-- The margins among some pieces can be written. -/
def Writable (ps : List Piece) : Prop :=
  ∀ columns, .margin columns ∈ ps → InRange columns

/-- Of what can be set, only a margin out of range cannot be written. -/
theorem margin_of_printError {p : Piece} (set : p.error? = none) {e : PrintError}
    (h : p.printError? = some e) :
    ∃ columns, p = .margin columns ∧ ¬InRange columns ∧ e = .marginOutOfRange := by
  cases p with
  | margin columns =>
    have wide : ¬InRange columns := by
      intro fits
      have none : marginError? columns = none := marginError_eq_none_iff.mpr fits
      cases none.symm.trans h
    refine ⟨columns, rfl, wide, ?_⟩
    simp only [printError?, marginError?] at h
    split at h <;> cases h
    rfl
  | failed e' => cases set
  | text | space | newline | group => cases h

theorem findSome_of_writable {ps : List Piece} (h : Writable ps) (set : ∀ p ∈ ps, p.error? = none) :
    ps.findSome? printError? = none := by
  rw [List.findSome?_eq_none_iff]
  intro p mem
  cases failed : p.printError? with
  | none => rfl
  | some e =>
    obtain ⟨columns, rfl, wide, _⟩ := margin_of_printError (set p mem) failed
    exact absurd (h columns mem) wide

theorem margin_of_not_writable {ps : List Piece} (h : ¬Writable ps)
    (set : ∀ p ∈ ps, p.error? = none) :
    ∃ columns, .margin columns ∈ ps ∧ ¬InRange columns ∧
      ps.findSome? printError? = some .marginOutOfRange := by
  cases first : ps.findSome? printError? with
  | none =>
    rw [List.findSome?_eq_none_iff] at first
    refine absurd (fun columns mem => ?_) h
    exact marginError_eq_none_iff.mp (first (.margin columns) mem)
  | some e =>
    obtain ⟨p, mem, failed⟩ := List.exists_of_findSome?_eq_some first
    obtain ⟨columns, rfl, wide, rfl⟩ := margin_of_printError (set p mem) failed
    exact ⟨columns, mem, wide, rfl⟩

end Piece

namespace Doc

variable {width : Int} {d : Doc} {final : Typesetter}

theorem print_of_findSome {e : PrintError}
    (h : (d.pieces width).findSome? Piece.printError? = some e) :
    d.print width = .error e := by
  simp [print, h]

/-- A margin that cannot be written ends the writing, whatever is behind it. -/
theorem print_of_not_writable (ends : final ∈ eval (Typesetter.next width) (.start d))
    (h : ¬Piece.Writable final.done) :
    ∃ columns, d.Indents columns ∧ .margin columns ∈ final.done ∧ ¬Piece.InRange columns ∧
      d.print width = .error .marginOutOfRange := by
  obtain ⟨reached, _⟩ := StateTransition.mem_eval.mp ends
  have covers := Typesetter.covers_of_reaches reached
  obtain ⟨columns, mem, wide, first⟩ := Piece.margin_of_not_writable h covers.set
  refine ⟨columns, covers.margins columns mem, mem, wide, print_of_findSome ?_⟩
  rw [Typesetter.pieces_of_reaches reached, List.findSome?_append, first]
  rfl

/-- Else the typesetter has come to an unknown part, or all of the document is written. -/
theorem print_of_writable (ends : final ∈ eval (Typesetter.next width) (.start d))
    (h : Piece.Writable final.done) :
    (∃ kind, .unknown kind ∈ d.subdocs ∧ d.print width = .error (.render (.unknownDoc kind))) ∨
      (∀ kind, .unknown kind ∉ d.subdocs) ∧
        ∃ s, d.print width = .ok s ∧ Text.ink s = Text.ink d.texts := by
  obtain ⟨reached, stuck⟩ := StateTransition.mem_eval.mp ends
  have covers := Typesetter.covers_of_reaches reached
  have pieces := Typesetter.pieces_of_reaches reached
  have none := Piece.findSome_of_writable h covers.set
  rcases Typesetter.jobs_of_next_eq_none stuck with all | ⟨kind, back, mem, failed⟩
  · right
    have met : final.left = [] := by simp [Typesetter.left, all]
    have written : d.pieces width = final.done := by simp [pieces, all, Typesetter.layoutJobs]
    refine ⟨fun kind => by simp [covers.unknown kind, met], final.done.flatMap Piece.chars, ?_, ?_⟩
    · simp [print, written, none, Piece.write_eq]
    · simpa [met] using covers.ink
  · left
    refine ⟨kind, (covers.unknown kind).mpr mem, print_of_findSome ?_⟩
    rw [pieces, failed, List.findSome?_append, none]
    rfl

/-- Whatever the width, a text that is written has the characters of the document. -/
theorem ink_of_print {s : List Char} (h : d.print width = .ok s) :
    Text.ink s = Text.ink d.texts := by
  obtain ⟨final, ends⟩ := Typesetter.exists_final width (.start d)
  by_cases writable : Piece.Writable final.done
  · rcases print_of_writable ends writable with ⟨_, _, failed⟩ | ⟨_, _, written, same⟩
    · rw [h] at failed
      cases failed
    · rw [h] at written
      cases written
      exact same
  · obtain ⟨_, _, _, _, failed⟩ := print_of_not_writable ends writable
    rw [h] at failed
    cases failed

/-- Setting a document comes to an end in any width. If the margins that are due by then are 64-bit
numbers, writing fails exactly if some part is unknown, and names such a part; else it gives a text
that is the texts of the document but for spaces and line feeds. A margin that is none is the
indentation of some line, and writing fails because of it. So texts in different widths differ by
spaces and line feeds only. -/
theorem print_outcome (width : Int) (d : Doc) :
    (∃ final ∈ eval (Typesetter.next width) (.start d),
      (Piece.Writable final.done →
        ((∃ e, d.print width = .error (.render e)) ↔ ∃ kind, .unknown kind ∈ d.subdocs) ∧
        (∀ kind, d.print width = .error (.render (.unknownDoc kind)) → .unknown kind ∈ d.subdocs) ∧
        ((∀ kind, .unknown kind ∉ d.subdocs) →
          ∃ s, d.print width = .ok s ∧ Text.ink s = Text.ink d.texts)) ∧
      (¬Piece.Writable final.done →
        ∃ columns, d.Indents columns ∧ .margin columns ∈ final.done ∧ ¬Piece.InRange columns ∧
          d.print width = .error .marginOutOfRange)) ∧
    ∀ width' s s', d.print width = .ok s → d.print width' = .ok s' → Text.ink s = Text.ink s' := by
  constructor
  · obtain ⟨final, ends⟩ := Typesetter.exists_final width (.start d)
    refine ⟨final, ends, fun writable => ?_, print_of_not_writable ends⟩
    rcases print_of_writable ends writable with ⟨kind, mem, failed⟩ | ⟨known, s, written, same⟩
    · refine ⟨⟨fun _ => ⟨kind, mem⟩, fun _ => ⟨_, failed⟩⟩, fun kind' failed' => ?_,
        fun known => ?_⟩
      · rw [failed] at failed'
        cases failed'
        exact mem
      · exact absurd mem (known kind)
    · refine ⟨⟨?_, ?_⟩, fun kind failed => ?_, fun _ => ⟨s, written, same⟩⟩
      · rintro ⟨e, failed⟩
        rw [written] at failed
        cases failed
      · rintro ⟨kind, mem⟩
        exact absurd mem (known kind)
      · rw [written] at failed
        cases failed
  · intro width' s s' h h'
    rw [ink_of_print h, ink_of_print h']

/-- A group that may be set flat though a line in it must end, and an indentation outward: the texts
in two widths have the same characters, but not the same lines. -/
theorem print_outcome_outward :
    ∃ d : Doc, d = .group false (.concat [.text ['a'], .hardLine, .indent (-3) (.concat
        [.line, .text ['b']])]) ∧
      ∃ s s', d.print 1 = .ok s ∧ d.print (-1) = .ok s' ∧ s ≠ s' ∧ Text.ink s = Text.ink s' ∧
        Text.ink s = ['a', 'b'] := by
  obtain ⟨d, hd⟩ : ∃ d : Doc,
      d = .group false (.concat [.text ['a'], .hardLine, .indent (-3) (.concat
    [.line, .text ['b']])]) := ⟨_, rfl⟩
  have flat : d.print 1 = .ok ['a', '\n', ' ', 'b'] := by subst hd; decide
  have broken : d.print (-1) = .ok ['a', '\n', '\n', 'b'] := by subst hd; decide
  have known : ∀ kind, .unknown kind ∉ d.subdocs := by simp [hd, subdocs, subdocsAll]
  obtain ⟨⟨final, _, writable, unwritable⟩, widths⟩ := print_outcome 1 d
  have margins : Piece.Writable final.done := by
    by_contra wrong
    obtain ⟨_, _, _, _, failed⟩ := unwritable wrong
    rw [flat] at failed
    cases failed
  obtain ⟨s, written, same⟩ := (writable margins).2.2 known
  obtain rfl := Except.ok.inj (written.symm.trans flat)
  exact ⟨d, hd, _, _, flat, broken, by decide, widths _ _ _ flat broken, by decide⟩

/-- A margin of 2 ^ 63 columns cannot be written, so the unknown part behind it is not met. -/
theorem print_margin_out_of_range :
    ∃ d : Doc, d = .indent (2 ^ 63) (.concat [.hardLine, .text ['a'], .unknown "object"]) ∧
      .unknown "object" ∈ d.subdocs ∧ d.print 80 = .error .marginOutOfRange ∧
      ¬((∃ e, d.print 80 = .error (.render e)) ↔ ∃ kind, .unknown kind ∈ d.subdocs) := by
  have mem : Doc.unknown "object" ∈
      (indent (2 ^ 63) (.concat [.hardLine, .text ['a'], .unknown "object"])).subdocs := by
    simp [subdocs, subdocsAll]
  have failed : (indent (2 ^ 63) (.concat [.hardLine, .text ['a'], .unknown "object"])).print 80 =
      .error .marginOutOfRange := by
    decide
  refine ⟨_, rfl, mem, failed, fun same => ?_⟩
  obtain ⟨e, other⟩ := same.mpr ⟨_, mem⟩
  rw [failed] at other
  cases other

end Doc

end SexprFormat
