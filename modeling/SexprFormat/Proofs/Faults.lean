import SexprFormat.Proofs.Preserve

/-!
Trees whose printed text is not read as their words. A mark that is an atom in the tree, right
before the end of a list, is read as a quote mark without a datum: `Node.fails_printsRow`.
-/

namespace SexprFormat

open Token

/-- A quote mark has the end of a list right behind it. -/
def Token.Dangles (ts : List Token) : Prop :=
  ∃ before mark closer after, ts = before ++ mark :: closer :: after ∧
    mark.kind = .quoteMark ∧ closer.kind = .closing

theorem Token.Dangles.append {ts : List Token} (h : Dangles ts) (us : List Token) :
    Dangles (us ++ ts) := by
  obtain ⟨before, mark, closer, after, rfl, isMark, closes⟩ := h
  exact ⟨us ++ before, mark, closer, after, by simp, isMark, closes⟩

/-- At the cursors in question, a mark without a datum is found in every text of some words and gaps
with the given cells behind them. -/
def Fails (P : Cursor → Prop) (ps : List Print) (tail : List Cell) : Prop :=
  ∀ (file? : Option String) (cur : Cursor) (s : List Char), P cur →
    Written 0 (Print.cellsAll ps ++ tail) s → Dangles (scanFrom file? cur s)

namespace Fails

variable {P P' Q : Cursor → Prop} {ps qs : List Print} {tail : List Cell}

theorem weaken (h : Fails P' ps tail) (hp : ∀ cur, P cur → P' cur) : Fails P ps tail :=
  fun file? cur s hcur written => h file? cur s (hp cur hcur) written

theorem append (h : Fails P ps (Print.cellsAll qs ++ tail)) : Fails P (ps ++ qs) tail := by
  intro file? cur s hcur written
  rw [Print.cellsAll_append, List.append_assoc] at written
  exact h file? cur s hcur written

end Fails

/-- What is read first does not matter. -/
theorem Reads.fails {P Q : Cursor → Prop} {ps qs : List Print} {tail : List Cell}
    (h : Reads P ps (Print.cellsAll qs ++ tail) Q) (h' : Fails Q qs tail) :
    Fails P (ps ++ qs) tail := by
  intro file? cur s hcur written
  rw [Print.cellsAll_append, List.append_assoc] at written
  obtain ⟨ts, rest, scan, _, behind, after⟩ := h file? cur s hcur written
  rw [scan]
  exact (h' file? _ rest after behind).append ts

namespace Node

variable {depth : Nat} {tail : List Cell}

theorem not_shebang_of_mark : ∀ mark ∈ .datumComment :: (QuoteMark.plain ++ QuoteMark.hashed),
    mark ≠ .hash ∧ ¬['#', '!'] <+: mark.text := by
  decide

theorem mem_of_lone : ∀ mark ∈ [QuoteMark.quote, .quasiquote, .unquote, .syntaxQuote,
    .syntaxQuasiquote, .syntaxUnquote],
    mark ∈ QuoteMark.datumComment :: (QuoteMark.plain ++ QuoteMark.hashed) := by
  decide

/-- A mark before the end of a list is read as such, without a datum. -/
theorem fails_mark {mark : QuoteMark}
    (h : mark ∈ .datumComment :: (QuoteMark.plain ++ QuoteMark.hashed))
    (shape : Delimiter) {P : Cursor → Prop} {ps : List Print}
    (text : Print.cellsAll ps = mark.text.map .char) : Fails P ps (.char shape.closer :: tail) := by
  have sound : Word.Sound { kind := .quoteMark, tag? := some (.mark mark), text := mark.text } :=
    .mark h
  obtain ⟨noHash, noShebang⟩ := not_shebang_of_mark mark h
  have read : Reads P [.word { kind := .quoteMark, tag? := some (.mark mark), text := mark.text }]
      (Print.cellsAll [.word (.closing shape)] ++ tail) fun _ => True := by
    refine .word (fun cur input at_ written => ?_) fun _ _ => trivial
    obtain ⟨rest, rfl, _⟩ : ∃ rest, input = [shape.closer] ++ rest ∧ Written 0 tail rest :=
      written.of_chars
    refine sound.readAt_mark ?_ ?_ (fun hash => absurd (by simpa using hash) noHash) fun _ =>
      noShebang
    · cases shape <;> rfl
    · rintro _ r splice
      exact absurd (List.cons.inj splice).1 (by cases shape <;> decide)
  have closing : Reads (fun _ => True) [.word (.closing shape)] tail fun _ => True :=
    .word (fun cur input _ _ => Word.readAt_closing shape cur input) fun _ _ => trivial
  intro file? cur s hcur written
  rw [text] at written
  obtain ⟨ts, rest, scan, found, _⟩ := (read.append closing) file? cur s hcur
    (by simpa [Print.cells, Word.closing] using written)
  rw [scan]
  cases found with
  | word isMark found =>
    cases found with
    | word closes _ =>
      exact ⟨[], _, _, _, rfl, isMark.kind, closes.kind⟩

variable {inList : Bool}

/-- The words of a node and the ones right behind its marks, as they are spelled in a source. -/
theorem worded_of_spelled {node : Node} (h : node.Spelled Word.Sound inList)
    (hb : node.isBlank = false) (indent : Int) : node.Worded indent := by
  cases node with
  | atom => exact ⟨_, _, rfl, h⟩
  | string => exact ⟨_, _, rfl, h⟩
  | comment => exact ⟨_, _, rfl, h.1⟩
  | directive => exact ⟨_, _, rfl, h.1⟩
  | quoted => exact ⟨_, _, rfl, h.1⟩
  | list _ shape => exact ⟨_, _, rfl, .opening shape⟩
  | blank => cases hb
  | program | unknown => exact absurd h id

theorem printsAll_of_blank (indent : Int) (inProgram : Bool) (previous? : Option Node)
    (emptyLine : Bool) {nodes : List Node} (h : nodes.all isBlank) :
    printsAll indent inProgram previous? emptyLine nodes =
      Print.atEnd indent inProgram previous? := by
  induction nodes generalizing emptyLine with
  | nil => rfl
  | cons child rest ih =>
    simp only [List.all_cons, Bool.and_eq_true] at h
    rw [printsAll, if_pos h.1, ih true h.2]

mutual

/-- A datum that is not steady is not read as its words. -/
theorem fails_prints (indent : Int) (depth : Nat) : ∀ (node : Node) (inList glued : Bool)
    (tail : List Cell), node.isDatum → node.Spelled Word.Sound inList →
    (∀ n ∈ node.subtrees, n.hidesSplice = false) → node.steady glued = false →
      Cell.Ends glued tail →
    (glued → ∃ (shape : Delimiter) (behind : _), tail = .char shape.closer :: behind) →
    Fails (node.At depth tail) (node.prints indent) tail
  | atom loc s, _, glued, tail, _, h, _, unsteady, _, closes => by
    have closed : (Quoting.outside.run s).escaped = false := (h.isAtom rfl).not_escaped
    have lone : glued = true ∧ s ∈ Word.lone := by simpa [steady, closed] using unsteady
    obtain ⟨shape, tail, rfl⟩ := closes lone.1
    obtain ⟨mark, hm, rfl⟩ := List.mem_map.mp lone.2
    exact fails_mark (mem_of_lone mark hm) shape (by simp [prints, Print.cells, Word.atom])
  | string .., _, _, _, _, _, _, unsteady, _, _ => by cases unsteady
  | quoted _ tag? lead inner, inList, glued, tail, _, h, hs, unsteady, ends, closes => by
    obtain ⟨sound, datum, spelled, hash⟩ := h
    have noBlank : inner.isBlank = false := by cases inner <;> simp_all [isDatum, isBlank]
    have here := hs _ (mem_subtrees_self _)
    have inside := fails_prints indent depth inner inList glued tail datum spelled
      (fun n hn => hs n (by rw [subtrees]; exact List.mem_cons_of_mem _ hn)) unsteady ends closes
    rw [prints, ← List.singleton_append]
    refine Reads.fails (.word (fun cur input at_ written => ?_) fun cur at_ => ?_) inside
    · refine readAt_lead sound datum (worded_of_spelled spelled noBlank indent) hash ?_ ends written
        at_.first
      rintro splice loc s rfl
      rw [hidesSplice, splice] at here
      cases here
    · exact at_behind_mark sound at_
  | list _ shape children, _, glued, tail, _, h, hs, unsteady, _, _ => by
    have body := fails_printsAll (indent + Doc.indentWidth) depth children none false shape tail h
      (fun n hn => hs n (by rw [subtrees]; exact List.mem_cons_of_mem _ hn)) unsteady
    rw [prints, ← List.singleton_append]
    exact (reads_opening shape).fails body
  | comment .., _, _, _, hd, _, _, _, _, _ => by cases hd
  | directive .., _, _, _, hd, _, _, _, _, _ => by cases hd
  | blank .., _, _, _, hd, _, _, _, _, _ => by cases hd
  | program .., _, _, _, hd, _, _, _, _, _ => by cases hd
  | unknown .., _, _, _, hd, _, _, _, _, _ => by cases hd

theorem fails_printsAll (indent : Int) (depth : Nat) : ∀ (nodes : List Node)
    (previous? : Option Node) (emptyLine : Bool) (shape : Delimiter) (tail : List Cell),
    SpelledAll Word.Sound true nodes → (∀ n ∈ subtreesAll nodes, n.hidesSplice = false) →
    steadyAll nodes = false →
    Fails (Inner (depth + 1))
      (printsAll indent false previous? emptyLine nodes ++ [.word (.closing shape)]) tail
  | [], _, _, _, _, _, _, unsteady => by cases unsteady
  | child :: nodes, previous?, emptyLine, shape, tail, h, hs, unsteady => by
    simp only [subtreesAll, List.mem_append] at hs
    have below (n : Node) (hn : n ∈ subtreesAll nodes) := hs n (.inr hn)
    cases hb : child.isBlank with
    | true =>
      have later : steadyAll nodes = false := by
        obtain ⟨loc, rfl⟩ := exists_of_isBlank hb
        simpa [steadyAll, steady] using unsteady
      have skipped := fails_printsAll indent depth nodes previous? true shape tail h.2 below later
      simpa [printsAll, hb] using skipped
    | false =>
      have worded (node : Node) (hn : node ∈ nodes) (hb : node.isBlank = false) :=
        worded_of_spelled (spelled_of_mem h.2 hn) hb indent
      have closing (ps : List Print) : Print.cellsAll (ps ++ [.word (.closing shape)]) ++ tail =
          Print.cellsAll ps ++ .char shape.closer :: tail := by
        simp [Print.cells, Word.closing]
      obtain ⟨ends, breaks⟩ := ends_inside child worded (Cell.ends_closer shape tail)
        (Cell.starts_word (.closing shape) tail)
      have starts := (worded_of_spelled h.1 hb indent).starts
      rw [printsAll, hb, if_neg Bool.false_ne_true, List.append_assoc, List.append_assoc]
      by_cases here : child.steady (nodes.all isBlank) = true
      · have later : steadyAll nodes = false := by simpa [steadyAll, here] using unsteady
        have legible :=
          legible_of_spelled child true _ h.1 (fun n hn => hs n (.inl hn)) here (.inl rfl)
        have after :=
          fails_printsAll indent depth nodes (some child) false shape tail h.2 below later
        rw [← List.append_assoc]
        refine Reads.fails (reads_inside legible hb ?_ previous? emptyLine fun datum => ?_) after
        · rw [closing]
          exact breaks
        · rw [closing]
          exact reads_prints indent (depth + 1) child _ _ datum legible ends
      · rw [Bool.not_eq_true] at here
        have datum : child.isDatum := by cases child <;> simp_all [steady, isDatum]
        have fails := fails_prints indent (depth + 1) child true _ _ datum h.1
          (fun n hn => hs n (.inl hn)) here ends ?_
        · refine Reads.fails (reads_between indent previous? emptyLine child ?_)
            (Fails.append (by rw [closing]; exact fails.weaken fun cur inner => at_of_inner inner))
          rw [Print.cellsAll_append, List.append_assoc]
          exact starts _
        · intro all
          refine ⟨shape, tail, ?_⟩
          rw [printsAll_of_blank indent false (some child) false all, Print.atEnd,
            endsLine_of_isDatum datum]
          rfl

end

/-- A program that is not steady is not read as its words. -/
theorem fails_printsRow {nodes : List Node} (previous? : Option Node) (emptyLine : Bool)
    {tail : List Cell} (regular : Regular previous?.isNone nodes)
    (unsteady : ¬∀ child ∈ nodes, child.steady false) (breaks : Cell.Breaks tail) :
    Fails (Outer previous?.isNone) (printsRow 0 true previous? emptyLine nodes) tail := by
  induction nodes generalizing previous? emptyLine with
  | nil => simp at unsteady
  | cons child rest ih =>
    cases hb : child.isBlank with
    | true =>
      have later : ¬∀ child ∈ rest, child.steady false := by
        obtain ⟨loc, rfl⟩ := exists_of_isBlank hb
        simpa [steady] using unsteady
      cases previous? with
      | none =>
        have nonblank := (regular.start rfl child (by simp)).1
        rw [hb] at nonblank
        cases nonblank
      | some previous =>
        have skipped := ih (some previous) true regular.tail later
        simpa [printsRow, hb] using skipped
    | false =>
      have spelled := regular.spelled.1
      have worded (node : Node) (hn : node ∈ rest) (hb : node.isBlank = false) :=
        worded_of_spelled (spelled_of_mem regular.spelled.2 hn) hb 0
      obtain ⟨ends, line⟩ := ends_outside child worded breaks
      have starts : Cell.Starts
          (Print.cellsAll (prints 0 child ++ printsRow 0 true (some child) false rest) ++
            tail) := by
        rw [Print.cellsAll_append, List.append_assoc]
        exact (worded_of_spelled spelled hb 0).starts _
      have gap := reads_between_top previous? emptyLine child starts
      rw [printsRow, hb, if_neg Bool.false_ne_true]
      by_cases here : child.steady false = true
      · have later : ¬∀ child ∈ rest, child.steady false := by simpa [here] using unsteady
        have after := (ih (some child) false regular.tail later).weaken
          fun cur inner => Outer.of_inner inner
        exact gap.fails ((reads_top (regular.legibleTop here) hb ends line).fails after)
      · rw [Bool.not_eq_true] at here
        have datum : child.isDatum := by cases child <;> simp_all [steady, isDatum]
        have fails :=
          fails_prints 0 0 child false false _ datum spelled regular.splices_head here ends
          (by simp)
        refine gap.fails (Fails.append (fails.weaken ?_))
        rintro cur ⟨outer, _⟩
        refine ⟨outer.depth, outer.column, fun zero => ?_, ?_⟩
        · exact not_shebang_of_firstText spelled (regular.startsShebang_head (outer.offset.mp zero))
        · rintro _ _ loc rfl
          cases here

end Node

end SexprFormat
