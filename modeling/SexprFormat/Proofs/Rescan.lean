import SexprFormat.Proofs.Word

/-!
Scanning what was printed. `Matches` relates words and gaps to the tokens that are read of them;
`Reads` says that, in front of other cells, every text of some words and gaps is scanned so. It is
built up from single words (`Reads.word`) and gaps (`Reads.gap`).
-/

namespace SexprFormat

namespace Written

/-- The characters of a word stand in its text as they are. -/
theorem of_chars {text : List Char} {cells : List Cell} {s : List Char}
    (h : Written 0 (text.map .char ++ cells) s) :
    ∃ rest, s = text ++ rest ∧ Written 0 cells rest := by
  induction text generalizing s with
  | nil => exact ⟨s, rfl, h⟩
  | cons c text ih =>
    cases h with
    | char h =>
      obtain ⟨rest, rfl, written⟩ := ih h
      exact ⟨rest, rfl, written⟩

end Written

namespace Cell

/-- Nothing is printed, or a visible character first. -/
def Starts : List Cell → Prop
  | [] => True
  | char c :: _ => Text.isBlank c = false
  | soft _ :: _ | hard _ :: _ => False

/-- The margin of a line is written before its first character. -/
theorem Starts.written {cells : List Cell} (h : Starts cells) {margin : Int} {s : List Char}
    (written : Written margin cells s) :
    ∃ n rest, s = List.replicate n ' ' ++ rest ∧ Written 0 cells rest ∧ (margin = 0 → n = 0) ∧
      rest.head?.all (!Text.isBlank ·) := by
  cases written with
  | nil => exact ⟨0, [], rfl, .nil, fun _ => rfl, rfl⟩
  | @char _ c cells s behind =>
    have visible : Text.isBlank c = false := h
    refine ⟨margin.toNat, c :: s, rfl, ?_, fun zero => by simp [zero], by simp [visible]⟩
    simpa [spaces] using (Written.char behind : Written 0 (.char c :: cells) _)
  | space | newline | hard => cases h

end Cell

namespace Gap

/-- How many lines a gap may end. -/
def Feeds : Gap → Nat → Prop
  | space, n => n = 0
  | soft _, n => n ≤ 1
  | line _, n => n = 1
  | blank _, n => n = 2

def breaks : Gap → Bool
  | line _ | blank _ => true
  | space | soft _ => false

/-- The white space that may stand for a gap. -/
structure Fills (g : Gap) (b : List Char) : Prop where
  nonempty : b ≠ []
  blank : ∀ c ∈ b, Text.isBlank c
  feeds : g.Feeds (b.count '\n')
  newline : g.breaks → b.head? = some '\n'
  column : g = .line 0 ∨ g = .blank 0 → ∀ cur : Token.Cursor, (cur.pass b).column = 1

theorem column_pass_newline (cur : Token.Cursor) (n : Nat) (hn : 0 < n) :
    (cur.pass (List.replicate n '\n')).column = 1 := by
  obtain ⟨m, rfl⟩ : ∃ m, n = m + 1 := ⟨n - 1, by omega⟩
  rw [List.replicate_succ', Token.Cursor.pass_append]
  rfl

/-- New lines and the margin of the last one. -/
theorem fills_lines {g : Gap} {n k : Nat} (nonempty : 0 < n + k) (feeds : g.Feeds n)
    (newline : g.breaks → 0 < n) (column : g = .line 0 ∨ g = .blank 0 → 0 < n ∧ k = 0) :
    g.Fills (List.replicate n '\n' ++ List.replicate k ' ') := by
  refine ⟨?_, ?_, ?_, fun h => ?_, fun h cur => ?_⟩
  · intro none
    have length := congrArg List.length none
    simp at length
    omega
  · intro c hc
    rcases List.mem_append.mp hc with hc | hc <;> rw [List.eq_of_mem_replicate hc] <;> rfl
  · simpa [List.count_append, List.count_replicate] using feeds
  · obtain ⟨m, rfl⟩ : ∃ m, n = m + 1 := ⟨n - 1, by have := newline h; omega⟩
    rfl
  · obtain ⟨hn, rfl⟩ := column h
    simpa using column_pass_newline cur n hn

theorem exists_fills {g : Gap} {tail : List Cell} (starts : Cell.Starts tail) {s : List Char}
    (h : Written 0 (g.cells ++ tail) s) :
    ∃ b rest, s = b ++ rest ∧ g.Fills b ∧ Written 0 tail rest ∧
      rest.head?.all (!Text.isBlank ·) := by
  -- The texts behind the last new line of a gap.
  have margin {indent : Int} {s : List Char} (n : Nat) (h : Written indent tail s) :
      ∃ k rest, List.replicate n '\n' ++ s = List.replicate n '\n' ++ List.replicate k ' ' ++ rest ∧
        (indent = 0 → k = 0) ∧ Written 0 tail rest ∧ rest.head?.all (!Text.isBlank ·) := by
    obtain ⟨k, rest, rfl, written, zero, visible⟩ := starts.written h
    exact ⟨k, rest, by simp, zero, written, visible⟩
  cases g with
  | space =>
    cases h with
    | char h =>
      obtain ⟨k, rest, rfl, written, zero, visible⟩ := starts.written h
      obtain rfl := zero rfl
      exact ⟨[' '], rest, rfl,
        fills_lines (n := 0) (k := 1) (by omega) rfl (by simp [breaks]) (by simp),
        written, visible⟩
  | soft indent =>
    cases h with
    | space h =>
      obtain ⟨k, rest, rfl, written, zero, visible⟩ := starts.written h
      obtain rfl := zero rfl
      exact ⟨[' '], rest, rfl, fills_lines (n := 0) (k := 1) (by omega) (Nat.zero_le _)
        (by simp [breaks]) (by simp), written, visible⟩
    | newline h =>
      obtain ⟨k, rest, split, _, written, visible⟩ := margin 1 h
      exact ⟨_, rest, split, fills_lines (by omega) (Nat.le_refl 1) (by simp) (by simp),
        written, visible⟩
  | line indent =>
    cases h with
    | hard h =>
      obtain ⟨k, rest, split, zero, written, visible⟩ := margin 1 h
      refine ⟨_, rest, split, fills_lines (by omega) rfl (by simp) ?_, written, visible⟩
      intro top
      exact ⟨by omega, zero (by simpa using top)⟩
  | blank indent =>
    cases h with
    | hard h =>
      cases h with
      | hard h =>
        obtain ⟨k, rest, split, zero, written, visible⟩ := margin 2 h
        refine ⟨_, rest, split, fills_lines (by omega) rfl (by simp) ?_, written, visible⟩
        intro top
        exact ⟨by omega, zero (by simpa using top)⟩

end Gap

theorem Token.Cursor.line_nest (cur : Cursor) (kind : Kind) : (cur.nest kind).line = cur.line := by
  cases kind <;> rfl

/-- The token is the word, found at a line. -/
structure Word.At (w : Word) (line : Nat) (t : Token) : Prop where
  kind : t.kind = w.kind
  tag : t.tag? = w.tag?
  text : t.text = w.text
  closed : t.closed
  starts : t.loc.line = line
  ends : t.endLine = (line + w.text.count '\n' : Nat)

/-- The tokens of some words and gaps, from one line to another. -/
inductive Matches : Nat → List Print → List Token → Nat → Prop where
  | nil {line : Nat} : Matches line [] [] line
  | word {line last : Nat} {w : Word} {t : Token} {ps : List Print} {ts : List Token} :
      w.At line t → Matches (line + w.text.count '\n') ps ts last →
      Matches line (.word w :: ps) (t :: ts) last
  | gap {line last : Nat} {g : Gap} {n : Nat} {t : Token} {ps : List Print} {ts : List Token} :
      g.Feeds n → t.kind = (if 2 ≤ n then .blankLine else .whitespace) →
      Matches (line + n) ps ts last → Matches line (.gap g :: ps) (t :: ts) last

theorem Matches.append {line middle last : Nat} {ps qs : List Print} {ts us : List Token}
    (h : Matches line ps ts middle) (h' : Matches middle qs us last) :
    Matches line (ps ++ qs) (ts ++ us) last := by
  induction h with
  | nil => exact h'
  | word found _ ih => exact .word found (ih h')
  | gap feeds kind _ ih => exact .gap feeds kind (ih h')

/-- At the cursors in question, words and gaps are scanned as such when the given cells follow; `Q`
holds of the cursor behind them. -/
def Reads (P : Token.Cursor → Prop) (ps : List Print) (tail : List Cell)
    (Q : Token.Cursor → Prop) : Prop :=
  ∀ (file? : Option String) (cur : Token.Cursor) (s : List Char), P cur →
    Written 0 (Print.cellsAll ps ++ tail) s →
    ∃ ts rest, Token.scanFrom file? cur s = ts ++ Token.scanFrom file? (cur.passAll ts) rest ∧
      Matches cur.line ps ts (cur.passAll ts).line ∧ Written 0 tail rest ∧ Q (cur.passAll ts)

namespace Reads

variable {P P' Q R : Token.Cursor → Prop} {ps qs : List Print} {tail : List Cell}

theorem weaken (h : Reads P' ps tail Q) (hp : ∀ cur, P cur → P' cur) : Reads P ps tail Q :=
  fun file? cur s hcur written => h file? cur s (hp cur hcur) written

theorem weaken_right (h : Reads P ps tail Q) (hq : ∀ cur, Q cur → R cur) : Reads P ps tail R := by
  intro file? cur s hcur written
  obtain ⟨ts, rest, scan, found, behind, after⟩ := h file? cur s hcur written
  exact ⟨ts, rest, scan, found, behind, hq _ after⟩

theorem nil : Reads P [] tail P :=
  fun _ _ s hcur written => ⟨[], s, rfl, .nil, written, hcur⟩

theorem append (h : Reads P ps (Print.cellsAll qs ++ tail) Q) (h' : Reads Q qs tail R) :
    Reads P (ps ++ qs) tail R := by
  intro file? cur s hcur written
  rw [Print.cellsAll_append, List.append_assoc] at written
  obtain ⟨ts, middle, scan, found, behind, hq⟩ := h file? cur s hcur written
  obtain ⟨us, rest, scan', found', behind', hr⟩ := h' file? _ middle hq behind
  have all := cur.passAll_append ts us
  refine ⟨ts ++ us, rest, ?_, ?_, behind', all ▸ hr⟩
  · rw [scan, scan', all, List.append_assoc]
  · rw [all]
    exact found.append found'

theorem word {w : Word} (read : ∀ cur s, P cur → Written 0 tail s → w.ReadAt cur s)
    (after : ∀ cur, P cur → Q ((cur.nest w.kind).pass w.text)) : Reads P [.word w] tail Q := by
  intro file? cur input hp whole
  rw [Print.cellsAll_cons, Print.cellsAll_nil, List.append_nil] at whole
  obtain ⟨s, rfl, written⟩ := whole.of_chars
  obtain ⟨c, rest, text, rule⟩ := read cur s hp written
  let last := (cur.nest w.kind).pass w.text
  let t : Token :=
    { kind := w.kind, tag? := w.tag?, text := w.text, loc := cur.locate file? last }
  have readAt : t.ReadAt cur s := ⟨c, rest, text, Token.Lexeme.rule_iff.mp rule⟩
  have lines : last.line = cur.line + w.text.count '\n' := by
    rw [Token.Cursor.line_pass, Token.Cursor.line_nest]
  have found : w.At cur.line t := ⟨rfl, rfl, rfl, rfl, rfl, by rw [← lines]; rfl⟩
  refine ⟨[t], s, Token.scanFrom_cons file? cur readAt rfl, .word found ?_, written, after cur hp⟩
  rw [← lines]
  exact .nil

/-- White space is read as one token, up to the next word. -/
theorem readAt_gap {g : Gap} {b s : List Char} (fills : g.Fills b)
    (visible : s.head?.all (!Text.isBlank ·)) (cur : Token.Cursor) (loc : Location) :
    Token.ReadAt
      { kind := if 2 ≤ b.count '\n' then .blankLine else .whitespace, text := b, loc } cur s := by
  cases b with
  | nil => exact absurd rfl fills.nonempty
  | cons c rest =>
    have own : (rest ++ s).takeWhile Text.isBlank = rest := by
      have ends : s.takeWhile Text.isBlank = [] := by
        cases s with
        | nil => rfl
        | cons d s => simpa using visible
      rw [List.takeWhile_append_of_pos fun d hd => fills.blank d (List.mem_cons_of_mem _ hd), ends,
        List.append_nil]
    refine ⟨c, rest, rfl, Token.Lexeme.rule_iff.mp ?_⟩
    have rule : Token.Lexeme.Rule cur c (rest ++ s) _ :=
      .blank (fills.blank c (List.mem_cons_self ..))
    simpa [Token.Lexeme.blank, own] using rule

theorem gap {g : Gap} (starts : Cell.Starts tail)
    (after : ∀ cur b, P cur → g.Fills b → Q (cur.pass b)) : Reads P [.gap g] tail Q := by
  intro file? cur input hp whole
  rw [Print.cellsAll_cons, Print.cellsAll_nil, List.append_nil] at whole
  obtain ⟨b, s, rfl, fills, written, visible⟩ := Gap.exists_fills starts whole
  let t : Token :=
    { kind := if 2 ≤ b.count '\n' then .blankLine else .whitespace, text := b
      loc := cur.locate file? (cur.pass b) }
  have same : cur.nest t.kind = cur := by
    simp only [t]
    split <;> rfl
  have passed : cur.passAll [t] = cur.pass b := by
    change (cur.nest t.kind).pass b = _
    rw [same]
  have step := Token.scanFrom_cons file? cur (readAt_gap fills visible cur t.loc) (by rw [same])
  refine ⟨[t], s, step, ?_, written, ?_⟩
  · rw [passed, Token.Cursor.line_pass]
    exact .gap fills.feeds rfl .nil
  · rw [passed]
    exact after cur b hp fills

/-- What is read to its end is scanned as such. -/
theorem scan (h : Reads P ps [] Q) {cur : Token.Cursor} (hp : P cur) {s : List Char}
    (written : Written 0 (Print.cellsAll ps) s) (file? : Option String) :
    ∃ ts eof last, Token.scanFrom file? cur s = ts ++ [eof] ∧ eof.kind = .eof ∧
      Matches cur.line ps ts last := by
  obtain ⟨ts, rest, scan, found, behind, _⟩ := h file? cur s hp (by simpa using written)
  cases behind
  rw [Token.scanFrom] at scan
  exact ⟨ts, _, _, scan, rfl, found⟩

end Reads

end SexprFormat
