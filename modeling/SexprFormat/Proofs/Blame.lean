import Mathlib.Data.List.TakeWhile
import SexprFormat.Proofs.Form

/-!
Where reading fails, and which token is to blame. Reading goes on as long as the tokens so far can
be completed, and no longer. The token that an error points at is the one that cannot be taken, the
last quote mark that waits in the innermost open list, or the last bracket that is not closed, where
brackets are paired without regard to reading (`Balanced`). Main statement:
`Node.blame_of_ofTokens`.
-/

namespace SexprFormat

/-- Tokens in which the brackets are paired, whatever their shapes. -/
inductive Balanced : List Token → Prop where
  | nil : Balanced []
  | other {t : Token} {ts : List Token} :
      t.kind ≠ .opening → t.kind ≠ .closing → Balanced ts → Balanced (t :: ts)
  | pair {opener closer : Token} {inside ts : List Token} :
      opener.kind = .opening → closer.kind = .closing → Balanced inside → Balanced ts →
      Balanced (opener :: (inside ++ closer :: ts))

namespace Balanced

theorem append {a b : List Token} (ha : Balanced a) (hb : Balanced b) : Balanced (a ++ b) := by
  induction ha with
  | nil => exact hb
  | other ho hc _ ih => exact .other ho hc ih
  | pair ho hc inside _ _ ih => simpa using Balanced.pair ho hc inside ih

theorem of_plain {ts : List Token} (h : ∀ t ∈ ts, t.isMark || t.isTrivia || t.isLeaf) :
    Balanced ts := by
  induction ts with
  | nil => exact .nil
  | cons t ts ih =>
    have plain := h t (List.mem_cons_self ..)
    refine .other ?_ ?_ (ih fun u hu => h u (List.mem_cons_of_mem _ hu))
    · intro kind
      simp [Token.isMark, Token.isTrivia, Token.isLeaf, kind] at plain
    · intro kind
      simp [Token.isMark, Token.isTrivia, Token.isLeaf, kind] at plain

/-- As many brackets open as close. -/
theorem countP_eq {ts : List Token} (h : Balanced ts) :
    ts.countP (·.kind = .opening) = ts.countP (·.kind = .closing) := by
  induction h with
  | nil => rfl
  | other ho hc _ ih => simpa [ho, hc] using ih
  | pair ho hc _ _ inside rest =>
    simp [ho, hc, inside, rest]
    omega

/-- Nothing is closed before it was opened. -/
theorem countP_le {ts : List Token} (h : Balanced ts) {front back : List Token}
    (split : ts = front ++ back) :
    front.countP (·.kind = .closing) ≤ front.countP (·.kind = .opening) := by
  induction h generalizing front back with
  | nil =>
    obtain ⟨rfl, rfl⟩ := List.nil_eq_append_iff.mp split
    exact Nat.le_refl _
  | other ho hc _ ih =>
    cases front with
    | nil => exact Nat.le_refl _
    | cons t front =>
      obtain ⟨rfl, later⟩ := List.cons_eq_cons.mp split
      simpa [ho, hc] using ih later
  | @pair opener closer inside ts ho hc hi _ ihi ih =>
    cases front with
    | nil => exact Nat.le_refl _
    | cons t front =>
      obtain ⟨rfl, later⟩ := List.cons_eq_cons.mp split
      rcases List.append_eq_append_iff.mp later with ⟨front', rfl, behind⟩ | ⟨_, within, _⟩
      · have same := hi.countP_eq
        cases front' with
        | nil =>
          simp [ho]
          omega
        | cons u front' =>
          obtain ⟨rfl, last⟩ := List.cons_eq_cons.mp behind
          have few := ih last
          simp [ho, hc]
          omega
      · have few := ihi within
        simp [ho]
        omega

end Balanced

namespace Token

/-- Whether the bracket in front of some tokens is closed among them. -/
def Closes (ts : List Token) : Prop :=
  ∃ inside closer rest, ts = inside ++ closer :: rest ∧ Balanced inside ∧ closer.kind = .closing

/-- No bracket among some tokens is left open. -/
def AllClosed (ts : List Token) : Prop :=
  ∀ before opener after, ts = before ++ opener :: after → opener.kind = .opening → Closes after

/-- The last bracket that is not closed, with what stands behind it. -/
structure LastOpen (ts : List Token) (opener : Token) (inside : List Token) : Prop where
  split : ∃ before, ts = before ++ opener :: inside
  opening : opener.kind = .opening
  unclosed : ¬Closes inside
  last : AllClosed inside

/-- What stands in the innermost list that is open, or in the program if none is. -/
def Innermost (ts inside : List Token) : Prop :=
  (∃ opener, LastOpen ts opener inside) ∨ (ts = inside ∧ AllClosed ts)

/-- A bracket that ends the list of another one. -/
def closerOf (opener : Token) : Token :=
  { opener with kind := .closing }

theorem kind_closerOf (opener : Token) : opener.closerOf.kind = .closing := rfl

theorem shape_closerOf (opener : Token) : opener.closerOf.shape? = opener.shape? := rfl

/-- The last quote mark of some tokens, if it has no datum: behind it stand only trivia. -/
def LastWaiting (ts : List Token) (mark : Token) : Prop :=
  ∃ before after, ts = before ++ mark :: after ∧ mark.kind = .quoteMark ∧ ∀ t ∈ after, t.isTrivia

end Token

/-- Which token a fault is to be blamed on, if reading got through some tokens and no further: the
one that comes next, if any does, or one of those that were read. -/
def Fault.Blames (read : List Token) (next? : Option Token) : Fault → Token → Prop
  | mismatchedDelimiter, t | unexpectedClose, t | unterminatedString, t | unterminatedComment, t =>
    next? = some t
  | danglingMark, t => ∃ inside, Token.Innermost read inside ∧ Token.LastWaiting inside t
  | unclosedList, t => next? = none ∧ ∃ inside, Token.LastOpen read t inside

namespace Balanced

/-- A bracket in front of paired ones is left open by them. -/
theorem not_closes {ts : List Token} (h : Balanced ts) : ¬Token.Closes ts := by
  rintro ⟨inside, closer, rest, rfl, paired, closing⟩
  have same := paired.countP_eq
  have few := h.countP_le (show inside ++ closer :: rest = (inside ++ [closer]) ++ rest by simp)
  simp [closing] at few
  omega

theorem allClosed {ts : List Token} (h : Balanced ts) : Token.AllClosed ts := by
  intro before opener after split opening
  induction h generalizing before after with
  | nil => cases before <;> cases split
  | other ho _ _ ih =>
    cases before with
    | nil =>
      obtain ⟨rfl, _⟩ := List.cons_eq_cons.mp split
      exact absurd opening ho
    | cons t before => exact ih before after (List.cons_eq_cons.mp split).2
  | @pair opener' closer inside ts _ hc hi _ ihi ih =>
    cases before with
    | nil =>
      obtain ⟨rfl, rfl⟩ := List.cons_eq_cons.mp split
      exact ⟨inside, closer, ts, rfl, hi, hc⟩
    | cons t before =>
      obtain ⟨_, later⟩ := List.cons_eq_cons.mp split
      rcases List.append_eq_append_iff.mp later with ⟨front, rfl, rest⟩ | ⟨front, within, rest⟩
      · cases front with
        | nil =>
          obtain ⟨rfl, _⟩ := List.cons_eq_cons.mp rest
          simp [hc] at opening
        | cons u front => exact ih front after (List.cons_eq_cons.mp rest).2
      · cases front with
        | nil =>
          obtain ⟨rfl, _⟩ := List.cons_eq_cons.mp rest
          simp [hc] at opening
        | cons u front =>
          obtain ⟨rfl, rfl⟩ := List.cons_eq_cons.mp rest
          obtain ⟨inner, c, last, rfl, paired, closing⟩ := ihi before front within
          exact ⟨inner, c, last ++ closer :: ts, by simp, paired, closing⟩

end Balanced

namespace Frames

@[simp] theorem current_update (fs : Frames) (g : Frame → Frame) :
    (fs.update g).current = g fs.current := by
  unfold update
  split <;> simp [current, *]

theorem openers_update (fs : Frames) (g : Frame → Frame) :
    (fs.update g).lists.map (·.opener) = fs.lists.map (·.opener) := by
  unfold update
  split <;> simp [*]

end Frames

namespace Form

theorem balanced_all {forms : List Form} (h : ∀ form ∈ forms, Balanced form.tokens) :
    Balanced (tokensAll forms) := by
  induction forms with
  | nil => exact .nil
  | cons form forms ih =>
    rw [tokensAll]
    exact (h form (List.mem_cons_self ..)).append (ih fun f hf => h f (List.mem_cons_of_mem _ hf))

theorem IsLead.balanced {lead : List Token} (h : IsLead lead) : Balanced lead :=
  .of_plain fun t ht => by simp [h.1 t ht]

theorem Wf.balanced {form : Form} (h : form.Wf) : Balanced form.tokens := by
  induction h with
  | trivia ht => exact .of_plain (by simp [tokens, ht])
  | leaf hlead ht => exact hlead.balanced.append (.of_plain (by simp [ht]))
  | list hlead ho _ _ hc _ ih => exact hlead.balanced.append (.pair ho hc (balanced_all ih) .nil)

end Form

theorem Frame.Gathers.balanced {f : Frame} {ts : List Token} (h : f.Gathers ts) : Balanced ts := by
  obtain ⟨forms, lead, rfl, wf, hlead, _⟩ := h
  exact (Form.balanced_all fun form hf => (wf form hf).balanced).append hlead.balanced

namespace Unfinished

/-- The brackets of the open lists are among the tokens that were read. -/
theorem opener_mem {fs : Frames} {ts : List Token} (h : Unfinished fs ts) :
    ∀ list ∈ fs.lists, list.opener ∈ ts ∧ list.opener.kind = .opening := by
  induction h with
  | program => simp [Frames.fill]
  | list _ ho _ ih =>
    intro list mem
    rw [Frames.fill, List.mem_cons] at mem
    rcases mem with rfl | outer
    · exact ⟨by simp, ho⟩
    · obtain ⟨before, opening⟩ := ih list outer
      exact ⟨by simp [before], opening⟩

/-- The innermost list of reading is the innermost one by its brackets. -/
theorem lastOpen {fs : Frames} {ts : List Token} (h : Unfinished fs ts) {list : OpenList}
    (innermost : list ∈ fs.lists.head?) : ∃ inside, Token.LastOpen ts list.opener inside := by
  cases h with
  | program => cases innermost
  | @list outer before inside _ _ _ ho gathers =>
    cases innermost
    exact ⟨inside, ⟨before, rfl⟩, ho, gathers.balanced.not_closes, gathers.balanced.allClosed⟩

theorem exists_innermost {fs : Frames} {ts : List Token} (h : Unfinished fs ts) :
    ∃ inside, Token.Innermost ts inside := by
  cases hl : fs.lists.head? with
  | some list =>
    obtain ⟨inside, last⟩ := h.lastOpen hl
    exact ⟨inside, .inl ⟨_, last⟩⟩
  | none =>
    cases h with
    | program gathers => exact ⟨ts, .inr ⟨rfl, gathers.balanced.allClosed⟩⟩
    | list => cases hl

end Unfinished

/-- A mark that waits stands in the innermost open list, since no bracket comes behind it. -/
theorem Token.LastWaiting.inside {ts inside : List Token} {mark : Token} (h : LastWaiting ts mark)
    (innermost : Innermost ts inside) : LastWaiting inside mark := by
  obtain ⟨before, after, rfl, isMark, trivia⟩ := h
  rcases innermost with ⟨opener, ⟨outside, split⟩, opening, _, _⟩ | ⟨rfl, _⟩
  · have other : mark ≠ opener := by
      rintro rfl
      simp [isMark] at opening
    rcases List.append_eq_append_iff.mp split with ⟨front, _, behind⟩ | ⟨front, _, behind⟩
    · cases front with
      | nil => exact absurd (List.cons_eq_cons.mp behind).1 other
      | cons t front =>
        obtain ⟨rfl, rfl⟩ := List.cons_eq_cons.mp behind
        have := trivia opener (by simp)
        simp [Token.isTrivia, opening] at this
    · cases front with
      | nil => exact absurd (List.cons_eq_cons.mp behind).1.symm other
      | cons t front =>
        obtain ⟨rfl, rfl⟩ := List.cons_eq_cons.mp behind
        exact ⟨front, after, rfl, isMark, trivia⟩
  · exact ⟨before, after, rfl, isMark, trivia⟩

namespace Reading

/-- The latest mark that waits in the innermost frame is the last one of the tokens so far. -/
def Waits (r : Reading) (ts : List Token) : Prop :=
  ∀ mark ∈ r.frames.current.marks.head?, Token.LastWaiting ts mark

theorem waits_step {r r' : Reading} {ts : List Token} {t : Token} (hr : r.Waits ts)
    (h : r.step t = .ok r') (ht : t.kind ≠ .eof) : r'.Waits (ts ++ [t]) := by
  obtain ⟨l, around, rfl⟩ := r.exists_within
  obtain ⟨plain, rfl⟩ | ⟨_, rfl⟩ | ⟨_, _, _, rfl, _, _, _, _, rfl⟩ := step_cases h ht
  · intro mark hm
    rw [Level.within, Frames.current_fill] at hm
    by_cases isMark : t.isMark
    · rw [l.pass_mark isMark] at hm
      obtain rfl : t = mark := by simpa [Frame.addMark] using hm
      exact ⟨ts, [], rfl, by simpa [Token.isMark] using isMark, by simp⟩
    · by_cases trivia : t.isTrivia
      · rw [l.marks_pass_trivia trivia] at hm
        obtain ⟨before, after, rfl, isMark, quiet⟩ := hr mark (by simpa [Level.within] using hm)
        refine ⟨before, after ++ [t], by simp, isMark, fun u hu => ?_⟩
        rcases List.mem_append.mp hu with hu | hu
        · exact quiet u hu
        · rw [List.mem_singleton.mp hu]
          exact trivia
      · have leaf : t.isLeaf := by simpa [isMark, trivia] using plain
        simp [l.pass_leaf leaf, Frame.add] at hm
  · intro mark hm
    simp [Level.within] at hm
  · intro mark hm
    simp [Frames.current_update, Frame.add] at hm

/-- A token that is refused is to blame itself, unless it would end a list in which a mark waits. -/
theorem error_of_step {r : Reading} {t : Token} {e : ParseError} (h : r.step t = .error e) :
    (e.token = t ∧ ∀ read, e.fault.Blames read (some t) t) ∨
      ∃ mark ∈ r.frames.current.marks.head?, e = .dangling mark := by
  obtain ⟨l, around, rfl⟩ := r.exists_within
  cases hk : t.kind with
  | eof | opening => simp [step, ignores, accept, hk, bind, Except.bind, pure, Except.pure] at h
  | whitespace | blankLine | directive | quoteMark =>
    rw [l.step_within around (by simp [Token.isMark, Token.isTrivia, hk])] at h
    cases h
  | atom | string | lineComment | blockComment =>
    cases hc : t.closed with
    | true =>
      rw [l.step_within around (by simp [Token.isTrivia, Token.isLeaf, hk, hc])] at h
      cases h
    | false =>
      simp only [step, ignores, accept, hk, hc, bind, Except.bind] at h
      cases h
      exact .inl ⟨rfl, fun _ => rfl⟩
  | closing =>
    cases around with
    | none =>
      simp only [step, ignores, accept, close, hk, Level.within, Frames.fill, Frames.pop, bind,
        Except.bind] at h
      cases h
      exact .inl ⟨rfl, fun _ => rfl⟩
    | some around =>
      obtain ⟨opener, outer⟩ := around
      simp only [step, ignores, accept, close, hk, Level.within, Frames.fill, Frames.pop] at h
      cases hm : l.frame.marks with
      | cons mark marks =>
        simp only [hm, bind, Except.bind] at h
        cases h
        exact .inr ⟨mark, by simp [Level.within, hm], rfl⟩
      | nil =>
        refine .inl ?_
        cases hs : opener.shape? with
        | none =>
          simp only [hm, hs, bind, Except.bind] at h
          cases h
          exact ⟨rfl, fun _ => rfl⟩
        | some shape =>
          by_cases same : t.shape? = some shape
          · simp [hm, hs, same, bind, Except.bind, pure, Except.pure] at h
          · simp only [hm, hs, same, bind, Except.bind] at h
            cases h
            exact ⟨rfl, fun _ => rfl⟩

theorem error_of_finish {r : Reading} {e : ParseError} (h : r.finish = .error e) :
    (∃ list ∈ r.frames.lists.head?, e = .unclosed list.opener) ∨
      ∃ mark ∈ r.frames.current.marks.head?, e = .dangling mark := by
  unfold finish at h
  split at h
  · rename_i mark _ waits
    cases h
    exact .inr ⟨mark, by simp [waits], rfl⟩
  · rename_i list _ _ opened
    cases h
    exact .inl ⟨list, by simp [opened], rfl⟩
  · cases h

/-- Reading fails at the first token that it refuses. -/
theorem exists_refused {r : Reading} {ts : List Token} {e : ParseError}
    (h : ts.foldlM step r = .error e) :
    ∃ before t after r', ts = before ++ t :: after ∧ before.foldlM step r = .ok r' ∧
      r'.step t = .error e := by
  induction ts generalizing r with
  | nil => cases h
  | cons t ts ih =>
    rw [List.foldlM_cons] at h
    cases hs : r.step t with
    | error e' =>
      rw [hs] at h
      cases h
      exact ⟨[], t, ts, r, rfl, rfl, hs⟩
    | ok next =>
      rw [hs] at h
      obtain ⟨before, u, after, r', rfl, read, refused⟩ := ih h
      refine ⟨t :: before, u, after, r', rfl, ?_, refused⟩
      rw [List.foldlM_cons, hs]
      exact read

/-- Where no mark waits, the open lists can be closed one after the other. -/
theorem finish_closers {openers : List Token} {r : Reading}
    (same : r.frames.lists.map (·.opener) = openers) (marks : r.frames.current.marks = [])
    (shaped : ∀ opener ∈ openers, opener.shape?.isSome) :
    ∃ r' nodes, (openers.map Token.closerOf).foldlM step r = .ok r' ∧ r'.finish = .ok nodes := by
  induction openers generalizing r with
  | nil =>
    have top : r.frames.lists = [] := by simpa using same
    exact ⟨r, r.frames.program.trim.children, rfl, by simp [finish, marks, top]⟩
  | cons opener openers ih =>
    obtain ⟨l, around, rfl⟩ := r.exists_within
    cases around with
    | none => simp [Level.within, Frames.fill] at same
    | some around =>
      obtain ⟨opener', outer⟩ := around
      obtain ⟨rfl, rest⟩ : opener' = opener ∧ outer.lists.map (·.opener) = openers := by
        simpa [Level.within, Frames.fill] using same
      have quiet : l.frame.marks = [] := by simpa [Level.within] using marks
      obtain ⟨shape, hs⟩ := Option.isSome_iff_exists.mp (shaped opener' (List.mem_cons_self ..))
      rw [List.map_cons, List.foldlM_cons,
        Form.step_closing l outer quiet hs opener'.kind_closerOf (opener'.shape_closerOf.trans hs)]
      refine ih (by rw [Frames.openers_update, rest]) (by simp [Frame.add]) fun o ho => ?_
      exact shaped o (List.mem_cons_of_mem _ ho)

/-- A datum for the marks that wait and the brackets of all open lists complete what was read. -/
theorem exists_completion {r : Reading}
    (shaped : ∀ list ∈ r.frames.lists, list.opener.shape?.isSome) :
    ∃ (more : List Token) (r' : Reading) (nodes : List Node), (∀ t ∈ more, t.kind ≠ .eof) ∧
      more.foldlM step r = .ok r' ∧ r'.finish = .ok nodes := by
  obtain ⟨l, around, rfl⟩ := r.exists_within
  let datum : Token := { kind := .atom, text := ['x'], loc := { line := 1, column := 1 } }
  have leaf : datum.isLeaf := rfl
  have read := l.step_within around (t := datum) (by simp [leaf])
  have openers : ((l.pass datum).within around).frames.lists.map (·.opener) =
      (l.within around).frames.lists.map (·.opener) := by
    cases around <;> rfl
  obtain ⟨r', nodes, closed, finished⟩ := finish_closers openers
    (by simp [Level.within, l.pass_leaf leaf, Frame.add]) (by simpa using shaped)
  refine ⟨datum :: ((l.within around).frames.lists.map (·.opener)).map Token.closerOf, r',
    nodes, ?_, ?_,
    finished⟩
  · simp [datum, Token.kind_closerOf]
  · rw [List.foldlM_cons, read]
    exact closed

end Reading

namespace Node

/-- Tokens that others can follow so that all of them are read. -/
def Viable (ts : List Token) : Prop :=
  ∃ more nodes, ofTokens (ts ++ more) = .ok nodes

theorem ofTokens_append {before more : List Token} {r : Reading}
    (ended : ∀ t ∈ before, t.kind ≠ .eof)
    (read : before.foldlM Reading.step {} = .ok r) :
    ofTokens (before ++ more) =
      (more.takeWhile (·.kind ≠ .eof)).foldlM Reading.step r >>= Reading.finish := by
  rw [ofTokens, List.takeWhile_append_of_pos (by simpa using ended), List.foldlM_append, read]
  rfl

/-- What was read so far can always be completed. -/
theorem viable_of_foldlM {ts : List Token} {r : Reading} (ended : ∀ t ∈ ts, t.kind ≠ .eof)
    (shaped : ∀ t ∈ ts, t.kind = .opening → t.shape?.isSome)
    (read : ts.foldlM Reading.step {} = .ok r) : Viable ts := by
  have led := Reading.foldlM_unfinished (.program Frame.gathers_nil) read ended
  have openers (list : OpenList) (mem : list ∈ r.frames.lists) : list.opener.shape?.isSome := by
    obtain ⟨among, opening⟩ := led.opener_mem list mem
    exact shaped _ (by simpa using among) opening
  obtain ⟨more, r', nodes, rest, completed, finished⟩ := Reading.exists_completion openers
  have whole : more.takeWhile (·.kind ≠ .eof) = more := by
    rw [List.takeWhile_eq_self_iff]
    simpa using rest
  exact ⟨more, nodes, by rw [ofTokens_append ended read, whole, completed]; exact finished⟩

/-- Nothing behind a token that is refused changes the error. -/
theorem ofTokens_refused {before : List Token} {t : Token} {r : Reading} {e : ParseError}
    (ended : ∀ u ∈ before, u.kind ≠ .eof) (read : before.foldlM Reading.step {} = .ok r)
    (kind : t.kind ≠ .eof) (refused : r.step t = .error e) (more : List Token) :
    ofTokens (before ++ t :: more) = .error e := by
  rw [ofTokens_append ended read, List.takeWhile_cons_of_pos (by simpa using kind),
    List.foldlM_cons,
    refused]
  rfl

/-- Reading fails at a token that it refuses, or behind the last one. -/
theorem error_cases {tokens : List Token} {e : ParseError} (h : ofTokens tokens = .error e) :
    ∃ cut, tokens.takeWhile (·.kind ≠ .eof) = cut ∧ (∀ t ∈ cut, t.kind ≠ .eof) ∧
      ((∃ before t after r, cut = before ++ t :: after ∧ before.foldlM Reading.step {} = .ok r ∧
          r.step t = .error e) ∨
        ∃ r, cut.foldlM Reading.step {} = .ok r ∧ r.finish = .error e) := by
  refine ⟨_, rfl, fun _ => Token.kind_ne_eof_of_takeWhile, ?_⟩
  rw [ofTokens] at h
  cases hr : (tokens.takeWhile (·.kind ≠ .eof)).foldlM Reading.step {} with
  | error e' =>
    rw [hr] at h
    cases h
    exact .inl (Reading.exists_refused hr)
  | ok r =>
    rw [hr] at h
    exact .inr ⟨r, rfl, h⟩

theorem lastWaiting_of_read {ts : List Token} {r : Reading} {mark : Token}
    (ended : ∀ t ∈ ts, t.kind ≠ .eof)
    (read : ts.foldlM Reading.step {} = .ok r) (waits : mark ∈ r.frames.current.marks.head?) :
    Token.LastWaiting ts mark := by
  have start : Reading.Waits {} [] := by simp [Reading.Waits, Frames.current]
  exact Reading.foldlM_induction Reading.waits_step start read ended mark waits

/-- The mark that an error of a waiting mark names. -/
theorem blames_mark {ts : List Token} {r : Reading} {mark : Token} (ended : ∀ t ∈ ts, t.kind ≠ .eof)
    (read : ts.foldlM Reading.step {} = .ok r) (waits : mark ∈ r.frames.current.marks.head?)
    (next? : Option Token) : Fault.danglingMark.Blames ts next? mark := by
  have led := Reading.foldlM_unfinished (.program Frame.gathers_nil) read ended
  obtain ⟨inside, innermost⟩ := led.exists_innermost
  exact ⟨inside, innermost, (lastWaiting_of_read ended read waits).inside innermost⟩

/-- If reading fails at a token, those before it can be completed, and with it nothing can; if it
fails at the end, all tokens can be completed. The error points at the token that its fault is to be
blamed on. -/
theorem blame_of_ofTokens {tokens cut : List Token} {e : ParseError}
    (hcut : tokens.takeWhile (·.kind ≠ .eof) = cut)
    (shaped : ∀ t ∈ cut, t.kind = .opening → t.shape?.isSome) (h : ofTokens tokens = .error e) :
    ((∃ before t after r, cut = before ++ t :: after ∧ before.foldlM Reading.step {} = .ok r ∧
        r.step t = .error e ∧ Viable before ∧ (∀ more, ofTokens (before ++ t :: more) = .error e) ∧
        e.fault.Blames before (some t) e.token) ∨
      (∃ r, cut.foldlM Reading.step {} = .ok r ∧ r.finish = .error e ∧ Viable cut ∧
        e.fault.Blames cut none e.token)) ∧
      ∀ file? source?, (Diagnostic.ofParseError file? source? e).line? = some e.token.loc.line ∧
        (Diagnostic.ofParseError file? source? e).column? = some e.token.loc.column := by
  refine ⟨?_, fun _ _ => ⟨rfl, rfl⟩⟩
  have ended (t : Token) (ht : t ∈ cut) : t.kind ≠ .eof := by
    subst hcut
    simpa using List.all_eq_true.mp List.all_takeWhile t ht
  rw [ofTokens, hcut] at h
  cases hr : cut.foldlM Reading.step {} with
  | error e' =>
    rw [hr] at h
    cases h
    obtain ⟨before, t, after, r, rfl, read, refused⟩ := Reading.exists_refused hr
    have ended' (u : Token) (hu : u ∈ before) : u.kind ≠ .eof := ended u (by simp [hu])
    have viable := viable_of_foldlM ended' (fun u hu => shaped u (by simp [hu])) read
    have stuck := ofTokens_refused ended' read (ended t (by simp)) refused
    refine .inl ⟨before, t, after, r, rfl, read, refused, viable, stuck, ?_⟩
    rcases Reading.error_of_step refused with ⟨token, blames⟩ | ⟨mark, waits, rfl⟩
    · rw [token]
      exact blames before
    · exact blames_mark ended' read waits (some t)
  | ok r =>
    rw [hr] at h
    have finished : r.finish = .error e := h
    refine .inr ⟨r, rfl, finished, viable_of_foldlM ended shaped hr, ?_⟩
    rcases Reading.error_of_finish finished with ⟨list, innermost, rfl⟩ | ⟨mark, waits, rfl⟩
    · have led := Reading.foldlM_unfinished (.program Frame.gathers_nil) hr ended
      exact ⟨rfl, by simpa [ParseError.token] using led.lastOpen innermost⟩
    · exact blames_mark ended hr waits none

/-- A bracket that would close a list in which the second of two marks waits. -/
theorem blame_of_ofTokens_waiting :
    ∃ e, ofTokens (Token.scan none "('[a '])".toList) = .error e ∧
      e.fault = .danglingMark ∧ e.token.loc.column = 6 ∧
      (∀ t ∈ (Token.scan none "('[a '])".toList).takeWhile (·.kind ≠ .eof),
        t.kind = .opening → t.shape?.isSome) ∧
      ∃ read next?, Viable read ∧ e.fault.Blames read next? e.token := by
  have failed : (ofTokens (Token.scan none "('[a '])".toList)).mapError
      (fun e => (e.fault, e.token.loc.column)) = .error (.danglingMark, 6) := by
    cbv
  have brackets : ((Token.scan none "('[a '])".toList).takeWhile (·.kind ≠ .eof)).all
      (fun t => t.kind ≠ .opening || t.shape?.isSome) = true := by
    cbv
  have shaped : ∀ t ∈ (Token.scan none "('[a '])".toList).takeWhile (·.kind ≠ .eof),
      t.kind = .opening → t.shape?.isSome := by
    intro t ht opening
    simpa [opening] using List.all_eq_true.mp brackets t ht
  cases h : ofTokens (Token.scan none "('[a '])".toList) with
  | ok nodes =>
    rw [h] at failed
    cases failed
  | error e =>
    rw [h, Except.mapError, Except.error.injEq, Prod.mk.injEq] at failed
    refine ⟨e, rfl, failed.1, failed.2, shaped, ?_⟩
    rcases (blame_of_ofTokens rfl shaped h).1 with ⟨before, t, _, _, _, _, _, viable, _, blames⟩ |
      ⟨_, _, _, viable, blames⟩
    · exact ⟨before, some t, viable, blames⟩
    · exact ⟨_, none, viable, blames⟩

end Node

end SexprFormat
