import SexprFormat.Settings

/-!
What a session keeps, whatever its steps are. `Session.Does` says once what a step can do, and
scopes are paired by the order of their entries and exits alone (`Session.Paired`). Main statement:
`safe_of_wellNested`, the active width is positive after every step, and a scope that is left brings
back what was active before it.
-/

namespace SexprFormat

namespace Settings

theorem positive_default : 1 ≤ ({} : Settings).maxWidth := by decide

theorem positive_of_width {width : Width} {settings : Settings} (h : ofWidth width = .ok settings) :
    1 ≤ settings.maxWidth := by
  unfold ofWidth at h
  split at h
  · cases h
  · cases h
    simp only [maxWidth]
    omega

theorem positive_of_width? {width? : Option Width} {settings : Settings}
    (h : ofWidth? width? = .ok settings) : 1 ≤ settings.maxWidth := by
  cases width? with
  | none =>
    cases h
    exact positive_default
  | some width => exact positive_of_width h

theorem positive_of_table {table : List (String × Value)} {settings : Settings}
    (h : ofTable table = .ok settings) : 1 ≤ settings.maxWidth := by
  unfold ofTable at h
  split at h
  · cases h
    exact positive_default
  · exact positive_of_width h
  · cases h

end Settings

namespace Session

namespace Step

/-- The step enters a scope. With a width that is refused it fails and enters none. -/
def opens : Step → Bool
  | enter width? => (Settings.ofWidth? width?).isOk
  | _ => false

/-- The step leaves a scope. -/
def closes : Step → Bool
  | leave | leaveByError => true
  | _ => false

/-- The step calls the formatter. -/
def isCall : Step → Bool
  | format _ _ | check _ _ | status _ _ => true
  | _ => false

theorem not_opens_of_closes {step : Step} (h : step.closes) : step.opens = false := by
  cases step with
  | leave | leaveByError => rfl
  | _ => cases h

theorem plain_of_isCall {step : Step} (h : step.isCall) :
    step.opens = false ∧ step.closes = false := by
  cases step with
  | format | check | status => exact ⟨rfl, rfl⟩
  | _ => cases h

end Step

/-- All that a step can do to a session. -/
inductive Does (s : Session) (step : Step) : Except StepError Reply → Session → Prop where
  | fails {e : StepError} : step.opens = false → (step.closes → s.saved = []) →
      Does s step (.error e) s
  | keeps {reply : Reply} : step.opens = false → step.closes = false → Does s step (.ok reply) s
  | activates {reply : Reply} {settings : Settings} : step.opens = false → step.closes = false →
      step.isCall = false → 1 ≤ settings.maxWidth →
      Does s step (.ok reply) { s with active := settings }
  | enters {reply : Reply} {settings : Settings} : step.opens → 1 ≤ settings.maxWidth →
      Does s step (.ok reply) (s.enter settings)
  | leaves {reply : Reply} {previous : Settings} {saved : List Settings} : step.closes →
      s.saved = previous :: saved → Does s step (.ok reply) { active := previous, saved }

section

variable {s : Session} {step : Step}

/-- What is not made of the session leaves it as it is when it fails. -/
theorem run_ofExcept {ε α : Type} (made : Except ε α) (wrap : ε → StepError)
    (next : α → Action Reply)
    (s : Session) :
    (∃ e, made = .error e ∧ (ofExcept (made.mapError wrap) >>= next).run.run s =
      (.error (wrap e), s)) ∨
      ∃ a, made = .ok a ∧ (ofExcept (made.mapError wrap) >>= next).run.run s =
        (next a).run.run s := by
  cases made with
  | error e => exact .inl ⟨e, rfl, rfl⟩
  | ok a => exact .inr ⟨a, rfl, rfl⟩

theorem does_call {α : Type} (call : step.isCall) {width? : Option Int}
    {made : Int → Except FormatError α}
    {answer : α → Reply}
    (own : Session.step step = do
      let width ← widthOf width?
      let a ← ofExcept ((made width).mapError .format)
      pure (answer a)) : s.Does step (s.run step).1 (s.run step).2 := by
  obtain ⟨noEntry, noExit⟩ := Step.plain_of_isCall call
  have ran : s.run step = (ofExcept ((made (width?.getD s.active.maxWidth)).mapError .format) >>=
      fun a => pure (answer a) : Action Reply).run.run s := by
    rw [run, own]
    rfl
  rcases run_ofExcept (made (width?.getD s.active.maxWidth)) .format
      (fun a => pure (answer a)) s with
    ⟨e, _, failed⟩ | ⟨a, _, done⟩
  · rw [ran, failed]
    exact .fails noEntry (by simp [noExit])
  · rw [ran, done]
    exact .keeps noEntry noExit

theorem does_activate (noEntry : step.opens = false) (noExit : step.closes = false)
    (noCall : step.isCall = false) {made : Except SettingsError Settings}
    {answer : Settings → Reply}
    (positive : ∀ settings, made = .ok settings → 1 ≤ settings.maxWidth)
    (own : Session.step step = do
      let settings ← ofExcept (made.mapError .settings)
      activate settings
      pure (answer settings)) : s.Does step (s.run step).1 (s.run step).2 := by
  rw [run, own]
  rcases run_ofExcept made .settings
      (fun settings => do activate settings; pure (answer settings)) s with
    ⟨e, _, failed⟩ | ⟨settings, ok, done⟩
  · rw [failed]
    exact .fails noEntry (by simp [noExit])
  · rw [done]
    exact .activates noEntry noExit noCall (positive settings ok)

theorem does_enter {width? : Option Width} :
    s.Does (.enter width?) (s.run (.enter width?)).1 (s.run (.enter width?)).2 := by
  rw [run, step]
  rcases run_ofExcept (Settings.ofWidth? width?) .settings
    (fun settings => do modify (·.enter settings); pure .done) s with ⟨e, refused, failed⟩
      | ⟨settings, ok, done⟩
  · rw [failed]
    exact .fails (by rw [Step.opens, refused]; rfl) (fun exit => by cases exit)
  · rw [done]
    exact .enters (by rw [Step.opens, ok]; rfl) (Settings.positive_of_width? ok)

theorem does_leave (exit : step.closes) {reply : Reply}
    (own : Session.step step = do leave; pure reply) :
    s.Does step (s.run step).1 (s.run step).2 := by
  rw [run, own]
  obtain ⟨active, saved⟩ := s
  cases saved with
  | nil => exact .fails (Step.not_opens_of_closes exit) fun _ => rfl
  | cons previous saved => exact .leaves exit rfl

end

theorem does_run (s : Session) (step : Step) : s.Does step (s.run step).1 (s.run step).2 := by
  cases step with
  | get => exact .keeps rfl rfl
  | reset => exact .activates rfl rfl rfl Settings.positive_default
  | set => exact does_activate rfl rfl rfl (fun _ => Settings.positive_of_width?) rfl
  | load => exact does_activate rfl rfl rfl (fun _ => Settings.positive_of_table) rfl
  | enter => exact does_enter
  | leave | leaveByError => exact does_leave rfl rfl
  | format | check | status => exact does_call rfl rfl

namespace Does

variable {s s' : Session} {step : Step} {reply : Except StepError Reply}

theorem eq_of_error {e : StepError} (h : s.Does step (.error e) s') : s' = s := by
  cases h with
  | fails => rfl

theorem eq_of_isCall (h : s.Does step reply s') (call : step.isCall) : s' = s := by
  obtain ⟨noEntry, noExit⟩ := Step.plain_of_isCall call
  cases h with
  | fails | keeps => rfl
  | activates _ _ noCall => simp [call] at noCall
  | enters entry => simp [noEntry] at entry
  | leaves exit => simp [noExit] at exit

theorem saved_of_opens (h : s.Does step reply s') (entry : step.opens) :
    s'.saved = s.active :: s.saved := by
  cases h with
  | enters => rfl
  | fails noEntry | keeps noEntry | activates noEntry => simp [entry] at noEntry
  | leaves exit => simp [Step.not_opens_of_closes exit] at entry

theorem saved_of_plain (h : s.Does step reply s') (noEntry : step.opens = false)
    (noExit : step.closes = false) : s'.saved = s.saved := by
  cases h with
  | fails | keeps | activates => rfl
  | enters entry => simp [noEntry] at entry
  | leaves exit => simp [noExit] at exit

theorem eq_of_closes (h : s.Does step reply s') (exit : step.closes) {previous : Settings}
    {saved : List Settings} (scope : s.saved = previous :: saved) :
    s' = { active := previous, saved } ∧ ∃ r, reply = .ok r := by
  cases h with
  | fails _ none => simp [none exit] at scope
  | keeps _ noExit | activates _ noExit => simp [exit] at noExit
  | enters entry => simp [Step.not_opens_of_closes exit] at entry
  | leaves _ same =>
    obtain ⟨rfl, rfl⟩ := List.cons_eq_cons.mp (same.symm.trans scope)
    exact ⟨rfl, _, rfl⟩

end Does

/-- All settings that are active or can be so again have a positive width. -/
def Sound (s : Session) : Prop :=
  ∀ settings ∈ s.active :: s.saved, 1 ≤ settings.maxWidth

theorem Does.sound {s s' : Session} {step : Step} {reply : Except StepError Reply}
    (h : s.Does step reply s') (sound : s.Sound) : s'.Sound := by
  intro settings mem
  cases h with
  | fails | keeps => exact sound settings mem
  | activates _ _ _ positive =>
    rcases List.mem_cons.mp mem with rfl | mem
    · exact positive
    · exact sound settings (List.mem_cons_of_mem _ mem)
  | enters _ positive =>
    rcases List.mem_cons.mp mem with rfl | mem
    · exact positive
    · exact sound settings mem
  | leaves _ scope =>
    apply sound settings
    rw [scope]
    exact List.mem_cons_of_mem _ mem

/-- The session after some steps. -/
def runAll (s : Session) (steps : List Step) : Session :=
  steps.foldl (fun s step => (s.run step).2) s

theorem runAll_append (s : Session) (a b : List Step) : s.runAll (a ++ b) = (s.runAll a).runAll b :=
  List.foldl_append

theorem sound_runAll {s : Session} (h : s.Sound) (steps : List Step) : (s.runAll steps).Sound := by
  induction steps generalizing s with
  | nil => exact h
  | cons step steps ih => exact ih ((s.does_run step).sound h)

/-- Steps in which every scope that is entered is left, and no other one. -/
inductive Paired : List Step → Prop where
  | nil : Paired []
  | other {step : Step} {steps : List Step} :
      step.opens = false → step.closes = false → Paired steps → Paired (step :: steps)
  | scope {entry exit : Step} {inside steps : List Step} :
      entry.opens → Paired inside → exit.closes → Paired steps →
      Paired (entry :: (inside ++ exit :: steps))

/-- Steps in which no scope is left that was not entered. At the end, scopes may be open. -/
inductive WellNested : List Step → Prop where
  | paired {steps : List Step} : Paired steps → WellNested steps
  | opened {before steps : List Step} {entry : Step} :
      Paired before → entry.opens → WellNested steps → WellNested (before ++ entry :: steps)

/-- A scope gives the session back if what is done inside leaves the scopes around it alone. -/
theorem runAll_scope {entry exit : Step} {inside : List Step} (opens : entry.opens)
    (closes : exit.closes)
    (alone : ∀ s : Session, (s.runAll inside).saved = s.saved) (s : Session) :
    (∃ reply, ((s.runAll (entry :: inside)).run exit).1 = .ok reply) ∧
      s.runAll (entry :: (inside ++ [exit])) = s := by
  have entered : (s.runAll (entry :: inside)).saved = s.active :: s.saved :=
    (alone _).trans ((s.does_run entry).saved_of_opens opens)
  obtain ⟨back, done⟩ := ((s.runAll (entry :: inside)).does_run exit).eq_of_closes closes entered
  refine ⟨done, ?_⟩
  rw [← List.cons_append, runAll_append]
  exact back

theorem Paired.saved_runAll {steps : List Step} (h : Paired steps) (s : Session) :
    (s.runAll steps).saved = s.saved := by
  induction h generalizing s with
  | nil => rfl
  | other noEntry noExit _ ih => exact (ih _).trans ((s.does_run _).saved_of_plain noEntry noExit)
  | @scope entry exit inside steps opens _ closes _ alone ih =>
    have split : entry :: (inside ++ exit :: steps) = entry :: (inside ++ [exit]) ++ steps := by
      simp
    rw [split, runAll_append, ih, (runAll_scope opens closes alone s).2]

/-- An exit and the entry before it that it belongs to. -/
def Matched (before : List Step) : Prop :=
  ∃ front entry inside, before = front ++ entry :: inside ∧ entry.opens ∧ Paired inside

theorem Matched.behind {before : List Step} (h : Matched before) (more : List Step) :
    Matched (more ++ before) := by
  obtain ⟨front, entry, inside, rfl, opens, paired⟩ := h
  exact ⟨more ++ front, entry, inside, by simp, opens, paired⟩

theorem Paired.matched {steps : List Step} (h : Paired steps)
    {before after : List Step} {exit : Step}
    (split : steps = before ++ exit :: after) (closes : exit.closes) : Matched before := by
  induction h generalizing before after with
  | nil => simp at split
  | @other step steps _ noExit _ ih =>
    cases before with
    | nil =>
      obtain ⟨rfl, _⟩ := List.cons_eq_cons.mp split
      simp [closes] at noExit
    | cons _ before =>
      obtain ⟨rfl, later⟩ := List.cons_eq_cons.mp split
      exact (ih later).behind [step]
  | @scope entry exit' inside steps opens paired _ _ ihi ih =>
    cases before with
    | nil =>
      obtain ⟨rfl, _⟩ := List.cons_eq_cons.mp split
      simp [Step.not_opens_of_closes closes] at opens
    | cons _ before =>
      obtain ⟨rfl, later⟩ := List.cons_eq_cons.mp split
      rcases List.append_eq_append_iff.mp later with ⟨front, rfl, rest⟩ | ⟨front, within, rest⟩
      · cases front with
        | nil => exact ⟨[], entry, inside, by simp, opens, paired⟩
        | cons _ front =>
          obtain ⟨rfl, last⟩ := List.cons_eq_cons.mp rest
          simpa using (ih last).behind (entry :: (inside ++ [exit']))
      · cases front with
        | nil => exact ⟨[], entry, inside, by simp [within], opens, paired⟩
        | cons _ front =>
          obtain ⟨rfl, _⟩ := List.cons_eq_cons.mp rest
          exact (ihi within).behind [entry]

theorem WellNested.matched {steps : List Step} (h : WellNested steps) {before after : List Step}
    {exit : Step} (split : steps = before ++ exit :: after) (closes : exit.closes) :
    Matched before := by
  induction h generalizing before after with
  | paired h => exact h.matched split closes
  | @opened front steps entry paired opens _ ih =>
    rcases List.append_eq_append_iff.mp split with ⟨middle, rfl, rest⟩ | ⟨middle, rfl, rest⟩
    · cases middle with
      | nil =>
        obtain ⟨rfl, _⟩ := List.cons_eq_cons.mp rest
        simp [Step.not_opens_of_closes closes] at opens
      | cons _ middle =>
        obtain ⟨rfl, last⟩ := List.cons_eq_cons.mp rest
        simpa using (ih last).behind (front ++ [entry])
    · cases middle with
      | nil =>
        obtain ⟨rfl, _⟩ := List.cons_eq_cons.mp rest
        simp [Step.not_opens_of_closes closes] at opens
      | cons _ middle =>
        obtain ⟨rfl, _⟩ := List.cons_eq_cons.mp rest
        exact paired.matched rfl closes

/-- What a session promises over some steps, from the default settings on. -/
structure Safe (steps : List Step) : Prop where
  positive : ∀ before after, steps = before ++ after → 1 ≤ (runAll {} before).active.maxWidth
  failed : ∀ before step after e, steps = before ++ step :: after →
    ((runAll {} before).run step).1 = .error e → runAll {} (before ++ [step]) = runAll {} before
  called : ∀ before call after, steps = before ++ call :: after → call.isCall →
    runAll {} (before ++ [call]) = runAll {} before
  entered : ∀ before entry after, steps = before ++ entry :: after → entry.opens →
    (runAll {} (before ++ [entry])).saved = (runAll {} before).active :: (runAll {} before).saved
  matched : ∀ before exit after, steps = before ++ exit :: after → exit.closes → Matched before
  /-- Whatever is done inside of a scope, leaving it succeeds and gives back the session before
  it. -/
  restored : ∀ front entry inside exit after, steps = front ++ entry :: (inside ++ exit :: after) →
    entry.opens → Paired inside → exit.closes →
    (∃ reply, ((runAll {} (front ++ entry :: inside)).run exit).1 = .ok reply) ∧
      runAll {} (front ++ entry :: (inside ++ [exit])) = runAll {} front

/-- Sessions are safe as long as no scope is left that was not entered. -/
theorem safe_of_wellNested {steps : List Step} (h : WellNested steps) : Safe steps := by
  constructor
  case positive =>
    intro before after _
    have start : Sound {} := by simp [Sound, Settings.positive_default]
    exact sound_runAll start before _ (List.mem_cons_self ..)
  case failed =>
    intro before step after e _ failed
    have does := (runAll {} before).does_run step
    rw [failed] at does
    rw [runAll_append]
    exact does.eq_of_error
  case called =>
    intro before call after _ isCall
    rw [runAll_append]
    exact ((runAll {} before).does_run call).eq_of_isCall isCall
  case entered =>
    intro before entry after _ opens
    rw [runAll_append]
    exact ((runAll {} before).does_run entry).saved_of_opens opens
  case matched =>
    intro before exit after split closes
    exact h.matched split closes
  case restored =>
    intro front entry inside exit after _ opens paired closes
    rw [runAll_append, runAll_append]
    exact runAll_scope opens closes paired.saved_runAll _

/-- Inside of the scope two steps are refused, the settings are reset, and a second scope ends by an
error. -/
theorem safe_of_wellNested_reset :
    let front : List Step := [.set (some (.columns 40))]
    let inside : List Step :=
      [.load [("max_width", .text)], .enter (some (.columns 0)), .reset, .enter none,
      .format "(a".toList none, .leaveByError]
    let steps : List Step := front ++ .enter (some (.columns 6)) :: (inside ++ [.leave])
    WellNested steps ∧ Safe steps ∧ (runAll {} steps).active.maxWidth = 40 := by
  intro front inside steps
  have call : Paired [.format "(a".toList none] := .other rfl rfl .nil
  have inner : Paired [.enter none, .format "(a".toList none, .leaveByError] :=
    @Paired.scope (.enter none) .leaveByError _ [] rfl call rfl .nil
  have paired : Paired inside := .other rfl rfl (.other rfl rfl (.other rfl rfl inner))
  have nested : WellNested steps := .paired (.other rfl rfl (.scope rfl paired rfl .nil))
  have safe := safe_of_wellNested nested
  refine ⟨nested, safe, ?_⟩
  have back : runAll {} steps = runAll {} front :=
    (safe.restored front (.enter (some (.columns 6))) inside .leave [] rfl rfl paired rfl).2
  have width : (runAll {} front).active.maxWidth = 40 := rfl
  rw [back, width]

end Session

end SexprFormat
