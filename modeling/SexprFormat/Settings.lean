import SexprFormat.Format

/-!
The column budget, and sessions in which it is set for a while. A scope remembers the settings
that were active when it was entered and brings them back when it is left. A width is a whole number
of columns or a truth value; widths with a fraction are left out.
-/

namespace SexprFormat

/-- A width as it was given. A truth value counts as one column or none. -/
inductive Width where
  | columns (n : Int)
  | truth (b : Bool)
  deriving DecidableEq, Repr

namespace Width

def toInt : Width → Int
  | columns n => n
  | truth b => if b then 1 else 0

def text : Width → String
  | columns n => toString n
  | truth b => if b then "True" else "False"

end Width

structure Settings where
  width : Width := .columns 80
  deriving DecidableEq, Repr

instance : Inhabited Settings := ⟨{}⟩

def Settings.maxWidth (s : Settings) : Int :=
  s.width.toInt

/-- A value given for a setting. Of the numbers, only the whole ones are values here. -/
inductive Settings.Value where
  | width (width : Width)
  | text
  | null
  | list
  | table
  deriving DecidableEq, Repr

def Settings.Value.typeName : Value → String
  | width (.columns _) => "int"
  | width (.truth _) => "bool"
  | text => "str"
  | null => "NoneType"
  | list => "list"
  | table => "dict"

inductive SettingsError where
  | notPositive (width : Width)
  | notAnInteger (value : Settings.Value)
  deriving DecidableEq, Repr

def SettingsError.message : SettingsError → String
  | notPositive width => s!"max_width must be positive, got {width.text}"
  | notAnInteger value => s!"'<' not supported between instances of '{value.typeName}' and 'int'"

namespace Settings

/-- Settings with a given width, which has to be positive. -/
def ofWidth (width : Width) : Except SettingsError Settings :=
  if width.toInt < 1 then .error (.notPositive width) else .ok { width }

/-- Settings with a given width, or the default ones. -/
def ofWidth? : Option Width → Except SettingsError Settings
  | none => .ok {}
  | some width => ofWidth width

/-- Settings from named values. Names that are no settings are ignored. -/
def ofTable (table : List (String × Value)) : Except SettingsError Settings :=
  match table.lookup "max_width" with
  | none => .ok {}
  | some (.width width) => ofWidth width
  | some value => .error (.notAnInteger value)

end Settings

/-- The active settings, and those to come back to, innermost scope first. -/
structure Session where
  active : Settings := {}
  saved : List Settings := []
  deriving DecidableEq, Repr, Inhabited

namespace Session

inductive Step where
  | get
  | set (width? : Option Width)
  | load (table : List (String × Settings.Value))
  | reset
  | enter (width? : Option Width)
  | leave
  /-- Leaves a scope because of an error inside of it. -/
  | leaveByError
  | format (source : List Char) (width? : Option Int)
  | check (source : List Char) (width? : Option Int)
  | status (source : List Char) (width? : Option Int)
  deriving DecidableEq, Repr

inductive Reply where
  | done
  | width (width : Width)
  /-- The error that ended a scope goes on. -/
  | raised
  | text (text : List Char)
  | verdict (formatted : Bool)
  | status (text : List Char) (changed : Bool)
  deriving DecidableEq, Repr

inductive StepError where
  | settings (error : SettingsError)
  | format (error : FormatError)
  | noScope
  deriving DecidableEq, Repr

/-- There is no scope to leave. -/
def noScopeMessage : String := "pop from empty list"

def enter (s : Session) (settings : Settings) : Session :=
  { active := settings, saved := s.active :: s.saved }

/-- What a step does with the session. What it changed before an error stays changed. -/
abbrev Action := ExceptT StepError (StateM Session)

def activate (settings : Settings) : Action Unit :=
  modify fun s => { s with active := settings }

/-- Leaves the innermost scope. -/
def leave : Action Unit := do
  match (← get).saved with
  | [] => throw .noScope
  | previous :: saved => set ({ active := previous, saved } : Session)

/-- The width of a call: its own, or the active one. -/
def widthOf (width? : Option Int) : Action Int := do
  pure (width?.getD (← get).active.maxWidth)

def step : Step → Action Reply
  | .get => pure .done
  | .set width? => do
    let settings ← ofExcept ((Settings.ofWidth? width?).mapError .settings)
    activate settings
    pure .done
  | .load table => do
    let settings ← ofExcept ((Settings.ofTable table).mapError .settings)
    activate settings
    pure (.width settings.width)
  | .reset => do
    activate {}
    pure .done
  | .enter width? => do
    let settings ← ofExcept ((Settings.ofWidth? width?).mapError .settings)
    modify (·.enter settings)
    pure .done
  | .leave => do
    leave
    pure .done
  | .leaveByError => do
    leave
    pure .raised
  | .format source width? => do
    let width ← widthOf width?
    let text ← ofExcept ((SexprFormat.format none width source).mapError .format)
    pure (.text text)
  | .check source width? => do
    let width ← widthOf width?
    let formatted ← ofExcept ((isFormatted none width source).mapError .format)
    pure (.verdict formatted)
  | .status source width? => do
    let width ← widthOf width?
    let (text, changed) ← ofExcept ((formatStatus none width source).mapError .format)
    pure (.status text changed)

/-- One step: the reply and the session after it. -/
def run (s : Session) (step : Step) : Except StepError Reply × Session :=
  (Session.step step).run.run s

end Session

/-- A formatter with settings of its own. -/
structure Formatter where
  settings : Settings
  deriving DecidableEq, Repr, Inhabited

namespace Formatter

def ofWidth? (width? : Option Width) : Except SettingsError Formatter :=
  (Settings.ofWidth? width?).map Formatter.mk

def format (f : Formatter) (file? : Option String) (source : List Char) :
    Except FormatError (List Char) :=
  SexprFormat.format file? f.settings.maxWidth source

def check (f : Formatter) (file? : Option String) (source : List Char) : Except FormatError Bool :=
  isFormatted file? f.settings.maxWidth source

def status (f : Formatter) (file? : Option String) (source : List Char) :
    Except FormatError (List Char × Bool) :=
  formatStatus file? f.settings.maxWidth source

end Formatter

end SexprFormat
