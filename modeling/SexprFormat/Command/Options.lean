import SexprFormat.Text.Numeral
import SexprFormat.Text.Quoted

/-!
The command line. Each argument is an option, a plain argument, or the mark after which all are
plain. Long options may be shortened as long as they stay distinct, short ones may be written
together, and a value may be glued to its option. The first run of plain arguments names the
files; any other plain argument is not expected.
-/

namespace SexprFormat.Command

inductive Switch where
  | help
  | check
  | ignore
  | verbose
  | width
  | debug
  | version
  deriving DecidableEq, Repr

namespace Switch

/-- All spellings, in the order in which they are told. -/
def spellings : List (String × Switch) :=
  [("-h", help), ("--help", help), ("--check", check), ("-c", check), ("--ignore", ignore),
   ("-i", ignore), ("--verbose", verbose), ("-v", verbose), ("--width", width), ("-w", width),
   ("--debug", debug), ("--version", version)]

def ofSpelling? (spelling : String) : Option Switch :=
  spellings.lookup spelling

/-- An option in messages. -/
def label (s : Switch) : String :=
  "/".intercalate ((spellings.filter (·.2 = s)).map (·.1))

def takesValue : Switch → Bool
  | ignore | width => true
  | help | check | verbose | debug | version => false

end Switch

inductive UsageError where
  | ambiguous (argument : String) (spellings : List String)
  | valueMissing (switch : Switch)
  | valueUnexpected (switch : Switch) (value : String)
  | notAnInteger (switch : Switch) (value : String)
  | unrecognized (arguments : List String)
  | widthNotPositive (width : Int)
  deriving DecidableEq, Repr

namespace UsageError

def quotedArgument (s : String) : String :=
  String.ofList (Text.quoted s.toList)

def message : UsageError → String
  | ambiguous argument spellings =>
    s!"ambiguous option: {argument} could match " ++ ", ".intercalate spellings
  | valueMissing switch => s!"argument {switch.label}: expected one argument"
  | valueUnexpected switch value =>
    s!"argument {switch.label}: ignored explicit argument {quotedArgument value}"
  | notAnInteger switch value =>
    s!"argument {switch.label}: invalid int value: {quotedArgument value}"
  | unrecognized arguments => "unrecognized arguments: " ++ " ".intercalate arguments
  | widthNotPositive width => s!"--width must be positive, got {width}"

end UsageError

/-- What an argument is. -/
inductive Word where
  | plain
  /-- All arguments after this one are plain. -/
  | mark
  /-- An option, as it is spelled, and what is glued to it: `6` in `--width=6` and in `-w6`. -/
  | option (switch : Switch) (spelling : String) (glued? : Option String)
  /-- It looks like an option, and there is none like it. -/
  | unknownOption
  deriving DecidableEq, Repr

namespace Word

/-- A text up to the first equals sign, and what stands behind that. -/
def splitEquals (s : List Char) : List Char × Option (List Char) :=
  match s.dropWhile (· ≠ '=') with
  | [] => (s, none)
  | _ :: value => (s.takeWhile (· ≠ '='), some value)

/-- A minus sign with digits after it, and perhaps a point before the last of them. One line feed
at the end does not count. -/
def isNegativeNumber (s : List Char) : Bool :=
  let isDigit (c : Char) : Bool := (Text.digitValue? c).isSome
  let s := if s.getLast? = some '\n' then s.dropLast else s
  match s with
  | '-' :: rest =>
    match rest.dropWhile isDigit with
    | [] => !rest.isEmpty
    | '.' :: fraction => !fraction.isEmpty && fraction.all isDigit
    | _ => false
  | _ => false

/-- The options that a long spelling, perhaps shortened, can mean. -/
def longOptions (argument : List Char) : List (Switch × String × Option String) :=
  let (name, value?) := splitEquals argument
  (Switch.spellings.filter fun (spelling, _) => name.isPrefixOf spelling.toList).map
    fun (spelling, switch) => (switch, spelling, value?.map String.ofList)

/-- The option that a short spelling with something glued to it means. -/
def shortOptions (argument : List Char) : List (Switch × String × Option String) :=
  let spelling := String.ofList (argument.take 2)
  (Switch.ofSpelling? spelling).toList.map
    fun switch => (switch, spelling, some (String.ofList (argument.drop 2)))

/-- An argument that starts with a dash and is no spelling of an option. -/
def ofDashed (argument : String) : Except UsageError Word :=
  let s := argument.toList
  let candidates := if s[1]? = some '-' then longOptions s else shortOptions s
  match candidates with
  | [(switch, spelling, glued?)] => .ok (.option switch spelling glued?)
  | [] => .ok (if isNegativeNumber s || s.contains ' ' then .plain else .unknownOption)
  | _ => .error (.ambiguous argument (candidates.map (·.2.1)))

def ofArgument (argument : String) : Except UsageError Word :=
  match argument.toList with
  | '-' :: rest =>
    match Switch.ofSpelling? argument with
    | some switch => .ok (.option switch argument none)
    | none =>
      if rest.isEmpty then .ok .plain
      else match splitEquals argument.toList with
        | (name, some value) =>
          match Switch.ofSpelling? (String.ofList name) with
          | some switch =>
            .ok (.option switch (String.ofList name) (some (String.ofList value)))
          | none => ofDashed argument
        | (_, none) => ofDashed argument
  | _ => .ok .plain

/-- What each argument is. -/
def classify : List String → Except UsageError (List (String × Word))
  | [] => .ok []
  | "--" :: rest => .ok (("--", .mark) :: rest.map (·, .plain))
  | argument :: rest => do
    let word ← ofArgument argument
    let words ← classify rest
    pure ((argument, word) :: words)

def isPlain : Word → Bool
  | plain | mark => true
  | option _ _ _ | unknownOption => false

end Word

structure Options where
  /-- Nothing until the first run of plain arguments is met. -/
  paths? : Option (List String) := none
  check : Bool := false
  /-- The patterns for files to ignore, nothing for one that is not given. -/
  ignore : List (Option String) := []
  verbose : Bool := false
  /-- Nothing if it is asked for and not given. -/
  width? : Option Int := some 80
  debug : Bool := false
  /-- Arguments that have no meaning. -/
  extras : List String := []
  deriving DecidableEq, Repr, Inhabited

namespace Options

def paths (o : Options) : List String :=
  o.paths?.getD []

def width (o : Options) : Int :=
  o.width?.getD 80

/-- What ends the reading of a command line early. -/
inductive Stop where
  | help
  | version
  | error (error : UsageError)
  | noWidth
  deriving DecidableEq, Repr

/-- An option with its value, if it takes one and one is given. -/
structure Setting where
  switch : Switch
  value? : Option String := none
  deriving DecidableEq, Repr

def apply (o : Options) (s : Setting) : Except Stop Options :=
  match s.switch with
  | .help => .error .help
  | .version => .error .version
  | .check => .ok { o with check := true }
  | .verbose => .ok { o with verbose := true }
  | .debug => .ok { o with debug := true }
  | .ignore => .ok { o with ignore := o.ignore ++ [s.value?] }
  | .width =>
    match s.value? with
    | none => .ok { o with width? := none }
    | some value =>
      match Text.integer? value.toList with
      | some width => .ok { o with width? := some width }
      | none => .error (.error (.notAnInteger .width value))

/-- An option with a value glued to it. The mark `--` is no value. -/
def Setting.ofGlued (switch : Switch) (value : String) : Setting :=
  { switch, value? := if value = "--" then none else some value }

/-- What the options in one argument set. -/
structure Cluster where
  settings : List Setting := []
  /-- The last option still needs a value from the next argument. -/
  open? : Option Switch := none
  deriving DecidableEq, Repr

namespace Cluster

/-- An option with nothing glued to it. -/
def ofSwitch (switch : Switch) : Cluster :=
  if switch.takesValue then { open? := some switch } else { settings := [{ switch }] }

/-- A cluster with an option in front. -/
def cons (switch : Switch) (c : Cluster) : Cluster :=
  { c with settings := { switch } :: c.settings }

/-- A short option and what is glued to it: its value, if it takes one, else more short options. -/
def read (switch : Switch) : List Char → Except UsageError Cluster
  | [] =>
    if switch.takesValue then .ok { settings := [.ofGlued switch ""] }
    else .error (.valueUnexpected switch "")
  | c :: rest =>
    if switch.takesValue then .ok { settings := [.ofGlued switch (String.ofList (c :: rest))] }
    else match Switch.ofSpelling? (String.ofList ['-', c]) with
      | none => .error (.valueUnexpected switch (String.ofList (c :: rest)))
      | some next =>
        if rest.isEmpty then .ok ((ofSwitch next).cons switch)
        else (read next rest).map (cons switch)

/-- What an option in one argument sets. Nothing can be glued to a long option that takes no
value. -/
def ofOption (switch : Switch) (spelling : String) (glued? : Option String) :
    Except UsageError Cluster :=
  match glued? with
  | none => .ok (ofSwitch switch)
  | some glued =>
    if !switch.takesValue && spelling.toList[1]? = some '-' then
      .error (.valueUnexpected switch glued)
    else read switch glued.toList

end Cluster

/-- Reads arguments from left to right. -/
def consume (o : Options) : List (String × Word) → Except Stop Options
  | [] => .ok o
  | (_, .option switch spelling glued?) :: rest => do
    let found ← (Cluster.ofOption switch spelling glued?).mapError .error
    match found.open?, rest with
    | none, rest => consume (← found.settings.foldlM apply o) rest
    | some needy, (value, .plain) :: rest =>
      consume (← (found.settings ++ [Setting.mk needy (some value)]).foldlM apply o) rest
    | some needy, _ => .error (.error (.valueMissing needy))
  | (argument, .unknownOption) :: rest => consume { o with extras := o.extras ++ [argument] } rest
  | (argument, _) :: rest =>
    let others := rest.takeWhile (·.2.isPlain)
    let run := argument :: others.map (·.1)
    let o := match o.paths? with
      | none => { o with paths? := some (run.erase "--") }
      | some _ => { o with extras := o.extras ++ run }
    consume o (rest.drop others.length)
termination_by words => words.length

/-- The options of a command line, or why there are none. -/
def parse (arguments : List String) : Except Stop Options := do
  let words ← (Word.classify arguments).mapError .error
  let o ← consume {} words
  if !o.extras.isEmpty then .error (.error (.unrecognized o.extras))
  else match o.width? with
    | none => .error .noWidth
    | some width => if width < 1 then .error (.error (.widthNotPositive width)) else .ok o

end Options

end SexprFormat.Command
