/-
The arguments of the command. Switches stand alone, settings take a value;
both have a letter, and letters of switches may share one dash. A setting's
value follows its letter at once, behind any number of equals signs, or is
the next argument unless that starts an option itself. After two dashes
every argument is a file. Consumed by the run of the command.
-/
import MiniC.Integer
import MiniC.Text.Quoted

namespace MiniC.CommandLine

-- =============================================================== options

/-- Options without a value. -/
inductive Switch where
  | dumpTree
  | timing
  | printAssembly
  | dumpLowered
  | quiet
  | noAssemble
  | unformatted
deriving DecidableEq, Repr

/-- Options with a value. -/
inductive Setting where
  | level
  | machine
  | feature
  | warning
  | output
deriving DecidableEq, Repr

namespace Switch

/-- Every switch. -/
def all : List Switch :=
  [.dumpTree, .timing, .printAssembly, .dumpLowered, .quiet, .noAssemble, .unformatted]

/-- The letter of a switch, if it has one. -/
def letter? : Switch → Option Char
  | .dumpTree => some 'd'
  | .timing => some 't'
  | .printAssembly => some 'a'
  | .dumpLowered => none
  | .quiet => some 'q'
  | .noAssemble => some 'S'
  | .unformatted => none

/-- The word of a switch. -/
def word : Switch → String
  | .dumpTree => "dump-ast"
  | .timing => "show_timing"
  | .printAssembly => "asm"
  | .dumpLowered => "dump-ir"
  | .quiet => "quiet"
  | .noAssemble => "no-assemble"
  | .unformatted => "asm-no-format"

/-- The switch of a letter. -/
def ofLetter? (c : Char) : Option Switch := all.find? (·.letter? == some c)

/-- The switch of a word. -/
def ofWord? (word : String) : Option Switch := all.find? (·.word == word)

end Switch

namespace Setting

/-- Every setting. -/
def all : List Setting := [.level, .machine, .feature, .warning, .output]

/-- The letter of a setting. -/
def letter : Setting → Char
  | .level => 'O'
  | .machine => 'm'
  | .feature => 'f'
  | .warning => 'W'
  | .output => 'o'

/-- Whether a setting may be given more than once. -/
def isRepeatable : Setting → Bool
  | .machine | .feature | .warning => true
  | .level | .output => false

/-- The setting of a letter. -/
def ofLetter? (c : Char) : Option Setting := all.find? (·.letter == c)

/-- The values of a setting that mean something; any value is taken. -/
def known : Setting → List String
  | .machine => ["no-red-zone"]
  | .feature => ["diagnostics-colour", "diagnostics-color"]
  | .warning => ["error"]
  | .level | .output => []

end Setting

-- =============================================================== reading

/-- Why the arguments are refused. -/
inductive UsageError where
  | unknownOption (option : String)
  | repeatedSwitch (switch : Switch)
  | repeatedSetting (setting : Setting)
  | missingValue (setting : Setting)
  | missingFile
  | extraFile (file : String)
deriving DecidableEq, Repr

/-- The refusal in words. -/
def UsageError.message : UsageError → String
  | .unknownOption option => "unknown option '" ++ option ++ "'"
  | .repeatedSwitch switch => "option '--" ++ switch.word ++ "' given more than once"
  | .repeatedSetting setting => "option '-" ++ setting.letter.toString ++ "' given more than once"
  | .missingValue setting => "option '-" ++ setting.letter.toString ++ "' needs a value"
  | .missingFile => "no input file"
  | .extraFile file => "more than one input file: '" ++ file ++ "'"

/-- The arguments read so far, each kind in the order it was given. -/
structure Given where
  files : List String
  switches : List Switch
  settings : List Setting
  values : List (Setting × String)
deriving DecidableEq, Repr

namespace Given

/-- No argument is read yet. -/
def nothing : Given := ⟨[], [], [], []⟩

/-- Adds a file. -/
def addFile (g : Given) (file : String) : Given := { g with files := g.files ++ [file] }

/-- Adds a switch. -/
def addSwitch (g : Given) (switch : Switch) : Given :=
  { g with switches := g.switches ++ [switch] }

/-- Adds the mention of a setting. -/
def addSetting (g : Given) (setting : Setting) : Given :=
  { g with settings := g.settings ++ [setting] }

/-- Adds the value of a setting. -/
def addValue (g : Given) (setting : Setting) (value : String) : Given :=
  { g with values := g.values ++ [(setting, value)] }

/-- The values of a setting in order. -/
def valuesOf (g : Given) (setting : Setting) : List String :=
  g.values.filterMap fun v => if v.1 = setting then some v.2 else none

end Given

/-- Whether an argument starts an option; a lone dash does not. -/
def startsOption (arg : String) : Bool :=
  match arg.toList with
  | '-' :: _ :: _ => true
  | _ => false

/-- Reads the letters behind a dash. The second result is the setting that
still waits for its value. -/
def readLetters (g : Given) : List Char → Except UsageError (Given × Option Setting)
  | [] => .ok (g, none)
  | c :: rest =>
    match Setting.ofLetter? c with
    | some setting =>
      let g := g.addSetting setting
      if rest.isEmpty then .ok (g, some setting)
      else .ok (g.addValue setting (String.ofList (rest.dropWhile (· == '='))), none)
    | none =>
      match Switch.ofLetter? c with
      | some switch => readLetters (g.addSwitch switch) rest
      | none => .error (.unknownOption ("-" ++ c.toString))

/-- Reads the word behind two dashes or more; what follows an equals sign
is ignored. -/
def readWord (g : Given) (arg : String) : Except UsageError (Given × Option Setting) :=
  let word := String.ofList ((arg.toList.dropWhile (· == '-')).takeWhile (· != '='))
  match Switch.ofWord? word with
  | some switch => .ok (g.addSwitch switch, none)
  | none => .error (.unknownOption arg)

/-- Reads an argument that starts an option. -/
def readOption (g : Given) (arg : String) : Except UsageError (Given × Option Setting) :=
  match arg.toList with
  | '-' :: '-' :: _ => readWord g arg
  | _ :: letters => readLetters g letters
  | [] => .ok (g, none)

/-- Reads arguments in order; `waiting` is the setting before them that has
no value yet. -/
def readArgs (g : Given) (waiting : Option Setting) : List String → Except UsageError Given
  | [] => .ok g
  | arg :: rest =>
    if arg = "--" then .ok (rest.foldl Given.addFile g)
    else if startsOption arg then do
      let (g, waiting) ← readOption g arg
      readArgs g waiting rest
    else
      match waiting with
      | some setting => readArgs (g.addValue setting arg) none rest
      | none => readArgs (g.addFile arg) none rest

-- ============================================================== checking

/-- The options of a run. -/
structure Options where
  file : String
  switches : List Switch
  values : List (Setting × String)
deriving DecidableEq, Repr

namespace Given

/-- The first switch that is given twice. -/
def repeatedSwitch? (g : Given) : Option Switch :=
  g.switches.find? fun s => g.switches.count s > 1

/-- The first setting that is given twice and must not be. -/
def repeatedSetting? (g : Given) : Option Setting :=
  g.settings.find? fun s => !s.isRepeatable && g.settings.count s > 1

/-- The first setting that got no value at any mention. -/
def missingValue? (g : Given) : Option Setting :=
  g.settings.find? fun s => (g.valuesOf s).isEmpty

/-- Accepts arguments that name one file, give no switch twice, and give
every setting a value. -/
def check (g : Given) : Except UsageError Options := do
  if let some switch := g.repeatedSwitch? then throw (.repeatedSwitch switch)
  if let some setting := g.repeatedSetting? then throw (.repeatedSetting setting)
  if let some setting := g.missingValue? then throw (.missingValue setting)
  match g.files with
  | [] => throw .missingFile
  | [file] => return ⟨file, g.switches, g.values⟩
  | _ :: file :: _ => throw (.extraFile file)

end Given

namespace Options

/-- Reads the arguments of the command. -/
def ofArgs (args : List String) : Except UsageError Options := do
  let given ← readArgs .nothing none args
  given.check

/-- Whether a switch is on. -/
def has (o : Options) (switch : Switch) : Bool := o.switches.contains switch

/-- The values of a setting in order. -/
def valuesOf (o : Options) (setting : Setting) : List String :=
  o.values.filterMap fun v => if v.1 = setting then some v.2 else none

/-- The value of a setting that is given at most once. -/
def value? (o : Options) (setting : Setting) : Option String := (o.valuesOf setting).head?

/-- Whether the area below the stack pointer must not be used. -/
def noRedZone (o : Options) : Bool := (o.valuesOf .machine).contains "no-red-zone"

/-- Whether diagnostics are coloured. -/
def colour (o : Options) : Bool :=
  (o.valuesOf .feature).any fun v => Setting.feature.known.contains v

/-- Whether warnings count as errors. -/
def strict (o : Options) : Bool := (o.valuesOf .warning).contains "error"

/-- Whether a text is an optimization level: a number up to 255. -/
def isLevel (text : String) : Bool :=
  let digits :=
    match text.toList with
    | '+' :: digits => digits
    | digits => digits
  (Integer.natOfText? digits).any (· ≤ 255)

/-- What is said about levels that are none. -/
def levelWarnings (o : Options) : List String :=
  (o.valuesOf .level).filterMap fun v =>
    if isLevel v then none else some ("unknown optimization level value=" ++ Text.quote v)

/-- What is said about values of a setting that mean nothing. -/
def unknownWarnings (o : Options) (setting : Setting) : List String :=
  (o.valuesOf setting).filterMap fun v =>
    if setting.known.contains v then none
    else some ("ignoring unknown option '-" ++ setting.letter.toString ++ v ++ "'")

/-- What is said about the options before the run. -/
def warnings (o : Options) : List String :=
  o.levelWarnings ++ [Setting.machine, .feature, .warning].flatMap o.unknownWarnings

end Options

end MiniC.CommandLine
