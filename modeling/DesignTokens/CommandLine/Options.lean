import DesignTokens.History.Detector
import DesignTokens.Text.Integer
import DesignTokens.Text.Lines
import DesignTokens.Text.Quoted

/-!
# Options

What the arguments of the command line ask for. Every argument is first read on its own, as an
option, as text or as the mark after which everything is text; then values are taken from the
arguments after their options. Long options may be shortened as long as it is clear which one is
meant. The first fault found decides the refusal.
-/

namespace DesignTokens.CommandLine

/-- The options. -/
inductive OptionName
  | help
  | config
  | team
  | preset
  | json
  | markdown
  | htmlReport
  | noReport
  | changes
  | recent
  | quiet
  deriving DecidableEq, Repr, Inhabited

namespace OptionName

/-- The spellings of the options. -/
def spellings : List (String × OptionName) :=
  [ ("-h", help), ("--help", help), ("--config", config), ("--team", team), ("--preset", preset),
    ("--json", json), ("--markdown", markdown), ("--html-report", htmlReport),
    ("--no-report", noReport), ("--changes", changes), ("--recent", recent), ("--quiet", quiet) ]

/-- Whether an option takes a value. -/
def takesValue : OptionName → Bool
  | config | team | preset | recent => true
  | _ => false

/-- All spellings of an option. -/
def title (o : OptionName) : String :=
  String.intercalate "/" ((spellings.filter fun s => s.2 = o).map (·.1))

end OptionName

/-- Why arguments are refused. -/
inductive Refusal
  /-- A shortened option may be one of several. -/
  | ambiguous (given : String) (candidates : List String)
  /-- A value is given to an option that takes none. -/
  | unexpectedValue (option : OptionName) (value : List Char)
  /-- An option without its value. -/
  | missingValue (option : OptionName)
  /-- A value that must be a whole number is none. -/
  | notANumber (option : OptionName) (value : String)
  /-- Arguments that mean nothing. -/
  | unrecognized (arguments : List String)
  deriving DecidableEq, Repr

/-- The wording of a refusal. -/
def Refusal.message : Refusal → String
  | .ambiguous given candidates =>
    "ambiguous option: " ++ given ++ " could match " ++ String.intercalate ", " candidates
  | .unexpectedValue option value =>
    "argument " ++ option.title ++ ": ignored explicit argument " ++
      String.ofList (Text.quote value)
  | .missingValue option => "argument " ++ option.title ++ ": expected one argument"
  | .notANumber option value =>
    "argument " ++ option.title ++ ": invalid int value: " ++ Text.quoteString value
  | .unrecognized arguments =>
    "unrecognized arguments: " ++ String.intercalate " " arguments

/-- Why arguments do not lead to a run. -/
inductive Stop
  /-- They ask for help. -/
  | help
  | refused (refusal : Refusal)
  deriving DecidableEq, Repr

/-- What the arguments ask for. -/
structure Options where
  directory : Option String
  config : Option String
  team : Option String
  preset : Option String
  json : Bool
  markdown : Bool
  htmlReport : Bool
  noReport : Bool
  changes : Bool
  recent : Option Lookback
  quiet : Bool
  deriving DecidableEq, Repr, Inhabited

/-- What no arguments ask for. -/
def Options.none : Options :=
  { directory := .none
    config := .none
    team := .none
    preset := .none
    json := false
    markdown := false
    htmlReport := false
    noReport := false
    changes := false
    recent := .none
    quiet := false }

/-- An argument read on its own. -/
inductive Word
  /-- A text. -/
  | plain (text : String)
  /-- The mark after which everything is text. -/
  | mark
  /-- An option, perhaps with the value after its equals sign. -/
  | long (option : OptionName) (value : Option (List Char))
  /-- The short option with what follows it in the same argument, less an equals sign between
  them. -/
  | short (rest : List Char)
  /-- Something that looks like an option but is none. -/
  | unknown (text : String)
  deriving DecidableEq, Repr, Inhabited

namespace Word

/-- The text before the first equals sign, and the one after it if there is one. -/
def cutAtEquals (s : List Char) : List Char × Option (List Char) :=
  match s.dropWhile (· ≠ '=') with
  | [] => (s, none)
  | _ :: value => (s.takeWhile (· ≠ '='), some value)

/-- Whether a text looks like a negative number; one line feed may follow it. -/
def isNegativeNumber : List Char → Bool
  | '-' :: s =>
    let body := if s.getLast? = some '\n' then s.dropLast else s
    match body.dropWhile Text.isDigit with
    | [] => !body.isEmpty
    | '.' :: fraction => !fraction.isEmpty && fraction.all Text.isDigit
    | _ => false
  | _ => false

/-- The word for a text with a dash before it that is no spelling of an option. -/
def withoutSpelling (text : String) : Word :=
  if isNegativeNumber text.toList || text.toList.contains ' ' then .plain text else .unknown text

/-- The word for a text with two dashes before it, which may be a shortened option. -/
def shortened (text : String) : Except Refusal Word :=
  let (name, value) := cutAtEquals text.toList
  match OptionName.spellings.filter fun s => name.isPrefixOf s.1.toList with
  | [] => .ok (withoutSpelling text)
  | [(_, option)] => .ok (.long option value)
  | several => .error (.ambiguous text (several.map (·.1)))

/-- The word for a text with a dash before it. -/
def dashed (text : String) : Except Refusal Word :=
  let (name, value) := cutAtEquals text.toList
  match OptionName.spellings.lookup text with
  | some option => .ok (.long option none)
  | none =>
    match value, OptionName.spellings.lookup (String.ofList name) with
    | some value, some option =>
      if text.toList.take 2 = ['-', '-'] then .ok (.long option (some value)) else .ok (.short value)
    | _, _ =>
      match text.toList with
      | '-' :: '-' :: _ => shortened text
      | ['-'] => .ok (.plain text)
      | '-' :: 'h' :: rest => .ok (.short rest)
      | _ => .ok (withoutSpelling text)

/-- Reads arguments on their own; after the mark everything is text. -/
def readAll : List String → Except Refusal (List Word)
  | [] => .ok []
  | "--" :: rest => .ok (.mark :: rest.map .plain)
  | text :: rest => do
    let word ← if text.toList.head? = some '-' then dashed text else .ok (.plain text)
    .ok (word :: (← readAll rest))

/-- The text of an argument. -/
def text : Word → String
  | .plain text | .unknown text => text
  | .mark => "--"
  | .long option _ => option.title
  | .short rest => String.ofList ('-' :: 'h' :: rest)

end Word

/-- What the short option with something after it in its argument leads to: the same option may
follow again and again, but nothing else, and something has to follow. -/
def shortOptions (rest : List Char) : Stop :=
  match rest.dropWhile (· = 'h') with
  | [] => if rest.isEmpty then .refused (.unexpectedValue .help []) else .help
  | value => .refused (.unexpectedValue .help value)

/-- Sets an option without a value. -/
def Options.turnOn (o : Options) : OptionName → Options
  | .json => { o with json := true }
  | .markdown => { o with markdown := true }
  | .htmlReport => { o with htmlReport := true }
  | .noReport => { o with noReport := true }
  | .changes => { o with changes := true }
  | .quiet => { o with quiet := true }
  | _ => o

/-- Sets an option to a value. -/
def Options.give (o : Options) (option : OptionName) (value : String) : Except Refusal Options :=
  match option with
  | .config => .ok { o with config := some value }
  | .team => .ok { o with team := some value }
  | .preset => .ok { o with preset := some value }
  | .recent =>
    match Text.Integer.parse value.toList with
    | .ok hours => .ok { o with recent := some (.hours hours) }
    | .error _ => .error (.notANumber option value)
  | _ => .ok o

/-- Sets an option to the mark after an equals sign, which is no value: a text is not given, and a
span of time has nothing in it. -/
def Options.giveMark (o : Options) : OptionName → Options
  | .config => { o with config := .none }
  | .team => { o with team := .none }
  | .preset => { o with preset := .none }
  | .recent => { o with recent := some .nothing }
  | _ => o

/-- What has been read of the arguments: the options, whether the directory has been decided, and
the arguments that mean nothing so far. -/
structure Reading where
  options : Options
  decided : Bool
  extra : List String
  deriving DecidableEq, Repr, Inhabited

namespace Reading

/-- Takes a text: the first one is the directory. -/
def plain (r : Reading) (text : String) : Reading :=
  if r.decided then { r with extra := r.extra ++ [text] }
  else { r with options := { r.options with directory := some text }, decided := true }

/-- Takes options and texts in order. Directly after the directory the mark has no further
meaning. -/
def take : Reading → List Word → Except Stop Reading
  | r, [] => .ok r
  | r, .mark :: rest =>
    if r.decided then .ok { r with extra := r.extra ++ "--" :: rest.map Word.text }
    else .ok (rest.foldl (fun r word => r.plain word.text) r)
  | r, .plain text :: .mark :: rest =>
    if r.decided then .ok { r with extra := r.extra ++ text :: "--" :: rest.map Word.text }
    else .ok (rest.foldl (fun r word => r.plain word.text) (r.plain text))
  | r, .plain text :: rest => take (r.plain text) rest
  | r, .unknown text :: rest => take { r with extra := r.extra ++ [text] } rest
  | _, .short rest :: _ => .error (shortOptions rest)
  | r, .long option (some value) :: rest =>
    if !option.takesValue then .error (.refused (.unexpectedValue option value))
    else if value = ['-', '-'] then take { r with options := r.options.giveMark option } rest
    else
      match r.options.give option (String.ofList value) with
      | .ok options => take { r with options := options } rest
      | .error refusal => .error (.refused refusal)
  | r, .long option none :: rest =>
    if option = .help then .error .help
    else if option.takesValue then
      match rest with
      | .plain text :: rest =>
        match r.options.give option text with
        | .ok options => take { r with options := options } rest
        | .error refusal => .error (.refused refusal)
      | _ => .error (.refused (.missingValue option))
    else take { r with options := r.options.turnOn option } rest

end Reading

/-- Reads the arguments of the command line. -/
def Options.ofArguments (arguments : List String) : Except Stop Options := do
  let words ← match Word.readAll arguments with
    | .ok words => Except.ok words
    | .error refusal => .error (.refused refusal)
  let reading ← Reading.take ⟨.none, false, []⟩ words
  if reading.extra.isEmpty then .ok reading.options
  else .error (.refused (.unrecognized reading.extra))

end DesignTokens.CommandLine
