import DesignTokens.Text.Integer
import DesignTokens.Text.Utf8
import DesignTokens.Value.Display
import DesignTokens.Value.Parser

/-!
# Causes of failure

Everything that can stop an operation, as data: each cause carries what its wording needs, and
`Failure.message` is the only place where causes are put into words. Causes that are reported
without words have no message.
-/

namespace DesignTokens

/-- Why an operation on a file or directory was refused. -/
inductive FileFault
  | missing
  | alreadyThere
  | notDirectory
  | isDirectory
  /-- A name or a whole path has more bytes than it may have. -/
  | nameTooLong
  deriving DecidableEq, Repr

/-- A refused operation with the path it was given. -/
structure FileError where
  fault : FileFault
  path : String
  deriving DecidableEq, Repr

/-- The wording of a refusal: its number, its text and the quoted path. -/
def FileError.message (e : FileError) : String :=
  let text := match e.fault with
    | .missing => "[Errno 2] No such file or directory"
    | .alreadyThere => "[Errno 17] File exists"
    | .notDirectory => "[Errno 20] Not a directory"
    | .isDirectory => "[Errno 21] Is a directory"
    | .nameTooLong => "[Errno 36] File name too long"
  text ++ ": " ++ Text.quoteString e.path

/-- How a command of the version control system fails. -/
inductive GitFault
  | general
  | invalidRepository
  | noSuchPath
  | system
  | attribute
  | value
  deriving DecidableEq, Repr

/-- Whether a fault is one of the version control system itself. -/
def GitFault.isGit : GitFault → Bool
  | .general | .invalidRepository | .noSuchPath => true
  | _ => false

/-- Why the configuration cannot be used. -/
inductive SettingsFault
  /-- The file is not a JSON document. -/
  | malformed (path : String) (document : List Char) (complaint : Value.Complaint) (position : Nat)
  /-- The file cannot be read. -/
  | unreadable (path : String) (error : FileError)
  /-- The document is not an object. -/
  | notObject (path : String)
  /-- A setting that must be a list is of another kind. -/
  | notList (key kind : String)
  /-- An item of a list of objects is not an object. -/
  | notEntry (key : String) (index : Nat) (item : Value)
  /-- A token definition has no name. -/
  | unnamed (index : Nat) (entry : Value)
  /-- There is no set of token formats with this name. -/
  | unknownPreset (name : String)
  deriving Repr

/-- The wording of a fault of the configuration. -/
def SettingsFault.message : SettingsFault → String
  | .malformed path document complaint position =>
    "Invalid JSON in " ++ path ++ ": " ++ complaint.located document position
  | .unreadable path error => "Cannot read " ++ path ++ ": " ++ error.message
  | .notObject path => path ++ " must contain a JSON object"
  | .notList key kind => "'" ++ key ++ "' must be a list, got " ++ kind
  | .notEntry key index item =>
    "'" ++ key ++ "[" ++ toString index ++ "]' must be an object, got " ++ item.quotedString
  | .unnamed index entry =>
    "'custom_token_definitions[" ++ toString index ++ "]' has no name: " ++ entry.quotedString
  | .unknownPreset name =>
    "Unknown token format preset '" ++ name ++ "' (known: canon, default)"

/-- Why there is no directory to search. -/
inductive RootFault
  | absent (root : String)
  | notDirectory (root : String)
  | localAbsent (location : String)
  deriving DecidableEq, Repr

/-- The wording of a missing directory. -/
def RootFault.message : RootFault → String
  | .absent root => "Repository path does not exist: " ++ root
  | .notDirectory root => "Repository path is not a directory: " ++ root
  | .localAbsent location => "Local repository path does not exist: " ++ location

/-- Why a value cannot be used where it stands. -/
inductive ValueFault
  /-- A text does not spell a whole number. -/
  | notInteger (text : Spelling)
  /-- A whole number has more digits than the limit. -/
  | tooManyDigits (digits : Nat)
  /-- A whole number that is to be written has more digits than the limit. -/
  | unwritable
  /-- Not a number has no whole part. -/
  | notANumber
  /-- A repository entry says nowhere where the repository is. -/
  | noLocation (entry : Members)
  /-- A path contains the character that ends paths. -/
  | nulInPath
  /-- A text is none of the words for a domain. -/
  | notAWord (text domain : String)
  deriving Repr

/-- The wording of a fault of a value; a text that is no number is shown up to 200 characters of
its quoted form. -/
def ValueFault.message : ValueFault → String
  | .notInteger text =>
    "invalid literal for int() with base 10: " ++ String.ofList ((Text.quoteSpelling text).take 200)
  | .tooManyDigits digits =>
    "Exceeds the limit (4300 digits) for integer string conversion: value has " ++
      toString digits ++ " digits; use sys.set_int_max_str_digits() to increase the limit"
  | .unwritable =>
    "Exceeds the limit (4300 digits) for integer string conversion; " ++
      "use sys.set_int_max_str_digits() to increase the limit"
  | .notANumber => "cannot convert float NaN to integer"
  | .noLocation entry =>
    "Repository entry has no url/location: " ++ (Value.object entry).quotedString
  | .nulInPath => "embedded null byte"
  | .notAWord text domain => Text.quoteString text ++ " is not a valid " ++ domain

/-- Why a text does not spell a usable whole number. -/
def ValueFault.ofInteger (text : Spelling) : Text.Integer.Fault → ValueFault
  | .malformed => .notInteger text
  | .tooLong digits => .tooManyDigits digits

/-- The wording for halves of pairs where only characters can be: one is shown, several are named
by their places. -/
def Spelling.Halves.message (h : Spelling.Halves) : String :=
  let place :=
    if h.count = 1 then
      "character '" ++ String.ofList (Text.escapeHalf h.first) ++ "' in position " ++
        toString h.position
    else
      "characters in position " ++ toString h.position ++ "-" ++
        toString (h.position + h.count - 1)
  "'utf-8' codec can't encode " ++ place ++ ": surrogates not allowed"

/-- A cause that stops an operation. -/
inductive Failure
  | settings (fault : SettingsFault)
  | root (fault : RootFault)
  /-- A repository could not be fetched; the cause is in words. -/
  | unprepared (name cause : String)
  | git (fault : GitFault) (text : String)
  | file (error : FileError)
  | notUtf8 (fault : Text.Utf8.Fault)
  /-- A text with halves of pairs has no bytes. -/
  | noBytes (halves : Spelling.Halves)
  | value (fault : ValueFault)
  /-- A number is too large to be represented. -/
  | overflow (text : String)
  | tooDeep (nesting : Nesting)
  /-- A value is of a kind that the operation does not take. -/
  | wrongKind
  /-- A value of a kind was asked for something that the kind does not have. -/
  | noMember (kind member : String)
  /-- A token definition has no such field. -/
  | noField (field : String)
  /-- A table has no such key. -/
  | noKey (key : Value)
  /-- A pattern has no segment. -/
  | noSegment
  /-- A user's home directory is unknown. -/
  | noHome
  /-- The operation is left to more special stores. -/
  | notImplemented
  deriving Repr

/-- The wording of a cause, if it is reported in words. -/
def Failure.message : Failure → String
  | .settings fault => fault.message
  | .root fault => fault.message
  | .unprepared name cause => "Could not prepare " ++ name ++ ": " ++ cause
  | .git _ text => text
  | .file error => error.message
  | .notUtf8 fault => fault.message
  | .noBytes halves => halves.message
  | .value fault => fault.message
  | .overflow text => text
  | .tooDeep nesting => nesting.message
  | .wrongKind => ""
  | .noMember kind member => "'" ++ kind ++ "' object has no attribute '" ++ member ++ "'"
  | .noField field => "TokenDefinition has no field '" ++ field ++ "'"
  | .noKey key => key.quotedString
  | .noSegment => "tuple index out of range"
  | .noHome => "Could not determine home directory."
  | .notImplemented => ""

/-- Whether a cause is a failed command of the version control system or of the file system. -/
def Failure.isGitOrFile : Failure → Bool
  | .git fault _ => fault.isGit || fault == .system
  | .file _ => true
  | _ => false

/-- Whether a cause is a failed command of the version control system. -/
def Failure.isGit : Failure → Bool
  | .git fault _ => fault.isGit
  | _ => false

end DesignTokens
