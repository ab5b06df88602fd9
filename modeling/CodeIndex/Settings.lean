import CodeIndex.Failure
import CodeIndex.Json.Reader

/-!
Settings of an index.

Every setting has a default, so the empty record is a complete settings text. The environment may
replace the log filter and the log directory, unless it holds blanks only: the 25 characters of the
standard's white space property.
-/
namespace CodeIndex

namespace Text

def isBlank (c : Char) : Bool :=
  let code := c.toNat
  (0x09 ≤ code && code ≤ 0x0D) || code = 0x20 || code = 0x85 || code = 0xA0 || code = 0x1680 ||
  (0x2000 ≤ code && code ≤ 0x200A) || code = 0x2028 || code = 0x2029 || code = 0x202F ||
  code = 0x205F || code = 0x3000

def isBlankText (text : String) : Bool := text.toList.all isBlank

end Text

structure LogSettings where
  filter : String := "info"
  directory : String
  toStderr : Bool := false
  deriving DecidableEq, Inhabited

structure Settings where
  maxDepth : UInt32 := 32
  maxResults : Option Nat := none
  log : LogSettings
  deriving DecidableEq, Inhabited

namespace Settings

def defaultLogDirectory (home : String) : String := home ++ "/.semascope/logs"

def standard (home : String) : Settings := { log := { directory := defaultLogDirectory home } }

def readOr (default : α) (read : Json → Option α) : Option Json → Option α
  | none => some default
  | some j => read j

def readMaxDepth (default : UInt32) (j : Json) : Option UInt32 := do
  match ← j.parts? ["max_depth"] with
  | [depth] => readOr default Json.word32? depth
  | _ => none

def readLimit : Json → Option (Option Nat)
  | .null => some none
  | j => (j.below? UInt64.size).map some

def readMaxResults (default : Option Nat) (j : Json) : Option (Option Nat) := do
  match ← j.parts? ["max_results"] with
  | [limit] => readOr default readLimit limit
  | _ => none

def readLog (default : LogSettings) (j : Json) : Option LogSettings := do
  match ← j.parts? ["filter","dir","to_stderr"] with
  | [filter,directory,toStderr] =>
    return {
      filter := ← readOr default.filter Json.string? filter
      directory := ← readOr default.directory Json.string? directory
      toStderr := ← readOr default.toStderr Json.bool? toStderr }
  | _ => none

def ofJson? (home : String) (j : Json) : Option Settings := do
  let default := standard home
  match ← j.parts? ["solver","completion","logging"] with
  | [solver,completion,logging] =>
    return {
      maxDepth := ← readOr default.maxDepth (readMaxDepth default.maxDepth) solver
      maxResults := ← readOr default.maxResults (readMaxResults default.maxResults) completion
      log := ← readOr default.log (readLog default.log) logging }
  | _ => none

def parse (home text : String) : Except Failure Settings :=
  match (Json.parse? text).bind (ofJson? home) with
  | some settings => .ok settings
  | none => .error .badSettings

def ofFile (home : String) : Option ByteArray → Except Failure Settings
  | none => .error .unreadableFile
  | some bytes =>
    match String.fromUTF8? bytes with
    | none => .error .unreadableFile
    | some text => parse home text

def overriding (value : Option String) (default : String) : String :=
  match value with
  | some text => if Text.isBlankText text then default else text
  | none => default

def withEnvironment (settings : Settings) (filter directory : Option String) : Settings :=
  { settings with
    log := { settings.log with
      filter := overriding filter settings.log.filter
      directory := overriding directory settings.log.directory } }

end Settings
end CodeIndex
