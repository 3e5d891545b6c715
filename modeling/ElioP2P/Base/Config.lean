import ElioP2P.Base.Settings
import ElioP2P.Library.FileSystem
import ElioP2P.Library.Queries

/-!
# Loading the configuration

`Config` of `src/base/config.cpp`, and what `main` does with it: the environment
is loaded first, then the command line, and then the file that the command line
names.

The command line is parsed by CLI11, which assigns exactly the options that are
present.  `none` is a call that has not ended within its fuel.
-/

namespace ElioP2P.Base

open ElioP2P.Library

/-! ## Files in sections -/

def trim (text : Bytes) : Bytes :=
  ((text.dropWhile isSpace).reverse.dropWhile isSpace).reverse

abbrev Sections := AList fun _ : Bytes => AList fun _ : Bytes => Bytes

structure IniState where
  currentSection : Bytes
  sections : Sections

def IniState.initial : IniState := ⟨[], ∅⟩

def unquote (mark : UInt8) (value : Bytes) : Bytes :=
  if 2 ≤ value.length && value.head? == some mark && value.getLast? == some mark then
    (value.drop 1).take (value.length - 2)
  else value

def parseLine (state : IniState) (line : Bytes) : IniState :=
  let line := trim line
  if line.isEmpty || line.head? == some 35 || line.head? == some 59 then state
  else if line.head? == some 91 && line.getLast? == some 93 then
    let name := trim ((line.drop 1).take (line.length - 2))
    -- A section that comes again begins anew.
    { currentSection := name
      sections := state.sections.insert name ∅ }
  else if 61 ∈ line then
    let (front, back) := splitFirst 61 line
    let value := unquote 39 (unquote 34 (trim back))
    let entries := (state.sections.lookup state.currentSection).getD ∅
    { state with
      sections := state.sections.insert state.currentSection (entries.insert (trim front) value) }
  else state

/-- `std::getline` on the rest of a stream; at its end there is no line. -/
def nextLine (stream : Bytes) : Option (Bytes × Bytes) :=
  if stream.isEmpty then none else some (splitFirst 10 stream)

def parseLines : Nat → Bytes → IniState → Option IniState
  | 0, _, _ => none
  | fuel + 1, stream, state =>
      match nextLine stream with
      | none => some state
      | some (line, rest) => parseLines fuel rest (parseLine state line)

inductive ConfigFile where
  | unreadable
  | readable (content : Bytes)

abbrev Files := Bytes → Option ConfigFile

def parseIniFile (fuel : Nat) : ConfigFile → Option Sections
  | .unreadable => some ∅
  | .readable content => (parseLines fuel content .initial).map IniState.sections

def Sections.entry (sections : Sections) (key : Bytes × Bytes) : Option Bytes :=
  (sections.lookup key.1).bind fun entries => entries.lookup key.2

/-! ## The two singletons -/

inductive LogLevel where
  | debug
  | info
  | warning
  | error
  deriving DecidableEq

def parseLogLevel (level : Bytes) : LogLevel :=
  let lower := level.map toLower
  let lower := if (trim lower).isEmpty then lower else trim lower
  if lower = ascii "debug" then .debug
  else if lower = ascii "info" || lower.isEmpty then .info
  else if lower = ascii "warning" || lower = ascii "warn" then .warning
  else if lower = ascii "error" || lower = ascii "err" then .error
  else .info

structure Process where
  config : GlobalConfig
  configFile : Bytes
  logLevel : LogLevel

def Process.initial : Process := ⟨defaultConfig, [], .info⟩

def Process.setLevel (process : Process) (level : Option Bytes) : Process :=
  { process with logLevel := (level.map parseLogLevel).getD process.logLevel }

inductive Ending (α : Type) where
  | returned (value : α)
  | threw

/-! ## The file -/

/-- `path::extension`, of what stands behind the last slash. -/
def extension (path : Bytes) : Bytes :=
  (splitExtension (path.reverse.takeWhile (· != 47)).reverse).2

/-- Apply the entries of a file; `none` is an exception. -/
def applySections (sections : Sections) (process : Process) : Option Process :=
  (assignAll sections.entry fileEntries process.config).map fun config =>
    { process with config := config }.setLevel (sections.entry (ascii "log", ascii "level"))

def loaded : Option Process → Ending (Bool × Process)
  | some process => .returned (true, process)
  | none => .threw

mutual

def loadFromFile (files : Files) (fuel : Nat) (path : Bytes) (process : Process) :
    Option (Ending (Bool × Process)) :=
  match fuel with
  | 0 => none
  | fuel + 1 =>
      match files path with
      | none => some (.returned (false, process))
      | some file =>
          let process := { process with configFile := path }
          if extension path = ascii ".yaml" || extension path = ascii ".yml" then
            loadYaml files fuel path process
          else if extension path = ascii ".json" then loadJson files fuel path process
          else
            (parseIniFile fuel file).map fun sections => loaded (applySections sections process)

def loadYaml (files : Files) (fuel : Nat) (path : Bytes) (process : Process) :
    Option (Ending (Bool × Process)) :=
  match fuel with
  | 0 => none
  | fuel + 1 => loadFromFile files fuel path process

def loadJson (files : Files) (fuel : Nat) (path : Bytes) (process : Process) :
    Option (Ending (Bool × Process)) :=
  match fuel with
  | 0 => none
  | fuel + 1 => loadFromFile files fuel path process

end

/-! ## The environment and the command line -/

/-- `getenv` -/
abbrev Environment := Bytes → Option Bytes

def overrideFromEnv (environment : Environment) (process : Process) : Option Process :=
  (assignAll environment environmentVariables process.config).map fun config =>
    { process with config := config }.setLevel (environment (ascii "ELIOP2P_LOG_LEVEL"))

def loadFromEnv (environment : Environment) (process : Process) : Option Process :=
  overrideFromEnv environment process

/-- CLI11: the text of every option that is present, unless the arguments ask for
help or are in error, and the conversion of a text to the type of a field. -/
structure CommandLineParser where
  parse : List Bytes → Option (Bytes → Option Bytes)
  lexicalCast : (s : Setting) → Bytes → Option s.Value

def CommandLineParser.bindings (parser : CommandLineParser) :
    List (Binding Bytes Bytes Setting.Value) :=
  commandLineOptions.map fun (name, s) => ⟨name, s, parser.lexicalCast s⟩

/-- Load the file that is named, if any; its answer is not looked at. -/
def loadConfigFile (files : Files) (fuel : Nat) (configFile : Bytes) (process : Process) :
    Option (Ending Process) :=
  if configFile.isEmpty then some (.returned process)
  else
    (loadFromFile files fuel configFile process).map fun
      | .returned (_, process) => .returned process
      | .threw => .threw

/-- What has been assigned before an error of the parser is not kept: the program
ends. -/
def parseCommandLine (parser : CommandLineParser) (files : Files) (environment : Environment)
    (fuel : Nat) (args : List Bytes) (process : Process) : Option (Ending (Bool × Process)) :=
  let process := process.setLevel (environment (ascii "ELIOP2P_LOG_LEVEL"))
  match parser.parse args with
  | none => some (.returned (false, process))
  | some options =>
      match assignAll options parser.bindings process.config with
      | none => some (.returned (false, process))
      | some config =>
          let configFile := (options (ascii "--config")).getD []
          (loadConfigFile files fuel configFile { process with config := config }).map fun
            | .threw => .threw
            | .returned process =>
                let level := process.config .logLevel
                .returned (true, process.setLevel (if level.isEmpty then none else some level))

def initializeConfig (parser : CommandLineParser) (files : Files) (environment : Environment)
    (fuel : Nat) (args : List Bytes) : Option (Ending (Bool × Process)) :=
  match loadFromEnv environment .initial with
  | none => some .threw
  | some process => parseCommandLine parser files environment fuel args process

end ElioP2P.Base
