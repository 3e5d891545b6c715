import ElioP2P.Base.SettingNames
import ElioP2P.Base.Proofs.ConfigFiles

/-!
# Which source decides

The sources are read in a row, and the file comes last.  So a setting that the
file gives overrides the environment and the command line, though the
documentation ranks the file below both.  Two variables that the help text
promises are not read, and neither are many entries of the file.
-/

namespace ElioP2P.Base

open ElioP2P.Library

@[simp] theorem Process.config_setLevel (process : Process) (level : Option Bytes) :
    (process.setLevel level).config = process.config := rfl

/-! ## What is given -/

section Given

variable (parser : CommandLineParser) (files : Files) (environment : Environment)
  (args : List Bytes)

def inEnvironment (s : Setting) : Option s.Value :=
  named environment documentedVariable parser.readText s

def onCommandLine (s : Setting) : Option s.Value :=
  (parser.parse args).bind fun options => named options documentedOption parser.lexicalCast s

def sectionsAt (path : Bytes) : Sections :=
  (if path.isEmpty then none else files path).elim ∅ iniSections

def inFile (s : Setting) : Option s.Value :=
  let path := ((parser.parse args).bind fun options => options (ascii "--config")).getD []
  named (sectionsAt files path).entry fieldPath parser.readText s

/-- The documented order: command line, environment, file, default. -/
def precedence (s : Setting) : s.Value :=
  (((onCommandLine parser args s).or (inEnvironment parser environment s)).or
    (inFile parser files args s)).getD (defaultConfig s)

/-! ## What is read of it -/

/-- Settings whose documented variable is not read. -/
def unreadVariables : List Setting := [.cacheMemorySizeMb, .cacheDiskSizeMb]

def unreadEntries : List Setting :=
  [.cacheEvictionThreshold, .cacheEvictionTarget, .p2pGossipPort, .p2pMaxUploadSpeedMbps,
    .p2pMaxDownloadSpeedMbps, .p2pGossipIntervalSec, .p2pHeartbeatTimeoutSec, .p2pTransport,
    .controlPlaneHeartbeatIntervalSec, .controlPlaneReconnectIntervalSec,
    .controlPlaneServerListenPort, .controlPlaneServerBindAddress,
    .controlPlaneServerHeartbeatTimeoutSec, .controlPlaneServerMaxNodes,
    .controlPlaneServerMinReplicas, .controlPlaneServerMaxReplicas, .storageUseHttps,
    .storageConnectionTimeoutSec, .storageReadTimeoutSec, .proxyAuthType, .proxyAuthToken,
    .proxyAllowedBucket]

def readInEnvironment (s : Setting) : Option s.Value :=
  if s ∈ unreadVariables then none else inEnvironment parser environment s

def readInFile (s : Setting) : Option s.Value :=
  if s ∈ unreadEntries then none else inFile parser files args s

end Given

section Names

variable (parser : CommandLineParser)

theorem follows_environmentVariables :
    Follows documentedVariable parser.readText environmentVariables := by
  simp [Follows, environmentVariables, documentedVariable, CommandLineParser.readText]

theorem follows_fileEntries : Follows fieldPath parser.readText fileEntries := by
  simp [Follows, fileEntries, fieldPath, CommandLineParser.readText]

theorem follows_bindings : Follows documentedOption parser.lexicalCast parser.bindings := by
  simp [Follows, CommandLineParser.bindings, commandLineOptions, documentedOption]

theorem layer_environmentVariables (environment : Environment) (s : Setting) :
    layer environment environmentVariables s = readInEnvironment parser environment s := by
  have hcases : (s ∈ environmentVariables.map Binding.setting ∧ s ∉ unreadVariables) ∨
      (s ∉ environmentVariables.map Binding.setting ∧
        (s ∈ unreadVariables ∨ documentedVariable s = none)) := by
    cases s <;> simp [environmentVariables, unreadVariables, documentedVariable]
  rw [layer_of_follows (follows_environmentVariables parser), readInEnvironment]
  obtain ⟨hread, hunread⟩ | ⟨hread, hunread | hnone⟩ := hcases
  · rw [if_pos hread, if_neg hunread]
    rfl
  · rw [if_neg hread, if_pos hunread]
  · rw [if_neg hread, inEnvironment, named, hnone, Option.bind_none, Option.bind_none, ite_self]

theorem layer_bindings (options : Bytes → Option Bytes) (s : Setting) :
    layer options parser.bindings s = named options documentedOption parser.lexicalCast s := by
  have hcases : s ∈ parser.bindings.map Binding.setting ∨ documentedOption s = none := by
    cases s <;> simp [CommandLineParser.bindings, commandLineOptions, documentedOption]
  rw [layer_of_follows (follows_bindings parser)]
  obtain hread | hnone := hcases
  · rw [if_pos hread]
  · rw [named, hnone, Option.bind_none, Option.bind_none, ite_self]

theorem layer_fileEntries (sections : Sections) (s : Setting) :
    layer sections.entry fileEntries s =
      if s ∈ unreadEntries then none else named sections.entry fieldPath parser.readText s := by
  have hcases : (s ∈ fileEntries.map Binding.setting ∧ s ∉ unreadEntries) ∨
      (s ∉ fileEntries.map Binding.setting ∧ (s ∈ unreadEntries ∨ fieldPath s = none)) := by
    cases s <;> simp [fileEntries, unreadEntries, fieldPath]
  rw [layer_of_follows (follows_fileEntries parser)]
  obtain ⟨hread, hunread⟩ | ⟨hread, hunread | hnone⟩ := hcases
  · rw [if_pos hread, if_neg hunread]
  · rw [if_neg hread, if_pos hunread]
  · rw [if_neg hread, named, hnone, Option.bind_none, Option.bind_none, ite_self]

end Names

/-! ## What a call that returns has done -/

theorem exists_loadFromFile_eq_iff {files : Files} {path : Bytes} {process process' : Process}
    {found : Bool} :
    (∃ fuel, loadFromFile files fuel path process = some (.returned (found, process'))) ↔
      (files path = none ∧ found = false ∧ process' = process) ∨
        ∃ file, files path = some file ∧ extension path ∉ redirects ∧ found = true ∧
          applySections (iniSections file) { process with configFile := path } = some process' := by
  constructor
  · rintro ⟨fuel, h⟩
    cases fuel with
    | zero =>
        rw [loadFromFile] at h
        cases h
    | succ fuel =>
        cases hfile : files path with
        | none =>
            rw [loadFromFile, hfile] at h
            cases h
            exact .inl ⟨rfl, rfl, rfl⟩
        | some file =>
            have hext : extension path ∉ redirects := by
              intro hext
              rw [loadFromFile_redirected hfile hext] at h
              cases h
            rw [loadFromFile_direct hfile hext] at h
            obtain ⟨sections, hsections, hloaded⟩ := Option.map_eq_some_iff.mp h
            obtain rfl := parseIniFile_eq_some hsections
            cases happly : applySections (iniSections file) { process with configFile := path } with
            | none =>
                rw [happly] at hloaded
                cases hloaded
            | some applied =>
                rw [happly] at hloaded
                cases hloaded
                exact .inr ⟨file, rfl, hext, rfl, happly⟩
  · rintro (⟨hfile, rfl, rfl⟩ | ⟨file, hfile, hext, rfl, happly⟩)
    · refine ⟨1, ?_⟩
      rw [loadFromFile, hfile]
    · obtain ⟨fuel, hsections⟩ := exists_parseIniFile file
      refine ⟨fuel + 1, ?_⟩
      rw [loadFromFile_direct hfile hext, hsections, Option.map_some, happly, loaded]

theorem loadConfigFile_eq_iff {files : Files} {fuel : Nat} {path : Bytes}
    {process process' : Process} :
    loadConfigFile files fuel path process = some (.returned process') ↔
      (path.isEmpty ∧ process' = process) ∨
        (¬ path.isEmpty ∧
          ∃ found, loadFromFile files fuel path process = some (.returned (found, process'))) := by
  unfold loadConfigFile
  split
  · rename_i hempty
    simp [hempty, eq_comm]
  · rename_i hpath
    rw [Option.map_eq_some_iff]
    constructor
    · rintro ⟨ending, hending, hreturned⟩
      cases ending with
      | threw => cases hreturned
      | returned result =>
          cases hreturned
          exact .inr ⟨hpath, result.1, hending⟩
    · rintro (⟨hempty, -⟩ | ⟨-, found, hloaded⟩)
      · exact absurd hempty hpath
      · exact ⟨.returned (found, process'), hloaded, rfl⟩

section Run

variable {parser : CommandLineParser} {files : Files} {environment : Environment} {fuel : Nat}
  {args : List Bytes}

theorem parseCommandLine_eq_iff {process process' : Process} :
    parseCommandLine parser files environment fuel args process =
        some (.returned (true, process')) ↔
      ∃ options config last, parser.parse args = some options ∧
        assignAll options parser.bindings process.config = some config ∧
        loadConfigFile files fuel ((options (ascii "--config")).getD [])
          { process.setLevel (environment (ascii "ELIOP2P_LOG_LEVEL")) with config := config } =
            some (.returned last) ∧
        process' = last.setLevel
          (if (last.config .logLevel).isEmpty then none else some (last.config .logLevel)) := by
  unfold parseCommandLine
  constructor
  · intro h
    dsimp only at h
    split at h
    · cases h
    · rename_i options hoptions
      split at h
      · cases h
      · rename_i config hconfig
        obtain ⟨ending, hending, hreturned⟩ := Option.map_eq_some_iff.mp h
        cases ending with
        | threw => cases hreturned
        | returned last =>
            cases hreturned
            exact ⟨options, config, last, hoptions, hconfig, hending, rfl⟩
  · rintro ⟨options, config, last, hoptions, hconfig, hlast, rfl⟩
    simp only [hoptions, Process.config_setLevel, hconfig, hlast, Option.map_some]

theorem initializeConfig_eq_iff {process : Process} :
    initializeConfig parser files environment fuel args = some (.returned (true, process)) ↔
      ∃ first, loadFromEnv environment .initial = some first ∧
        parseCommandLine parser files environment fuel args first =
          some (.returned (true, process)) := by
  unfold initializeConfig
  cases loadFromEnv environment .initial with
  | none => simp
  | some first => simp

end Run

/-! ## What is loaded -/

theorem config_loadFromEnv (parser : CommandLineParser) {environment : Environment}
    {process process' : Process} (h : loadFromEnv environment process = some process')
    (s : Setting) :
    process'.config s = (readInEnvironment parser environment s).getD (process.config s) := by
  obtain ⟨config, hconfig, rfl⟩ := Option.map_eq_some_iff.mp h
  rw [← layer_environmentVariables]
  exact assignAll_apply hconfig s

theorem config_applySections {sections : Sections} {process process' : Process}
    (h : applySections sections process = some process') (s : Setting) :
    process'.config s = (layer sections.entry fileEntries s).getD (process.config s) := by
  obtain ⟨config, hconfig, rfl⟩ := Option.map_eq_some_iff.mp h
  exact assignAll_apply hconfig s

theorem layer_empty (s : Setting) : layer (Sections.entry ∅) fileEntries s = none :=
  layer_eq_none (fun _ => rfl) fileEntries s

theorem config_loadFromFile {files : Files} {fuel : Nat} {path : Bytes} {process process' : Process}
    {found : Bool} (h : loadFromFile files fuel path process = some (.returned (found, process')))
    (s : Setting) :
    process'.config s =
      (layer (Sections.entry ((files path).elim ∅ iniSections)) fileEntries s).getD
        (process.config s) := by
  obtain ⟨hfile, -, rfl⟩ | ⟨file, hfile, -, -, happly⟩ := exists_loadFromFile_eq_iff.mp ⟨fuel, h⟩
  · rw [hfile, Option.elim_none, layer_empty]
    rfl
  · rw [hfile, Option.elim_some]
    exact config_applySections happly s

theorem config_loadConfigFile {files : Files} {fuel : Nat} {path : Bytes}
    {process process' : Process}
    (h : loadConfigFile files fuel path process = some (.returned process')) (s : Setting) :
    process'.config s =
      (layer (sectionsAt files path).entry fileEntries s).getD (process.config s) := by
  unfold sectionsAt
  obtain ⟨hempty, rfl⟩ | ⟨hpath, found, hloaded⟩ := loadConfigFile_eq_iff.mp h
  · rw [if_pos hempty, Option.elim_none, layer_empty]
    rfl
  · rw [if_neg hpath]
    exact config_loadFromFile hloaded s

section Run

variable {parser : CommandLineParser} {files : Files} {environment : Environment} {fuel : Nat}
  {args : List Bytes}

theorem config_parseCommandLine {process process' : Process}
    (h : parseCommandLine parser files environment fuel args process =
      some (.returned (true, process'))) (s : Setting) :
    process'.config s =
      (readInFile parser files args s).getD
        ((onCommandLine parser args s).getD (process.config s)) := by
  obtain ⟨options, config, last, hoptions, hconfig, hlast, rfl⟩ := parseCommandLine_eq_iff.mp h
  rw [Process.config_setLevel, config_loadConfigFile hlast, layer_fileEntries parser, readInFile,
    inFile, onCommandLine, hoptions, Option.bind_some, Option.bind_some, ← layer_bindings]
  exact congrArg (Option.getD _) (assignAll_apply hconfig s)

theorem config_initializeConfig {process : Process}
    (h : initializeConfig parser files environment fuel args =
      some (.returned (true, process))) (s : Setting) :
    process.config s =
      (readInFile parser files args s).getD
        (((onCommandLine parser args s).or (readInEnvironment parser environment s)).getD
          (defaultConfig s)) := by
  obtain ⟨first, hfirst, hprocess⟩ := initializeConfig_eq_iff.mp h
  rw [config_parseCommandLine hprocess, config_loadFromEnv parser hfirst]
  cases onCommandLine parser args s <;> rfl

theorem logLevel_initializeConfig {process : Process}
    (h : initializeConfig parser files environment fuel args = some (.returned (true, process)))
    (hlevel : process.config .logLevel ≠ []) :
    process.logLevel = parseLogLevel (process.config .logLevel) := by
  obtain ⟨first, -, hprocess⟩ := initializeConfig_eq_iff.mp h
  obtain ⟨options, config, last, -, -, -, rfl⟩ := parseCommandLine_eq_iff.mp hprocess
  rw [Process.config_setLevel] at hlevel ⊢
  rw [Process.setLevel, if_neg (by simpa using hlevel)]
  rfl

end Run

/-! ## When it is loaded -/

/-- A file that is named is read without detour, and its numbers are numbers. -/
def LoadableFile (files : Files) (path : Bytes) : Prop :=
  path.isEmpty ∨ ∀ file, files path = some file →
    extension path ∉ redirects ∧ Readable (iniSections file).entry fileEntries

def Loadable (parser : CommandLineParser) (files : Files) (environment : Environment)
    (args : List Bytes) : Prop :=
  Readable environment environmentVariables ∧
    ∃ options, parser.parse args = some options ∧ Readable options parser.bindings ∧
      LoadableFile files ((options (ascii "--config")).getD [])

theorem isSome_loadFromEnv_iff {environment : Environment} {process : Process} :
    (loadFromEnv environment process).isSome ↔ Readable environment environmentVariables := by
  rw [loadFromEnv, overrideFromEnv, Option.isSome_map, isSome_assignAll_iff]

theorem isSome_applySections_iff {sections : Sections} {process : Process} :
    (applySections sections process).isSome ↔ Readable sections.entry fileEntries := by
  rw [applySections, Option.isSome_map, isSome_assignAll_iff]

theorem exists_loadConfigFile_iff {files : Files} {path : Bytes} {process : Process} :
    (∃ fuel process', loadConfigFile files fuel path process = some (.returned process')) ↔
      LoadableFile files path := by
  unfold LoadableFile
  constructor
  · rintro ⟨fuel, process', h⟩
    obtain ⟨hempty, -⟩ | ⟨-, found, hloaded⟩ := loadConfigFile_eq_iff.mp h
    · exact .inl hempty
    · refine .inr fun file hfile => ?_
      obtain ⟨hnone, -⟩ | ⟨file', hfile', hext, -, happly⟩ :=
        exists_loadFromFile_eq_iff.mp ⟨fuel, hloaded⟩
      · rw [hnone] at hfile
        cases hfile
      · obtain rfl := Option.some.inj (hfile.symm.trans hfile')
        exact ⟨hext, isSome_applySections_iff.mp (Option.isSome_of_eq_some happly)⟩
  · intro h
    by_cases hempty : path.isEmpty
    · exact ⟨0, process, loadConfigFile_eq_iff.mpr (.inl ⟨hempty, rfl⟩)⟩
    · have hreturns : ∃ fuel found process',
          loadFromFile files fuel path process = some (.returned (found, process')) := by
        cases hfile : files path with
        | none =>
            obtain ⟨fuel, hloaded⟩ := exists_loadFromFile_eq_iff.mpr (.inl ⟨hfile, rfl, rfl⟩)
            exact ⟨fuel, _, _, hloaded⟩
        | some file =>
            obtain ⟨hext, hreadable⟩ := (h.resolve_left hempty) file hfile
            have hsome :
                (applySections (iniSections file) { process with configFile := path }).isSome :=
              isSome_applySections_iff.mpr hreadable
            obtain ⟨applied, happly⟩ := Option.isSome_iff_exists.mp hsome
            obtain ⟨fuel, hloaded⟩ :=
              exists_loadFromFile_eq_iff.mpr (.inr ⟨file, hfile, hext, rfl, happly⟩)
            exact ⟨fuel, _, _, hloaded⟩
      obtain ⟨fuel, found, process', hloaded⟩ := hreturns
      exact ⟨fuel, process', loadConfigFile_eq_iff.mpr (.inr ⟨hempty, found, hloaded⟩)⟩

section Run

variable {parser : CommandLineParser} {files : Files} {environment : Environment}
  {args : List Bytes}

theorem exists_initializeConfig_iff :
    (∃ fuel process,
      initializeConfig parser files environment fuel args = some (.returned (true, process))) ↔
      Loadable parser files environment args := by
  constructor
  · rintro ⟨fuel, process, h⟩
    obtain ⟨first, hfirst, hprocess⟩ := initializeConfig_eq_iff.mp h
    obtain ⟨options, config, last, hoptions, hconfig, hlast, -⟩ :=
      parseCommandLine_eq_iff.mp hprocess
    exact ⟨isSome_loadFromEnv_iff.mp (Option.isSome_of_eq_some hfirst), options, hoptions,
      isSome_assignAll_iff.mp (Option.isSome_of_eq_some hconfig),
      exists_loadConfigFile_iff.mp ⟨fuel, last, hlast⟩⟩
  · rintro ⟨henvironment, options, hoptions, hargs, hfile⟩
    obtain ⟨first, hfirst⟩ := Option.isSome_iff_exists.mp (isSome_loadFromEnv_iff.mpr henvironment)
    obtain ⟨config, hconfig⟩ := Option.isSome_iff_exists.mp (isSome_assignAll_iff.mpr hargs)
    obtain ⟨fuel, last, hlast⟩ := exists_loadConfigFile_iff.mpr hfile
    exact ⟨fuel, _, initializeConfig_eq_iff.mpr ⟨first, hfirst, parseCommandLine_eq_iff.mpr
      ⟨options, config, last, hoptions, hconfig, hlast, rfl⟩⟩⟩

/-- What can be read is loaded.  Then a setting has the value of the documented
order exactly if what the file gives and is read meets nothing else above it, and
what is given and not read leaves the default as it is. -/
theorem config_eq_precedence_iff :
    (Loadable parser files environment args ↔ ∃ fuel process,
      initializeConfig parser files environment fuel args = some (.returned (true, process))) ∧
    ∀ fuel process,
      initializeConfig parser files environment fuel args = some (.returned (true, process)) →
      ∀ s, process.config s = precedence parser files environment args s ↔
        (readInFile parser files args s ≠ none →
          (onCommandLine parser args s).or (inEnvironment parser environment s) = none ∨
          (onCommandLine parser args s).or (inEnvironment parser environment s) =
            inFile parser files args s) ∧
        (readInFile parser files args s = none → onCommandLine parser args s = none →
          readInEnvironment parser environment s = none →
          ((inEnvironment parser environment s).or (inFile parser files args s)).getD
            (defaultConfig s) = defaultConfig s) := by
  refine ⟨exists_initializeConfig_iff.symm, fun fuel process h s => ?_⟩
  rw [config_initializeConfig h, precedence]
  refine getD_eq_ranked_iff ?_ ?_
  · unfold readInEnvironment
    split
    · exact .inl rfl
    · exact .inr rfl
  · unfold readInFile
    split
    · exact .inl rfl
    · exact .inr rfl

end Run

def optionPairs : List Bytes → List (Bytes × Bytes)
  | name :: text :: rest => (name, text) :: optionPairs rest
  | _ => []

def sampleParser : CommandLineParser where
  parse args := some fun name => (optionPairs args).lookup name
  lexicalCast
    | .proxyListenPort => readUInt16
    | _ => fun _ => none

def sampleArgs : List Bytes :=
  [ascii "--proxy-port", ascii "8081", ascii "--config", ascii "node.ini"]

/-- The file gives another port. -/
theorem config_eq_precedence_p2p :
    let files := sampleFiles (ascii "node.ini") (ascii "[p2p]\nlisten_port = 9090")
    ∃ process,
      initializeConfig sampleParser files (fun _ => none) 9 sampleArgs =
        some (.returned (true, process)) ∧
      process.config .proxyListenPort =
        precedence sampleParser files (fun _ => none) sampleArgs .proxyListenPort :=
  ⟨_, rfl, (config_eq_precedence_iff.2 9 _ rfl .proxyListenPort).mpr ⟨by decide, by decide⟩⟩

/-- The port of the file replaces the one of the command line. -/
theorem config_ne_precedence_proxy :
    let files := sampleFiles (ascii "node.ini") (ascii "[proxy]\nlisten_port = 9090")
    ∃ process,
      initializeConfig sampleParser files (fun _ => none) 9 sampleArgs =
        some (.returned (true, process)) ∧
      process.config .proxyListenPort ≠
        precedence sampleParser files (fun _ => none) sampleArgs .proxyListenPort :=
  ⟨_, rfl, by decide⟩

/-- A variable of the help text is not read. -/
example :
    let environment : Environment := fun name =>
      if name = ascii "ELIOP2P_CACHE_MEMORY_SIZE" then some (ascii "512") else none
    ∃ process,
      initializeConfig sampleParser (fun _ => none) environment 9 [] =
        some (.returned (true, process)) ∧
      process.config .cacheMemorySizeMb = 4096 ∧
      precedence sampleParser (fun _ => none) environment [] .cacheMemorySizeMb = 512 :=
  ⟨_, rfl, by decide, by decide⟩

end ElioP2P.Base
