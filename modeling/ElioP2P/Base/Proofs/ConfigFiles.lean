import ElioP2P.Base.Config

/-!
# Which files are loaded

The loop over the lines takes one round for each line.  A file whose extension
stands for YAML or JSON is handed back and forth between `load_from_file` and the
loader of its format, under the same path, so the call never ends.
-/

namespace ElioP2P.Base

open ElioP2P.Library

/-! ## Lines -/

theorem parseLines_eq (fuel : Nat) (stream : Bytes) (state : IniState) :
    parseLines fuel stream state =
      if (getlines 10 stream).length < fuel then some ((getlines 10 stream).foldl parseLine state)
      else none := by
  induction fuel generalizing stream state with
  | zero => rfl
  | succ fuel ih =>
      rw [parseLines, nextLine]
      by_cases hne : stream = []
      · subst hne
        rfl
      · rw [if_neg (by simpa using hne), getlines_of_ne_nil 10 hne]
        simp only [ih, List.length_cons, List.foldl_cons, Nat.add_lt_add_iff_right]

def iniSections : ConfigFile → Sections
  | .unreadable => ∅
  | .readable content => ((getlines 10 content).foldl parseLine .initial).sections

theorem parseIniFile_eq_some {fuel : Nat} {file : ConfigFile} {sections : Sections}
    (h : parseIniFile fuel file = some sections) : sections = iniSections file := by
  cases file with
  | unreadable => exact (Option.some.inj h).symm
  | readable content =>
      rw [parseIniFile, parseLines_eq] at h
      split at h
      · exact (Option.some.inj h).symm
      · cases h

theorem exists_parseIniFile (file : ConfigFile) :
    ∃ fuel, parseIniFile fuel file = some (iniSections file) := by
  cases file with
  | unreadable => exact ⟨0, rfl⟩
  | readable content =>
      refine ⟨(getlines 10 content).length + 1, ?_⟩
      rw [parseIniFile, parseLines_eq, if_pos (Nat.lt_succ_self _)]
      rfl

/-! ## Formats -/

/-- The extensions of the formats that have a loader of their own. -/
def redirects : List Bytes := [ascii ".yaml", ascii ".yml", ascii ".json"]

section LoadFromFile

variable {files : Files} {path : Bytes} {file : ConfigFile}

theorem loadJson_eq_loadYaml (fuel : Nat) (process : Process) :
    loadJson files fuel path process = loadYaml files fuel path process := by
  cases fuel with
  | zero => rw [loadJson, loadYaml]
  | succ fuel => rw [loadJson, loadYaml]

theorem loadFromFile_redirect (hfile : files path = some file) (hext : extension path ∈ redirects)
    (fuel : Nat) (process : Process) :
    loadFromFile files (fuel + 1) path process =
      loadYaml files fuel path { process with configFile := path } := by
  have hyaml : ascii ".json" ≠ ascii ".yaml" := by decide
  have hyml : ascii ".json" ≠ ascii ".yml" := by decide
  simp only [redirects, List.mem_cons, List.not_mem_nil, or_false] at hext
  rw [loadFromFile, hfile]
  rcases hext with hext | hext | hext
  · simp [hext]
  · simp [hext]
  · simp [hext, hyaml, hyml, loadJson_eq_loadYaml]

/-- After two calls the file is where it was, so no fuel is enough. -/
theorem loadFromFile_redirected (hfile : files path = some file)
    (hext : extension path ∈ redirects) (fuel : Nat) (process : Process) :
    loadFromFile files fuel path process = none := by
  induction fuel using Nat.twoStepInduction generalizing process with
  | zero => rw [loadFromFile]
  | one => rw [loadFromFile_redirect hfile hext, loadYaml]
  | more fuel ih _ => rw [loadFromFile_redirect hfile hext, loadYaml, ih]

theorem loadFromFile_direct (hfile : files path = some file) (hext : extension path ∉ redirects)
    (fuel : Nat) (process : Process) :
    loadFromFile files (fuel + 1) path process =
      (parseIniFile fuel file).map fun sections =>
        loaded (applySections sections { process with configFile := path }) := by
  simp only [redirects, List.mem_cons, List.not_mem_nil, or_false, not_or] at hext
  rw [loadFromFile, hfile]
  simp [hext]

end LoadFromFile

/-- A call on a file that can be read ends exactly if its extension is none of the
three. -/
theorem loadFromFile_ends_iff {files : Files} {path content : Bytes}
    (hfile : files path = some (.readable content)) (process : Process) :
    (∃ fuel, (loadFromFile files fuel path process).isSome) ↔ extension path ∉ redirects := by
  constructor
  · rintro ⟨fuel, hends⟩ hext
    rw [loadFromFile_redirected hfile hext] at hends
    cases hends
  · intro hext
    obtain ⟨fuel, hsections⟩ := exists_parseIniFile (.readable content)
    refine ⟨fuel + 1, ?_⟩
    rw [loadFromFile_direct hfile hext, hsections]
    rfl

def sampleFiles (name content : Bytes) : Files := fun path =>
  if path = name then some (.readable content) else none

theorem loadFromFile_ends_ini :
    (∃ fuel, (loadFromFile (sampleFiles (ascii "node.ini") (ascii "[log]\nlevel = debug")) fuel
      (ascii "node.ini") .initial).isSome) ↔ extension (ascii "node.ini") ∉ redirects :=
  loadFromFile_ends_iff rfl .initial

/-- An empty file will do. -/
theorem not_loadFromFile_ends_yaml :
    ¬ ∃ fuel, (loadFromFile (sampleFiles (ascii "node.yaml") []) fuel (ascii "node.yaml")
      .initial).isSome := by
  rintro ⟨fuel, hends⟩
  have hfile : sampleFiles (ascii "node.yaml") [] (ascii "node.yaml") = some (.readable []) := rfl
  rw [loadFromFile_redirected hfile (by decide)] at hends
  cases hends

end ElioP2P.Base
