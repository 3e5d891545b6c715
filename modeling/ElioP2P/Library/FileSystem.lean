import ElioP2P.Library.Bytes
import Mathlib.Data.List.AList

/-!
# A file system of whole files

Files are read, overwritten and removed as a whole.  A path is a directory and
a file name in it, so listing a directory needs no path parsing.  Each write
consults the next entry of an outcome script: a fault-free file system is one
whose script only says `complete`.  Another script says which removals the
operating system refuses, such as that of a name which is too long.
-/

namespace ElioP2P.Library

structure DiskPath where
  parent : Bytes
  filename : Bytes
  deriving DecidableEq

/-- What a write leaves behind: everything, nothing because the file could not
be opened, or only the first bytes because the device filled up. -/
inductive WriteOutcome where
  | complete
  | openFails
  | truncated (written : Nat)
  deriving DecidableEq

structure FileSystem where
  files : AList (fun _ : DiskPath => Bytes)
  outcome : Nat → WriteOutcome
  writes : Nat
  refuses : Nat → DiskPath → Bool := fun _ _ => false
  removals : Nat := 0

def joinPath (dir name : Bytes) : Bytes :=
  if dir.isEmpty || dir.getLast? == some 47 then dir ++ name
  else dir ++ ascii "/" ++ name

/-- `path::stem` and `path::extension` of a file name: the split is at the
last dot, unless that is the first character or the name is a dot entry. -/
def splitExtension (name : Bytes) : Bytes × Bytes :=
  if name == ascii "." || name == ascii ".." then (name, [])
  else
    let suffix := name.reverse.takeWhile (· != 46)
    let dot := name.length - suffix.length - 1
    if suffix.length == name.length || dot == 0 then (name, [])
    else (name.take dot, name.drop dot)

theorem of_splitExtension {name stem ext : Bytes} (h : splitExtension name = (stem, ext))
    (hext : ext ≠ []) : name = stem ++ ext ∧ stem ≠ [] := by
  unfold splitExtension at h
  split at h
  · cases h
    exact absurd rfl hext
  · simp only at h
    split at h
    · cases h
      exact absurd rfl hext
    · rename_i hdot
      simp only [Bool.or_eq_true, beq_iff_eq, not_or] at hdot
      obtain ⟨rfl, rfl⟩ := Prod.mk.inj h
      refine ⟨(List.take_append_drop _ _).symm, fun hnil => ?_⟩
      have hlength := congrArg List.length hnil
      simp only [List.length_take, List.length_nil] at hlength
      omega

theorem splitExtension_append {stem ext : Bytes} (hstem : stem ≠ []) (hext : 2 ≤ ext.length)
    (hdot : ∀ b ∈ ext, b ≠ 46) :
    splitExtension (stem ++ 46 :: ext) = (stem, 46 :: ext) := by
  have hlength : 0 < stem.length := List.length_pos_of_ne_nil hstem
  have hsuffix : (stem ++ 46 :: ext).reverse.takeWhile (· != 46) = ext.reverse := by
    have hall : ∀ b ∈ ext.reverse, (b != 46) = true := fun b hb => by
      simpa using hdot b (List.mem_reverse.mp hb)
    simp only [List.reverse_append, List.reverse_cons, List.append_assoc]
    rw [List.takeWhile_append_of_pos hall]
    simp
  have hone : ((stem ++ 46 :: ext) == ascii ".") = false := by
    rw [beq_eq_false_iff_ne]
    intro h
    have := congrArg List.length h
    simp [show (ascii ".").length = 1 by decide] at this
    omega
  have htwo : ((stem ++ 46 :: ext) == ascii "..") = false := by
    rw [beq_eq_false_iff_ne]
    intro h
    have := congrArg List.length h
    simp [show (ascii "..").length = 2 by decide] at this
    omega
  have htotal : (stem ++ 46 :: ext).length = stem.length + (ext.length + 1) := by
    simp
  have hdotIndex : (stem ++ 46 :: ext).length - ext.reverse.length - 1 = stem.length := by
    rw [htotal, List.length_reverse]
    omega
  unfold splitExtension
  simp only [hone, htwo, Bool.or_self, Bool.false_eq_true, if_false, hsuffix, hdotIndex]
  rw [if_neg]
  · simp
  · simp only [htotal, List.length_reverse, Bool.or_eq_true, beq_iff_eq, not_or]
    omega

namespace FileSystem

def empty : FileSystem where
  files := ∅
  outcome := fun _ => .complete
  writes := 0

def Faultless (fs : FileSystem) : Prop := ∀ n, fs.outcome n = .complete

def read (fs : FileSystem) (path : DiskPath) : Option Bytes :=
  fs.files.lookup path

/-- Open for writing, write `data`, close.  The result says whether the file
could be opened; a short write goes unnoticed. -/
def write (fs : FileSystem) (path : DiskPath) (data : Bytes) : Bool × FileSystem :=
  let next := { fs with writes := fs.writes + 1 }
  match fs.outcome fs.writes with
  | .complete => (true, { next with files := fs.files.insert path data })
  | .openFails => (false, next)
  | .truncated n => (true, { next with files := fs.files.insert path (data.take n) })

def remove (fs : FileSystem) (path : DiskPath) : FileSystem :=
  { fs with files := fs.files.erase path }

/-- Whether the next removal of the path goes through. -/
def removable (fs : FileSystem) (path : DiskPath) : Bool := !fs.refuses fs.removals path

/-- `fs::remove` without an error code, which throws if the removal is refused;
it is no error if there is no such file. -/
def tryRemove (fs : FileSystem) (path : DiskPath) : Bool × FileSystem :=
  let next := { fs with removals := fs.removals + 1 }
  (fs.removable path, if fs.removable path then next.remove path else next)

/-- `fs::rename`, which throws if there is no such file. -/
def rename (fs : FileSystem) (source target : DiskPath) : Option FileSystem :=
  (fs.read source).map fun data =>
    { fs with files := (fs.files.erase source).insert target data }

/-- Names and contents of the files directly in `dir`, in some order. -/
def list (fs : FileSystem) (dir : Bytes) : List (Bytes × Bytes) :=
  fs.files.entries.filterMap fun entry =>
    if entry.1.parent = dir then some (entry.1.filename, entry.2) else none

@[simp] theorem outcome_write (fs : FileSystem) (path : DiskPath) (data : Bytes) :
    (fs.write path data).2.outcome = fs.outcome := by
  unfold write
  split <;> rfl

@[simp] theorem outcome_remove (fs : FileSystem) (path : DiskPath) :
    (fs.remove path).outcome = fs.outcome := rfl

@[simp] theorem outcome_tryRemove (fs : FileSystem) (path : DiskPath) :
    (fs.tryRemove path).2.outcome = fs.outcome := by
  unfold tryRemove
  split <;> rfl

@[simp] theorem removable_write (fs : FileSystem) (path path' : DiskPath) (data : Bytes) :
    (fs.write path data).2.removable path' = fs.removable path' := by
  unfold write
  split <;> rfl

theorem faultless_empty : empty.Faultless := fun _ => rfl

theorem Faultless.write_opens {fs : FileSystem} (h : fs.Faultless) (path : DiskPath)
    (data : Bytes) : (fs.write path data).1 = true := by
  simp [FileSystem.write, h fs.writes]

theorem Faultless.read_write_same {fs : FileSystem} (h : fs.Faultless)
    (path : DiskPath) (data : Bytes) :
    (fs.write path data).2.read path = some data := by
  simp [FileSystem.write, h fs.writes, FileSystem.read]

theorem read_write_other {fs : FileSystem} {path path' : DiskPath} (data : Bytes)
    (hne : path' ≠ path) : (fs.write path data).2.read path' = fs.read path' := by
  unfold write read
  split
  · exact AList.lookup_insert_ne hne
  · rfl
  · exact AList.lookup_insert_ne hne

@[simp] theorem read_remove_same (fs : FileSystem) (path : DiskPath) :
    (fs.remove path).read path = none := by
  simp [remove, read]

theorem read_remove_other {fs : FileSystem} {path path' : DiskPath}
    (hne : path' ≠ path) : (fs.remove path).read path' = fs.read path' := by
  simp [remove, read, AList.lookup_erase_ne hne]

theorem read_tryRemove_other {fs : FileSystem} {path path' : DiskPath}
    (hne : path' ≠ path) : (fs.tryRemove path).2.read path' = fs.read path' := by
  unfold tryRemove
  split
  · exact read_remove_other hne
  · rfl

theorem exists_rename {fs : FileSystem} {source : DiskPath} (target : DiskPath) {data : Bytes}
    (h : fs.read source = some data) :
    ∃ fs', fs.rename source target = some fs' ∧ fs'.read target = some data := by
  refine ⟨{ fs with files := (fs.files.erase source).insert target data }, ?_,
    AList.lookup_insert _⟩
  rw [rename, h]
  rfl

theorem mem_list {fs : FileSystem} {dir name data : Bytes} :
    (name, data) ∈ fs.list dir ↔ fs.read ⟨dir, name⟩ = some data := by
  unfold list read
  rw [← Option.mem_def, AList.mem_lookup_iff, List.mem_filterMap]
  constructor
  · rintro ⟨⟨⟨parent, filename⟩, contents⟩, hmem, hentry⟩
    simp only [Option.ite_none_right_eq_some, Option.some.injEq, Prod.mk.injEq] at hentry
    obtain ⟨rfl, rfl, rfl⟩ := hentry
    exact hmem
  · intro hmem
    exact ⟨_, hmem, by simp⟩

end FileSystem

end ElioP2P.Library
