import ElioP2P.Library.FileSystem

/-!
# Lexical paths

A path is a text whose components stand between slashes.  It is resolved from
left to right: an empty component and `.` change nothing, `..` leaves the
directory entered last, and every other component is entered.
-/

namespace ElioP2P.Library

def dot : Bytes := [46]

def dotDot : Bytes := [46, 46]

def components (path : Bytes) : List Bytes := path.splitOnP (· == 47)

def isAbsolute (path : Bytes) : Bool := path.head? == some 47

/-- One component, behind the directories entered so far, innermost first.
Nothing is above the root. -/
def enter (absolute : Bool) (entered : List Bytes) (component : Bytes) : List Bytes :=
  if component = [] ∨ component = dot then entered
  else if component = dotDot then
    match entered with
    | [] => if absolute then [] else [dotDot]
    | top :: rest => if top = dotDot then dotDot :: entered else rest
  else component :: entered

/-- The directories a path leads through once it is resolved, innermost first. -/
def resolve (path : Bytes) : List Bytes :=
  (components path).foldl (enter (isAbsolute path)) []

def IsEntryName (name : Bytes) : Prop := name ≠ [] ∧ name ≠ dot ∧ name ≠ dotDot ∧ 47 ∉ name

def IsDirectChild (dir path : Bytes) : Prop :=
  isAbsolute path = isAbsolute dir ∧ ∃ name, IsEntryName name ∧ resolve path = name :: resolve dir

/-- The file that is opened by a path: a system call reads up to the first NUL. -/
def opened (path : Bytes) : Bytes := path.takeWhile (· != 0)

/-- `dir + "/" + name` -/
def DiskPath.text (path : DiskPath) : Bytes := path.parent ++ 47 :: path.filename

/-! ## Components -/

theorem components_append (front back : Bytes) :
    components (front ++ 47 :: back) = components front ++ components back :=
  List.splitOnP_append_cons front back (by decide)

theorem components_of_notMem {name : Bytes} (h : 47 ∉ name) : components name = [name] := by
  refine List.splitOnP_eq_singleton fun b hb => ?_
  rw [beq_eq_false_iff_ne]
  rintro rfl
  exact h hb

theorem slash_notMem_of_mem_components {path component : Bytes} (h : component ∈ components path) :
    47 ∉ component := by
  rw [components, ← List.splitOn_eq_splitOnP] at h
  exact notMem_of_mem_splitOn h

section Enter

variable {absolute : Bool} {entered : List Bytes} {component : Bytes}

theorem enter_skip (h : component = [] ∨ component = dot) :
    enter absolute entered component = entered := if_pos h

theorem enter_name (hskip : ¬ (component = [] ∨ component = dot)) (hup : component ≠ dotDot) :
    enter absolute entered component = component :: entered := by
  unfold enter
  rw [if_neg hskip, if_neg hup]

theorem enter_dotDot_cons {top : Bytes} (htop : top ≠ dotDot) :
    enter absolute (top :: entered) dotDot = entered := by
  unfold enter
  rw [if_neg (by decide), if_pos rfl]
  exact if_neg htop

theorem IsEntryName.enter_eq {name : Bytes} (h : IsEntryName name) :
    enter absolute entered name = name :: entered :=
  enter_name (by simp [h.1, h.2.1]) h.2.2.1

end Enter

theorem resolve_append {dir : Bytes} (hdir : dir ≠ []) (rest : Bytes) :
    isAbsolute (dir ++ 47 :: rest) = isAbsolute dir ∧
      resolve (dir ++ 47 :: rest) =
        (components rest).foldl (enter (isAbsolute dir)) (resolve dir) := by
  have habsolute : isAbsolute (dir ++ 47 :: rest) = isAbsolute dir := by
    rw [isAbsolute, isAbsolute, List.head?_append_of_ne_nil _ hdir]
  refine ⟨habsolute, ?_⟩
  rw [resolve, habsolute, components_append, List.foldl_append]
  rfl

theorem isDirectChild_of_entryName {dir name : Bytes} (hdir : dir ≠ []) (hname : IsEntryName name) :
    IsDirectChild dir (dir ++ 47 :: name) := by
  obtain ⟨habsolute, hresolve⟩ := resolve_append hdir name
  refine ⟨habsolute, name, hname, ?_⟩
  rw [hresolve, components_of_notMem hname.2.2.2, List.foldl_cons, List.foldl_nil,
    hname.enter_eq]

/-! ## Relative paths -/

/-- A component of a relative path, behind the number of directories left above
the start and the ones entered since, innermost first. -/
def climb (state : Nat × List Bytes) (component : Bytes) : Nat × List Bytes :=
  if component = [] ∨ component = dot then state
  else if component = dotDot then
    match state.2 with
    | [] => (state.1 + 1, [])
    | _ :: rest => (state.1, rest)
  else (state.1, component :: state.2)

section Climb

variable {state : Nat × List Bytes} {component : Bytes}

theorem climb_skip (h : component = [] ∨ component = dot) : climb state component = state :=
  if_pos h

theorem climb_name (hskip : ¬ (component = [] ∨ component = dot)) (hup : component ≠ dotDot) :
    climb state component = (state.1, component :: state.2) := by
  unfold climb
  rw [if_neg hskip, if_neg hup]

theorem climb_dotDot_nil (up : Nat) : climb (up, []) dotDot = (up + 1, []) := rfl

theorem climb_dotDot_cons (up : Nat) (top : Bytes) (rest : List Bytes) :
    climb (up, top :: rest) dotDot = (up, rest) := rfl

end Climb

/-- How far a relative path climbs above its start, and what it enters from
there. -/
def relative (comps : List Bytes) : Nat × List Bytes := comps.foldl climb (0, [])

theorem foldl_enter_absolute {start : List Bytes} (hstart : dotDot ∉ start) (comps : List Bytes)
    {up : Nat} {entered : List Bytes} (hentered : dotDot ∉ entered) :
    comps.foldl (enter true) (entered ++ start.drop up) =
      (comps.foldl climb (up, entered)).2 ++ start.drop (comps.foldl climb (up, entered)).1 := by
  induction comps generalizing up entered with
  | nil => rfl
  | cons component comps ih =>
      rw [List.foldl_cons, List.foldl_cons]
      by_cases hskip : component = [] ∨ component = dot
      · rw [enter_skip hskip, climb_skip hskip]
        exact ih hentered
      by_cases hup : component = dotDot
      · subst hup
        cases entered with
        | nil =>
            rw [climb_dotDot_nil, ← @ih (up + 1) [] List.not_mem_nil, List.nil_append,
              List.nil_append, ← List.drop_drop]
            cases hdrop : start.drop up with
            | nil => rfl
            | cons top rest =>
                have htop : top ≠ dotDot := by
                  rintro rfl
                  exact hstart (List.mem_of_mem_drop (i := up) (by simp [hdrop]))
                rw [enter_dotDot_cons htop]
                rfl
        | cons top rest =>
            rw [List.mem_cons, not_or] at hentered
            rw [climb_dotDot_cons, ← ih hentered.2, List.cons_append,
              enter_dotDot_cons (Ne.symm hentered.1)]
      · rw [enter_name hskip hup, climb_name hskip hup, ← List.cons_append]
        refine ih ?_
        rw [List.mem_cons, not_or]
        exact ⟨Ne.symm hup, hentered⟩

theorem entryName_of_mem_climb {comps : List Bytes} (hslash : ∀ c ∈ comps, 47 ∉ c) {up : Nat}
    {entered : List Bytes} (hentered : ∀ name ∈ entered, IsEntryName name) :
    ∀ name ∈ (comps.foldl climb (up, entered)).2, IsEntryName name := by
  induction comps generalizing up entered with
  | nil => exact hentered
  | cons component comps ih =>
      rw [List.foldl_cons]
      have hrest : ∀ c ∈ comps, 47 ∉ c := fun c hc => hslash c (List.mem_cons_of_mem _ hc)
      by_cases hskip : component = [] ∨ component = dot
      · rw [climb_skip hskip]
        exact ih hrest hentered
      by_cases hup : component = dotDot
      · subst hup
        cases entered with
        | nil => exact ih hrest (by simp)
        | cons top rest =>
            exact ih hrest fun name hname => hentered name (List.mem_cons_of_mem _ hname)
      · rw [climb_name hskip hup]
        refine ih hrest fun name hname => ?_
        rcases List.mem_cons.mp hname with rfl | hname
        · rw [not_or] at hskip
          exact ⟨hskip.1, hskip.2, hup, hslash name List.mem_cons_self⟩
        · exact hentered name hname

/-- A relative path names an entry of the absolute directory it starts from
exactly if it enters again the directories it has climbed out of, and then one
entry. -/
theorem isDirectChild_append_iff {dir : Bytes} (habsolute : isAbsolute dir = true)
    (hdir : dotDot ∉ resolve dir) (rest : Bytes) :
    IsDirectChild dir (dir ++ 47 :: rest) ↔
      ∃ name, (relative (components rest)).2 =
        name :: (resolve dir).take (relative (components rest)).1 := by
  have hne : dir ≠ [] := by
    rintro rfl
    cases habsolute
  obtain ⟨hsame, hresolve⟩ := resolve_append hne rest
  have hfollow : (components rest).foldl (enter true) (resolve dir) =
      (relative (components rest)).2 ++ (resolve dir).drop (relative (components rest)).1 :=
    @foldl_enter_absolute _ hdir (components rest) 0 [] List.not_mem_nil
  rw [IsDirectChild, hsame, hresolve, habsolute, hfollow]
  constructor
  · rintro ⟨-, name, -, heq⟩
    refine ⟨name, (List.append_left_inj ((resolve dir).drop (relative (components rest)).1)).mp ?_⟩
    rw [heq, List.cons_append, List.take_append_drop]
  · rintro ⟨name, heq⟩
    have hname : IsEntryName name :=
      @entryName_of_mem_climb _ (fun _ hc => slash_notMem_of_mem_components hc) 0 []
        (fun _ h => absurd h List.not_mem_nil) name (by
          change name ∈ (relative (components rest)).2
          rw [heq]
          exact List.mem_cons_self)
    refine ⟨rfl, name, hname, ?_⟩
    rw [heq, List.cons_append, List.take_append_drop]

theorem components_append_suffix (text : Bytes) {suffix : Bytes} (hsuffix : 47 ∉ suffix) :
    ∃ last, 47 ∉ last ∧
      components (text ++ suffix) = (components text).dropLast ++ [last ++ suffix] := by
  by_cases hslash : 47 ∈ text
  · obtain ⟨back, front, hreverse, hback⟩ :=
      List.eq_append_cons_of_mem (List.mem_reverse.mpr hslash)
    have htext : text = front.reverse ++ 47 :: back.reverse := by
      rw [← List.reverse_reverse text, hreverse, List.reverse_append, List.reverse_cons,
        List.append_assoc]
      rfl
    have hlast : 47 ∉ back.reverse := fun h => hback (List.mem_reverse.mp h)
    have hname : 47 ∉ back.reverse ++ suffix := by
      rw [List.mem_append, not_or]
      exact ⟨hlast, hsuffix⟩
    refine ⟨back.reverse, hlast, ?_⟩
    rw [htext, components_append, components_of_notMem hlast, List.dropLast_concat,
      List.append_assoc, List.cons_append, components_append, components_of_notMem hname]
  · refine ⟨text, hslash, ?_⟩
    rw [components_of_notMem hslash, components_of_notMem (by simp [hslash, hsuffix])]
    rfl

theorem relative_concat (comps : List Bytes) {name : Bytes} (h : IsEntryName name) :
    relative (comps ++ [name]) = ((relative comps).1, name :: (relative comps).2) := by
  rw [relative, List.foldl_append, List.foldl_cons, List.foldl_nil,
    climb_name (by simp [h.1, h.2.1]) h.2.2.1]
  rfl

/-! ## What the system opens -/

theorem opened_of_notMem {path : Bytes} (h : 0 ∉ path) : opened path = path := by
  rw [opened, List.takeWhile_eq_self_iff]
  intro b hb
  rw [bne_iff_ne]
  rintro rfl
  exact h hb

theorem opened_append {front : Bytes} (h : 0 ∉ front) (back : Bytes) :
    opened (front ++ back) = front ++ opened back := by
  refine List.takeWhile_append_of_pos fun b hb => ?_
  rw [bne_iff_ne]
  rintro rfl
  exact h hb

theorem opened_slash (rest : Bytes) : opened (47 :: rest) = 47 :: opened rest :=
  List.takeWhile_cons_of_pos (by decide)

/-- Nothing behind a NUL is seen. -/
theorem opened_append_of_mem {front : Bytes} (h : 0 ∈ front) (back : Bytes) :
    opened (front ++ back) = opened front := by
  obtain ⟨before, after, rfl, hbefore⟩ := List.eq_append_cons_of_mem h
  rw [List.append_assoc, opened_append hbefore, opened_append hbefore]
  rfl

end ElioP2P.Library
