import ScCore.Repo.Paths
import ScCore.Store.Memory

/-!
# Directories

The repositories in memory of `tmp_repo.cpp`. A directory lists its entries in the
order in which they were made, and a search takes the first of a name.
-/

namespace ScCore.Repo

open Store (SegId)

/-- `tmp_dir *`. -/
abbrev DirId := Nat

/-- What a `tmp_dirent` refers to. -/
inductive DirTarget where
  | dir (d : DirId)
  | seg (s : SegId)
  deriving DecidableEq, Repr

structure Dirent where
  name : Uri
  target : DirTarget
  deriving DecidableEq, Repr

structure Dirs where
  contents : DirId → List Dirent
  /-- The directory that is allocated next. -/
  next : DirId

/-- `tmp_repo::root`. -/
def RepoId.dir : RepoId → DirId
  | .root => 0
  | .tmp => 1
  | .proc => 2

namespace Dirs

variable (ds : Dirs)

def find (d : DirId) (name : Uri) : Option Dirent := (ds.contents d).find? fun e => e.name = name

def add (d : DirId) (e : Dirent) : Dirs :=
  { ds with contents := fun d' => if d' = d then ds.contents d ++ [e] else ds.contents d' }

def remove (d : DirId) (name : Uri) : Dirs :=
  { ds with
    contents := fun d' =>
      if d' = d then (ds.contents d).eraseP fun e => e.name = name else ds.contents d' }

/-- `find_dirent` from a directory on, with what has been read of a name and whether the
slashes behind one are being skipped. -/
def findFrom : DirId → Uri → Bool → Uri → Option Dirent
  | d, name, _, [] => ds.find d name
  | d, name, skipping, c :: s =>
      if c = '/' then
        if skipping then findFrom d name true s
        else match ds.find d name with
          | none => none
          | some ⟨_, .seg _⟩ => none
          | some ⟨_, .dir d'⟩ => findFrom d' [] true s
      else findFrom d (name ++ [c]) false s

def findDirent (r : RepoId) (s : Uri) : Option (Option Dirent) :=
  if s.head? = some '/' then none else some (ds.findFrom r.dir [] false s)

/-- `find_directory`: the directory and what `i` leaves of the path as name. -/
def findDirectory (r : RepoId) (s : Uri) (dir : Bool) : Option (Option (DirId × Uri)) :=
  if s = [] then some none
  else if s = ['/'] then none
  else
    let slashes := if dir then s.reverse.takeWhile (· = '/') else []
    let path := s.reverse.drop slashes.length
    match path with
    | [] => none
    | '/' :: _ => some none
    | _ =>
        match path.dropWhile (· ≠ '/') with
        | [] | [_] => some (some (r.dir, s))
        | _ :: before =>
            match before.dropWhile (· = '/') with
            | [] => none
            | parent => do
                match ← ds.findDirent r parent.reverse with
                | some ⟨_, .dir d⟩ =>
                    some (some (d, (path.takeWhile (· ≠ '/')).reverse ++ slashes))
                | _ => some none

/-- `_stat`: a segment, a directory, or nothing. -/
def stat (r : RepoId) (s : Uri) : Option Retval :=
  if s = [] then some rvElseGen
  else do
    match ← ds.findDirent r s with
    | none => some rvErrGen
    | some ⟨_, .dir _⟩ => some rvElseGen
    | some ⟨_, .seg _⟩ => some rvOk

def mapSegment (r : RepoId) (s : Uri) : Option (Option SegId) := do
  match ← ds.findDirent r s with
  | some ⟨_, .seg seg⟩ => some (some seg)
  | _ => some none

variable {d d' : DirId} {e : Dirent} {name : Uri} {i : SegId}

theorem find_add : (ds.add d e).find d' name =
    (ds.find d' name).or (if d' = d ∧ e.name = name then some e else none) := by
  simp only [find, add]
  by_cases here : d' = d
  · subst here
    rw [if_pos rfl, List.find?_append]
    by_cases named : e.name = name <;> simp [named]
  · simp [here]

theorem findFrom_add_seg (from' : DirId) (read : Uri) (skipping : Bool) (s : Uri) :
    (ds.add d ⟨name, .seg i⟩).findFrom from' read skipping s =
        ds.findFrom from' read skipping s ∨
      (ds.add d ⟨name, .seg i⟩).findFrom from' read skipping s = some ⟨name, .seg i⟩ := by
  induction s generalizing from' read skipping with
  | nil =>
    simp only [findFrom, find_add]
    cases ds.find from' read with
    | some found => exact .inl rfl
    | none =>
      rw [Option.none_or]
      split
      · exact .inr rfl
      · exact .inl rfl
  | cons c s ih =>
    simp only [findFrom]
    split
    · split
      · exact ih from' read true
      · rw [find_add]
        cases ds.find from' read with
        | none =>
          rw [Option.none_or]
          split
          · exact .inl rfl
          · next _ h =>
            split at h
            · cases h
              exact .inl rfl
            · cases h
          · next _ h =>
            split at h
            · cases h
            · cases h
        | some found =>
          rw [Option.some_or]
          obtain ⟨_, dir | seg⟩ := found
          · exact ih dir [] true
          · exact .inl rfl
    · exact ih from' (read ++ [c]) false

end Dirs

end ScCore.Repo
