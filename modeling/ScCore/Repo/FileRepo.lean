import ScCore.Repo.Paths

/-!
# Repository in files

`unix_fs_repo` of `unix_fs_storage.cpp`: a table of the segments that are mapped, and the files
that the others are loaded from. The links of a segment that is loaded map other segments.

Nothing stands for an abort, for the use of a segment that is deleted, and for a call that does
not end.
-/

namespace ScCore.Repo

/-- What `load_segment` makes of a file. -/
inductive Loading where
  /-- It is not opened, or has no header. -/
  | unreadable
  /-- One of the commands behind the header is refused. -/
  | broken
  /-- The identifiers of the elements, and the targets of the links. -/
  | loaded (elements links : List Uri)
  deriving DecidableEq, Repr

inductive File where
  | directory
  | special
  | empty
  | regular (loading : Loading)
  deriving DecidableEq, Repr

/-- A file, and whether `remove` removes it. -/
structure FileEntry where
  file : File
  removable : Bool
  deriving DecidableEq, Repr

/-- What a `tmp_segment` object is named by. -/
abbrev SegNo := Nat

/-- `tmp_segment`, as far as the repository uses it. -/
structure FileSegment where
  uri : Uri
  elements : List Uri
  refcnt : Int := 1
  dead : Bool := false
  /-- Whether `init_segment` is behind it. -/
  ready : Bool := false
  deriving DecidableEq, Repr

structure FileRepo where
  files : List (Uri × FileEntry)
  /-- `mapped`. -/
  mapped : Uri → Option SegNo
  /-- The segments that are not deleted. -/
  segs : SegNo → Option FileSegment
  next : SegNo

structure FileEnv where
  fsPlace : Uri
  /-- `allow_unresolved_links`. -/
  allowUnresolvedLinks : Bool
  /-- Whether the target of a link is found in one of the repositories in memory. -/
  elsewhere : RepoId → Uri → Bool

namespace FileRepo

variable (env : FileEnv) (st : FileRepo)

def entry (path : Uri) : Option FileEntry := st.files.lookup path

/-- What `stat` says of a path. -/
def statPath (path : Uri) : Retval :=
  match (st.entry path).map FileEntry.file with
  | some .directory => rvElseGen
  | some .empty | some (.regular _) => rvOk
  | some .special | none => rvErrGen

def stat (uri : Uri) : Retval := st.statPath (env.fsPlace ++ uri)

/-- `new tmp_segment`. -/
def newSegment (uri : Uri) (elements : List Uri) (ready : Bool) : FileRepo :=
  { st with
    segs := Function.update st.segs st.next
      (some { uri := uri, elements := elements, ready := ready })
    next := st.next + 1 }

def delete (i : SegNo) : FileRepo := { st with segs := Function.update st.segs i none }

/-- `mapped.insert`. -/
def insert (uri : Uri) (i : SegNo) : FileRepo :=
  { st with mapped := Function.update st.mapped uri (some i) }

def modify (i : SegNo) (f : FileSegment → FileSegment) : FileRepo :=
  { st with segs := Function.update st.segs i ((st.segs i).map f) }

section

variable {st} {uri v : Uri} {i j : SegNo} {elements : List Uri} {ready : Bool}

@[simp]
theorem insert_self : (st.insert uri i).mapped uri = some i := Function.update_self ..

theorem insert_of_ne (h : v ≠ uri) : (st.insert uri i).mapped v = st.mapped v :=
  Function.update_of_ne h ..

@[simp]
theorem insert_segs : (st.insert uri i).segs = st.segs := rfl

@[simp]
theorem newSegment_self : (st.newSegment uri elements ready).segs st.next =
    some { uri := uri, elements := elements, ready := ready } := Function.update_self ..

theorem newSegment_of_ne (h : j ≠ st.next) :
    (st.newSegment uri elements ready).segs j = st.segs j := Function.update_of_ne h ..

theorem delete_of_ne (h : j ≠ i) : (st.delete i).segs j = st.segs j := Function.update_of_ne h ..

theorem modify_self (f : FileSegment → FileSegment) :
    (st.modify i f).segs i = (st.segs i).map f := Function.update_self ..

theorem modify_of_ne (f : FileSegment → FileSegment) (h : j ≠ i) :
    (st.modify i f).segs j = st.segs j := Function.update_of_ne h ..

end

/-- `resolve_link_target_addr`: whether the target is found. -/
def resolveLink (map : Uri → FileRepo → Option (Option SegNo × FileRepo)) (target : Uri)
    (st : FileRepo) : Option (Bool × FileRepo) :=
  match findRepo target with
  | none => none
  | some (.root, s) =>
      match map (dirname s) st with
      | none => none
      | some (none, st) => some (false, st)
      | some (some i, st) => (st.segs i).map fun seg => (decide (basename s ∈ seg.elements), st)
  | some (r, s) => some (env.elsewhere r s, st)

/-- The loop of `init_segment` over the links: whether all of them are resolved. -/
def initLinks (map : Uri → FileRepo → Option (Option SegNo × FileRepo)) :
    List Uri → FileRepo → Option (Bool × FileRepo)
  | [], st => some (true, st)
  | target :: links, st =>
      match resolveLink env map target st with
      | none => none
      | some (found, st) => (initLinks map links st).map fun r => (found && r.1, r.2)

/-- `map_segment`, with the segments that are mapped on the way. -/
def mapSegment : Nat → Uri → FileRepo → Option (Option SegNo × FileRepo)
  | 0, _, _ => none
  | turns + 1, uri, st =>
      match st.mapped uri with
      | some i => some (some i, st)
      | none => match (st.entry (env.fsPlace ++ uri)).map FileEntry.file with
        | some .empty => some (some st.next, (st.newSegment uri [] true).insert uri st.next)
        | some (.regular .unreadable) =>
            some (none, (st.newSegment uri [] false).delete st.next)
        | some (.regular .broken) => none
        | some (.regular (.loaded elements links)) =>
            match initLinks env (mapSegment turns) links
                ((st.newSegment uri elements false).insert uri st.next) with
            | none => none
            | some (success, st') =>
                if success ∨ env.allowUnresolvedLinks then
                  some (some st.next, st'.modify st.next fun seg => { seg with ready := true })
                else some (none, st'.delete st.next)
        | _ => some (none, st)

/-- `die` of a segment, which is deleted with its last reference. -/
def die (i : SegNo) : Option FileRepo :=
  (st.segs i).map fun seg =>
    if seg.refcnt - 1 = 0 then st.delete i
    else st.modify i fun seg => { seg with dead := true, refcnt := seg.refcnt - 1 }

/-- The removal of an entry of `mapped`, with the `die` of its segment. -/
def unmap (uri : Uri) : Option FileRepo :=
  match st.mapped uri with
  | none => some st
  | some i => (st.die i).map fun st => { st with mapped := Function.update st.mapped uri none }

/-- `remove` of the file at a path. -/
def removeFile (path : Uri) : Option FileRepo :=
  match st.entry path with
  | some ⟨_, true⟩ => some { st with files := st.files.filter fun p => p.1 ≠ path }
  | _ => none

def unlink (uri : Uri) : Option (Retval × FileRepo) :=
  match st.unmap uri with
  | none => none
  | some st' => match st'.removeFile (env.fsPlace ++ uri) with
    | some st' => some (rvOk, st')
    | none => if (st.mapped uri).isSome then none else some (rvErrGen, st')

/-- `set_uri` of the segment that is mapped, if there is one. -/
def setUri (old newname : Uri) : Option FileRepo :=
  match st.mapped old with
  | none => some st
  | some i => (st.segs i).map fun _ => st.modify i fun seg => { seg with uri := newname }

/-- `rename`. The function that it calls to rename the file is itself. -/
def rename : Nat → Uri → Uri → FileRepo → Option (Retval × FileRepo)
  | 0, _, _, _ => none
  | turns + 1, old, newname, st =>
      if ¬ st.stat env newname < 0 then some (rvErrGen, st)
      else match st.setUri old newname with
        | none => none
        | some st' =>
            match rename turns (env.fsPlace ++ old) (env.fsPlace ++ newname) st' with
            | none => none
            | some (rv, st') =>
                if rv < 0 then if (st.mapped old).isSome then none else some (rvErrGen, st')
                else some (rvOk, st')

end FileRepo

inductive FileCall where
  | mapSegment (uri : Uri)
  | unlink (uri : Uri)
  | rename (old newname : Uri)
  | outside (files : List (Uri × FileEntry))

inductive FileAnswer where
  | segment (seg : Option SegNo)
  | retval (rv : Retval)
  | nothing

def FileCall.exec (env : FileEnv) (turns : Nat) (st : FileRepo) :
    FileCall → Option (FileAnswer × FileRepo)
  | mapSegment uri => (st.mapSegment env turns uri).map fun r => (.segment r.1, r.2)
  | unlink uri => (st.unlink env uri).map fun r => (.retval r.1, r.2)
  | rename old newname => (st.rename env turns old newname).map fun r => (.retval r.1, r.2)
  | outside files => some (.nothing, { st with files := files })

end ScCore.Repo
