import ScCore.Repo.Entries
import ScCore.Repo.Signs

/-!
# Names in the repositories in memory

The calls of `tmp_repo` one after the other, and the entries that they leave under paths: a
record of the calls that succeed says what is found.
-/

namespace ScCore.Repo

open Store (SegId)

/-! ## Calls -/

/-- `tmp_repo::rename`. Behind the directories it uses a null pointer, or an entry that it has
removed, and deletes it a second time; nothing stands for either. -/
def Libsc.repoRename (st : Libsc) (r : RepoId) (oldname newname : Uri) :
    Option (Retval × Libsc) := do
  match ← st.dirs.findDirectory r oldname false with
  | none => some (rvErrGen, st)
  | some (olddir, name) =>
      let dirent := st.dirs.find olddir name
      match ← st.dirs.findDirectory r newname false with
      | none => some (rvErrGen, st)
      | some _ => match dirent with
        | none => none
        | some _ => none

inductive RepoCall where
  | mkdir (r : RepoId) (s : Uri)
  | createSegment (r : RepoId) (s : Uri)
  | unlink (r : RepoId) (s : Uri)
  | rename (r : RepoId) (oldname newname : Uri)

def RepoCall.exec (st : Libsc) : RepoCall → Option (Retval × Libsc)
  | mkdir r s => st.repoMkdir r s
  | createSegment r s => st.repoCreateSegment r s
  | unlink r s => st.repoUnlink r s
  | rename r oldname newname => st.repoRename r oldname newname

/-! ## Records -/

inductive EntryKind where
  | dir
  /-- A segment that is not dead, with its URI. -/
  | seg (uri : Uri)
  deriving DecidableEq, Repr

/-- The entries under the names of paths. -/
abbrev Record := RepoId → List Uri → Option EntryKind

namespace Record

def set (T : Record) (r : RepoId) (names : List Uri) (kind : Option EntryKind) : Record :=
  fun r' names' => if r' = r ∧ names' = names then kind else T r' names'

def move (T : Record) (r : RepoId) (old new : List Uri) : Record := fun r' names =>
  if r' ≠ r then T r' names
  else if new <+: names then T r (old ++ names.drop new.length)
  else if old <+: names then none
  else T r names

def call (T : Record) : RepoCall → Record
  | .mkdir r s => T.set r (pathNames s) (some .dir)
  | .createSegment r s =>
      if (T r (pathNames s)).isSome then T else T.set r (pathNames s) (some (.seg s))
  | .unlink r s => T.set r (pathNames s) none
  | .rename r oldname newname => T.move r (pathNames oldname) (pathNames newname)

end Record

/-- The call makes no second entry of a name, and no directory under a path that begins or ends
with a slash, and it renames nothing. -/
def RepoCall.Allowed (st : Libsc) : RepoCall → Prop
  | mkdir r s => st.dirs.findDirectory r s true = some none ∨
      s.head? ≠ some '/' ∧ s.getLast? ≠ some '/' ∧ ∀ e, st.dirs.findDirent r s ≠ some (some e)
  | createSegment r s => ∀ name d, st.dirs.findDirent r s ≠ some (some ⟨name, .dir d⟩)
  | unlink _ _ => True
  | rename r oldname newname => st.dirs.findDirectory r oldname false = some none ∨
      st.dirs.findDirectory r newname false = some none

inductive RepoRun : Libsc → Record → Prop where
  | start {st : Libsc} : (∀ d, st.dirs.contents d = []) → 3 ≤ st.dirs.next →
      RepoRun st fun _ _ => none
  | call {st st' : Libsc} {T : Record} {c : RepoCall} {rv : Retval} : RepoRun st T →
      c.Allowed st → c.exec st = some (rv, st') → RepoRun st' (if rv = rvOk then T.call c else T)

namespace Libsc

/-- What an entry is of. Nothing stands for a segment that is dead. -/
def kind (st : Libsc) (e : Dirent) : Option EntryKind :=
  match e.target with
  | .dir _ => some .dir
  | .seg i => match st.segs i with
    | some seg => if seg.dead then none else some (.seg seg.uri)
    | none => none

structure Recorded (st : Libsc) (T : Record) : Prop where
  forest : Forest st.dirs
  plain : ∀ d e, e ∈ st.dirs.contents d → '/' ∉ e.name
  kinds : ∀ d e, e ∈ st.dirs.contents d → (st.kind e).isSome
  found : ∀ r names, (st.dirs.follow (RepoId.dir r) names).map st.kind = (T r names).map some

variable {st st' : Libsc} {T : Record} {r : RepoId} {s name : Uri} {d : DirId} {dir : Bool}

theorem Recorded.start (empty : ∀ d, st.dirs.contents d = []) (roots : 3 ≤ st.dirs.next) :
    st.Recorded fun _ _ => none where
  forest := {
    names := fun d => by
      rw [empty]
      exact List.nodup_nil
    inner := fun d e x h => by
      rw [empty] at h
      cases h
    inj := fun d e d' e' h => by
      rw [empty] at h
      cases h
    above := fun x _ => empty x
    roots := roots }
  plain d e h := by
    rw [empty] at h
    cases h
  kinds d e h := by
    rw [empty] at h
    cases h
  found r names := by
    rw [Dirs.follow_of_empty (empty _)]
    rfl

variable {ds : Dirs}

theorem plain_of_findDirectory (hf : ds.findDirectory r s dir = some (some (d, name)))
    (head : s.head? ≠ some '/') (last : s.getLast? ≠ some '/') : '/' ∉ name := by
  have noSlashes : (if dir then s.reverse.takeWhile (· = '/') else []) = [] := by
    split
    · cases hs : s.reverse with
      | nil => rfl
      | cons c path =>
        rw [List.getLast?_eq_head?_reverse, hs, List.head?_cons, ne_eq, Option.some_inj] at last
        rw [List.takeWhile_cons_of_neg (by simpa using last)]
    · rfl
  rw [Dirs.findDirectory, noSlashes] at hf
  split at hf
  · cases hf
  · split at hf
    · cases hf
    · dsimp only at hf
      rw [List.length_nil, List.drop_zero] at hf
      split at hf
      · cases hf
      · cases hf
      · split at hf
        · next all =>
          cases hf
          intro slash
          have letters := List.dropWhile_eq_nil_iff.mp all '/' (List.mem_reverse.mpr slash)
          exact absurd rfl (of_decide_eq_true letters)
        · next first all =>
          cases hf
          obtain ⟨split, hfirst⟩ := dropWhile_split all
          obtain rfl : first = '/' := by simpa using hfirst
          have begins := congrArg List.reverse split
          rw [List.reverse_reverse, List.reverse_append, List.reverse_singleton,
            List.singleton_append] at begins
          rw [begins] at head
          exact absurd rfl head
        · split at hf
          · cases hf
          · obtain ⟨found, -, hr⟩ := Option.bind_eq_some_iff.mp hf
            split at hr
            · cases hr
              rw [List.append_nil, List.mem_reverse]
              intro slash
              have letter := List.mem_takeWhile_imp slash
              exact absurd rfl (of_decide_eq_true letter)
            · cases hr

theorem names_of_findDirectory (hf : ds.findDirectory r s dir = some (some (d, name)))
    (head : s.head? ≠ some '/') (last : s.getLast? ≠ some '/') :
    ∃ before, pathNames s = before ++ [name] ∧ ds.walk r.dir before = some d := by
  have plain := plain_of_findDirectory hf head last
  obtain ⟨-, ⟨rfl, rfl⟩ | ⟨parent, c, k, n, hc, rfl, found⟩⟩ := Dirs.findDirectory_some hf
  · exact ⟨[], namesFrom_plain plain [] false, rfl⟩
  · obtain ⟨-, follow⟩ := findDirent_some found
    rw [Dirs.findFrom_eq_follow] at follow
    exact ⟨pathNames (parent ++ [c]), namesFrom_below hc plain k [] false,
      Dirs.walk_of_follow follow⟩

theorem findDirectory_last (last : s.getLast? = some '/') :
    ds.findDirectory r s false ≠ some (some (d, name)) := by
  intro hf
  obtain ⟨path, rfl⟩ := List.getLast?_eq_some_iff.mp last
  rw [Dirs.findDirectory] at hf
  split at hf
  · cases hf
  · split at hf
    · cases hf
    · rw [List.reverse_append, List.reverse_singleton] at hf
      cases hf

/-! ## Changes of the record -/

namespace Record

theorem set_same (T : Record) (r : RepoId) (names : List Uri) (k : Option EntryKind) :
    T.set r names k r names = k := if_pos ⟨rfl, rfl⟩

theorem set_other (T : Record) {r r' : RepoId} {names names' : List Uri} (k : Option EntryKind)
    (h : ¬(r' = r ∧ names' = names)) : T.set r names k r' names' = T r' names' := if_neg h

end Record

variable {e : Dirent} {before : List Uri} {k : EntryKind}

theorem Recorded.add (rec : st.Recorded T) (hwalk : st.dirs.walk r.dir before = some d)
    (plain : '/' ∉ e.name) (absent : st.dirs.find d e.name = none)
    (fresh : ∀ y, e.target = .dir y → y ≠ d ∧ 3 ≤ y ∧ y < st.dirs.next ∧ st.dirs.contents y = [])
    (single : ∀ d' e', e' ∈ st.dirs.contents d' → e'.target ≠ e.target)
    (dirs : st'.dirs = st.dirs.add d e)
    (kept : ∀ d' e', e' ∈ st.dirs.contents d' → st'.kind e' = st.kind e')
    (kind : st'.kind e = some k) :
    st'.Recorded (T.set r (before ++ [e.name]) (some k)) := by
  constructor
  · rw [dirs]
    refine rec.forest.add absent ?_ single (Dirs.walk_lt rec.forest hwalk)
    intro y hy
    obtain ⟨-, made, next, -⟩ := fresh y hy
    exact ⟨made, next⟩
  · intro d' e' h
    rw [dirs] at h
    obtain old | ⟨-, rfl⟩ := Dirs.mem_add h
    · exact rec.plain d' e' old
    · exact plain
  · intro d' e' h
    rw [dirs] at h
    obtain old | ⟨-, rfl⟩ := Dirs.mem_add h
    · rw [kept d' e' old]
      exact rec.kinds d' e' old
    · rw [kind]
      rfl
  · intro r' names
    have unused (y : DirId) (hy : e.target = .dir y) : y ≠ d ∧ st.dirs.contents y = [] := by
      obtain ⟨other, -, -, empty⟩ := fresh y hy
      exact ⟨other, empty⟩
    rw [dirs, Dirs.follow_add absent unused]
    by_cases here : r' = r ∧ names = before ++ [e.name]
    · rw [if_pos ((Dirs.under_iff rec.forest hwalk).mpr here)]
      obtain ⟨rfl, rfl⟩ := here
      rw [Record.set_same, Option.map_some, Option.map_some, kind]
    · rw [if_neg (mt (Dirs.under_iff rec.forest hwalk).mp here), Record.set_other T _ here,
        ← rec.found r' names]
      cases hfollow : st.dirs.follow r'.dir names with
      | none => rfl
      | some found =>
        obtain ⟨d', hmem⟩ := Dirs.mem_of_follow hfollow
        rw [Option.map_some, Option.map_some, kept d' found hmem]

theorem Recorded.remove (rec : st.Recorded T) (hwalk : st.dirs.walk r.dir before = some d)
    (hfind : st.dirs.find d name = some e)
    (empty : ∀ y, e.target = .dir y → st.dirs.contents y = [])
    (dirs : st'.dirs = st.dirs.remove d name)
    (kept : ∀ d' e', e' ∈ st.dirs.contents d' → e'.target ≠ e.target →
      st'.kind e' = st.kind e') :
    st'.Recorded (T.set r (before ++ [name]) none) := by
  have forest : Forest st'.dirs := dirs ▸ rec.forest.remove d name
  obtain ⟨hmem, hname⟩ := Dirs.mem_of_find hfind
  -- The entry that is removed stood in no other place.
  have left (d' : DirId) (e' : Dirent) (h : e' ∈ st'.dirs.contents d') :
      e' ∈ st.dirs.contents d' ∧ st'.kind e' = st.kind e' := by
    have found := Dirs.find_of_mem forest h
    rw [dirs] at h found
    have old := (Dirs.remove_sublist d name d').subset h
    refine ⟨old, kept d' e' old fun same => ?_⟩
    obtain ⟨rfl, rfl⟩ := rec.forest.inj d' e' d e old hmem same
    rw [Dirs.find_remove rec.forest, if_pos ⟨rfl, hname⟩] at found
    cases found
  constructor
  · exact forest
  · exact fun d' e' h => rec.plain d' e' (left d' e' h).1
  · intro d' e' h
    obtain ⟨old, same⟩ := left d' e' h
    rw [same]
    exact rec.kinds d' e' old
  · intro r' names
    by_cases here : r' = r ∧ names = before ++ [name]
    · rw [dirs, Dirs.follow_remove rec.forest hfind empty,
        if_pos ((Dirs.under_iff rec.forest hwalk).mpr here)]
      obtain ⟨rfl, rfl⟩ := here
      rw [Record.set_same, Option.map_none, Option.map_none]
    · have other : st'.dirs.follow r'.dir names = st.dirs.follow r'.dir names := by
        rw [dirs, Dirs.follow_remove rec.forest hfind empty,
          if_neg (mt (Dirs.under_iff rec.forest hwalk).mp here)]
      rw [Record.set_other T _ here, ← rec.found r' names]
      cases hfollow : st'.dirs.follow r'.dir names with
      | none => rw [← other, hfollow, Option.map_none, Option.map_none]
      | some found =>
        obtain ⟨d', h⟩ := Dirs.mem_of_follow hfollow
        rw [← other, hfollow, Option.map_some, Option.map_some, (left d' found h).2]

/-! ## Calls on a record -/

theorem findDirent_eq (ds : Dirs) (head : s.head? ≠ some '/') :
    ds.findDirent r s = some (ds.follow r.dir (pathNames s)) := by
  rw [Dirs.findDirent, if_neg head, Dirs.findFrom_eq_follow]
  rfl

variable {rv : Retval}

theorem repoMkdir_some (hr : st.repoMkdir r s = some (rv, st')) :
    (rv = rvErrGen ∧ st.dirs.findDirectory r s true = some none ∧ st' = st) ∨
      ∃ d name, st.dirs.findDirectory r s true = some (some (d, name)) ∧ rv = rvOk ∧ st' =
        { st with
          dirs := { st.dirs with next := st.dirs.next + 1 : Dirs }.add d
            ⟨name, .dir st.dirs.next⟩ } := by
  obtain ⟨⟨created, st₁⟩, hc, hr⟩ := Option.bind_eq_some_iff.mp hr
  cases hr
  obtain ⟨found, hf, hc⟩ := Option.bind_eq_some_iff.mp hc
  cases found with
  | none =>
    cases hc
    exact .inl ⟨rfl, hf, rfl⟩
  | some entry =>
    cases hc
    exact .inr ⟨entry.1, entry.2, hf, rfl, rfl⟩

theorem Recorded.next (rec : st.Recorded T) :
    { st with dirs := { st.dirs with next := st.dirs.next + 1 : Dirs } }.Recorded T where
  forest := rec.forest.succ
  plain := rec.plain
  kinds := rec.kinds
  found r names := by
    rw [← rec.found r names, Dirs.follow_next]
    rfl

theorem Recorded.mkdir (rec : st.Recorded T) (ok : (RepoCall.mkdir r s).Allowed st)
    (hr : st.repoMkdir r s = some (rv, st')) :
    st'.Recorded (if rv = rvOk then T.call (.mkdir r s) else T) := by
  obtain ⟨rfl, -, rfl⟩ | ⟨d, name, hf, rfl, rfl⟩ := repoMkdir_some hr
  · rw [if_neg (by decide)]
    exact rec
  · rw [if_pos rfl]
    obtain missing | ⟨head, last, absent⟩ := ok
    · rw [missing] at hf
      cases hf
    obtain ⟨before, names, hwalk⟩ := names_of_findDirectory hf head last
    have none : st.dirs.find d name = none := by
      have found := findDirent_eq (r := r) st.dirs head
      rw [names, Dirs.follow_append, hwalk, Option.bind_some] at found
      cases hfind : st.dirs.find d name with
      | none => rfl
      | some e => exact absurd (found.trans (congrArg some hfind)) (absent e)
    rw [Record.call, names]
    have made : d < st.dirs.next := Dirs.walk_lt rec.forest hwalk
    refine rec.next.add (e := ⟨name, .dir st.dirs.next⟩) ((Dirs.walk_next _ _ _).trans hwalk)
      (plain_of_findDirectory hf head last) none ?_ ?_ rfl (fun _ _ _ => rfl) rfl
    · intro y hy
      cases hy
      exact ⟨(Nat.ne_of_lt made).symm, rec.forest.roots, Nat.lt_succ_self _,
        rec.forest.above _ (Nat.le_refl _)⟩
    · intro d' e' h same
      exact Nat.lt_irrefl _ (rec.forest.inner d' e' _ h same).2

theorem kind_congr (h : ∀ i, e.target = .seg i → st'.segs i = st.segs i) :
    st'.kind e = st.kind e := by
  obtain ⟨name, d | i⟩ := e
  · rfl
  · rw [kind, kind]
    dsimp only
    rw [h i rfl]

theorem Recorded.createSegment (rec : st.Recorded T) (ok : (RepoCall.createSegment r s).Allowed st)
    (hr : st.repoCreateSegment r s = some (rv, st')) :
    st'.Recorded (if rv = rvOk then T.call (.createSegment r s) else T) := by
  obtain ⟨j, mapped, rfl⟩ | ⟨mapped, made⟩ := SignInv.repoCreateSegment_some hr
  · have head := SignInv.head_of_mapSegment mapped
    have there : (T r (pathNames s)).isSome := by
      obtain ⟨_, hd, mapped⟩ := Option.bind_eq_some_iff.mp mapped
      rw [findDirent_eq _ head] at hd
      cases hd
      have found := rec.found r (pathNames s)
      cases hfollow : st'.dirs.follow r.dir (pathNames s) with
      | none =>
        rw [hfollow] at mapped
        cases mapped
      | some e =>
        obtain ⟨d, hmem⟩ := Dirs.mem_of_follow hfollow
        obtain ⟨k, hkind⟩ := Option.isSome_iff_exists.mp (rec.kinds d e hmem)
        rw [hfollow, Option.map_some, hkind] at found
        cases hT : T r (pathNames s) with
        | none =>
          rw [hT] at found
          cases found
        | some k => rfl
    split
    · rw [Record.call, if_pos there]
      exact rec
    · exact rec
  · have head := SignInv.head_of_mapSegment mapped
    -- No directory is there, so nothing is.
    have absent : st.dirs.follow r.dir (pathNames s) = none := by
      obtain ⟨_, hd, mapped⟩ := Option.bind_eq_some_iff.mp mapped
      rw [findDirent_eq _ head] at hd
      cases hd
      cases hfollow : st.dirs.follow r.dir (pathNames s) with
      | none => rfl
      | some e =>
        obtain ⟨name, d | i⟩ := e
        · have there := findDirent_eq (r := r) st.dirs head
          rw [hfollow] at there
          exact absurd there (ok name d)
        · rw [hfollow] at mapped
          cases mapped
    obtain ⟨rfl, -, rfl⟩ | ⟨d, name, i, hf, free, rfl, rfl⟩ := made
    · rw [if_neg (by decide)]
      exact rec
    · have last : s.getLast? ≠ some '/' := fun last => findDirectory_last last hf
      obtain ⟨before, names, hwalk⟩ := names_of_findDirectory hf head last
      have unrecorded : T r (pathNames s) = none := by
        have found := rec.found r (pathNames s)
        rw [absent, Option.map_none] at found
        exact Option.map_eq_none_iff.mp found.symm
      rw [if_pos rfl, Record.call, unrecorded, Option.isSome_none, if_neg Bool.false_ne_true, names]
      rw [names, Dirs.follow_append, hwalk, Option.bind_some] at absent
      have other (d' : DirId) (e' : Dirent) (h : e' ∈ st.dirs.contents d') (j : SegId)
          (htarget : e'.target = .seg j) : j ≠ i := by
        rintro rfl
        have known := rec.kinds d' e' h
        rw [kind, htarget] at known
        dsimp only at known
        rw [free] at known
        cases known
      refine rec.add (e := ⟨name, .seg i⟩) hwalk (plain_of_findDirectory hf head last) absent
        nofun ?_ rfl ?_ ?_
      · exact fun d' e' h same => other d' e' h i same rfl
      · exact fun d' e' h => kind_congr fun j hj => Function.update_of_ne (other d' e' h j hj) _ _
      · rw [kind]
        dsimp only
        rw [Function.update_self]
        rfl

theorem segs_dieSeg {i j : SegId} (h : j ≠ i) : (st.dieSeg i).segs j = st.segs j := by
  rw [dieSeg]
  split
  · rfl
  · rw [unrefSeg]
    split
    · exact Function.update_of_ne h _ _
    · exact (Function.update_of_ne h _ _).trans (Function.update_of_ne h _ _)

theorem repoUnlink_some (hr : st.repoUnlink r s = some (rv, st')) :
    (rv = rvErrGen ∧ st' = st) ∨
      ∃ d name e, st.dirs.findDirectory r s false = some (some (d, name)) ∧
      st.dirs.find d name = some e ∧
      (∀ y, e.target = .dir y → st.dirs.contents y = []) ∧ rv = rvOk ∧
      st'.dirs = st.dirs.remove d name ∧
      ∀ j, e.target ≠ .seg j → st'.segs j = st.segs j := by
  obtain ⟨found, hf, hr⟩ := Option.bind_eq_some_iff.mp hr
  cases found with
  | none =>
    cases hr
    exact .inl ⟨rfl, rfl⟩
  | some entry =>
    obtain ⟨d, name⟩ := entry
    dsimp only at hr
    cases hfind : st.dirs.find d name with
    | none =>
      rw [hfind] at hr
      cases hr
      exact .inl ⟨rfl, rfl⟩
    | some e =>
      rw [hfind] at hr
      obtain ⟨n, y | i⟩ := e
      · dsimp only at hr
        split at hr
        · cases hr
          exact .inl ⟨rfl, rfl⟩
        · next empty =>
          cases hr
          refine .inr ⟨d, name, _, hf, hfind, ?_, rfl, rfl, fun j _ => rfl⟩
          intro y' hy
          cases hy
          exact not_not.mp empty
      · cases hr
        refine .inr ⟨d, name, _, hf, hfind, nofun, rfl, rfl, fun j hj => segs_dieSeg ?_⟩
        rintro rfl
        exact hj rfl

theorem Recorded.unlink (rec : st.Recorded T) (hr : st.repoUnlink r s = some (rv, st')) :
    st'.Recorded (if rv = rvOk then T.call (.unlink r s) else T) := by
  obtain ⟨rfl, rfl⟩ | ⟨d, name, e, hf, hfind, empty, rfl, dirs, segs⟩ := repoUnlink_some hr
  · rw [if_neg (by decide)]
    exact rec
  · obtain ⟨hmem, hname⟩ := Dirs.mem_of_find hfind
    have last : s.getLast? ≠ some '/' := fun last => findDirectory_last last hf
    -- Nothing has a name with a slash, so the path of an entry begins with none.
    have head : s.head? ≠ some '/' := by
      intro head
      obtain ⟨-, ⟨rfl, rfl⟩ | ⟨parent, c, k, n, hc, rfl, found⟩⟩ := Dirs.findDirectory_some hf
      · exact rec.plain _ e hmem (hname ▸ List.mem_of_mem_head? head)
      · obtain ⟨plain, -⟩ := findDirent_some found
        cases parent with
        | nil => exact hc (Option.some.inj head)
        | cons first parent => exact plain head
    obtain ⟨before, names, hwalk⟩ := names_of_findDirectory hf head last
    rw [if_pos rfl, Record.call, names]
    refine rec.remove hwalk hfind empty dirs fun d' e' _ other => kind_congr fun j hj => segs j ?_
    rw [← hj]
    exact other.symm

theorem repoRename_some {oldname newname : Uri}
    (hr : st.repoRename r oldname newname = some (rv, st')) : rv = rvErrGen ∧ st' = st := by
  obtain ⟨found, -, hr⟩ := Option.bind_eq_some_iff.mp hr
  cases found with
  | none =>
    cases hr
    exact ⟨rfl, rfl⟩
  | some entry =>
    obtain ⟨found', -, hr⟩ := Option.bind_eq_some_iff.mp hr
    cases found' with
    | none =>
      cases hr
      exact ⟨rfl, rfl⟩
    | some entry' =>
      dsimp only at hr
      split at hr <;> cases hr

theorem Recorded.exec {c : RepoCall} (rec : st.Recorded T) (ok : c.Allowed st)
    (hr : c.exec st = some (rv, st')) : st'.Recorded (if rv = rvOk then T.call c else T) := by
  cases c with
  | mkdir r s => exact rec.mkdir ok hr
  | createSegment r s => exact rec.createSegment ok hr
  | unlink r s => exact rec.unlink hr
  | rename r oldname newname =>
    obtain ⟨rfl, rfl⟩ := repoRename_some hr
    rw [if_neg (by decide)]
    exact rec

end Libsc

theorem RepoRun.recorded {st : Libsc} {T : Record} (run : RepoRun st T) : st.Recorded T := by
  induction run with
  | start empty roots => exact .start empty roots
  | call _ ok hr rec => exact rec.exec ok hr

/-- After such calls a name stands once in each directory, a path leads to what was made under its
names and not removed since, no other path leads there, and a call that is refused has changed
nothing. -/
theorem repo_resolves {st : Libsc} {T : Record} (run : RepoRun st T) :
    (∀ d, ((st.dirs.contents d).map Dirent.name).Nodup) ∧
      (∀ r s, s.head? ≠ some '/' → ∃ found, st.dirs.findDirent r s = some found ∧
        found.map st.kind = (T r (pathNames s)).map some) ∧
      (∀ r s e r' s' e', st.dirs.findDirent r s = some (some e) →
        st.dirs.findDirent r' s' = some (some e') → e.target = e'.target →
          r = r' ∧ pathNames s = pathNames s') ∧
      ∀ c rv st', RepoCall.exec st c = some (rv, st') → rv ≠ rvOk → st' = st := by
  have kept := run.recorded
  refine ⟨kept.forest.names, ?_, ?_, ?_⟩
  · intro r s head
    exact ⟨_, Libsc.findDirent_eq st.dirs head, kept.found r (pathNames s)⟩
  · intro r s e r' s' e' found found' same
    obtain ⟨-, follow⟩ := findDirent_some found
    obtain ⟨-, follow'⟩ := findDirent_some found'
    rw [Dirs.findFrom_eq_follow] at follow follow'
    exact Dirs.follow_inj kept.forest follow follow' same
  · intro c rv st' hr refused
    cases c with
    | mkdir r s =>
      obtain ⟨-, -, same⟩ | ⟨_, _, -, rfl, -⟩ := Libsc.repoMkdir_some hr
      · exact same
      · exact absurd rfl refused
    | createSegment r s =>
      obtain ⟨_, -, same⟩ | ⟨-, ⟨-, -, same⟩ | ⟨_, _, _, -, -, rfl, -⟩⟩ :=
        SignInv.repoCreateSegment_some hr
      · exact same
      · exact same
      · exact absurd rfl refused
    | unlink r s =>
      obtain ⟨-, same⟩ | ⟨_, _, _, -, -, -, rfl, -⟩ := Libsc.repoUnlink_some hr
      · exact same
      · exact absurd rfl refused
    | rename r oldname newname => exact (Libsc.repoRename_some hr).2

def emptyRepos : Libsc where
  dirs := { contents := fun _ => [], next := 3 }
  segs := fun _ => none
  named := fun _ _ => none
  home := fun _ => none
  refs := fun _ => 0
  nextAddr := 0
  sessions := []

set_option maxRecDepth 8000 in
/-- A directory and a segment in it. -/
theorem repo_resolves_below : ∃ st T, RepoRun st T ∧
    T .tmp ["a".toList, "b".toList] = some (.seg "a/b".toList) ∧
    ∃ found, st.dirs.findDirent .tmp "a/b".toList = some found ∧
      found.map st.kind = (T .tmp (pathNames "a/b".toList)).map some := by
  have first : RepoRun emptyRepos fun _ _ => none := .start (fun _ => rfl) (Nat.le_refl 3)
  have second := @RepoRun.call _ _ _ (.mkdir .tmp "a".toList) rvOk first
    (.inr ⟨by decide, by decide, nofun⟩) rfl
  have third := @RepoRun.call _ _ _ (.createSegment .tmp "a/b".toList) rvOk second nofun rfl
  exact ⟨_, _, third, rfl, (repo_resolves third).2.1 .tmp "a/b".toList (by decide)⟩

/-- A directory is made twice, and nothing stands for a renaming. -/
theorem not_repo_resolves : ∃ st st', RepoCall.exec emptyRepos (.mkdir .tmp "a".toList) =
      some (rvOk, st) ∧
    RepoCall.exec st (.mkdir .tmp "a".toList) = some (rvOk, st') ∧
    ¬((st'.dirs.contents RepoId.tmp.dir).map Dirent.name).Nodup ∧
    RepoCall.exec st (.rename .tmp "a".toList "b".toList) = none := by
  refine ⟨_, _, rfl, rfl, ?_, rfl⟩
  decide

end ScCore.Repo
