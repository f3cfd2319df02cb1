import ScCore.Repo.Directories

/-!
# Segments and sessions

The calls of `session_base` and `normal_session` that make, open and close
segments, and the signs that segments and directories have in the `META`
segments. Of the elements only those with an identifier in a segment are kept.
The system session opens what it comes across and counts no references; it has
no place in the state.
-/

namespace ScCore.Repo

open Store (SegId Addr)

def scMaxSegments : Nat := 1024

/-- `sc_segment`. -/
structure Seg where
  repo : RepoId
  uri : Uri
  refcnt : Int := 1
  sign : Option Addr := none
  dead : Bool := false
  ring0 : Bool := false
  deriving DecidableEq, Repr

def Seg.fullUri (seg : Seg) : Uri := seg.repo.uri ++ seg.uri

structure NormalSession where
  opened : SegId → Bool
  dead : Bool

/-- Which normal session it is, in the order in which they were made. -/
abbrev SessionNo := Nat

structure Libsc where
  dirs : Dirs
  /-- `segtable`. -/
  segs : SegId → Option Seg
  /-- `idtf_map` of a segment. -/
  named : SegId → Uri → Option Addr
  /-- The segment and the identifier of an element. -/
  home : Addr → Option (SegId × Uri)
  /-- `refcnt` of an address, less `SC_ADDR_REFCNT_BARRIER` while its element lives. -/
  refs : Addr → Int
  nextAddr : Addr
  sessions : List NormalSession

namespace Libsc

variable (st : Libsc)

/-- `segment_table::assign`; nothing stands for `segments_exausted`. -/
def assign : Option SegId := (List.range scMaxSegments).find? fun i => (st.segs i).isNone

def createDirent (r : RepoId) (s : Uri) (dir : Bool) : Option (Bool × Libsc) := do
  match ← st.dirs.findDirectory r s dir with
  | none => some (false, st)
  | some (d, name) =>
      if dir then
        let ds := { st.dirs with next := st.dirs.next + 1 }
        some (true, { st with dirs := ds.add d ⟨name, .dir st.dirs.next⟩ })
      else
        let i ← st.assign
        some (true,
          { st with
            dirs := st.dirs.add d ⟨name, .seg i⟩
            segs := Function.update st.segs i (some { repo := r, uri := s })
            named := Function.update st.named i fun _ => none })

def repoCreateSegment (r : RepoId) (s : Uri) : Option (Retval × Libsc) := do
  match ← st.dirs.mapSegment r s with
  | some _ => some (rvOk, st)
  | none =>
      let (created, st) ← st.createDirent r s false
      some (if created then rvOk else rvErrGen, st)

def repoMkdir (r : RepoId) (s : Uri) : Option (Retval × Libsc) := do
  let (created, st) ← st.createDirent r s true
  some (if created then rvOk else rvErrGen, st)

/-- `__map_segment`. -/
def mapUri (uri : Uri) : Option (Option SegId) := do
  let (r, s) ← findRepo uri
  st.dirs.mapSegment r s

def stat (uri : Uri) : Option Retval := do
  let (r, s) ← findRepo uri
  st.dirs.stat r s

/-- `sc_segment::unref`. -/
def unrefSeg (i : SegId) : Libsc :=
  match st.segs i with
  | none => st
  | some seg =>
      { st with
        segs := Function.update st.segs i
          (if seg.refcnt - 1 = 0 then none else some { seg with refcnt := seg.refcnt - 1 }) }

/-- `sc_segment::die`. -/
def dieSeg (i : SegId) : Libsc :=
  match st.segs i with
  | none => st
  | some seg =>
      { st with segs := Function.update st.segs i (some { seg with dead := true }) }.unrefSeg i

def repoUnlink (r : RepoId) (s : Uri) : Option (Retval × Libsc) := do
  match ← st.dirs.findDirectory r s false with
  | none => some (rvErrGen, st)
  | some (d, name) =>
      match st.dirs.find d name with
      | none => some (rvErrGen, st)
      | some ⟨_, .seg i⟩ => some (rvOk, { st.dieSeg i with dirs := st.dirs.remove d name })
      | some ⟨_, .dir d'⟩ =>
          if st.dirs.contents d' ≠ [] then some (rvErrGen, st)
          else some (rvOk, { st with dirs := st.dirs.remove d name })

def findMeta (uri : Uri) : Option (Option SegId × Uri) := do
  let (metaUri, name) := metaOf uri
  some (← st.mapUri metaUri, name)

/-- `__create_sign`, less the arc from `DIRENT`. -/
def createSignIn (meta' : SegId) (name : Uri) : Libsc :=
  match st.named meta' name with
  | some _ => st
  | none =>
      { st with
        named := fun i n => if i = meta' ∧ n = name then some st.nextAddr else st.named i n
        home := Function.update st.home st.nextAddr (some (meta', name))
        nextAddr := st.nextAddr + 1 }

def createSign (uri : Uri) : Option (Retval × Libsc) := do
  match ← st.findMeta uri with
  | (none, _) => some (rvErrGen, st)
  | (some meta', name) =>
      let st := if uri ≠ "META".toList then st.createSignIn meta' "META".toList else st
      some (rvOk, st.createSignIn meta' name)

def eraseSign (uri : Uri) : Option (Retval × Libsc) := do
  match ← st.findMeta uri with
  | (none, _) => some (rvErrGen, st)
  | (some meta', name) =>
      match st.named meta' name with
      | none => some (rvErrGen, st)
      | some a =>
          if st.refs a ≤ 1 then
            some (rvOk,
              { st with
                named := fun i n => if i = meta' ∧ n = name then none else st.named i n
                home := Function.update st.home a none })
          else some (rvOk, st)

def uri2sign (uri : Uri) : Option (Option Addr) := do
  match ← st.findMeta uri with
  | (none, _) => some none
  | (some meta', name) => some (st.named meta' name)

/-- `sign2uri`; the inner nothing stands for an error. It cuts five characters off a URI
however short that is. -/
def sign2uri (a : Addr) : Option (Option Uri) := do
  let (i, idtf) ← st.home a
  let seg ← st.segs i
  let metaUri := seg.fullUri
  if metaUri.length < 5 then none
  else if metaUri.drop (metaUri.length - 5) ≠ "/META".toList then some none
  else if metaUri = "/META".toList ∧ idtf = "ROOT".toList then some (some "/".toList)
  else some (some (metaUri.take (metaUri.length - 4) ++ idtf))

def setSession (ss : SessionNo) (session : NormalSession) : Libsc :=
  { st with sessions := st.sessions.set ss session }

/-- The sign of a segment. One that is not known yet is looked up by the name of the segment
in its `META` segment. -/
def segSign (seg : Seg) : Option Addr :=
  match seg.sign with
  | some a => some a
  | none => do
      let (meta', _) ← st.findMeta seg.fullUri
      st.named (← meta') (basename seg.fullUri)

/-- `normal_session::__open_segment`. -/
def openSeg (ss : SessionNo) (i : SegId) : Option (Retval × Libsc) := do
  let session ← st.sessions[ss]?
  let seg ← st.segs i
  if seg.ring0 then some (rvElseGen, st)
  else
    let sign ← st.segSign seg
    some (rvOk,
      { st with
        refs := Function.update st.refs sign (st.refs sign + 1)
        segs := Function.update st.segs i
          (some { seg with sign := some sign, refcnt := seg.refcnt + 1 })
        sessions := st.sessions.set ss
          { session with opened := Function.update session.opened i true } })

/-- `normal_session::close_segment`. -/
def closeSeg (ss : SessionNo) (i : SegId) : Option (Retval × Libsc) := do
  let session ← st.sessions[ss]?
  if session.opened i = false then some (rvErrGen, st)
  else
    let seg ← st.segs i
    let sign ← seg.sign
    let st :=
      { st with
        sessions := st.sessions.set ss
          { session with opened := Function.update session.opened i false }
        refs := Function.update st.refs sign (st.refs sign - 1) }
    some (rvOk, st.unrefSeg i)

/-- `session_base::close_segment`. -/
def closeSegUri (ss : SessionNo) (uri : Uri) : Option (Retval × Libsc) := do
  match ← st.mapUri uri with
  | none => some (rvErrGen, st)
  | some i => st.closeSeg ss i

/-- `session_base::unlink`, of which the events are left out. -/
def unlink (ss : SessionNo) (uri : Uri) : Option (Retval × Libsc) := do
  let (r, s) ← findRepo uri
  let found ← st.dirs.stat r s
  if found = rvOk then
    let i ← (← st.dirs.mapSegment r s)
    let (_, st) ← st.closeSeg ss i
    let (_, st) ← st.eraseSign uri
    st.repoUnlink r s
  else if found = rvElseGen then
    let d ← if s = [] then some r.dir else do
      match ← st.dirs.findDirent r s with
      | some ⟨_, .dir d⟩ => some d
      | _ => none
    match st.dirs.contents d with
    | [] => none
    | first :: others =>
        if first.name ≠ "META".toList ∨ others ≠ [] then some (rvErrGen, st)
        else
          let (_, st) ← st.repoUnlink r (s ++ "/META".toList)
          let (_, st) ← st.eraseSign uri
          st.repoUnlink r s
  else some (rvErrGen, st)

/-- `create_segment`, of a normal session or of the system session. -/
def createSegment (ss : Option SessionNo) (uri : Uri) : Option (Option SegId × Libsc) := do
  let (r, s) ← findRepo uri
  let (rv, st) ← st.repoCreateSegment r s
  if rv ≠ rvOk then some (none, st)
  else
    match ← st.dirs.mapSegment r s with
    | none => some (none, st)
    | some i =>
        let (_, st) ← st.createSign uri
        match ss with
        | none => some (some i, st)
        | some ss =>
            let (rv, st) ← st.openSeg ss i
            if rv ≠ rvOk then
              let (_, st) ← st.unlink ss uri
              some (none, st)
            else some (some i, st)

/-- `open_segment`, of which the events are left out. -/
def openSegment (ss : SessionNo) (uri : Uri) : Option (Option SegId × Libsc) := do
  let session ← st.sessions[ss]?
  match ← st.mapUri uri with
  | none => some (none, st)
  | some i =>
      if session.opened i then some (some i, st)
      else
        let (rv, st) ← st.openSeg ss i
        some (if rv = rvOk then some i else none, st)

def mkdir (uri : Uri) : Option (Retval × Libsc) := do
  let (r, s) ← findRepo uri
  let (error, st) ← st.repoMkdir r s
  if error ≠ rvOk then some (error, st)
  else
    let (_, st) ← st.createSign uri
    let metaUri := uri ++ "/META".toList
    let (r, s) ← findRepo metaUri
    let (_, st) ← st.repoCreateSegment r s
    let (_, st) ← st.createSign metaUri
    some (rvOk, st)

def login : Libsc := { st with sessions := st.sessions ++ [⟨fun _ => false, false⟩] }

/-- The segments of `FOR_ALL_SEGMENTS`. -/
def forAll (session : NormalSession) : List SegId :=
  (List.range scMaxSegments).filter session.opened

/-- `__fork`. The sign is referenced there and again by `__open_segment`. -/
def fork (ss : SessionNo) : Option (SessionNo × Libsc) := do
  let session ← st.sessions[ss]?
  let s := st.sessions.length
  let st ← (forAll session).foldlM (fun st i => do
    let seg ← st.segs i
    let sign ← seg.sign
    let st := { st with refs := Function.update st.refs sign (st.refs sign + 1) }
    let (_, st) ← openSeg st s i
    some st) st.login
  some (s, st)

def close (ss : SessionNo) : Option Libsc := do
  let session ← st.sessions[ss]?
  let st ← (forAll session).foldlM (fun st i => do
    let (_, st) ← closeSeg st ss i
    some st) st
  let session ← st.sessions[ss]?
  some (st.setSession ss { session with dead := true })

end Libsc

namespace Libsc

variable {st st' : Libsc} {ss : SessionNo} {i : SegId} {seg : Seg}

theorem segSign_some {a : Addr} (h : st.segSign seg = some a) :
    seg.sign = none ∨ seg.sign = some a := by
  rw [segSign] at h
  split at h
  · next a ha =>
    cases h
    exact .inr ha
  · next unsigned => exact .inl unsigned

theorem openSeg_some {rv : Retval} (hr : st.openSeg ss i = some (rv, st')) :
    ∃ session seg, st.sessions[ss]? = some session ∧ st.segs i = some seg ∧
      ((seg.ring0 = true ∧ st' = st) ∨ (seg.ring0 = false ∧ rv = rvOk ∧
        ∃ sign, st.segSign seg = some sign ∧ st' =
          { st with
            refs := Function.update st.refs sign (st.refs sign + 1)
            segs := Function.update st.segs i
              (some { seg with sign := some sign, refcnt := seg.refcnt + 1 })
            sessions := st.sessions.set ss
              { session with opened := Function.update session.opened i true } })) := by
  simp only [openSeg, Option.bind_eq_bind, Option.bind_eq_some_iff] at hr
  obtain ⟨session, hs, seg, hseg, hr⟩ := hr
  refine ⟨session, seg, hs, hseg, ?_⟩
  split at hr
  · next core =>
    cases hr
    exact .inl ⟨core, rfl⟩
  · next plain =>
    refine .inr ⟨by simpa using plain, ?_⟩
    obtain ⟨sign, hsign, hr⟩ := Option.bind_eq_some_iff.mp hr
    cases hr
    exact ⟨rfl, sign, hsign, rfl⟩

end Libsc

def ofTable {K V : Type} [DecidableEq K] (table : List (K × V)) (k : K) : Option V :=
  (table.find? fun e => e.1 = k).map Prod.snd

theorem mem_of_ofTable {K V : Type} [DecidableEq K] {table : List (K × V)} {k : K} {v : V}
    (h : ofTable table k = some v) : (k, v) ∈ table := by
  obtain ⟨e, he, rfl⟩ := Option.map_eq_some_iff.mp h
  have key : e.1 = k := by simpa using List.find?_some he
  rw [← key]
  exact List.mem_of_find?_eq_some he

/-- What `libsc_init` leaves without a repository on disk: `/info`, the mounted repositories
with their `META` segments, and `/proc/numattrs`. -/
def libscInit : Libsc where
  dirs :=
    { contents := fun d =>
        match d with
        | 0 => [⟨"info".toList, .seg 0⟩, ⟨"META".toList, .seg 1⟩, ⟨"tmp".toList, .dir 3⟩,
            ⟨"proc".toList, .dir 4⟩]
        | 1 => [⟨"META".toList, .seg 2⟩]
        | 2 => [⟨"META".toList, .seg 3⟩, ⟨"numattrs".toList, .seg 4⟩]
        | _ => []
      next := 5 }
  segs := ofTable [(0, { repo := .root, uri := "info".toList }),
    (1, { repo := .root, uri := "META".toList }), (2, { repo := .tmp, uri := "META".toList }),
    (3, { repo := .proc, uri := "META".toList }), (4, { repo := .proc, uri := "numattrs".toList })]
  named i name := ofTable [((0, "dirent".toList), 0), ((1, "META".toList), 1),
    ((1, "ROOT".toList), 2), ((1, "tmp".toList), 3), ((2, "META".toList), 4),
    ((1, "proc".toList), 5), ((3, "META".toList), 6), ((3, "numattrs".toList), 7)] (i, name)
  home := ofTable [(0, (0, "dirent".toList)), (1, (1, "META".toList)), (2, (1, "ROOT".toList)),
    (3, (1, "tmp".toList)), (4, (2, "META".toList)), (5, (1, "proc".toList)),
    (6, (3, "META".toList)), (7, (3, "numattrs".toList))]
  refs _ := 0
  nextAddr := 8
  sessions := []

end ScCore.Repo
