import ScCore.Repo.FileRepo

/-!
# Segments that the file repository exposes

Which segments the table of the mapped segments refers to after any calls, and when a call ends.
-/

namespace ScCore.Repo

namespace FileRepo

variable {env : FileEnv} {st st' st'' : FileRepo} {uri : Uri} {i : SegNo}

/-! ## The table -/

/-- A segment of the table is there under its own URI, and is not dead; only those whose mapping
has not ended may not be ready. -/
structure Live (st : FileRepo) (pending : List SegNo) (uri : Uri) (i : SegNo) : Prop where
  seg : ∃ seg, st.segs i = some seg ∧ seg.uri = uri ∧ seg.dead = false ∧
    (seg.ready = true ∨ i ∈ pending)
  made : i < st.next

def Sound (st : FileRepo) (pending : List SegNo) : Prop :=
  ∀ uri i, st.mapped uri = some i → Live st pending uri i

def fileNames : Option File → List Uri
  | some (.regular (.loaded elements _)) => elements
  | _ => []

def namesOf (env : FileEnv) (st : FileRepo) (uri : Uri) : List Uri :=
  match st.mapped uri with
  | some i => ((st.segs i).map FileSegment.elements).getD []
  | none => fileNames ((st.entry (env.fsPlace ++ uri)).map FileEntry.file)

def Finds (env : FileEnv) (st : FileRepo) : RepoId → Uri → Prop
  | .root, s => basename s ∈ st.namesOf env (dirname s)
  | r, s => env.elsewhere r s = true

/-- Segments that can be mapped with all the segments that their links lead to: no file breaks off,
and the links are resolved, or need not be. -/
def Mappable (env : FileEnv) (st : FileRepo) (among : Uri → Prop) : Prop :=
  ∀ uri, among uri → st.mapped uri = none →
    (st.entry (env.fsPlace ++ uri)).map FileEntry.file ≠ some (.regular .broken) ∧
    ∀ elements links,
      (st.entry (env.fsPlace ++ uri)).map FileEntry.file =
        some (.regular (.loaded elements links)) →
      ∀ target ∈ links, ∃ r s, findRepo target = some (r, s) ∧
        (r = .root → among (dirname s)) ∧
        (env.allowUnresolvedLinks = true ∨ st.Finds env r s)

structure Grows (env : FileEnv) (st st' : FileRepo) : Prop where
  files : st'.files = st.files
  mapped : ∀ uri i, st.mapped uri = some i → st'.mapped uri = some i
  names : ∀ uri, st'.namesOf env uri = st.namesOf env uri
  next : st.next ≤ st'.next

namespace Grows

theorem refl (st : FileRepo) : Grows env st st := ⟨rfl, fun _ _ h => h, fun _ => rfl, Nat.le_refl _⟩

theorem trans (h : Grows env st st') (h' : Grows env st' st'') : Grows env st st'' where
  files := h'.files.trans h.files
  mapped uri i hi := h'.mapped uri i (h.mapped uri i hi)
  names uri := (h'.names uri).trans (h.names uri)
  next := Nat.le_trans h.next h'.next

theorem unmapped (h : Grows env st st') (hi : st'.mapped uri = none) : st.mapped uri = none := by
  cases hst : st.mapped uri with
  | none => rfl
  | some i =>
    rw [h.mapped uri i hst] at hi
    cases hi

theorem entry (h : Grows env st st') (path : Uri) : st'.entry path = st.entry path := by
  rw [FileRepo.entry, FileRepo.entry, h.files]

theorem finds (h : Grows env st st') {r : RepoId} {s : Uri} :
    st'.Finds env r s ↔ st.Finds env r s := by
  cases r with
  | root => rw [Finds, Finds, h.names]
  | tmp | proc => exact Iff.rfl

theorem mappable {among : Uri → Prop} (h : Grows env st st') (hm : st.Mappable env among) :
    st'.Mappable env among := by
  intro uri huri hnone
  obtain ⟨whole, links⟩ := hm uri huri (h.unmapped hnone)
  rw [h.entry]
  refine ⟨whole, fun elements targets hload target htarget => ?_⟩
  obtain ⟨r, s, hrepo, hamong, hfound⟩ := links elements targets hload target htarget
  exact ⟨r, s, hrepo, hamong, hfound.imp_right h.finds.mpr⟩

end Grows

/-! ## Turns -/

def unmappedFiles (env : FileEnv) (st : FileRepo) : Nat :=
  st.files.countP fun p => (st.mapped (p.1.drop env.fsPlace.length)).isNone

theorem Grows.unmappedFiles_le (h : Grows env st st') :
    st'.unmappedFiles env ≤ st.unmappedFiles env := by
  rw [unmappedFiles, unmappedFiles, h.files]
  apply List.countP_mono_left
  intro p _ hp
  rw [Option.isNone_iff_eq_none] at hp ⊢
  exact h.unmapped hp

theorem countP_lt {α : Type} {p q : α → Bool} {l : List α} {a : α} (ha : a ∈ l)
    (himp : ∀ b ∈ l, p b = true → q b = true) (hp : p a = false) (hq : q a = true) :
    l.countP p < l.countP q := by
  obtain ⟨before, after, rfl⟩ := List.append_of_mem ha
  have front := List.countP_mono_left fun b hb => himp b (List.mem_append_left _ hb)
  have back := List.countP_mono_left fun b hb =>
    himp b (List.mem_append_right _ (List.mem_cons_of_mem a hb))
  rw [List.countP_append, List.countP_append, List.countP_cons_of_neg (by rw [hp]; decide),
    List.countP_cons_of_pos hq]
  omega

theorem Grows.unmappedFiles_lt (h : Grows env st st') {e : FileEntry}
    (hfile : st.entry (env.fsPlace ++ uri) = some e) (hnone : st.mapped uri = none)
    (hsome : st'.mapped uri = some i) : st'.unmappedFiles env < st.unmappedFiles env := by
  have mem : (env.fsPlace ++ uri, e) ∈ st.files := by
    obtain ⟨before, after, heq, -⟩ := List.lookup_eq_some_iff.mp hfile
    rw [heq]
    exact List.mem_append_right _ List.mem_cons_self
  rw [unmappedFiles, unmappedFiles, h.files]
  refine countP_lt mem ?_ ?_ ?_
  · intro p _ hp
    rw [Option.isNone_iff_eq_none] at hp ⊢
    exact h.unmapped hp
  · rw [List.drop_left, hsome, Option.isNone_some]
  · rw [List.drop_left, hnone, Option.isNone_none]

/-! ## Mapping -/

/-- What a call of `map_segment` answers. -/
structure Maps (env : FileEnv) (st : FileRepo) (pending : List SegNo) (uri : Uri)
    (r : Option SegNo × FileRepo) : Prop where
  grows : Grows env st r.2
  sound : r.2.Sound pending
  answer : r.2.mapped uri = r.1
  names : ∀ i, r.1 = some i → ∃ seg, r.2.segs i = some seg ∧ seg.elements = st.namesOf env uri
  nothing : r.1 = none → st.namesOf env uri = []

structure Inits (env : FileEnv) (st : FileRepo) (pending : List SegNo) (r : Bool × FileRepo) :
    Prop where
  grows : Grows env st r.2
  sound : r.2.Sound pending
  success : r.1 = true ∨ env.allowUnresolvedLinks = true

variable {among : Uri → Prop} {pending : List SegNo} {turns : Nat}

/-- What holds of the calls of `map_segment` with so many turns. -/
def MapsWithin (env : FileEnv) (among : Uri → Prop) (turns : Nat) : Prop :=
  ∀ {st : FileRepo} {pending : List SegNo} {uri : Uri}, st.Sound pending → st.Mappable env among →
    among uri →
    (mapSegment env turns uri st = none ∧ turns ≤ st.unmappedFiles env) ∨
      ∃ r, mapSegment env turns uri st = some r ∧ Maps env st pending uri r

theorem resolveLink_spec (ih : MapsWithin env among turns) (sound : st.Sound pending)
    (mappable : st.Mappable env among) {target : Uri} {r : RepoId} {s : Uri}
    (hrepo : findRepo target = some (r, s)) (hamong : r = .root → among (dirname s)) :
    (resolveLink env (mapSegment env turns) target st = none ∧ turns ≤ st.unmappedFiles env) ∨
      ∃ found st', resolveLink env (mapSegment env turns) target st = some (found, st') ∧
        Grows env st st' ∧ st'.Sound pending ∧ (found = true ↔ st.Finds env r s) := by
  rw [resolveLink, hrepo]
  cases r with
  | root =>
    dsimp only
    obtain ⟨hnone, hturns⟩ | ⟨⟨answer, st'⟩, hsome, maps⟩ := ih sound mappable (hamong rfl)
    · rw [hnone]
      exact .inl ⟨rfl, hturns⟩
    · rw [hsome]
      right
      cases answer with
      | none =>
        refine ⟨false, st', rfl, maps.grows, maps.sound, ?_⟩
        rw [Finds, maps.nothing rfl]
        simp
      | some i =>
        obtain ⟨seg, hseg, helements⟩ := maps.names i rfl
        refine ⟨decide (basename s ∈ seg.elements), st', ?_, maps.grows, maps.sound, ?_⟩
        · dsimp only at hseg ⊢
          rw [hseg, Option.map_some]
        · rw [Finds, ← helements, decide_eq_true_iff]
  | tmp => exact .inr ⟨_, st, rfl, .refl st, sound, Iff.rfl⟩
  | proc => exact .inr ⟨_, st, rfl, .refl st, sound, Iff.rfl⟩

theorem initLinks_spec (ih : MapsWithin env among turns) {links : List Uri}
    (sound : st.Sound pending) (mappable : st.Mappable env among)
    (hlinks : ∀ target ∈ links, ∃ r s, findRepo target = some (r, s) ∧
      (r = .root → among (dirname s)) ∧
      (env.allowUnresolvedLinks = true ∨ st.Finds env r s)) :
    (initLinks env (mapSegment env turns) links st = none ∧ turns ≤ st.unmappedFiles env) ∨
      ∃ r, initLinks env (mapSegment env turns) links st = some r ∧ Inits env st pending r := by
  induction links generalizing st with
  | nil => exact .inr ⟨(true, st), rfl, .refl st, sound, .inl rfl⟩
  | cons target links induction =>
    obtain ⟨r, s, hrepo, hamong, hfound⟩ := hlinks target List.mem_cons_self
    rw [initLinks]
    obtain ⟨hnone, hturns⟩ | ⟨found, st₁, hsome, grows, sound₁, hiff⟩ :=
      resolveLink_spec ih sound mappable hrepo hamong
    · rw [hnone]
      exact .inl ⟨rfl, hturns⟩
    · rw [hsome]
      dsimp only
      have rest := induction sound₁ (grows.mappable mappable) fun target htarget => by
        obtain ⟨r, s, hrepo, hamong, hfound⟩ := hlinks target (List.mem_cons_of_mem _ htarget)
        exact ⟨r, s, hrepo, hamong, hfound.imp_right grows.finds.mpr⟩
      obtain ⟨hnone, hturns⟩ | ⟨⟨success, st₂⟩, hsome₂, inits⟩ := rest
      · rw [hnone]
        exact .inl ⟨rfl, Nat.le_trans hturns grows.unmappedFiles_le⟩
      · rw [hsome₂]
        refine .inr ⟨(found && success, st₂), rfl, grows.trans inits.grows, inits.sound, ?_⟩
        obtain allowed | hfound := hfound
        · exact .inr allowed
        · refine inits.success.imp_left fun hsuccess => ?_
          have hsuccess : success = true := hsuccess
          rw [hiff.mpr hfound, hsuccess]
          rfl

theorem namesOf_mapped {seg : FileSegment} (hi : st.mapped uri = some i)
    (hseg : st.segs i = some seg) : st.namesOf env uri = seg.elements := by
  simp [namesOf, hi, hseg]

theorem namesOf_unmapped (hi : st.mapped uri = none) : st.namesOf env uri =
    fileNames ((st.entry (env.fsPlace ++ uri)).map FileEntry.file) := by
  rw [namesOf, hi]

theorem namesOf_congr (files : st'.files = st.files) (mapped : st'.mapped uri = st.mapped uri)
    (kept : ∀ i, st.mapped uri = some i →
      (st'.segs i).map FileSegment.elements = (st.segs i).map FileSegment.elements) :
    st'.namesOf env uri = st.namesOf env uri := by
  rw [namesOf, namesOf, mapped, entry, entry, files]
  cases hi : st.mapped uri with
  | none => rfl
  | some i => exact congrArg (·.getD []) (kept i hi)

variable {ready : Bool} {elements : List Uri} {old newname : Uri} {r : Retval × FileRepo}

theorem grows_insert (sound : st.Sound pending) (hnone : st.mapped uri = none)
    (helements : st.namesOf env uri = elements) :
    Grows env st ((st.newSegment uri elements ready).insert uri st.next) where
  files := rfl
  mapped v j hj := by
    have hv : v ≠ uri := by
      rintro rfl
      rw [hnone] at hj
      cases hj
    rw [insert_of_ne hv]
    exact hj
  names v := by
    by_cases hv : v = uri
    · subst hv
      have hseg : ((st.newSegment v elements ready).insert v st.next).segs st.next =
          some { uri := v, elements := elements, ready := ready } := newSegment_self
      rw [helements]
      exact namesOf_mapped insert_self hseg
    · refine namesOf_congr rfl (insert_of_ne hv) fun j hj => ?_
      rw [insert_segs, newSegment_of_ne (Nat.ne_of_lt (sound v j hj).made)]
  next := Nat.le_succ _

theorem sound_insert (sound : st.Sound pending) {pending' : List SegNo}
    (hsub : ∀ j ∈ pending, j ∈ pending') (hready : ready = true ∨ st.next ∈ pending') :
    ((st.newSegment uri elements ready).insert uri st.next).Sound pending' := by
  intro v j hj
  by_cases hv : v = uri
  · subst hv
    obtain rfl : st.next = j := Option.some.inj (insert_self.symm.trans hj)
    exact ⟨⟨_, newSegment_self, rfl, rfl, hready⟩, Nat.lt_succ_self _⟩
  · rw [insert_of_ne hv] at hj
    obtain ⟨⟨seg, hseg, huri, hdead, hstate⟩, made⟩ := sound v j hj
    refine ⟨⟨seg, ?_, huri, hdead, hstate.imp_right (hsub j)⟩, Nat.lt_succ_of_lt made⟩
    rw [insert_segs, newSegment_of_ne (Nat.ne_of_lt made), hseg]

theorem grows_discard (sound : st.Sound pending) (uri : Uri) (elements : List Uri) :
    Grows env st ((st.newSegment uri elements false).delete st.next) ∧
      ((st.newSegment uri elements false).delete st.next).Sound pending := by
  have kept {v : Uri} {j : SegNo} (hj : st.mapped v = some j) :
      ((st.newSegment uri elements false).delete st.next).segs j = st.segs j := by
    have ne := Nat.ne_of_lt (sound v j hj).made
    rw [delete_of_ne ne, newSegment_of_ne ne]
  refine ⟨⟨rfl, fun _ _ h => h, fun v => ?_, Nat.le_succ _⟩, fun v j hj => ?_⟩
  · exact namesOf_congr rfl rfl fun j hj => by rw [kept hj]
  · obtain ⟨⟨seg, hseg, rest⟩, made⟩ := sound v j hj
    exact ⟨⟨seg, (kept hj).trans hseg, rest⟩, Nat.lt_succ_of_lt made⟩

theorem grows_ready (sound : st.Sound (i :: pending)) :
    Grows env st (st.modify i fun seg => { seg with ready := true }) ∧
      (st.modify i fun seg => { seg with ready := true }).Sound pending := by
  refine ⟨⟨rfl, fun _ _ h => h, fun v => ?_, Nat.le_refl _⟩, fun v j hj => ?_⟩
  · refine namesOf_congr rfl rfl fun j _ => ?_
    by_cases hij : j = i
    · subst hij
      rw [modify_self, Option.map_map]
      rfl
    · rw [modify_of_ne _ hij]
  · obtain ⟨⟨seg, hseg, huri, hdead, hstate⟩, made⟩ := sound v j hj
    by_cases hij : j = i
    · subst hij
      refine ⟨⟨{ seg with ready := true }, ?_, huri, hdead, .inl rfl⟩, made⟩
      rw [modify_self, hseg, Option.map_some]
    · refine ⟨⟨seg, by rw [modify_of_ne _ hij, hseg], huri, hdead, ?_⟩, made⟩
      exact hstate.imp_right fun hmem => (List.mem_cons.mp hmem).resolve_left hij

theorem mapSegment_spec (env : FileEnv) (among : Uri → Prop) (turns : Nat) :
    MapsWithin env among turns := by
  induction turns with
  | zero => exact fun _ _ _ => .inl ⟨rfl, Nat.zero_le _⟩
  | succ turns ih =>
    intro st pending uri sound mappable huri
    rw [mapSegment]
    cases hmapped : st.mapped uri with
    | some i =>
      refine .inr ⟨_, rfl, .refl st, sound, hmapped, ?_, nofun⟩
      intro j hj
      obtain rfl := Option.some.inj hj
      obtain ⟨⟨seg, hseg, -⟩, -⟩ := sound uri i hmapped
      exact ⟨seg, hseg, (namesOf_mapped hmapped hseg).symm⟩
    | none =>
      dsimp only
      have hnames : st.namesOf env uri =
          fileNames ((st.entry (env.fsPlace ++ uri)).map FileEntry.file) :=
        namesOf_unmapped hmapped
      obtain ⟨whole, hlinks⟩ := mappable uri huri hmapped
      split
      · rename_i hfile
        rw [hfile] at hnames
        refine .inr ⟨_, rfl, grows_insert sound hmapped hnames,
          sound_insert sound (fun _ h => h) (.inl rfl), insert_self, ?_, nofun⟩
        intro j hj
        obtain rfl := Option.some.inj hj
        exact ⟨_, newSegment_self, hnames.symm⟩
      · rename_i hfile
        rw [hfile] at hnames
        obtain ⟨grows, sound'⟩ := grows_discard sound uri []
        exact .inr ⟨_, rfl, grows, sound', hmapped, nofun, fun _ => hnames⟩
      · rename_i hfile
        exact absurd hfile whole
      · rename_i elements links hfile
        rw [hfile] at hnames
        have hlinks := hlinks elements links hfile
        have grows : Grows env st ((st.newSegment uri elements false).insert uri st.next) :=
          grows_insert sound hmapped hnames
        have sound₁ : ((st.newSegment uri elements false).insert uri st.next).Sound
            (st.next :: pending) :=
          sound_insert sound (fun _ => List.mem_cons_of_mem _) (.inr List.mem_cons_self)
        obtain ⟨e, he, -⟩ := Option.map_eq_some_iff.mp hfile
        have fewer := grows.unmappedFiles_lt he hmapped insert_self
        obtain ⟨hnone, hturns⟩ | ⟨⟨success, st₂⟩, hsome, inits⟩ := initLinks_spec ih sound₁
          (grows.mappable mappable) fun target htarget => by
            obtain ⟨r, s, hrepo, hamong, hfound⟩ := hlinks target htarget
            exact ⟨r, s, hrepo, hamong, hfound.imp_right grows.finds.mpr⟩
        · rw [hnone]
          exact .inl ⟨rfl, Nat.lt_of_le_of_lt hturns fewer⟩
        · rw [hsome]
          dsimp only
          rw [if_pos inits.success]
          have hnext := inits.grows.mapped uri st.next insert_self
          obtain ⟨grows', sound'⟩ := grows_ready inits.sound
          have all := (grows.trans inits.grows).trans grows'
          have hnext' := grows'.mapped uri st.next hnext
          refine .inr ⟨_, rfl, all, sound', hnext, ?_, nofun⟩
          intro j hj
          obtain rfl := Option.some.inj hj
          obtain ⟨⟨seg', hseg', -⟩, -⟩ := sound' uri st.next hnext
          exact ⟨seg', hseg', (namesOf_mapped hnext' hseg').symm.trans (all.names uri)⟩
      · rename_i _ _ _ hfile
        refine .inr ⟨_, rfl, .refl st, sound, hmapped, nofun, fun _ => ?_⟩
        rw [hnames]
        unfold fileNames
        split
        · rename_i elements links hfile'
          exact absurd hfile' (hfile elements links)
        · rfl

/-! ## Renaming -/

/-- The path that `rename` asks for after so many calls of itself. -/
def nested (env : FileEnv) : Nat → Uri → Uri
  | 0, uri => uri
  | n + 1, uri => nested env n (env.fsPlace ++ uri)

/-- `rename` meets a file at the new name, before or after calls of itself, and no segment at the
old names before. -/
def Refuses (env : FileEnv) (st : FileRepo) (old newname : Uri) : Prop :=
  ∃ n, 0 ≤ st.stat env (nested env n newname) ∧ ∀ k < n, st.mapped (nested env k old) = none

theorem setUri_unmapped (h : st.mapped old = none) : st.setUri old newname = some st := by
  rw [setUri, h]

theorem rename_never (h : rename env turns old newname st = some r) : r.1 = rvErrGen := by
  induction turns generalizing old newname st r with
  | zero => cases h
  | succ turns ih =>
    rw [rename] at h
    split at h
    · cases h
      rfl
    · split at h
      · cases h
      · split at h
        · cases h
        · rename_i hrest
          have refused := ih hrest
          dsimp only at refused
          rw [refused, if_pos (by decide)] at h
          split at h <;> cases h
          rfl

theorem rename_some (h : rename env turns old newname st = some r) :
    r = (rvErrGen, st) ∧ st.Refuses env old newname := by
  induction turns generalizing old newname r with
  | zero => cases h
  | succ turns ih =>
    rw [rename] at h
    split at h
    · rename_i there
      cases h
      exact ⟨rfl, 0, Int.not_lt.mp there, fun k hk => absurd hk (Nat.not_lt_zero k)⟩
    · cases hmapped : st.mapped old with
      | none =>
        rw [setUri_unmapped hmapped, hmapped] at h
        dsimp only at h
        split at h
        · cases h
        · rename_i hrest
          obtain ⟨hr, n, hstat, hnone⟩ := ih hrest
          cases hr
          cases h
          refine ⟨rfl, n + 1, hstat, fun k hk => ?_⟩
          cases k with
          | zero => exact hmapped
          | succ k => exact hnone k (Nat.lt_of_succ_lt_succ hk)
      | some i =>
        exfalso
        rw [hmapped] at h
        split at h
        · cases h
        · split at h
          · cases h
          · rename_i hrest
            have refused := rename_never hrest
            dsimp only at refused
            rw [refused, if_pos (by decide)] at h
            cases h

theorem rename_ends_iff (old newname : Uri) :
    (∃ turns r, rename env turns old newname st = some r) ↔ st.Refuses env old newname := by
  constructor
  · rintro ⟨turns, r, h⟩
    exact (rename_some h).2
  · rintro ⟨n, hstat, hnone⟩
    refine ⟨n + 1, (rvErrGen, st), ?_⟩
    induction n generalizing old newname with
    | zero =>
      rw [rename]
      exact if_pos (Int.not_lt.mpr hstat)
    | succ n ih =>
      have rest := ih (env.fsPlace ++ old) (env.fsPlace ++ newname) hstat
        fun k hk => hnone (k + 1) (Nat.succ_lt_succ hk)
      have first : st.mapped old = none := hnone 0 (Nat.succ_pos n)
      rw [rename]
      split
      · rfl
      · rw [setUri_unmapped first]
        dsimp only
        rw [rest, first]
        rfl

/-! ## Removing -/

theorem Sound.outside (sound : st.Sound pending) (files : List (Uri × FileEntry)) :
    ({ st with files := files } : FileRepo).Sound pending := by
  intro v j hj
  obtain ⟨hseg, made⟩ := sound v j hj
  exact ⟨hseg, made⟩

theorem unmap_spec (sound : st.Sound []) (uri : Uri) :
    ∃ st', st.unmap uri = some st' ∧ st'.Sound [] ∧ st'.mapped uri = none ∧
      st'.files = st.files := by
  rw [unmap]
  cases hmapped : st.mapped uri with
  | none => exact ⟨st, rfl, sound, hmapped, rfl⟩
  | some i =>
    obtain ⟨⟨seg, hseg, huri, -⟩, -⟩ := sound uri i hmapped
    obtain ⟨st₁, hdie, hnext, hfiles, htable, hkept⟩ : ∃ st₁, st.die i = some st₁ ∧
        st₁.next = st.next ∧ st₁.files = st.files ∧ st₁.mapped = st.mapped ∧
        ∀ j, j ≠ i → st₁.segs j = st.segs j := by
      rw [die, hseg, Option.map_some]
      split
      · exact ⟨_, rfl, rfl, rfl, rfl, fun j hj => delete_of_ne hj⟩
      · exact ⟨_, rfl, rfl, rfl, rfl, fun j hj => modify_of_ne _ hj⟩
    dsimp only
    rw [hdie, Option.map_some]
    refine ⟨_, rfl, fun v j hj => ?_, Function.update_self .., hfiles⟩
    have hv : v ≠ uri := by
      rintro rfl
      exact nomatch hj.symm.trans (Function.update_self ..)
    have hj : st₁.mapped v = some j := (Function.update_of_ne hv ..).symm.trans hj
    obtain ⟨⟨seg', hseg', huri', rest⟩, made⟩ := sound v j (htable ▸ hj)
    have hji : j ≠ i := by
      rintro rfl
      rw [hseg] at hseg'
      cases hseg'
      exact hv (huri'.symm.trans huri)
    exact ⟨⟨seg', (hkept j hji).trans hseg', huri', rest⟩, hnext ▸ made⟩

/-- `unlink` ends, unless a segment is mapped whose file is not removed, and leaves the table
sound. -/
theorem unlink_spec (sound : st.Sound []) (removes : st.mapped uri ≠ none →
      (st.entry (env.fsPlace ++ uri)).map FileEntry.removable = some true) :
    ∃ rv st', st.unlink env uri = some (rv, st') ∧ st'.Sound [] ∧ st'.mapped uri = none := by
  obtain ⟨st₁, hunmap, sound₁, hnone, hfiles⟩ := unmap_spec sound uri
  rw [unlink, hunmap]
  dsimp only
  cases hremove : st₁.removeFile (env.fsPlace ++ uri) with
  | some st₂ =>
    refine ⟨rvOk, st₂, rfl, ?_⟩
    unfold removeFile at hremove
    split at hremove <;> cases hremove
    exact ⟨sound₁.outside _, hnone⟩
  | none =>
    have unmapped : st.mapped uri = none := by
      by_contra hmapped
      obtain ⟨⟨file, removable⟩, he, hremovable⟩ := Option.map_eq_some_iff.mp (removes hmapped)
      obtain rfl : removable = true := hremovable
      have entry_eq : st₁.entry (env.fsPlace ++ uri) = some ⟨file, true⟩ := by
        rw [entry, hfiles]
        exact he
      rw [removeFile, entry_eq] at hremove
      cases hremove
    rw [unmapped]
    exact ⟨rvErrGen, st₁, rfl, sound₁, hnone⟩

end FileRepo

open FileRepo

def FileRepo.start (files : List (Uri × FileEntry)) : FileRepo :=
  { files := files, mapped := fun _ => none, segs := fun _ => none, next := 0 }

/-- The call comes across no file that breaks off, no link that has to be resolved and is not, and
no mapped segment whose file is not removed; and where it renames, it is refused. -/
def FileCall.Allowed (env : FileEnv) (st : FileRepo) : FileCall → Prop
  | mapSegment uri => ∃ among : Uri → Prop, among uri ∧ st.Mappable env among
  | unlink uri => st.mapped uri ≠ none →
      (st.entry (env.fsPlace ++ uri)).map FileEntry.removable = some true
  | rename old newname => st.Refuses env old newname
  | outside _ => True

inductive FileRun (env : FileEnv) : FileRepo → Prop where
  | start (files : List (Uri × FileEntry)) : FileRun env (.start files)
  | call {st st' : FileRepo} {call : FileCall} {turns : Nat} {answer : FileAnswer} :
      FileRun env st → call.Allowed env st →
      call.exec env turns st = some (answer, st') → FileRun env st'

/-- What a call promises: the table refers to live segments only, a segment that is mapped is in
the table and live, one that is not is not in the table, and a segment that is renamed has only the
new name. -/
structure FileCall.Keeps (call : FileCall) (st : FileRepo) (answer : FileAnswer)
    (st' : FileRepo) : Prop where
  sound : st'.Sound []
  mapped : ∀ uri i, call = .mapSegment uri → answer = .segment (some i) →
    st'.mapped uri = some i ∧ Live st' [] uri i
  failed : ∀ uri, call = .mapSegment uri → answer = .segment none → st'.mapped uri = none
  renamed : ∀ old newname, call = .rename old newname → answer = .retval rvOk →
    st'.mapped newname = st.mapped old ∧ st'.mapped old = none

namespace FileCall

variable {env : FileEnv} {st : FileRepo} {call : FileCall}

theorem Allowed.ends (sound : st.Sound []) (allowed : call.Allowed env st) :
    ∃ turns r, call.exec env turns st = some r := by
  cases call with
  | mapSegment uri =>
    obtain ⟨among, huri, mappable⟩ := allowed
    obtain ⟨-, hturns⟩ | ⟨r, hr, -⟩ :=
      mapSegment_spec env among (st.unmappedFiles env + 1) sound mappable huri
    · exact absurd hturns (Nat.not_succ_le_self _)
    · exact ⟨st.unmappedFiles env + 1, _, by rw [exec, hr, Option.map_some]⟩
  | unlink uri =>
    obtain ⟨rv, st', h, -⟩ := unlink_spec sound allowed
    exact ⟨0, _, by rw [exec, h, Option.map_some]⟩
  | rename old newname =>
    obtain ⟨turns, r, h⟩ := (rename_ends_iff old newname).mpr allowed
    exact ⟨turns, _, by rw [exec, h, Option.map_some]⟩
  | outside files => exact ⟨0, _, rfl⟩

theorem Allowed.keeps (sound : st.Sound []) (allowed : call.Allowed env st) {turns : Nat}
    {answer : FileAnswer} {st' : FileRepo} (h : call.exec env turns st = some (answer, st')) :
    call.Keeps st answer st' := by
  cases call with
  | mapSegment uri =>
    obtain ⟨among, huri, mappable⟩ := allowed
    obtain ⟨hnone, -⟩ | ⟨⟨seg, st₁⟩, hr, maps⟩ :=
      mapSegment_spec env among turns sound mappable huri
    · rw [exec, hnone] at h
      cases h
    · rw [exec, hr] at h
      cases h
      refine ⟨maps.sound, ?_, ?_, nofun⟩
      · rintro uri' i ⟨⟩ ⟨⟩
        exact ⟨maps.answer, maps.sound uri i maps.answer⟩
      · rintro uri' ⟨⟩ ⟨⟩
        exact maps.answer
  | unlink uri =>
    obtain ⟨rv, st₁, hr, sound₁, -⟩ := unlink_spec sound allowed
    rw [exec, hr] at h
    cases h
    exact ⟨sound₁, nofun, nofun, nofun⟩
  | rename old newname =>
    obtain ⟨r, hr, heq⟩ := Option.map_eq_some_iff.mp h
    obtain ⟨rfl, -⟩ := rename_some hr
    cases heq
    refine ⟨sound, nofun, nofun, ?_⟩
    rintro _ _ - ⟨⟩
  | outside files =>
    cases h
    exact ⟨sound.outside files, nofun, nofun, nofun⟩

end FileCall

theorem FileRun.sound {env : FileEnv} {st : FileRepo} (run : FileRun env st) : st.Sound [] := by
  induction run with
  | start files => exact nofun
  | call _ allowed h sound => exact (allowed.keeps sound h).sound

def strictEnv : FileEnv := ⟨"fs/".toList, false, fun _ _ => false⟩

def linkedFiles : List (Uri × FileEntry) :=
  [("fs/s/a".toList, ⟨.regular (.loaded ["x".toList] ["/s/a/x".toList]), true⟩)]

theorem nested_suffix (env : FileEnv) (n : Nat) (uri : Uri) : uri <:+ nested env n uri := by
  induction n generalizing uri with
  | zero => exact List.suffix_rfl
  | succ n ih => exact (List.suffix_append env.fsPlace uri).trans (ih (env.fsPlace ++ uri))

end ScCore.Repo
