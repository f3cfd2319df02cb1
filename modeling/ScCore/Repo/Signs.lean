import ScCore.Repo.Walks
import ScCore.Repo.Counts

/-!
# Signs of segments and directories

`uri2sign` and `sign2uri` are inverse up to repeated slashes and a slash at the end, for
what is made after `libsc_init` as long as nothing is made under the reserved name `/ROOT`
and no directory by a URI with repeated slashes.
-/

namespace ScCore.Repo

open Store (SegId Addr)

def canonicalUri (uri : Uri) : Uri :=
  if normalizeUri uri = ['/'] then ['/'] else stripSlashes (normalizeUri uri)

def Libsc.Exists (st : Libsc) (uri : Uri) : Prop := ∃ rv, st.stat uri = some rv ∧ rv ≠ rvErrGen

/-- `/info` is made before the memory knows signs. -/
def isInfo (d : DirId) (name : Uri) : Prop := d = 0 ∧ name = "info".toList

/-- Every directory that is reached has its `META` segment, and its entries have their signs
there, but for those that are listed. -/
structure SignInv (unsigned : DirId → Uri → Prop) (bare : DirId → Prop) (st : Libsc) : Prop where
  tree : Tree st.dirs
  home : ∀ {i name a}, st.named i name = some a → st.home a = some (i, name)
  fresh : ∀ {i name a}, st.named i name = some a → a < st.nextAddr
  plain : ∀ {i seg}, st.segs i = some seg → seg.ring0 = false
  metas : ∀ {d b}, Leads st.dirs d b → ¬ bare d → ∃ m seg,
    st.dirs.find d "META".toList = some ⟨"META".toList, .seg m⟩ ∧ st.segs m = some seg ∧
      seg.fullUri = b ++ "META".toList
  empty : ∀ {d}, bare d → st.dirs.contents d = []
  signed : ∀ {d b m name e}, Leads st.dirs d b →
    st.dirs.find d "META".toList = some ⟨"META".toList, .seg m⟩ →
    st.dirs.find d name = some e → '/' ∉ name → ¬ unsigned d name →
    ∃ a, st.named m name = some a
  root : ∀ {m}, st.dirs.find 0 "META".toList = some ⟨"META".toList, .seg m⟩ →
    ∃ a, st.named m "ROOT".toList = some a
  reserved : st.dirs.find 0 "ROOT".toList = none

/-- All that is reached has its sign, but for `/info`. -/
abbrev Signed (st : Libsc) : Prop := SignInv isInfo (fun _ => False) st

namespace SignInv

variable {st st' : Libsc} {unsigned : DirId → Uri → Prop} {bare : DirId → Prop}
variable {d : DirId} {b name uri s : Uri} {m i : SegId} {r : RepoId} {rv : Retval}

theorem isName_meta : IsName "META".toList := ⟨by decide, by decide⟩

/-! ## Looking up signs -/

theorem findMeta (h : Leads st.dirs d b) (named : IsName name) (eq : b ++ name = normalizeUri uri)
    (hm : st.dirs.find d "META".toList = some ⟨"META".toList, .seg m⟩) :
    st.findMeta uri = some (some m, name) := by
  obtain ⟨b', rfl⟩ := h.ends
  obtain ⟨r, pre, resolve⟩ := h.resolve
  obtain ⟨hrepo, hf⟩ := resolve _ (isName_meta.below _)
  have parts : metaOf uri = (b' ++ ['/'] ++ "META".toList, name) := by
    have long : b' ++ ['/'] ++ name ≠ ['/'] := by
      intro same
      have length := congrArg List.length same
      have pos := List.length_pos_iff.mpr named.1
      simp only [List.length_append, List.length_cons, List.length_nil] at length
      omega
    obtain ⟨last, upTo⟩ := parts_of_append (b := b') named.2
    rw [metaOf, ← eq, if_neg long, stripSlashes_append named]
    dsimp only
    rw [last, upTo]
  rw [Dirs.findFrom_isName isName_meta.2, hm] at hf
  simp only [Libsc.findMeta, parts, Libsc.mapUri, hrepo, Dirs.mapSegment, hf,
    Option.bind_eq_bind, Option.bind_some]

theorem sign_of_entry (inv : SignInv unsigned bare st) (h : Leads st.dirs d b) (notBare : ¬ bare d)
    {e : Dirent} (found : st.dirs.find d name = some e) (named : IsName name)
    (hsigned : ¬ unsigned d name) (eq : b ++ name = normalizeUri uri) :
    ∃ a, st.uri2sign uri = some (some a) ∧ st.sign2uri a = some (some (b ++ name)) := by
  obtain ⟨m, seg, hm, hseg, hfull⟩ := inv.metas h notBare
  obtain ⟨a, ha⟩ := inv.signed h hm found named.2 hsigned
  refine ⟨a, by simp [Libsc.uri2sign, findMeta h named eq hm, ha], ?_⟩
  obtain ⟨b', rfl⟩ := h.ends
  have length : (b' ++ ['/'] ++ "META".toList).length = b'.length + 5 := by simp
  have last : (b' ++ ['/'] ++ "META".toList).drop b'.length = "/META".toList := by
    rw [List.append_assoc, List.drop_left]
    rfl
  have first : (b' ++ ['/'] ++ "META".toList).take (b'.length + 5 - 4) = b' ++ ['/'] :=
    List.take_left' (by simp)
  have notRoot : ¬ (b' ++ ['/'] ++ "META".toList = "/META".toList ∧ name = "ROOT".toList) := by
    rintro ⟨same, rfl⟩
    have root : b' ++ ['/'] = ['/'] :=
      @List.append_cancel_right _ _ "META".toList ['/'] same
    rw [h.eq_root root, inv.reserved] at found
    cases found
  simp only [Libsc.sign2uri, inv.home ha, hseg, Option.bind_eq_bind, Option.bind_some]
  rw [hfull, length, Nat.add_sub_cancel, last, if_neg (by omega), if_neg (not_not_intro rfl),
    if_neg notRoot, first]

theorem sign_of_root (inv : Signed st) :
    ∃ a, st.uri2sign "/".toList = some (some a) ∧ st.sign2uri a = some (some "/".toList) := by
  obtain ⟨m, seg, hm, hseg, hfull⟩ := inv.metas (.root .root) id
  obtain ⟨a, ha⟩ := inv.root hm
  have top : Leads st.dirs 0 "/".toList := .root .root
  obtain ⟨r, pre, resolve⟩ := top.resolve
  obtain ⟨hrepo, hf⟩ := resolve _ (isName_meta.below _)
  rw [Dirs.findFrom_isName isName_meta.2, show st.dirs.find 0 _ = _ from hm] at hf
  have parts : metaOf "/".toList = ("/".toList ++ "META".toList, "ROOT".toList) := by decide
  refine ⟨a, ?_, ?_⟩
  · simp only [Libsc.uri2sign, Libsc.findMeta, parts, Libsc.mapUri, hrepo, Dirs.mapSegment, hf,
      Option.bind_eq_bind, Option.bind_some, ha]
  · simp only [Libsc.sign2uri, inv.home ha, hseg, hfull, Option.bind_eq_bind, Option.bind_some]
    rfl

theorem canonicalUri_entry (h : Leads st.dirs d b) (named : IsName name)
    (eq : b ++ name = normalizeUri uri) : canonicalUri uri = b ++ name := by
  obtain ⟨b', rfl⟩ := h.ends
  have long : b' ++ ['/'] ++ name ≠ ['/'] := by
    intro same
    have length := congrArg List.length same
    have pos := List.length_pos_iff.mpr named.1
    simp only [List.length_append, List.length_cons, List.length_nil] at length
    omega
  rw [canonicalUri, ← eq, if_neg long, stripSlashes_append named]

theorem sign_of_exists (inv : Signed st) (found : st.Exists uri)
    (notInfo : canonicalUri uri ≠ "/info".toList) :
    ∃ a, st.uri2sign uri = some (some a) ∧ st.sign2uri a = some (some (canonicalUri uri)) := by
  have entry {d : DirId} {b : Uri} {e : Dirent} {u : Uri} (h : Leads st.dirs d b)
      (found : st.dirs.find d e.name = some e) (named : IsName e.name)
      (eq : b ++ e.name = normalizeUri u) (notInfo : canonicalUri u ≠ "/info".toList) :
      ∃ a, st.uri2sign u = some (some a) ∧ st.sign2uri a = some (some (canonicalUri u)) := by
    have canonical := canonicalUri_entry h named eq
    rw [canonical] at notInfo ⊢
    refine inv.sign_of_entry h id found named ?_ eq
    rintro ⟨root, same⟩
    rw [h.uri_root inv.tree root, same] at notInfo
    exact notInfo rfl
  -- a repository is the entry at which it is mounted
  have mount (r : RepoId) (n u : Uri) (hm : n ∈ mounts) (named : IsName n)
      (eq : "/".toList ++ n = normalizeUri u) (same : metaOf r.uri = metaOf u)
      (same' : canonicalUri r.uri = canonicalUri u)
      (notInfo : canonicalUri r.uri ≠ "/info".toList) :
      ∃ a, st.uri2sign r.uri = some (some a) ∧
        st.sign2uri a = some (some (canonicalUri r.uri)) := by
    obtain ⟨x, found, -⟩ := inv.tree.mounted n hm
    rw [same'] at notInfo ⊢
    obtain ⟨a, ha⟩ := entry (e := ⟨n, .dir x⟩) (.root .root) found named eq notInfo
    refine ⟨a, ?_, ha.2⟩
    rw [← ha.1]
    simp only [Libsc.uri2sign, Libsc.findMeta, same]
  obtain ⟨rv, hr, ok⟩ := found
  obtain ⟨⟨r, s⟩, repo, hr⟩ := Option.bind_eq_some_iff.mp hr
  rcases inv.tree.of_stat repo hr ok with rfl | ⟨d, b, e, h, found, named, eq⟩
  · cases r with
    | root => exact inv.sign_of_root
    | tmp =>
      exact mount .tmp "tmp".toList "/tmp".toList (by decide) ⟨by decide, by decide⟩ (by decide)
        (by decide) (by decide) notInfo
    | proc =>
      exact mount .proc "proc".toList "/proc".toList (by decide) ⟨by decide, by decide⟩ (by decide)
        (by decide) (by decide) notInfo
  · exact entry h found named eq notInfo

/-! ## Making segments -/

theorem createSignIn (inv : SignInv unsigned bare st) (m : SegId) (name : Uri) :
    SignInv (fun d n => unsigned d n ∧
        ¬ (st.dirs.find d "META".toList = some ⟨"META".toList, .seg m⟩ ∧ n = name))
      bare (st.createSignIn m name) := by
  rw [Libsc.createSignIn]
  split
  · next a ha =>
    refine { inv with signed := fun {d b m' n e} h hm found plain hsigned => ?_ }
    by_cases here : st.dirs.find d "META".toList = some ⟨"META".toList, .seg m⟩ ∧ n = name
    · obtain ⟨hm', rfl⟩ := here
      rw [hm] at hm'
      cases hm'
      exact ⟨a, ha⟩
    · exact inv.signed h hm found plain fun hu => hsigned ⟨hu, here⟩
  · next none =>
    refine { inv with
      home := fun {i n a} ha => ?_
      fresh := fun {i n a} ha => ?_
      signed := fun {d b m' n e} h hm found plain hsigned => ?_
      root := fun {m'} hm => ?_ }
    · dsimp only at ha ⊢
      split at ha
      · next here =>
        cases ha
        rw [Function.update_self, here.1, here.2]
      · rw [Function.update_of_ne (Nat.ne_of_lt (inv.fresh ha)), inv.home ha]
    · dsimp only at ha ⊢
      split at ha
      · cases ha
        exact Nat.lt_succ_self _
      · exact Nat.lt_succ_of_lt (inv.fresh ha)
    · dsimp only
      split
      · exact ⟨_, rfl⟩
      · next other =>
        refine inv.signed h hm found plain fun hu => other ?_
        by_contra here
        refine hsigned ⟨hu, fun same => here ?_⟩
        obtain ⟨hm', rfl⟩ := same
        rw [show st.dirs.find d _ = _ from hm] at hm'
        cases hm'
        exact ⟨rfl, rfl⟩
    · dsimp only
      split
      · exact ⟨_, rfl⟩
      · exact inv.root hm

theorem mono {unsigned' : DirId → Uri → Prop} (inv : SignInv unsigned bare st)
    (le : ∀ d n, '/' ∉ n → unsigned d n → unsigned' d n) : SignInv unsigned' bare st :=
  { inv with
    signed := fun h hm found plain hsigned =>
      inv.signed h hm found plain fun hu => hsigned (le _ _ plain hu) }

@[simp]
theorem dirs_createSignIn (st : Libsc) (m : SegId) (name : Uri) :
    (st.createSignIn m name).dirs = st.dirs := by
  rw [Libsc.createSignIn]
  split <;> rfl

section

variable (inv : SignInv unsigned bare st)
include inv

theorem createSign (hr : st.createSign uri = some (rv, st')) : SignInv unsigned bare st' := by
  obtain ⟨⟨found, name⟩, -, hr⟩ := Option.bind_eq_some_iff.mp hr
  cases found with
  | none =>
    cases hr
    exact inv
  | some m =>
    cases hr
    split
    · exact ((inv.createSignIn m _).createSignIn m name).mono fun d n _ hu => hu.1.1
    · exact (inv.createSignIn m name).mono fun d n _ hu => hu.1

theorem createSign_entry (h : Leads st.dirs d b) (named : IsName name)
    (eq : b ++ name = normalizeUri uri)
    (hm : st.dirs.find d "META".toList = some ⟨"META".toList, .seg m⟩)
    (hr : st.createSign uri = some (rv, st')) :
    SignInv (fun d' n => unsigned d' n ∧ ¬ (d' = d ∧ n = name)) bare st' := by
  simp only [Libsc.createSign, findMeta h named eq hm, Option.bind_eq_bind, Option.bind_some,
    Option.some.injEq, Prod.mk.injEq] at hr
  obtain ⟨-, rfl⟩ := hr
  split
  · refine ((inv.createSignIn m _).createSignIn m name).mono fun d' n _ hu => ⟨hu.1.1, ?_⟩
    rintro ⟨rfl, rfl⟩
    exact hu.2 ⟨(congrArg (fun ds : Dirs => ds.find _ _) (dirs_createSignIn st m _)).trans hm, rfl⟩
  · refine (inv.createSignIn m name).mono fun d' n _ hu => ⟨hu.1, ?_⟩
    rintro ⟨rfl, rfl⟩
    exact hu.2 ⟨hm, rfl⟩

theorem openSeg {ss : SessionNo} (hr : st.openSeg ss i = some (rv, st')) :
    rv = rvOk ∧ SignInv unsigned bare st' := by
  obtain ⟨session, seg, -, hseg, ⟨core, -⟩ | ⟨plain, rfl, sign, -, rfl⟩⟩ := Libsc.openSeg_some hr
  · rw [inv.plain hseg] at core
    cases core
  · refine ⟨rfl, { inv with
      plain := fun {j seg'} hj => ?_
      metas := fun h notBare => ?_ }⟩
    · dsimp only at hj
      by_cases same : j = i
      · rw [same, Function.update_self] at hj
        cases hj
        exact plain
      · rw [Function.update_of_ne same] at hj
        exact inv.plain hj
    · obtain ⟨m, seg', hm, hseg', full⟩ := inv.metas h notBare
      by_cases same : m = i
      · subst same
        rw [hseg] at hseg'
        cases hseg'
        exact ⟨m, _, hm, Function.update_self .., full⟩
      · exact ⟨m, seg', hm, (Function.update_of_ne same _ _).trans hseg', full⟩

/-! ## Making entries -/

theorem addSeg (h : Leads st.dirs d b) (named : name ≠ []) (free : st.segs i = none)
    (unreserved : ¬ (d = 0 ∧ name = "ROOT".toList))
    (whole : bare d → name = "META".toList ∧ r.uri ++ s = b ++ "META".toList) :
    SignInv (fun d' n => unsigned d' n ∨ d' = d ∧ n = name ∧ st.dirs.find d name = none)
      (fun d' => bare d' ∧ d' ≠ d)
      { st with
        dirs := st.dirs.add d ⟨name, .seg i⟩
        segs := Function.update st.segs i (some { repo := r, uri := s })
        named := Function.update st.named i fun _ => none } := by
  have leads {d' : DirId} {b' : Uri} (h' : Leads (st.dirs.add d ⟨name, .seg i⟩) d' b') :
      Leads st.dirs d' b' := by
    rcases Leads.of_add (fun n (target : DirTarget.seg i = .dir n) => nomatch target) h' with
      old | ⟨_, -, -, -, -, target, -⟩
    · exact old
    · cases target
  have named_of {j : SegId} {n : Uri} {a : Addr}
      (ha : Function.update st.named i (fun _ => none) j n = some a) :
      st.named j n = some a := by
    by_cases same : j = i
    · rw [same, Function.update_self] at ha
      cases ha
    · rwa [Function.update_of_ne same] at ha
  -- a `META` segment that was there is not the new one
  have metas {d' : DirId} {b' : Uri} (h' : Leads st.dirs d' b') (notBare : ¬ bare d') : ∃ m seg,
      m ≠ i ∧ st.dirs.find d' "META".toList = some ⟨"META".toList, .seg m⟩ ∧
        st.segs m = some seg ∧ seg.fullUri = b' ++ "META".toList := by
    obtain ⟨m, seg, hm, hseg, full⟩ := inv.metas h' notBare
    refine ⟨m, seg, ?_, hm, hseg, full⟩
    rintro rfl
    rw [free] at hseg
    cases hseg
  have same_meta {d' : DirId} {b' : Uri} {m : SegId} (h' : Leads st.dirs d' b')
      (notBare : ¬ bare d') (hm : (st.dirs.add d ⟨name, .seg i⟩).find d' "META".toList =
        some ⟨"META".toList, .seg m⟩) :
      m ≠ i ∧ st.dirs.find d' "META".toList = some ⟨"META".toList, .seg m⟩ := by
    obtain ⟨m', -, other, hm', -⟩ := metas h' notBare
    rw [Dirs.find_add_of_some hm'] at hm
    cases hm
    exact ⟨other, hm'⟩
  refine ⟨inv.tree.add h named (Nat.le_refl _) (fun n target => nomatch target),
    fun ha => inv.home (named_of ha), fun ha => inv.fresh (named_of ha), fun {j seg} hj => ?_,
    fun {d' b'} h' notBare => ?_, fun {d'} hb => ?_,
    fun {d' b' m n e} h' hm found plain hsigned => ?_, fun {m} hm => ?_, ?_⟩
  · dsimp only at hj
    by_cases same : j = i
    · rw [same, Function.update_self] at hj
      cases hj
      rfl
    · rw [Function.update_of_ne same] at hj
      exact inv.plain hj
  · by_cases hb : bare d'
    · obtain rfl : d' = d := by
        by_contra other
        exact notBare ⟨hb, other⟩
      obtain ⟨rfl, full⟩ := whole hb
      have none : st.dirs.find d' "META".toList = none := by
        rw [Dirs.find, inv.empty hb]
        rfl
      refine ⟨i, _, ?_, Function.update_self .., ?_⟩
      · rw [Dirs.find_add, none, Option.none_or, if_pos ⟨rfl, rfl⟩]
      · rw [(leads h').unique inv.tree h]
        exact full
    · obtain ⟨m, seg, other, hm, hseg, full⟩ := metas (leads h') hb
      exact ⟨m, seg, Dirs.find_add_of_some hm _ _, (Function.update_of_ne other _ _).trans hseg,
        full⟩
  · rw [Dirs.add]
    exact (if_neg hb.2).trans (inv.empty hb.1)
  · rcases Dirs.find_add_some found with old | ⟨none, rfl, rfl, -⟩
    · have notBare : ¬ bare d' := by
        intro hb
        rw [Dirs.find, inv.empty hb] at old
        cases old
      obtain ⟨other, hm⟩ := same_meta (leads h') notBare hm
      obtain ⟨a, ha⟩ := inv.signed (leads h') hm old plain fun hu => hsigned (.inl hu)
      exact ⟨a, (congrFun (Function.update_of_ne other _ _) n).trans ha⟩
    · exact absurd (.inr ⟨rfl, rfl, none⟩) hsigned
  · have notBare : ¬ bare 0 := by
      intro hb
      obtain ⟨x, found, -⟩ := inv.tree.mounted "tmp".toList List.mem_cons_self
      rw [Dirs.find, inv.empty hb] at found
      cases found
    obtain ⟨other, hm⟩ := same_meta (.root .root) notBare hm
    obtain ⟨a, ha⟩ := inv.root hm
    exact ⟨a, (congrFun (Function.update_of_ne other _ _) _).trans ha⟩
  · dsimp only
    rw [Dirs.find_add, inv.reserved, Option.none_or, if_neg]
    rintro ⟨rfl, same⟩
    exact unreserved ⟨rfl, same⟩

theorem addDir (h : Leads st.dirs d b) (named : name ≠ []) (notBare : ¬ bare d)
    (unreserved : ¬ (d = 0 ∧ name = "ROOT".toList)) :
    SignInv (fun d' n => unsigned d' n ∨ d' = d ∧ n = name ∧ st.dirs.find d name = none)
      (fun d' => bare d' ∨ d' = st.dirs.next)
      { st with
        dirs := { st.dirs with next := st.dirs.next + 1 }.add d ⟨name, .dir st.dirs.next⟩ } := by
  have other : st.dirs.next ≠ d := (Nat.ne_of_lt (h.lt_next inv.tree)).symm
  have fresh (x : DirId) (target : DirTarget.dir st.dirs.next = .dir x) :
      x ≠ d ∧ ({ st.dirs with next := st.dirs.next + 1 } : Dirs).contents x = [] := by
    cases target
    exact ⟨other, inv.tree.above _ (Nat.le_refl _)⟩
  -- what is reached is the new directory or was reached before
  have leads {d' : DirId} {b' : Uri}
      (h' : Leads
        ({ st.dirs with next := st.dirs.next + 1 }.add d ⟨name, .dir st.dirs.next⟩) d' b') :
      Leads st.dirs d' b' ∨ d' = st.dirs.next := by
    rcases Leads.of_add fresh h' with old | ⟨_, -, -, -, -, target, -⟩
    · exact .inl old.of_next
    · exact .inr (DirTarget.dir.inj target).symm
  have find_old {d' : DirId} {n : Uri} {e : Dirent} (hf : st.dirs.find d' n = some e) :
      ({ st.dirs with next := st.dirs.next + 1 }.add d ⟨name, .dir st.dirs.next⟩).find d' n =
        some e := by
    have old : ({ st.dirs with next := st.dirs.next + 1 } : Dirs).find d' n = some e := hf
    exact Dirs.find_add_of_some old _ _
  have find_new {d' : DirId} {n : Uri} {e : Dirent}
      (hf : ({ st.dirs with next := st.dirs.next + 1 }.add d ⟨name, .dir st.dirs.next⟩).find d' n =
        some e) : st.dirs.find d' n = some e ∨ st.dirs.find d' n = none ∧ d' = d ∧ n = name ∧
          e = ⟨name, .dir st.dirs.next⟩ := Dirs.find_add_some hf
  refine ⟨inv.tree.add h named (Nat.le_succ _) fun x target => ?_, inv.home, inv.fresh, inv.plain,
    fun {d' b'} h' notBare' => ?_, fun {d'} hb => ?_,
    fun {d' b' m n e} h' hm found plain hsigned => ?_, fun {m} hm => ?_, ?_⟩
  · cases target
    exact ⟨rfl, Nat.lt_succ_self _⟩
  · rcases leads h' with old | new
    · obtain ⟨m, seg, hm, hseg, full⟩ := inv.metas old fun hb => notBare' (.inl hb)
      exact ⟨m, seg, find_old hm, hseg, full⟩
    · exact absurd (.inr new) notBare'
  · rw [Dirs.add]
    rcases hb with hb | rfl
    · have elsewhere : d' ≠ d := by
        rintro rfl
        exact notBare hb
      exact (if_neg elsewhere).trans (inv.empty hb)
    · exact (if_neg other).trans (inv.tree.above _ (Nat.le_refl _))
  · have meta_old : st.dirs.find d' "META".toList = some ⟨"META".toList, .seg m⟩ := by
      rcases find_new hm with old | ⟨-, -, -, target⟩
      · exact old
      · cases congrArg Dirent.target target
    rcases leads h' with old | rfl
    · rcases find_new found with old' | ⟨none, rfl, rfl, -⟩
      · exact inv.signed old meta_old old' plain fun hu => hsigned (.inl hu)
      · exact absurd (.inr ⟨rfl, rfl, none⟩) hsigned
    · rw [Dirs.find, inv.tree.above _ (Nat.le_refl _)] at meta_old
      cases meta_old
  · rcases find_new hm with old | ⟨-, -, -, target⟩
    · exact inv.root old
    · cases congrArg Dirent.target target
  · dsimp only
    by_contra found
    obtain ⟨e, found⟩ := Option.ne_none_iff_exists'.mp found
    rcases find_new found with old | ⟨-, rfl, rfl, -⟩
    · rw [inv.reserved] at old
      cases old
    · exact unreserved ⟨rfl, rfl⟩

end

/-! ## Calls -/

theorem repoCreateSegment_some (hr : st.repoCreateSegment r s = some (rv, st')) :
    (∃ j, st.dirs.mapSegment r s = some (some j) ∧ st' = st) ∨
      st.dirs.mapSegment r s = some none ∧
        ((rv = rvErrGen ∧ st.dirs.findDirectory r s false = some none ∧ st' = st) ∨
          ∃ d name i, st.dirs.findDirectory r s false = some (some (d, name)) ∧
            st.segs i = none ∧ rv = rvOk ∧ st' =
              { st with
                dirs := st.dirs.add d ⟨name, .seg i⟩
                segs := Function.update st.segs i (some { repo := r, uri := s })
                named := Function.update st.named i fun _ => none }) := by
  obtain ⟨mapped, hmap, hr⟩ := Option.bind_eq_some_iff.mp hr
  cases mapped with
  | some j =>
    cases hr
    exact .inl ⟨j, hmap, rfl⟩
  | none =>
    obtain ⟨⟨created, st₁⟩, hc, hr⟩ := Option.bind_eq_some_iff.mp hr
    cases hr
    refine .inr ⟨hmap, ?_⟩
    obtain ⟨found, hf, hc⟩ := Option.bind_eq_some_iff.mp hc
    cases found with
    | none =>
      cases hc
      exact .inl ⟨rfl, hf, rfl⟩
    | some entry =>
      dsimp only at hc
      rw [if_neg Bool.false_ne_true] at hc
      obtain ⟨i, hi, hc⟩ := Option.bind_eq_some_iff.mp hc
      cases hc
      have free := List.find?_some hi
      exact .inr ⟨entry.1, entry.2, i, hf, by simpa using free, rfl, rfl⟩

theorem not_reserved (h : Leads st.dirs d b) (ok : Tree st.dirs)
    (eq : '/' ∉ name → b ++ name = normalizeUri uri) (hu : normalizeUri uri ≠ "/ROOT".toList) :
    ¬ (d = 0 ∧ name = "ROOT".toList) := by
  rintro ⟨root, rfl⟩
  rw [h.uri_root ok root] at eq
  exact hu (eq (by decide)).symm

theorem head_of_mapSegment {mapped : Option SegId} (h : st.dirs.mapSegment r s = some mapped) :
    s.head? ≠ some '/' := by
  obtain ⟨found, hf, -⟩ := Option.bind_eq_some_iff.mp h
  rw [Dirs.findDirent] at hf
  split at hf
  · cases hf
  · next head => exact head

variable {st₁ : Libsc} {found : Option SegId}

theorem makeSegment (inv : Signed st) (repo : findRepo uri = some (r, s))
    (hu : normalizeUri uri ≠ "/ROOT".toList) (hr : st.repoCreateSegment r s = some (rv, st₁)) :
    (Signed st₁ ∨ rv = rvOk ∧ ∃ i, st₁.dirs.mapSegment r s = some (some i)) ∧
      ∀ {rv' st₂}, st₁.createSign uri = some (rv', st₂) → Signed st₂ := by
  rcases repoCreateSegment_some hr with
    ⟨j, hmap, rfl⟩ | ⟨hmap, ⟨-, -, rfl⟩ | ⟨d, name, i, hf, free, rfl, rfl⟩⟩
  · exact ⟨.inl inv, fun hs => inv.createSign hs⟩
  · exact ⟨.inl inv, fun hs => inv.createSign hs⟩
  · obtain ⟨b, h, nonempty, eq⟩ := inv.tree.findDirectory repo hf
    have added := inv.addSeg h nonempty free (not_reserved h inv.tree eq hu) (r := r) (s := s)
      (False.elim ·)
    have complete : (fun d' => False ∧ d' ≠ d) = fun _ => False := by
      funext d'
      simp
    rw [complete] at added
    by_cases new : '/' ∉ name ∧ st.dirs.find d name = none
    · -- the entry is found, and so is the `META` segment of its directory
      obtain ⟨plain, none⟩ := new
      have found := @Dirs.findDirent_add _ _ _ _ _ _ ⟨name, .seg i⟩ hf plain
        (head_of_mapSegment hmap)
      rw [Dirs.find_add, none, Option.none_or, if_pos ⟨rfl, rfl⟩] at found
      obtain ⟨m, seg, hm, -⟩ := inv.metas h id
      refine ⟨.inr ⟨rfl, i, by simp [Dirs.mapSegment, found]⟩, fun hs => ?_⟩
      refine (added.createSign_entry (h.add _ _) ⟨nonempty, plain⟩ (eq plain)
        (Dirs.find_add_of_some hm _ _) hs).mono fun d' n _ hu => ?_
      exact hu.1.resolve_right fun here => hu.2 ⟨here.1, here.2.1⟩
    · -- nothing that is found has changed
      have signed : SignInv isInfo (fun _ => False) _ := added.mono fun d' n plain hu =>
        hu.resolve_right fun here => new ⟨here.2.1 ▸ plain, here.2.2⟩
      exact ⟨.inl signed, fun hs => signed.createSign hs⟩

theorem createSegment (inv : Signed st) {ss : Option SessionNo}
    (hu : normalizeUri uri ≠ "/ROOT".toList) (hr : st.createSegment ss uri = some (found, st')) :
    Signed st' := by
  obtain ⟨⟨r, s⟩, repo, hr⟩ := Option.bind_eq_some_iff.mp hr
  obtain ⟨⟨rv, st₁⟩, hc, hr⟩ := Option.bind_eq_some_iff.mp hr
  obtain ⟨made, signed⟩ := inv.makeSegment repo hu hc
  dsimp only at hr
  split at hr
  · next failed =>
    cases hr
    exact made.resolve_right fun ok => failed ok.1
  · obtain ⟨mapped, hmap, hr⟩ := Option.bind_eq_some_iff.mp hr
    cases mapped with
    | none =>
      cases hr
      refine made.resolve_right ?_
      rintro ⟨-, i, hi⟩
      rw [hi] at hmap
      cases hmap
    | some i =>
      obtain ⟨⟨rv', st₂⟩, hs, hr⟩ := Option.bind_eq_some_iff.mp hr
      have inv₂ := signed hs
      cases ss with
      | none =>
        cases hr
        exact inv₂
      | some ss =>
        obtain ⟨⟨rv₃, st₃⟩, ho, hr⟩ := Option.bind_eq_some_iff.mp hr
        obtain ⟨ok, inv₃⟩ := inv₂.openSeg ho
        dsimp only at hr
        rw [if_neg (not_not_intro ok)] at hr
        cases hr
        exact inv₃

theorem openSegment (inv : Signed st) {ss : SessionNo}
    (hr : st.openSegment ss uri = some (found, st')) : Signed st' := by
  obtain ⟨session, -, hr⟩ := Option.bind_eq_some_iff.mp hr
  obtain ⟨mapped, -, hr⟩ := Option.bind_eq_some_iff.mp hr
  cases mapped with
  | none =>
    cases hr
    exact inv
  | some i =>
    dsimp only at hr
    split at hr
    · cases hr
      exact inv
    · obtain ⟨⟨rv, st₁⟩, ho, hr⟩ := Option.bind_eq_some_iff.mp hr
      cases hr
      exact (inv.openSeg ho).2

theorem makeMeta (inv : Signed st) (repo : findRepo (uri ++ "/META".toList) = some (r, s))
    (hr : st.repoCreateSegment r s = some (rv, st₁)) : Signed st₁ := by
  rcases repoCreateSegment_some hr with
    ⟨j, hmap, rfl⟩ | ⟨hmap, ⟨-, -, rfl⟩ | ⟨d, name, i, hf, free, -, rfl⟩⟩
  · exact inv
  · exact inv
  · obtain ⟨b, h, nonempty, eq⟩ := inv.tree.findDirectory repo hf
    have isMeta (plain : '/' ∉ name) : name = "META".toList := by
      have last : normalizeUri (uri ++ "/META".toList) =
          normalizeUri (uri ++ ['/']) ++ "META".toList := normalizeFrom_name isName_meta false
      rcases normalizeFrom_slash uri false with ⟨impossible, -⟩ | ⟨t, ht⟩
      · cases impossible
      · obtain ⟨b', rfl⟩ := h.ends
        have both : b' ++ ['/'] ++ name = t ++ ['/'] ++ "META".toList := by
          rw [eq plain, last, normalizeUri, ht]
        have parts := congrArg lastPart both
        rwa [(parts_of_append plain).1, (parts_of_append isName_meta.2).1] at parts
    have unreserved : ¬ (d = 0 ∧ name = "ROOT".toList) := by
      rintro ⟨-, rfl⟩
      exact absurd (isMeta (by decide)) (by decide)
    have added := inv.addSeg h nonempty free unreserved (r := r) (s := s) (False.elim ·)
    have complete : (fun d' => False ∧ d' ≠ d) = fun _ => False := by
      funext d'
      simp
    rw [complete] at added
    refine added.mono fun d' n plain hu => hu.resolve_right ?_
    rintro ⟨-, rfl, none⟩
    obtain ⟨m, seg, hm, -⟩ := inv.metas h id
    rw [isMeta plain, hm] at none
    cases none

theorem dirs_createSign (hr : st.createSign uri = some (rv, st')) : st'.dirs = st.dirs := by
  obtain ⟨⟨found, name⟩, -, hr⟩ := Option.bind_eq_some_iff.mp hr
  cases found with
  | none =>
    cases hr
    rfl
  | some m =>
    cases hr
    split <;> simp

theorem completeDir (inv : Signed st) (h : Leads st.dirs d b) (named : IsName name)
    (new : st.dirs.find d name = none) (eq : b ++ name = uri) (once : normalizeUri uri = uri)
    (unreserved : ¬ (d = 0 ∧ name = "ROOT".toList)) {st₂ st₃ : Libsc} {rv₁ rv₂ rv₃ : Retval}
    (hs : { st with
      dirs := { st.dirs with next := st.dirs.next + 1 }.add d ⟨name, .dir st.dirs.next⟩ }.createSign
        uri = some (rv₁, st₁))
    (repo : findRepo (uri ++ "/META".toList) = some (r, s))
    (hc : st₁.repoCreateSegment r s = some (rv₂, st₂))
    (hs' : st₂.createSign (uri ++ "/META".toList) = some (rv₃, st₃)) : Signed st₃ := by
  have added := inv.addDir h named.1 id unreserved
  have mount : ¬(b = ['/'] ∧ name ∈ mounts) := by
    rintro ⟨root, hm⟩
    obtain ⟨x, found, -⟩ := inv.tree.mounted name hm
    rw [h.eq_root root, found] at new
    cases new
  have here := (h.next (st.dirs.next + 1)).add d ⟨name, .dir st.dirs.next⟩
  have found : ({ st.dirs with next := st.dirs.next + 1 }.add d ⟨name, .dir st.dirs.next⟩).find d
      name = some ⟨name, .dir st.dirs.next⟩ := by
    have old : ({ st.dirs with next := st.dirs.next + 1 } : Dirs).find d name = none := new
    rw [Dirs.find_add, old, Option.none_or, if_pos ⟨rfl, rfl⟩]
  have below := here.sub named mount found
  -- the sign of the directory
  obtain ⟨m, seg, hm, -⟩ := inv.metas h id
  have old : ({ st.dirs with next := st.dirs.next + 1 } : Dirs).find d "META".toList =
      some ⟨"META".toList, .seg m⟩ := hm
  have signed := added.createSign_entry here named (eq.trans once.symm)
    (Dirs.find_add_of_some old _ _) hs
  have inv₁ : SignInv isInfo (fun d' => False ∨ d' = st.dirs.next) st₁ :=
    signed.mono fun d' n _ hu => hu.1.resolve_right fun same => hu.2 ⟨same.1, same.2.1⟩
  have hdirs : st₁.dirs =
      ({ st.dirs with next := st.dirs.next + 1 } : Dirs).add d ⟨name, .dir st.dirs.next⟩ :=
    dirs_createSign hs
  rw [← hdirs] at here found below
  -- the path of the `META` segment
  obtain ⟨r₁, pre, resolve⟩ := here.resolve
  obtain ⟨-, hdir⟩ := resolve name (named.below b)
  rw [Dirs.findFrom_isName named.2, found] at hdir
  obtain ⟨hrepo, hmeta⟩ := resolve _ (named.below_slash (t := "META".toList) mount)
  have path : uri ++ "/META".toList = b ++ (name ++ '/' :: "META".toList) := by
    rw [← eq, List.append_assoc]
    rfl
  rw [path, hrepo] at repo
  cases repo
  obtain ⟨nm, c, rfl⟩ : ∃ nm c, name = nm ++ [c] :=
    ⟨_, _, (List.dropLast_append_getLast named.1).symm⟩
  have letter : c ≠ '/' := by
    rintro rfl
    exact named.2 (List.mem_append_right nm List.mem_cons_self)
  rw [← List.append_assoc] at hdir
  have parent := Dirs.findDirectory_below letter isName_meta hdir
  have regroup : pre ++ nm ++ [c] ++ '/' :: "META".toList =
      pre ++ (nm ++ [c] ++ '/' :: "META".toList) := by simp
  rw [regroup] at parent
  have absent : st₁.dirs.find st.dirs.next "META".toList = none := by
    rw [Dirs.find, inv₁.empty (.inr rfl)]
    rfl
  have unmapped : st₁.dirs.findFrom d [] false (nm ++ [c] ++ '/' :: "META".toList) = none := by
    rw [Dirs.findFrom_name named.2, if_neg named.1, List.nil_append, Dirs.findFrom_enter found,
      Dirs.findFrom_of_head (by decide), Dirs.findFrom_isName isName_meta.2, absent]
  rw [unmapped] at hmeta
  rcases repoCreateSegment_some hc with
    ⟨j, hmap, -⟩ | ⟨-, ⟨-, hf, -⟩ | ⟨d', name', i, hf, free, -, rfl⟩⟩
  · rw [Dirs.mapSegment, hmeta] at hmap
    cases hmap
  · rw [parent] at hf
    cases hf
  · rw [parent] at hf
    cases hf
    have added₂ := inv₁.addSeg below isName_meta.1 free (r := r) (fun same => by cases same.2)
      (s := pre ++ (nm ++ [c] ++ '/' :: "META".toList)) fun _ => ⟨rfl, by
        rw [← eq_of_findRepo hrepo]
        simp⟩
    have complete : (fun d' => (False ∨ d' = st.dirs.next) ∧ d' ≠ st.dirs.next) =
        fun _ => False := by
      funext d'
      simp
    rw [complete] at added₂
    have eq' : b ++ (nm ++ [c]) ++ ['/'] ++ "META".toList =
        normalizeUri (uri ++ "/META".toList) := by
      have whole : uri ++ "/META".toList = b ++ nm ++ c :: "/META".toList := by simp [← eq]
      rw [whole, normalizeUri, normalizeFrom_letter letter, List.append_assoc b nm, eq]
      change _ = normalizeUri uri ++ _
      rw [once, ← eq, List.append_assoc]
      rfl
    have hm' : (st₁.dirs.add st.dirs.next ⟨"META".toList, .seg i⟩).find st.dirs.next
        "META".toList = some ⟨"META".toList, .seg i⟩ := by
      rw [Dirs.find_add, absent, Option.none_or, if_pos ⟨rfl, rfl⟩]
    refine (added₂.createSign_entry (below.add _ _) isName_meta eq' hm' hs').mono
      fun d' n _ hu => ?_
    exact hu.1.resolve_right fun same => hu.2 ⟨same.1, same.2.1⟩

theorem addHidden (inv : Signed st) (h : Leads st.dirs d b) (named : name ≠ [])
    (unreserved : ¬ (d = 0 ∧ name = "ROOT".toList))
    (hidden : ¬ ('/' ∉ name ∧ st.dirs.find d name = none)) :
    Signed { st with
      dirs := { st.dirs with next := st.dirs.next + 1 }.add d ⟨name, .dir st.dirs.next⟩ } := by
  have other : st.dirs.next ≠ d := (Nat.ne_of_lt (h.lt_next inv.tree)).symm
  have added := inv.addDir h named id unreserved
  have unreached {d' : DirId} {b' : Uri} (h' : Leads
      ({ st.dirs with next := st.dirs.next + 1 }.add d ⟨name, .dir st.dirs.next⟩) d' b') :
      d' ≠ st.dirs.next := by
    rintro rfl
    have fresh (x : DirId) (target : DirTarget.dir st.dirs.next = .dir x) :
        x ≠ d ∧ ({ st.dirs with next := st.dirs.next + 1 } : Dirs).contents x = [] := by
      cases target
      exact ⟨other, inv.tree.above _ (Nat.le_refl _)⟩
    rcases Leads.of_add fresh h' with old | ⟨_, -, plain, -, none, -⟩
    · exact absurd (old.of_next.lt_next inv.tree) (Nat.lt_irrefl _)
    · exact hidden ⟨plain.2, none⟩
  exact { added with
    metas := fun h' _ => added.metas h' fun hb => unreached h' (hb.resolve_left id)
    empty := fun hb => hb.elim
    signed := fun h' hm found plain hsigned => added.signed h' hm found plain fun hu =>
      hsigned (hu.resolve_right fun same => hidden ⟨same.2.1 ▸ plain, same.2.2⟩) }

theorem mkdir (inv : Signed st) (once : normalizeUri uri = uri) (hu : uri ≠ "/ROOT".toList)
    (hr : st.mkdir uri = some (rv, st')) : Signed st' := by
  obtain ⟨⟨r, s⟩, repo, hr⟩ := Option.bind_eq_some_iff.mp hr
  obtain ⟨⟨error, st₁⟩, hm, hr⟩ := Option.bind_eq_some_iff.mp hr
  obtain ⟨⟨created, st₂⟩, hc, hm⟩ := Option.bind_eq_some_iff.mp hm
  cases hm
  obtain ⟨found, hf, hc⟩ := Option.bind_eq_some_iff.mp hc
  cases found with
  | none =>
    cases hc
    cases hr
    exact inv
  | some entry =>
    obtain ⟨d, name⟩ := entry
    cases hc
    obtain ⟨b, h, nonempty, eq⟩ := inv.tree.findDirectory repo hf
    have unreserved := not_reserved h inv.tree eq (once.symm ▸ hu)
    dsimp only at hr
    rw [if_pos rfl, if_neg (not_not_intro rfl)] at hr
    obtain ⟨⟨rv₁, st₁⟩, hs, hr⟩ := Option.bind_eq_some_iff.mp hr
    obtain ⟨⟨r', s'⟩, repo', hr⟩ := Option.bind_eq_some_iff.mp hr
    obtain ⟨⟨rv₂, st₂⟩, hc, hr⟩ := Option.bind_eq_some_iff.mp hr
    obtain ⟨⟨rv₃, st₃⟩, hs', hr⟩ := Option.bind_eq_some_iff.mp hr
    cases hr
    by_cases new : '/' ∉ name ∧ st.dirs.find d name = none
    · exact inv.completeDir h ⟨nonempty, new.1⟩ new.2 ((eq new.1).trans once) once unreserved hs
        repo' hc hs'
    · exact ((inv.addHidden h nonempty unreserved new).createSign hs).makeMeta repo' hc
        |>.createSign hs'

/-! ## Runs -/

theorem find_libscInit {e : Dirent} (h : libscInit.dirs.find d name = some e) :
    (d, name, e.target) ∈ [(0, "info".toList, DirTarget.seg 0), (0, "META".toList, .seg 1),
      (0, "tmp".toList, .dir 3), (0, "proc".toList, .dir 4), (1, "META".toList, .seg 2),
      (2, "META".toList, .seg 3), (2, "numattrs".toList, .seg 4)] := by
  have hmem := List.mem_of_find?_eq_some h
  rw [← Dirs.name_of_find h]
  match d with
  | 0 | 1 | 2 =>
    simp only [libscInit, List.mem_cons, List.not_mem_nil, or_false] at hmem
    rcases hmem with rfl | rfl | rfl | rfl <;> decide
  | d + 3 => cases hmem

theorem tree_libscInit : Tree libscInit.dirs where
  named d := by
    by_contra found
    obtain ⟨e, found⟩ := Option.ne_none_iff_exists'.mp found
    have hmem := find_libscInit found
    simp at hmem
  inner {d name x} found := by
    have hmem := find_libscInit found
    simp only [List.mem_cons, Prod.mk.injEq, reduceCtorEq, DirTarget.dir.injEq, and_false,
      List.not_mem_nil, or_false, false_or] at hmem
    rcases hmem with ⟨-, -, rfl⟩ | ⟨-, -, rfl⟩ <;> decide
  inj {d name d' name' x} found found' := by
    have hmem := find_libscInit found
    have hmem' := find_libscInit found'
    simp only [List.mem_cons, Prod.mk.injEq, reduceCtorEq, DirTarget.dir.injEq, and_false,
      List.not_mem_nil, or_false, false_or] at hmem hmem'
    rcases hmem with ⟨rfl, rfl, rfl⟩ | ⟨rfl, rfl, rfl⟩ <;>
      rcases hmem' with ⟨rfl, rfl, same⟩ | ⟨rfl, rfl, same⟩ <;>
      first | exact ⟨rfl, rfl⟩ | cases same
  mounted name hm := by
    simp only [mounts, List.mem_cons, List.not_mem_nil, or_false] at hm
    rcases hm with rfl | rfl
    · exact ⟨3, by decide, rfl⟩
    · exact ⟨4, by decide, rfl⟩
  above x le := by
    match x, le with
    | x + 5, _ => rfl
  roots := by decide

theorem leads_libscInit (h : Leads libscInit.dirs d b) : ∃ r : RepoId, d = r.dir ∧ b = r.uri := by
  induction h with
  | root r => exact ⟨r, rfl, rfl⟩
  | @sub d d' b name _ named mount found ih =>
    obtain ⟨r, rfl, rfl⟩ := ih
    have hmem := find_libscInit found
    simp only [List.mem_cons, Prod.mk.injEq, reduceCtorEq, DirTarget.dir.injEq, and_false,
      List.not_mem_nil, or_false, false_or] at hmem
    cases r with
    | root =>
      rcases hmem with ⟨-, rfl, -⟩ | ⟨-, rfl, -⟩
      · exact absurd ⟨rfl, by decide⟩ mount
      · exact absurd ⟨rfl, by decide⟩ mount
    | tmp => rcases hmem with ⟨root, -⟩ | ⟨root, -⟩ <;> cases root
    | proc => rcases hmem with ⟨root, -⟩ | ⟨root, -⟩ <;> cases root

theorem signed_libscInit : Signed libscInit where
  tree := tree_libscInit
  home {i name a} h := by
    have hmem := mem_of_ofTable h
    simp only [List.mem_cons, Prod.mk.injEq, List.not_mem_nil, or_false] at hmem
    rcases hmem with ⟨⟨rfl, rfl⟩, rfl⟩ | ⟨⟨rfl, rfl⟩, rfl⟩ | ⟨⟨rfl, rfl⟩, rfl⟩ | ⟨⟨rfl, rfl⟩, rfl⟩ |
      ⟨⟨rfl, rfl⟩, rfl⟩ | ⟨⟨rfl, rfl⟩, rfl⟩ | ⟨⟨rfl, rfl⟩, rfl⟩ | ⟨⟨rfl, rfl⟩, rfl⟩ <;> rfl
  fresh {i name a} h := by
    have hmem := mem_of_ofTable h
    have small (e : (SegId × Uri) × Addr) (he : e ∈ [((0, "dirent".toList), 0),
      ((1, "META".toList), 1), ((1, "ROOT".toList), 2), ((1, "tmp".toList), 3),
      ((2, "META".toList), 4), ((1, "proc".toList), 5), ((3, "META".toList), 6),
      ((3, "numattrs".toList), 7)]) : e.2 < 8 := by
      revert e
      decide
    exact small _ hmem
  plain {i seg} h := by
    have hmem := mem_of_ofTable h
    simp only [List.mem_cons, Prod.mk.injEq, List.not_mem_nil, or_false] at hmem
    rcases hmem with ⟨-, rfl⟩ | ⟨-, rfl⟩ | ⟨-, rfl⟩ | ⟨-, rfl⟩ | ⟨-, rfl⟩ <;> rfl
  metas {d b} h _ := by
    obtain ⟨r, rfl, rfl⟩ := leads_libscInit h
    cases r with
    | root => exact ⟨1, _, rfl, rfl, rfl⟩
    | tmp => exact ⟨2, _, rfl, rfl, rfl⟩
    | proc => exact ⟨3, _, rfl, rfl, rfl⟩
  empty := False.elim
  signed {d b m name e} h hm found _ known := by
    have hmem := find_libscInit found
    simp only [List.mem_cons, Prod.mk.injEq, List.not_mem_nil, or_false] at hmem
    rcases hmem with ⟨rfl, rfl, -⟩ | ⟨rfl, rfl, -⟩ | ⟨rfl, rfl, -⟩ | ⟨rfl, rfl, -⟩ |
      ⟨rfl, rfl, -⟩ | ⟨rfl, rfl, -⟩ | ⟨rfl, rfl, -⟩
    · exact absurd ⟨rfl, rfl⟩ known
    all_goals
      cases hm
      exact ⟨_, rfl⟩
  root {m} hm := by
    cases hm
    exact ⟨2, rfl⟩
  reserved := rfl

end SignInv

/-- What logs in, opens or makes something, other than `/ROOT`, and directories only by URIs
without repeated slashes. -/
def SegCall.Makes : SegCall → Prop
  | .login | .openSegment _ _ => True
  | .createSegment _ uri => normalizeUri uri ≠ "/ROOT".toList
  | .mkdir uri => normalizeUri uri = uri ∧ uri ≠ "/ROOT".toList
  | _ => False

inductive MakingRun : Libsc → Prop where
  | init : MakingRun libscInit
  | step {st st' : Libsc} {c : SegCall} : MakingRun st → c.Makes → c.exec st = some st' →
      MakingRun st'

theorem SignInv.exec {st st' : Libsc} (inv : Signed st) {c : SegCall} (makes : c.Makes)
    (hr : c.exec st = some st') : Signed st' := by
  rw [SegCall.exec] at hr
  split at hr
  · cases c with
    | login =>
      cases hr
      exact { inv with }
    | createSegment ss uri =>
      rw [SegCall.call, Option.map_eq_some_iff] at hr
      obtain ⟨⟨found, st₁⟩, hr, rfl⟩ := hr
      exact inv.createSegment makes hr
    | mkdir uri =>
      rw [SegCall.call, Option.map_eq_some_iff] at hr
      obtain ⟨⟨rv, st₁⟩, hr, rfl⟩ := hr
      exact inv.mkdir makes.1 makes.2 hr
    | openSegment ss uri =>
      rw [SegCall.call, Option.map_eq_some_iff] at hr
      obtain ⟨⟨found, st₁⟩, hr, rfl⟩ := hr
      exact inv.openSegment hr
    | _ => exact makes.elim
  · cases hr

theorem MakingRun.signed {st : Libsc} (run : MakingRun st) : Signed st := by
  induction run with
  | init => exact SignInv.signed_libscInit
  | step _ makes hr ih => exact ih.exec makes hr

/-- What exists has a sign that leads back to its URI without repeated slashes and without one
at the end, if it is not `/info`, and so what has other such URIs has another sign. -/
theorem signs_lead_back {st : Libsc} (run : MakingRun st) {u : Uri} (found : st.Exists u)
    (notInfo : canonicalUri u ≠ "/info".toList) :
    (∃ a, st.uri2sign u = some (some a) ∧ st.sign2uri a = some (some (canonicalUri u))) ∧
      ∀ v, st.Exists v → canonicalUri v ≠ "/info".toList → canonicalUri u ≠ canonicalUri v →
        st.uri2sign u ≠ st.uri2sign v := by
  obtain ⟨a, ha, back⟩ := run.signed.sign_of_exists found notInfo
  refine ⟨⟨a, ha, back⟩, fun v found' notInfo' other same => other ?_⟩
  obtain ⟨a', ha', back'⟩ := run.signed.sign_of_exists found' notInfo'
  rw [← same, ha] at ha'
  cases ha'
  rw [back] at back'
  exact Option.some.inj (Option.some.inj back')

/-- A directory and a segment in it are made. -/
theorem signs_lead_back_made : ∃ st a, MakingRun st ∧ st.uri2sign "/d//s".toList = some (some a) ∧
    st.sign2uri a = some (some "/d/s".toList) := by
  have calls : (do
      let st ← (SegCall.mkdir "/d".toList).exec libscInit
      (SegCall.createSegment none "/d//s".toList).exec st).any (fun st : Libsc =>
        decide (st.stat "/d//s".toList = some rvOk)) = true := by
    decide +kernel
  obtain ⟨st, hst, hstat⟩ := (Option.any_eq_true _ _).mp calls
  obtain ⟨st₁, made, created⟩ := Option.bind_eq_some_iff.mp hst
  have first : MakingRun st₁ :=
    .step (c := .mkdir "/d".toList) .init ⟨by decide, by decide⟩ made
  have run : MakingRun st := .step (c := .createSegment none "/d//s".toList) first
    (show normalizeUri _ ≠ _ by decide) created
  have found : st.Exists "/d//s".toList := ⟨rvOk, of_decide_eq_true hstat, by decide⟩
  obtain ⟨a, sign, back⟩ := (signs_lead_back run found (by decide)).1
  exact ⟨st, a, run, sign, back⟩

/-- `/tmp/` exists and is normalized, but has the sign of `/tmp`, which leads to `/tmp`;
`/info` has no sign, a segment `/ROOT` has that of the root, and below a directory that is made
by `/a//b` signs lead to URIs with two slashes. -/
theorem signs_of_slashes : libscInit.Exists "/tmp/".toList ∧
    normalizeUri "/tmp/".toList = "/tmp/".toList ∧
    libscInit.uri2sign "/tmp/".toList = libscInit.uri2sign "/tmp".toList ∧
    (libscInit.uri2sign "/tmp/".toList).bind id = some 3 ∧
    libscInit.sign2uri 3 = some (some "/tmp".toList) ∧
    libscInit.Exists "/info".toList ∧ libscInit.uri2sign "/info".toList = some none ∧
    (((SegCall.createSegment none "/ROOT".toList).exec libscInit).any fun st =>
      decide (st.stat "/ROOT".toList = some rvOk ∧
        st.uri2sign "/ROOT".toList = st.uri2sign "/".toList)) = true ∧
    ((([.mkdir "/a".toList, .mkdir "/a//b".toList, .createSegment none "/a/b/x".toList] :
      List SegCall).foldlM SegCall.exec libscInit).any fun st =>
        decide ((do st.sign2uri (← (← st.uri2sign "/a/b/x".toList))) =
          some (some "/a//b/x".toList))) = true := by
  refine ⟨⟨rvElseGen, by decide +kernel, by decide⟩, by decide, by decide +kernel,
    by decide +kernel, by decide +kernel, ⟨rvOk, by decide +kernel, by decide⟩,
    by decide +kernel, by decide +kernel, by decide +kernel⟩

end ScCore.Repo
