import ScCore.Scp.PatternMaps

/-!
# When the results are still requested

A key that has been rewritten to a value lies outside of the new segment, or stands for a variable
itself. So parameters may not be requested as results; everything else is rewritten once.
-/

namespace ScCore.Scp.Prepare

open OrderedMap

/-! ## What is wanted -/

namespace Input

variable (x : Input)

def resultPairs : List (Addr × Addr) := (x.results.getD []).map (readEntry x.info false)

def paramPairs : List (Addr × Addr) := (x.params.getD []).map (readEntry x.info true)

def valueOf (el : Addr) : Option Addr := (x.paramPairs.find? fun p => p.1 = el).map Prod.snd

def standsFor (el : Addr) : Addr :=
  if x.params.isNone then el
  else (x.valueOf el).getD (if el ∈ x.varEls then x.copy el else el)

/-- Each result is requested under what stands for its element, and nothing else is requested. -/
def Requested (mapResult : AddrMap) : Prop :=
  (∀ p ∈ x.resultPairs, mapResult.find (x.standsFor p.1) = some p.2) ∧
    ∀ k v, mapResult.find k = some v → ∃ p ∈ x.resultPairs, k = x.standsFor p.1 ∧ v = p.2

/-- A pair of results that lacks a component, has no variable of the program for its second one, or
names an element outside of the pattern. -/
def Bad (e : Entry) : Prop :=
  e.first = 0 ∨ e.second = 0 ∨ x.info.isVariable e.second = false ∨
    (readEntry x.info false e).1 ∉ x.members

/-- `prepare_pattern` ends, requests what is wanted, and returns an error only for a bad pair. -/
def Right : Prop :=
  ∃ fuel r, preparePattern fuel x = some r ∧
    match r with
    | .ok context => x.Requested context.mapResult
    | .error => ∃ e ∈ x.results.getD [], x.Bad e
    | .crash => False

def ParamsFit : Prop := ∀ p ∈ x.paramPairs, p.1 ∈ x.varEls

/-- The segment of the copies is new: nothing that was there lies in it. -/
structure NewSegment : Prop where
  members : ∀ el ∈ x.members, x.seg el ≠ x.segment
  results : ∀ p ∈ x.resultPairs, x.seg p.1 ≠ x.segment
  params : ∀ p ∈ x.paramPairs, x.seg p.2 ≠ x.segment
  copies : ∀ el ∈ x.varEls, x.seg (x.copy el) = x.segment ∧ x.copy el ≠ 0
  apart : ∀ el ∈ x.varEls, ∀ el' ∈ x.varEls, x.copy el = x.copy el' → el = el'
  null : 0 ∉ x.members

/-- No element is requested twice for different variables, and with parameters, no result is a
parameter or a constant of the pattern, or lacks its element. -/
structure Separate : Prop where
  once : ∀ p ∈ x.resultPairs, ∀ q ∈ x.resultPairs, p.1 = q.1 → p.2 = q.2
  element : x.params.isSome → ∀ p ∈ x.resultPairs, p.1 ≠ 0
  plain : x.params.isSome → ∀ p ∈ x.resultPairs, p.1 ∈ x.members →
    p.1 ∈ x.varEls ∧ x.valueOf p.1 = none

end Input

/-! ## The maps -/

section Maps

variable {info : Info} {es : List Entry} {isParamParse : Bool} {read : PairsRead} {k : Addr}

theorem parsePair_find : (parsePair info isParamParse es read).map.find k =
    (read.map.find k).or
      (((es.map (readEntry info isParamParse)).find? fun p => p.1 = k).map Prod.snd) := by
  induction es generalizing read with
  | nil => simp [parsePair]
  | cons e es ih =>
    rw [parsePair, ih, List.map_cons, find_insert]
    by_cases here : k = (readEntry info isParamParse e).1
    · rw [if_pos here, List.find?_cons_of_pos (by simpa using here.symm), ← here]
      cases read.map.find k <;> rfl
    · rw [if_neg here, List.find?_cons_of_neg (by simpa using Ne.symm here)]

theorem copyEls_find (copy : Addr → Addr) (newPattern : Addr) (els : List Addr) :
    (copyEls copy newPattern els).original2copy.find k =
      if k ∈ els then some (copy k) else none := by
  have more (context : CopyContext) :
      (els.foldl (fun context el =>
        { context with
          original2copy := context.original2copy.insert el (copy el),
          copy2original := context.copy2original.insert (copy el) el })
        context).original2copy.find k =
      (context.original2copy.find k).or (if k ∈ els then some (copy k) else none) := by
    induction els generalizing context with
    | nil => simp
    | cons el els ih =>
      rw [List.foldl_cons, ih]
      dsimp only
      rw [find_insert]
      by_cases here : k = el
      · subst here
        cases context.original2copy.find k <;> simp
      · simp [here]
  exact more ⟨newPattern, .empty, .empty⟩

theorem substituteParams_find {params : List (Addr × Addr)} {original2copy : AddrMap}
    (sorted : params.Pairwise fun p q => p.1 < q.1)
    (known : ∀ p ∈ params, (original2copy.find p.1).isSome) :
    ∃ m, substituteParams params original2copy = some m ∧ ∀ k, m.find k =
      ((params.find? fun p => p.1 = k).map Prod.snd).or (original2copy.find k) := by
  induction params generalizing original2copy with
  | nil => exact ⟨original2copy, rfl, fun k => rfl⟩
  | cons p params ih =>
    obtain ⟨param, val⟩ := p
    obtain ⟨least, rest⟩ := List.pairwise_cons.mp sorted
    obtain ⟨copy, found⟩ := Option.isSome_iff_exists.mp (known _ List.mem_cons_self)
    have next (j : Addr) : ((original2copy.erase param).insert param val).find j =
        if j = param then some val else original2copy.find j := by
      rw [find_insert, find_erase, find_erase, if_pos rfl]
      by_cases here : j = param
      · rw [if_pos here, if_pos here]
        rfl
      · rw [if_neg here, if_neg here, if_neg here]
    obtain ⟨m, run, finds⟩ := @ih ((original2copy.erase param).insert param val) rest
      (fun q mem => by
        rw [next, if_neg (Nat.ne_of_gt (least q mem))]
        exact known q (List.mem_cons_of_mem _ mem))
    refine ⟨m, by rw [substituteParams, found]; exact run, fun k => ?_⟩
    rw [finds, next]
    by_cases here : k = param
    · subst here
      have missing : params.find? (fun p => p.1 = k) = none := by
        rw [List.find?_eq_none]
        intro q mem same
        exact Nat.ne_of_gt (least q mem) (of_decide_eq_true same)
      rw [missing, if_pos rfl, List.find?_cons_of_pos (by simp)]
      rfl
    · rw [if_neg here, List.find?_cons_of_neg (by simpa using Ne.symm here)]

end Maps

/-! ## The walks over the results -/

section Walks

variable {original2copy : AddrMap} {seg : Addr → SegId} {segment : SegId}

def Seen (original2copy : AddrMap) (seg : Addr → SegId) (segment : SegId)
    (results : List (Addr × Addr)) : Scan → Prop
  | .finished => ∀ p ∈ results, original2copy.find p.1 = none ∧ seg p.1 = segment
  | .missing => ∃ p ∈ results, original2copy.find p.1 = none ∧ seg p.1 ≠ segment
  | .nullKey => ∃ p ∈ results, p.1 = 0 ∧ original2copy.find p.1 = none
  | .found k c v => (k, v) ∈ results ∧ original2copy.find k = some c

theorem scan_seen (results : List (Addr × Addr)) :
    Seen original2copy seg segment results (scan original2copy seg segment results) := by
  induction results with
  | nil => exact fun _ mem => nomatch mem
  | cons p results ih =>
    obtain ⟨k, v⟩ := p
    obtain ⟨copy, found⟩ : ∃ copy, original2copy.find k = copy := ⟨_, rfl⟩
    rw [scan, found]
    cases copy with
    | some c => exact ⟨List.mem_cons_self, found⟩
    | none =>
      dsimp only
      split
      case isTrue null => exact ⟨(k, v), List.mem_cons_self, null, found⟩
      case isFalse =>
        split
        case isTrue foreign => exact ⟨(k, v), List.mem_cons_self, found, Ne.symm foreign⟩
        case isFalse inside =>
          generalize scan original2copy seg segment results = r at ih
          cases r with
          | finished =>
            intro p mem
            obtain rfl | mem := List.mem_cons.mp mem
            · exact ⟨found, (not_not.mp inside).symm⟩
            · exact ih p mem
          | missing | nullKey =>
            obtain ⟨p, mem, facts⟩ := ih
            exact ⟨p, List.mem_cons_of_mem _ mem, facts⟩
          | found => exact ⟨List.mem_cons_of_mem _ ih.1, ih.2⟩

theorem substituteResults_final {fuel : Nat} {m m' : AddrMap}
    (run : substituteResults original2copy seg segment fuel m = some (.ok m')) :
    ∀ p ∈ m'.entries, original2copy.find p.1 = none ∧ seg p.1 = segment := by
  induction fuel generalizing m with
  | zero => cases run
  | succ fuel ih =>
    have seen := @scan_seen original2copy seg segment m.entries
    rw [substituteResults] at run
    generalize scan original2copy seg segment m.entries = r at seen run
    cases r with
    | finished =>
      cases run
      exact seen
    | missing | nullKey => cases run
    | found k c v => exact ih run

def image (original2copy : AddrMap) (k : Addr) : Addr := (original2copy.find k).getD k

structure Calm (original2copy : AddrMap) (seg : Addr → SegId) (segment : SegId) (m : AddrMap) :
    Prop where
  keys : ∀ p ∈ m.entries, p.1 ≠ 0
  copies : ∀ p ∈ m.entries, ∀ c, original2copy.find p.1 = some c →
    original2copy.find c = none ∧ c ≠ 0 ∧ seg c = segment
  apart : ∀ p ∈ m.entries, ∀ q ∈ m.entries,
    image original2copy p.1 = image original2copy q.1 → p.1 = q.1

variable {m : AddrMap} {k c v : Addr}

theorem image_of_none (h : original2copy.find k = none) : image original2copy k = k := by
  rw [image, h]
  rfl

theorem image_of_some (h : original2copy.find k = some c) : image original2copy k = c := by
  rw [image, h]
  rfl

theorem Calm.step_entries (calm : Calm original2copy seg segment m) (mem : (k, v) ∈ m.entries)
    (found : original2copy.find k = some c) (p : Addr × Addr) :
    p ∈ ((m.erase k).insert c v).entries ↔ p ∈ m.entries ∧ p.1 ≠ k ∨ p = (c, v) := by
  have free : (m.erase k).find c = none := by
    rw [find_erase]
    split
    · rfl
    · next other =>
      refine find_eq_none.mpr fun w there => other ?_
      have plain := (calm.copies _ mem c found).1
      exact calm.apart _ there _ mem ((image_of_none plain).trans (image_of_some found).symm)
  rw [mem_insert, mem_erase]
  exact or_congr_right (and_iff_left free)

theorem Calm.step (calm : Calm original2copy seg segment m) (mem : (k, v) ∈ m.entries)
    (found : original2copy.find k = some c) :
    Calm original2copy seg segment ((m.erase k).insert c v) := by
  obtain ⟨plain, nonnull, -⟩ := calm.copies _ mem c found
  have entries := calm.step_entries mem found
  -- Each new key comes from an old one with the same image.
  have origin : ∀ p ∈ ((m.erase k).insert c v).entries, ∃ q ∈ m.entries,
      image original2copy p.1 = image original2copy q.1 ∧
        (p.1 = q.1 ∧ q.1 ≠ k ∨ p.1 = c ∧ q.1 = k) := by
    intro p hp
    obtain ⟨old, other⟩ | rfl := (entries p).mp hp
    · exact ⟨p, old, rfl, .inl ⟨rfl, other⟩⟩
    · exact ⟨(k, v), mem, (image_of_none plain).trans (image_of_some found).symm, .inr ⟨rfl, rfl⟩⟩
  refine ⟨fun p hp => ?_, fun p hp c' found' => ?_, fun p hp q hq same => ?_⟩
  · obtain ⟨old, -⟩ | rfl := (entries p).mp hp
    · exact calm.keys p old
    · exact nonnull
  · obtain ⟨old, -⟩ | rfl := (entries p).mp hp
    · exact calm.copies p old c' found'
    · rw [plain] at found'
      cases found'
  · obtain ⟨p', hp', sameP, fromP⟩ := origin p hp
    obtain ⟨q', hq', sameQ, fromQ⟩ := origin q hq
    have one := calm.apart p' hp' q' hq' (sameP.symm.trans (same.trans sameQ))
    obtain ⟨eqP, otherP⟩ | ⟨eqP, isP⟩ := fromP
    · obtain ⟨eqQ, -⟩ | ⟨-, isQ⟩ := fromQ
      · rw [eqP, eqQ, one]
      · exact absurd (one.trans isQ) otherP
    · obtain ⟨-, otherQ⟩ | ⟨eqQ, -⟩ := fromQ
      · exact absurd (one.symm.trans isP) otherQ
      · rw [eqP, eqQ]

def Ends (original2copy : AddrMap) (seg : Addr → SegId) (segment : SegId) (m : AddrMap)
    (r : Prepared AddrMap) : Prop :=
  (r = .error ∧ ∃ p ∈ m.entries, original2copy.find p.1 = none ∧ seg p.1 ≠ segment) ∨
    ∃ m', r = .ok m' ∧ ∀ q, q ∈ m'.entries ↔
      ∃ p ∈ m.entries, q = (image original2copy p.1, p.2)

theorem Calm.last (calm : Calm original2copy seg segment m)
    (none : ∀ k c v, scan original2copy seg segment m.entries ≠ .found k c v) :
    ∃ r, substituteResults original2copy seg segment 1 m = some r ∧
      Ends original2copy seg segment m r := by
  have seen := @scan_seen original2copy seg segment m.entries
  rw [substituteResults]
  generalize scan original2copy seg segment m.entries = r at seen none
  cases r with
  | finished =>
    refine ⟨.ok m, rfl, .inr ⟨m, rfl, fun q => ?_⟩⟩
    constructor
    · intro mem
      exact ⟨q, mem, by rw [image_of_none (seen q mem).1]⟩
    · rintro ⟨p, mem, rfl⟩
      rw [image_of_none (seen p mem).1]
      exact mem
  | missing => exact ⟨.error, rfl, .inl ⟨rfl, seen⟩⟩
  | nullKey =>
    obtain ⟨p, mem, null, -⟩ := seen
    exact absurd null (calm.keys p mem)
  | found k c v => exact absurd rfl (none k c v)

theorem Calm.ends_step (calm : Calm original2copy seg segment m) (mem : (k, v) ∈ m.entries)
    (found : original2copy.find k = some c) {r : Prepared AddrMap}
    (ends : Ends original2copy seg segment ((m.erase k).insert c v) r) :
    Ends original2copy seg segment m r := by
  have entries := calm.step_entries mem found
  obtain ⟨plain, -, inside⟩ := calm.copies _ mem c found
  obtain ⟨rfl, p, hp, none, foreign⟩ | ⟨m', rfl, all⟩ := ends
  · refine .inl ⟨rfl, ?_⟩
    obtain ⟨old, -⟩ | rfl := (entries p).mp hp
    · exact ⟨p, old, none, foreign⟩
    · exact absurd inside foreign
  · refine .inr ⟨m', rfl, fun q => (all q).trans ?_⟩
    constructor
    · rintro ⟨p, hp, rfl⟩
      obtain ⟨old, -⟩ | rfl := (entries p).mp hp
      · exact ⟨p, old, rfl⟩
      · exact ⟨(k, v), mem, by rw [image_of_none plain, image_of_some found]⟩
    · rintro ⟨p, hp, rfl⟩
      by_cases here : p.1 = k
      · have same : p = (k, v) := by
          obtain ⟨k', v'⟩ := p
          obtain rfl : k' = k := here
          have one := (find_eq_some.mpr hp).symm.trans (find_eq_some.mpr mem)
          cases one
          rfl
        refine ⟨(c, v), (entries _).mpr (.inr rfl), ?_⟩
        rw [same, image_of_none plain, image_of_some found]
      · exact ⟨p, (entries p).mpr (.inl ⟨hp, here⟩), rfl⟩

theorem substituteResults_calm (calm : Calm original2copy seg segment m) (pending : List Addr)
    (covers : ∀ p ∈ m.entries, (original2copy.find p.1).isSome → p.1 ∈ pending) :
    ∃ fuel r, substituteResults original2copy seg segment fuel m = some r ∧
      Ends original2copy seg segment m r := by
  induction hn : pending.length generalizing pending m with
  | zero =>
    refine ⟨1, calm.last fun k c v walk => ?_⟩
    have seen := @scan_seen original2copy seg segment m.entries
    rw [walk] at seen
    have there := covers _ seen.1 (by rw [seen.2]; rfl)
    rw [List.length_eq_zero_iff.mp hn] at there
    cases there
  | succ n ih =>
    have seen := @scan_seen original2copy seg segment m.entries
    obtain ⟨walk, hwalk⟩ : ∃ walk, scan original2copy seg segment m.entries = walk := ⟨_, rfl⟩
    rw [hwalk] at seen
    cases walk with
    | finished | missing | nullKey =>
      exact ⟨1, calm.last fun k c v found => nomatch hwalk.symm.trans found⟩
    | found k c v =>
      obtain ⟨mem, found⟩ := seen
      obtain ⟨plain, -, -⟩ := calm.copies _ mem c found
      have there := covers _ mem (by rw [found]; rfl)
      obtain ⟨fuel, r, run, ends⟩ := ih (calm.step mem found) (pending.erase k)
        (fun p hp subst => by
          obtain ⟨old, other⟩ | rfl := (calm.step_entries mem found p).mp hp
          · exact (List.mem_erase_of_ne other).mpr (covers p old subst)
          · rw [plain] at subst
            cases subst)
        (by rw [List.length_erase_of_mem there, hn]; rfl)
      refine ⟨fuel + 1, r, ?_, calm.ends_step mem found ends⟩
      rw [substituteResults, hwalk]
      exact run

end Walks

/-! ## prepare_pattern -/

namespace Input

variable {x : Input} {k v : Addr}

def resultMap (x : Input) : AddrMap :=
  (parsePair x.info false (x.results.getD []) ⟨.empty, [], []⟩).map

theorem resultMap_find : x.resultMap.find k =
    (x.resultPairs.find? fun p => p.1 = k).map Prod.snd := by
  rw [resultMap, parsePair_find, find_empty, Option.none_or]
  rfl

theorem mem_of_resultMap (mem : (k, v) ∈ x.resultMap.entries) : (k, v) ∈ x.resultPairs := by
  have found := find_eq_some.mpr mem
  rw [resultMap_find] at found
  obtain ⟨p, hp, rfl⟩ := Option.map_eq_some_iff.mp found
  have same : p.1 = k := by simpa using List.find?_some hp
  rw [← same]
  exact List.mem_of_find?_eq_some hp

theorem Separate.resultMap (sep : x.Separate) :
    (k, v) ∈ x.resultMap.entries ↔ (k, v) ∈ x.resultPairs := by
  refine ⟨mem_of_resultMap, fun mem => ?_⟩
  rw [← find_eq_some, resultMap_find]
  obtain ⟨q, hq⟩ := Option.isSome_iff_exists.mp
    (List.find?_isSome.mpr ⟨(k, v), mem, decide_eq_true rfl⟩ :
      (x.resultPairs.find? fun p => p.1 = k).isSome)
  have same : q.1 = k := by simpa using List.find?_some hq
  rw [hq, Option.map_some, sep.once q (List.mem_of_find?_eq_some hq) (k, v) mem same]

theorem substituted (fit : x.ParamsFit) (given : x.params.isSome) :
    ∃ original2copy : AddrMap, (∀ k, original2copy.find k =
        (x.valueOf k).or (if k ∈ x.varEls then some (x.copy k) else none)) ∧
      ∃ context : AddrMap → PatternContext, (∀ m, (context m).mapResult = m) ∧
        ∀ fuel, preparePattern fuel x =
          match substituteResults original2copy x.seg x.segment fuel x.resultMap with
          | none => none
          | some .error => some .error
          | some .crash => some .crash
          | some (.ok m) => some (.ok (context m)) := by
  obtain ⟨es, hparams⟩ := Option.isSome_iff_exists.mp given
  have pairs : x.paramPairs = es.map (readEntry x.info true) := by rw [paramPairs, hparams]; rfl
  obtain ⟨read, hread⟩ : ∃ read : PairsRead, read =
    ⟨.empty, (parsePair x.info false (x.results.getD []) ⟨.empty, [], []⟩).varsWithSet,
      (parsePair x.info false (x.results.getD []) ⟨.empty, [], []⟩).fixedEls⟩ := ⟨_, rfl⟩
  have value (k : Addr) : (parsePair x.info true es read).map.find k = x.valueOf k := by
    rw [parsePair_find, hread, find_empty, Option.none_or, valueOf, pairs]
  obtain ⟨m, run, finds⟩ := substituteParams_find (parsePair x.info true es read).map.sorted
    (fun p mem => by
      have found := (value p.1).symm.trans (find_eq_some.mpr mem)
      obtain ⟨q, hq, -⟩ := Option.map_eq_some_iff.mp found
      have same : q.1 = p.1 := by simpa using List.find?_some hq
      have inside := fit q (List.mem_of_find?_eq_some hq)
      rw [copyEls_find x.copy x.newPattern, if_pos (same ▸ inside)]
      rfl)
  let context := copyEls x.copy x.newPattern x.varEls
  let params := parsePair x.info true es read
  refine ⟨m, fun k => (finds k).trans ?_, fun m' => ⟨context.newPattern, x.varEls, x.constEls,
    params.varsWithSet, params.fixedEls, params.map, m', some x.segment, m,
    context.copy2original⟩, fun m' => rfl, fun fuel => ?_⟩
  · rw [copyEls_find, ← value k]
    rfl
  · rw [preparePattern, hparams]
    dsimp only
    rw [← hread, run]
    rfl

theorem valueOf_some (h : x.valueOf k = some v) : (k, v) ∈ x.paramPairs := by
  obtain ⟨p, hp, rfl⟩ := Option.map_eq_some_iff.mp h
  have same : p.1 = k := by simpa using List.find?_some hp
  rw [← same]
  exact List.mem_of_find?_eq_some hp

theorem varEls_member (h : k ∈ x.varEls) : k ∈ x.members := List.mem_of_mem_filter h

variable {original2copy : AddrMap}

theorem image_standsFor (given : x.params.isSome)
    (finds : ∀ k, original2copy.find k =
      (x.valueOf k).or (if k ∈ x.varEls then some (x.copy k) else none)) (k : Addr) :
    image original2copy k = x.standsFor k := by
  have there : ¬ x.params.isNone = true := by
    obtain ⟨es, params⟩ := Option.isSome_iff_exists.mp given
    rw [params]
    exact Bool.false_ne_true
  rw [image, finds, standsFor, if_neg there]
  cases x.valueOf k with
  | some val => rfl
  | none =>
    by_cases inside : k ∈ x.varEls
    · rw [if_pos inside, if_pos inside]
      rfl
    · rw [if_neg inside, if_neg inside]
      rfl

theorem Separate.calm (sep : x.Separate) (fit : x.ParamsFit) (fresh : x.NewSegment)
    (given : x.params.isSome) (finds : ∀ k, original2copy.find k =
      (x.valueOf k).or (if k ∈ x.varEls then some (x.copy k) else none)) :
    Calm original2copy x.seg x.segment x.resultMap := by
  have known (k : Addr) (h : (original2copy.find k).isSome) : k ∈ x.varEls := by
    by_contra outside
    rw [finds, if_neg outside, Option.or_none] at h
    obtain ⟨val, hval⟩ := Option.isSome_iff_exists.mp h
    exact outside (fit _ (valueOf_some hval))
  have copied {p : Addr × Addr} (hp : p ∈ x.resultMap.entries) {c : Addr}
      (found : original2copy.find p.1 = some c) : p.1 ∈ x.varEls ∧ c = x.copy p.1 := by
    have inside := known p.1 (by rw [found]; rfl)
    obtain ⟨-, free⟩ := sep.plain given p (mem_of_resultMap hp) (varEls_member inside)
    rw [finds, free, Option.none_or, if_pos inside] at found
    exact ⟨inside, (Option.some.inj found).symm⟩
  refine ⟨fun p hp => sep.element given p (mem_of_resultMap hp), fun p hp c found => ?_,
    fun p hp q hq same => ?_⟩
  · obtain ⟨inside, rfl⟩ := copied hp found
    obtain ⟨seg, nonnull⟩ := fresh.copies p.1 inside
    refine ⟨?_, nonnull, seg⟩
    cases again : original2copy.find (x.copy p.1) with
    | none => rfl
    | some c => exact absurd seg (fresh.members _ (varEls_member (known _ (by rw [again]; rfl))))
  · cases foundP : original2copy.find p.1 with
    | none =>
      cases foundQ : original2copy.find q.1 with
      | none => rwa [image_of_none foundP, image_of_none foundQ] at same
      | some c =>
        obtain ⟨inside, rfl⟩ := copied hq foundQ
        rw [image_of_none foundP, image_of_some foundQ] at same
        have seg := (fresh.copies q.1 inside).1
        rw [← same] at seg
        exact absurd seg (fresh.results p (mem_of_resultMap hp))
    | some c =>
      obtain ⟨insideP, rfl⟩ := copied hp foundP
      cases foundQ : original2copy.find q.1 with
      | none =>
        rw [image_of_some foundP, image_of_none foundQ] at same
        have seg := (fresh.copies p.1 insideP).1
        rw [same] at seg
        exact absurd seg (fresh.results q (mem_of_resultMap hq))
      | some c =>
        obtain ⟨insideQ, rfl⟩ := copied hq foundQ
        rw [image_of_some foundP, image_of_some foundQ] at same
        exact fresh.apart p.1 insideP q.1 insideQ same

theorem Separate.requested (sep : x.Separate) {m : AddrMap} (all : ∀ q, q ∈ m.entries ↔
    ∃ p ∈ x.resultMap.entries, q = (x.standsFor p.1, p.2)) : x.Requested m := by
  refine ⟨fun p mem => ?_, fun k v found => ?_⟩
  · exact find_eq_some.mpr ((all _).mpr ⟨p, sep.resultMap.mpr mem, rfl⟩)
  · obtain ⟨p, hp, same⟩ := (all _).mp (find_eq_some.mp found)
    cases same
    exact ⟨p, mem_of_resultMap hp, rfl, rfl⟩

theorem Separate.right (sep : x.Separate) (fit : x.ParamsFit) (fresh : x.NewSegment) :
    x.Right := by
  obtain ⟨params, hparams⟩ : ∃ params, x.params = params := ⟨_, rfl⟩
  cases params with
  | none =>
    refine ⟨0, _, by rw [preparePattern, hparams], sep.requested fun q => ?_⟩
    have self (k : Addr) : x.standsFor k = k := by rw [standsFor, hparams]; rfl
    constructor
    · exact fun mem => ⟨q, mem, by rw [self]⟩
    · rintro ⟨p, mem, rfl⟩
      rw [self]
      exact mem
  | some es =>
    have given : x.params.isSome := by rw [hparams]; rfl
    obtain ⟨original2copy, finds, context, results, run⟩ := substituted fit given
    obtain ⟨fuel, r, walks, ends⟩ := substituteResults_calm (sep.calm fit fresh given finds)
      (x.resultMap.entries.map Prod.fst) fun p mem _ => List.mem_map_of_mem mem
    have run := run fuel
    rw [walks] at run
    obtain ⟨rfl, p, mem, none, foreign⟩ | ⟨m', rfl, all⟩ := ends
    · refine ⟨fuel, .error, run, ?_⟩
      obtain ⟨e, he, same⟩ := List.mem_map.mp (mem_of_resultMap mem)
      refine ⟨e, he, .inr (.inr (.inr fun inside => ?_))⟩
      rw [same] at inside
      obtain ⟨isVar, free⟩ := sep.plain given _ (mem_of_resultMap mem) inside
      rw [finds, free, if_pos isVar] at none
      cases none
    · refine ⟨fuel, .ok (context m'), run, ?_⟩
      dsimp only
      rw [results]
      refine sep.requested fun q => (all q).trans ?_
      simp only [image_standsFor given finds]

end Input

/-- A pattern of the variables 1 and 2 with the constant 3. The element 8 is given for the first
one, and `result` is requested under the program variable 9. -/
def sampleInput (result : Addr) : Input where
  info := { isVariable := fun el => el = 9, varValue := fun _ => 0 }
  patternSign := 4
  members := [1, 2, 3]
  isVar := fun el => el < 3
  seg := fun el => if el < 10 then 0 else 1
  results := some [{ first := result, second := 9, set := false, fixed := false }]
  params := some [{ first := 1, second := 8, set := false, fixed := false }]
  segment := 1
  newPattern := 5
  copy := fun el => el + 10

theorem sampleInput_fit : ∀ result ∈ [1, 2], ∀ p ∈ (sampleInput result).paramPairs,
    p.1 ∈ (sampleInput result).varEls := by
  decide

theorem sampleInput_fresh {result : Addr} (mem : result ∈ [1, 2]) :
    (sampleInput result).NewSegment := by
  obtain rfl | rfl := List.mem_pair.mp mem
  · exact ⟨by decide, by decide, by decide, by decide, by decide, by decide⟩
  · exact ⟨by decide, by decide, by decide, by decide, by decide, by decide⟩

end ScCore.Scp.Prepare
