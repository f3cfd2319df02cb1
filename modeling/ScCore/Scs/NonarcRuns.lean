import ScCore.Scs.Resolving

/-!
# Texts with connectors that are no arcs

The calls that build a text and record pairs, up to the resolving of the pairs.
-/

namespace ScCore.Scs

variable {R : Type} {scan : Idtf → Option R} {lax : Bool}

inductive TextCall where
  | build (call : ScCall)
  | nonarc (left : Ref) (con : ElType) (right : Ref)
  deriving DecidableEq, Repr

def TextCall.sorted : TextCall → Bool
  | build call => call.sorted
  | nonarc .. => true

namespace NonarcText

def new : NonarcText R := ⟨.new, []⟩

def exec (scan : Idtf → Option R) (lax : Bool) (t : NonarcText R) :
    TextCall → Option (NonarcText R)
  | .build call => do
      let (text, _) ← t.text.exec scan lax call
      some { t with text := text }
  | .nonarc left con right =>
      if left < t.text.elems.length ∧ right < t.text.elems.length then
        t.addNonarcCon left con right
      else none

def run (scan : Idtf → Option R) (lax : Bool) :
    List TextCall → NonarcText R → Option (NonarcText R)
  | [], t => some t
  | call :: calls, t => do run scan lax calls (← t.exec scan lax call)

def read (scan : Idtf → Option R) (lax : Bool) (calls : List TextCall) : Option (NonarcText R) :=
  new.run scan lax (initSpecialNodes.map .build ++ calls)

end NonarcText

namespace ScText

variable {t t' : ScText R}

variable {left right : Option Ref} {ref : Ref} {type : ElType}

theorem length_beginIsNode {beg : Option Ref} (node : t.beginIsNode left beg = some t') :
    t'.elems.length = t.elems.length := by
  rw [beginIsNode] at node
  split at node
  · cases beg with
    | none =>
      cases node
      rfl
    | some l =>
      obtain ⟨r, -, rfl⟩ := elementIsNode_eq node
      exact length_modify _ _
  · cases node
    rfl

theorem length_mergeEl {r : Ref} (merge : t.mergeEl ref type left right = some (t', r)) :
    t'.elems.length = t.elems.length := by
  obtain ⟨e, T, beg, fin, -, -, -, -, node⟩ := mergeEl_eq merge
  rw [length_beginIsNode node, length_modify]

theorem length_addElFull {id : Option Idtf}
    (add : t.addElFull id type left right = some (t', ref)) : t.elems.length ≤ t'.elems.length := by
  rw [addElFull] at add
  split at add
  · cases add
  · split at add
    · exact Nat.le_of_eq (length_mergeEl add).symm
    · obtain ⟨t₁, node, last⟩ := Option.bind_eq_some_iff.mp add
      cases last
      rw [length_beginIsNode node, Resolved.length_addNew]
      exact Nat.le_succ _

theorem length_addAlias {id : Idtf} (add : t.addAlias lax id ref = some t') :
    t'.elems.length = t.elems.length := by
  have joins {t' : ScText R} {ref target : Ref} (join : t.joinElements ref target = some t') :
      t'.elems.length = t.elems.length := by
    obtain ⟨e, -, join⟩ := Option.bind_eq_some_iff.mp join
    obtain ⟨⟨t₁, r⟩, merge, take⟩ := Option.bind_eq_some_iff.mp join
    dsimp only at take
    rw [takeContent] at take
    split at take
    · cases take
      rw [length_modify, length_mergeEl merge]
    · obtain ⟨real, -, take⟩ := Option.bind_eq_some_iff.mp take
      split at take
      · cases take
      · cases take
        rw [length_modify, length_modify, length_mergeEl merge]
  obtain ⟨r, -, add⟩ := Option.bind_eq_some_iff.mp add
  obtain ⟨e, -, add⟩ := Option.bind_eq_some_iff.mp add
  split at add
  · rw [aliasOther] at add
    split at add
    · cases add
      rfl
    · split at add
      · cases add
      · obtain ⟨real, -, add⟩ := Option.bind_eq_some_iff.mp add
        split at add
        · cases add
          rfl
        · split at add <;> exact joins add
  · rw [aliasNew] at add
    split at add
    · cases add
    · cases add
      split
      · exact length_modify _ _
      · rfl

theorem length_exec {call : ScCall} {ev : Event R} (run : t.exec scan lax call = some (t', ev)) :
    t.elems.length ≤ t'.elems.length := by
  rw [exec.eq_def] at run
  split at run
  · cases call with
    | addElFull id type left right =>
      obtain ⟨⟨t₁, ref⟩, add, last⟩ := Option.bind_eq_some_iff.mp run
      cases last
      exact length_addElFull add
    | addArc left con right id =>
      obtain ⟨⟨t₁, ref⟩, add, last⟩ := Option.bind_eq_some_iff.mp run
      cases last
      exact length_addElFull add
    | addAlias id ref =>
      obtain ⟨t₁, add, last⟩ := Option.bind_eq_some_iff.mp run
      cases last
      exact Nat.le_of_eq (length_addAlias add).symm
    | addCont ref text contType =>
      obtain ⟨t₁, add, last⟩ := Option.bind_eq_some_iff.mp run
      cases last
      obtain ⟨r, f, -, -, rfl, -⟩ := Resolved.addCont_eq add
      exact Nat.le_of_eq (length_modify _ _).symm
  · cases run

end ScText

theorem ScCall.sorted_arcsOnly {call : ScCall} (sorted : call.sorted = true) :
    call.arcsOnly = true := by
  cases call with
  | addElFull id type left right => exact (Bool.and_eq_true_iff.mp sorted).2
  | _ => rfl

structure NonarcText.Recorded (t : NonarcText R) : Prop where
  resolved : ∃ h, Resolved h t.text
  sorted : t.text.Sorted
  inside : ∀ pair ∈ t.nonarcs, pair.1 < t.text.elems.length ∧ pair.2 < t.text.elems.length
  nodup : t.nonarcs.Nodup

namespace NonarcText.Recorded

variable {t t' : NonarcText R}

theorem new : (NonarcText.new : NonarcText R).Recorded where
  resolved := ⟨[], .new⟩
  sorted := .new
  inside := nofun
  nodup := List.nodup_nil

theorem exec (recorded : t.Recorded) {call : TextCall} (ok : call.sorted = true)
    (run : t.exec scan lax call = some t') : t'.Recorded := by
  obtain ⟨h, resolved⟩ := recorded.resolved
  cases call with
  | build call =>
    obtain ⟨⟨text, ev⟩, step, last⟩ := Option.bind_eq_some_iff.mp run
    cases last
    have le := ScText.length_exec step
    refine ⟨⟨_, resolved.exec step (ScCall.sorted_arcsOnly ok)⟩, recorded.sorted.exec step ok,
      fun pair mem => ?_, recorded.nodup⟩
    obtain ⟨left, right⟩ := recorded.inside pair mem
    exact ⟨Nat.lt_of_lt_of_le left le, Nat.lt_of_lt_of_le right le⟩
  | nonarc left con right =>
    rw [NonarcText.exec] at run
    split at run
    · next known =>
      obtain ⟨l, hl, run⟩ := Option.bind_eq_some_iff.mp run
      obtain ⟨r, hr, run⟩ := Option.bind_eq_some_iff.mp run
      have within := resolved.joined.real_lt known.1 hl
      have within' := resolved.joined.real_lt known.2 hr
      dsimp only at run
      generalize hnew : (if con &&& conDirMask = conDirLeft then (right, left) else (l, r)) = new
        at run
      have sides : new.1 < t.text.elems.length ∧ new.2 < t.text.elems.length := by
        rw [← hnew]
        split
        · exact ⟨known.2, known.1⟩
        · exact ⟨within, within'⟩
      split at run
      · cases run
      · split at run
        · cases run
          exact recorded
        · next absent =>
          cases run
          refine ⟨⟨h, resolved⟩, recorded.sorted, fun pair mem => ?_, ?_⟩
          · obtain mem | mem := List.mem_append.mp mem
            · exact recorded.inside pair mem
            · rw [List.mem_singleton] at mem
              exact mem ▸ sides
          · rw [List.nodup_append]
            refine ⟨recorded.nodup, List.nodup_singleton _, fun pair mem pair' mem' same => ?_⟩
            rw [List.mem_singleton] at mem'
            exact absent (mem' ▸ same ▸ mem)
    · cases run

variable {calls : List TextCall}

theorem run (recorded : t.Recorded) (ok : ∀ call ∈ calls, call.sorted = true)
    (run : t.run scan lax calls = some t') : t'.Recorded := by
  induction calls generalizing t with
  | nil =>
    cases run
    exact recorded
  | cons call calls ih =>
    obtain ⟨t₁, step, run⟩ := Option.bind_eq_some_iff.mp run
    exact ih (recorded.exec (ok call List.mem_cons_self) step)
      (fun call mem => ok call (List.mem_cons_of_mem _ mem)) run

theorem read (ok : ∀ call ∈ calls, call.sorted = true)
    (read : NonarcText.read scan lax calls = some t) : t.Recorded := by
  refine new.run (fun call mem => ?_) read
  obtain special | mem := List.mem_append.mp mem
  · obtain ⟨build, known, rfl⟩ := List.mem_map.mp special
    have all : ∀ call ∈ initSpecialNodes, call.sorted = true := by decide
    exact all build known
  · exact ok call mem

end NonarcText.Recorded

/-- By their real elements, the left side is an arc that ends at the right one, or the right side
is an arc that begins at the left one. -/
def Meets (t : ScText R) (l r : Ref) : Prop :=
  ∃ l' r' e f, t.getRealElement l = some l' ∧ t.getRealElement r = some r' ∧
    t.elems[l']? = some e ∧ t.elems[r']? = some f ∧
      (e.type &&& scArc ≠ 0 ∧ e.fin.bind t.getRealElement = some r' ∨
        f.type &&& scArc ≠ 0 ∧ f.beg.bind t.getRealElement = some l')

theorem meets_iff {t : ScText R} {pairs : List (Ref × Ref)} {l r : Ref} (going : Going pairs t)
    (mem : (l, r) ∈ pairs) : Meets t l r ↔ Settled t (l, r) := by
  obtain ⟨rootL, rootR⟩ := going.straight.real (l, r) mem
  have self {x : Ref} (root : t.aliasOf x = none) : t.getRealElement x = some x :=
    ScText.getRealElement_self root
  constructor
  · rintro ⟨l', r', e, f, hl, hr, he, hf, meets⟩
    rw [self rootL] at hl
    rw [self rootR] at hr
    cases hl
    cases hr
    obtain ⟨arc, ends⟩ | ⟨arc, begins⟩ := meets
    · obtain ⟨b, fin, real⟩ := Option.bind_eq_some_iff.mp ends
      rw [self (going.straight.ends (l, r) mem l e b (.inl rfl) he (.inr fin))] at real
      cases real
      exact .inl ⟨e, he, (isArc_iff (going.sorted l e he).fits).mp arc, fin⟩
    · obtain ⟨b, beg, real⟩ := Option.bind_eq_some_iff.mp begins
      rw [self (going.straight.ends (l, r) mem r f b (.inr rfl) hf (.inl beg))] at real
      cases real
      exact .inr ⟨f, hf, (isArc_iff (going.sorted r f hf).fits).mp arc, beg⟩
  · intro settled
    obtain ⟨⟨e, he⟩, f, hf⟩ := going.inside (l, r) mem
    refine ⟨l, r, e, f, self rootL, self rootR, he, hf, ?_⟩
    obtain ⟨e', he', arc, fin⟩ | ⟨f', hf', arc, beg⟩ := settled
    · rw [he] at he'
      cases he'
      refine .inl ⟨(isArc_iff (going.sorted l e he).fits).mpr arc, ?_⟩
      rw [fin, Option.bind_some, self rootR]
    · rw [hf] at hf'
      cases hf'
      refine .inr ⟨(isArc_iff (going.sorted r f hf).fits).mpr arc, ?_⟩
      rw [beg, Option.bind_some, self rootL]

/-- `x >- (a -> b);`. -/
def leftOfArc : List TextCall :=
  [.build (.addElFull (some [120]) 0 none none), .build (.addElFull (some [97]) 0 none none),
    .build (.addElFull (some [98]) 0 none none),
    .build (.addElFull none (scConst ||| scPos ||| scArc) (some 10) (some 11)), .nonarc 9 0x200 12]

/-- `x >- (a -> b); y = (c -> d); x = y;`. -/
def leftThatIsAlias : List TextCall :=
  leftOfArc ++ [.build (.addElFull (some [99]) 0 none none),
    .build (.addElFull (some [100]) 0 none none),
    .build (.addElFull none (scConst ||| scPos ||| scArc) (some 13) (some 14)),
    .build (.addAlias [121] 15), .build (.addElFull (some [121]) 0 none none),
    .build (.addAlias [120] 15)]

end ScCore.Scs
