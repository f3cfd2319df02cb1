import ScCore.Scp.CallProgram

/-!
# What a rollback takes back

The log says of each arc where it ended before the transaction, and the arcs that are new
go with the elements that are erased. What is reached by neither stays.
-/

namespace ScCore.Scp

variable {links : List Link} {m m' : ArcMemory} {t : Transacted} {n₀ : Addr}

def restoreEnds (log : List (Addr × Addr)) (links : List Link) : List Link :=
  log.foldr (fun entry links => setEnds links entry.1 entry.2) links

theorem setEnds_setEnds (arc a b : Addr) :
    setEnds (setEnds links arc a) arc b = setEnds links arc b := by
  rw [setEnds, setEnds, setEnds, List.map_map]
  apply List.map_congr_left
  intro l _
  by_cases heq : l.arc = arc
  · simp [heq]
  · simp [heq]

variable {arc fin : Addr} {l : Link} {log : List (Addr × Addr)}

theorem setEnds_self (h : ∀ l ∈ links, l.arc = arc → l.fin = fin) :
    setEnds links arc fin = links := by
  calc setEnds links arc fin = links.map id := by
        apply List.map_congr_left
        intro l hl
        by_cases heq : l.arc = arc
        · rw [if_pos heq, ← h l hl heq]
          rfl
        · rw [if_neg heq]
          rfl
    _ = links := List.map_id links

theorem setEnds_append (arc fin : Addr) (l : Link) (hne : l.arc ≠ arc) :
    setEnds (links ++ [l]) arc fin = setEnds links arc fin ++ [l] := by
  simp [setEnds, hne]

theorem mem_setEnds : l ∈ setEnds links arc fin ↔
    ∃ l' ∈ links, l = if l'.arc = arc then { l' with fin := fin } else l' := by
  simp [setEnds, eq_comm]

theorem arcs_setEnds (arc fin : Addr) :
    (setEnds links arc fin).map (·.arc) = links.map (·.arc) := by
  rw [setEnds, List.map_map]
  apply List.map_congr_left
  intro l _
  by_cases heq : l.arc = arc
  · simp [heq]
  · simp [heq]

theorem filter_setEnds (p : Link → Bool)
    (h : ∀ l ∈ links, l.arc = arc → p l = false ∧ p { l with fin := fin } = false) :
    (setEnds links arc fin).filter p = links.filter p := by
  induction links with
  | nil => rfl
  | cons l links ih =>
    have rest := ih fun l' hl' => h l' (List.mem_cons_of_mem _ hl')
    rw [setEnds, List.map_cons]
    by_cases heq : l.arc = arc
    · obtain ⟨hl, hset⟩ := h l List.mem_cons_self heq
      rw [if_pos heq, List.filter_cons_of_neg (by simp [hset]), List.filter_cons_of_neg
        (by simp [hl])]
      exact rest
    · rw [if_neg heq, List.filter_cons, List.filter_cons]
      split
      · exact congrArg _ rest
      · exact rest

theorem restoreEnds_append (log : List (Addr × Addr)) (arc fin : Addr) :
    restoreEnds (log ++ [(arc, fin)]) links = restoreEnds log (setEnds links arc fin) := by
  simp [restoreEnds]

theorem restoreEnds_new (h : ∀ entry ∈ log, entry.1 ≠ l.arc) :
    restoreEnds log (links ++ [l]) = restoreEnds log links ++ [l] := by
  induction log with
  | nil => rfl
  | cons entry log ih =>
    change setEnds (restoreEnds log (links ++ [l])) _ _ = setEnds (restoreEnds log links) _ _ ++ [l]
    rw [ih fun entry' hmem => h entry' (List.mem_cons_of_mem _ hmem)]
    exact setEnds_append _ _ _ (h entry List.mem_cons_self).symm

theorem mem_restoreEnds (hmem : l ∈ links) (h : ∀ entry ∈ log, entry.1 ≠ l.arc) :
    l ∈ restoreEnds log links := by
  induction log with
  | nil => exact hmem
  | cons entry log ih =>
    change l ∈ setEnds (restoreEnds log links) _ _
    apply mem_setEnds.mpr
    refine ⟨l, ih fun entry' hmem => h entry' (List.mem_cons_of_mem _ hmem), ?_⟩
    rw [if_neg (h entry List.mem_cons_self).symm]

theorem arcs_restoreEnds (log : List (Addr × Addr)) :
    (restoreEnds log links).map (·.arc) = links.map (·.arc) := by
  induction log with
  | nil => rfl
  | cons entry log ih =>
    change (setEnds (restoreEnds log links) _ _).map (·.arc) = _
    rw [arcs_setEnds, ih]

theorem rollback_eq (t : Transacted) : t.rollback = t.genedElems.reverse.foldl ArcMemory.eraseEl
    { t.memory with links := restoreEnds t.origEnd t.memory.links } := by
  have ends : ∀ (log : List (Addr × Addr)) (m : ArcMemory),
      log.foldr (fun entry m => m.setEnd entry.1 entry.2) m =
        { m with links := restoreEnds log m.links } := by
    intro log m
    induction log with
    | nil => rfl
    | cons entry log ih =>
      rw [List.foldr_cons, ih]
      rfl
  rw [← ends t.origEnd t.memory, ← List.foldl_reverse]
  rfl

section Doomed

variable {S : Addr → Prop} {dead : List Addr}

theorem doomed_subset (closed : ∀ l ∈ links, S l.beg ∨ S l.fin → S l.arc) (n : Nat) :
    ∀ dead : List Addr, (∀ a ∈ dead, S a) → ∀ a ∈ doomed links n dead, S a := by
  induction n with
  | zero => exact fun dead h => h
  | succ n ih =>
    intro dead h
    apply ih
    intro a ha
    rcases List.mem_append.mp ha with ha | ha
    · exact h a ha
    · obtain ⟨l, hl, rfl⟩ := List.mem_map.mp ha
      obtain ⟨hmem, hends⟩ := List.mem_filter.mp hl
      apply closed l hmem
      exact (of_decide_eq_true hends).imp (h _) (h _)

theorem doomed_self (n : Nat) : ∀ dead : List Addr, ∀ a ∈ dead, a ∈ doomed links n dead := by
  induction n with
  | zero => exact fun dead a ha => ha
  | succ n ih => exact fun dead a ha => ih _ a (List.mem_append_left _ ha)

theorem doomed_link {l : Link} {a : Addr} (hmem : l ∈ links) (h : l.beg = a ∨ l.fin = a) :
    l.arc ∈ doomed links links.length [a] := by
  obtain ⟨n, hn⟩ := Nat.exists_eq_succ_of_ne_zero (List.length_pos_of_mem hmem).ne'
  rw [hn]
  change l.arc ∈ doomed links n ([a] ++ _)
  apply doomed_self
  apply List.mem_append_right
  apply List.mem_map_of_mem
  apply List.mem_filter.mpr
  exact ⟨hmem, by simpa using h⟩

end Doomed

def OldEnds (n₀ : Addr) (links : List Link) : Prop :=
  ∀ l ∈ links, l.arc < n₀ → l.beg < n₀ ∧ l.fin < n₀

def OldValues (n₀ : Addr) (c : ScpCache) : Prop :=
  ∀ i x entry, c.data.slots i = some (x, entry) → entry.value < n₀

theorem doomed_new (old : OldEnds n₀ links) {a : Addr} (ha : n₀ ≤ a) (n : Nat) :
    ∀ b ∈ doomed links n [a], n₀ ≤ b := by
  apply doomed_subset
  · intro l hl hends
    apply Nat.le_of_not_lt
    intro hlt
    obtain ⟨hbeg, hfin⟩ := old l hl hlt
    rcases hends with h | h
    · exact Nat.not_lt_of_le h hbeg
    · exact Nat.not_lt_of_le h hfin
  · intro b hb
    rwa [List.mem_singleton.mp hb]

structure ErasedNew (n₀ : Addr) (gone : List Addr) (m m' : ArcMemory) : Prop where
  links : ∀ l ∈ m'.links, l ∈ m.links ∧ l.beg ∉ gone ∧ l.fin ∉ gone
  old : m'.links.filter (fun l => l.arc < n₀) = m.links.filter fun l => l.arc < n₀
  caches : ∀ v c, m.caches v = some c → OldValues n₀ c → m'.caches v = some c
  uncached : ∀ v, m.caches v = none → m'.caches v = none

theorem ErasedNew.eraseEl (old : OldEnds n₀ m.links) {a : Addr} (ha : n₀ ≤ a) :
    ErasedNew n₀ [a] m (m.eraseEl a) := by
  constructor
  · intro l hl
    obtain ⟨hmem, harc⟩ := List.mem_filter.mp hl
    have alive : l.arc ∉ doomed m.links m.links.length [a] := of_decide_eq_true harc
    refine ⟨hmem, ?_, ?_⟩
    · exact fun h => alive (doomed_link hmem (.inl (List.mem_singleton.mp h)))
    · exact fun h => alive (doomed_link hmem (.inr (List.mem_singleton.mp h)))
  · change (m.links.filter _).filter _ = _
    rw [List.filter_filter]
    apply List.filter_congr
    intro l _
    by_cases hlt : l.arc < n₀
    · have alive : l.arc ∉ doomed m.links m.links.length [a] := fun h =>
        Nat.not_lt_of_le (doomed_new old ha _ _ h) hlt
      simp [hlt, alive]
    · simp [hlt]
  · intro v c hc hold
    change (m.caches v).map _ = some c
    rw [hc, Option.map_some, DirectMapped.drop_of_forall]
    intro i entry hentry
    apply decide_eq_false
    intro h
    exact Nat.not_lt_of_le (doomed_new old ha _ _ h) (hold i entry.1 entry.2 hentry)
  · intro v hv
    change (m.caches v).map _ = none
    rw [hv, Option.map_none]

theorem ErasedNew.eraseAll (gone : List Addr) (hgone : ∀ a ∈ gone, n₀ ≤ a) :
    ∀ m : ArcMemory, OldEnds n₀ m.links → ErasedNew n₀ gone m (gone.foldl ArcMemory.eraseEl m) := by
  induction gone with
  | nil =>
    intro m _
    exact ⟨fun l hl => ⟨hl, List.not_mem_nil, List.not_mem_nil⟩, rfl, fun _ _ h _ => h, fun _ h =>
      h⟩
  | cons a gone ih =>
    intro m old
    have first := ErasedNew.eraseEl old (hgone a List.mem_cons_self)
    have old' : OldEnds n₀ (m.eraseEl a).links := fun l hl => old l (first.links l hl).1
    have rest := ih (fun b hb => hgone b (List.mem_cons_of_mem _ hb)) _ old'
    constructor
    · intro l hl
      obtain ⟨hmid, hbeg, hfin⟩ := rest.links l hl
      obtain ⟨hmem, hbeg', hfin'⟩ := first.links l hmid
      refine ⟨hmem, ?_, ?_⟩
      · rw [List.mem_cons, not_or]
        exact ⟨fun h => hbeg' (List.mem_singleton.mpr h), hbeg⟩
      · rw [List.mem_cons, not_or]
        exact ⟨fun h => hfin' (List.mem_singleton.mpr h), hfin⟩
    · exact rest.old.trans first.old
    · exact fun v c hc hold => rest.caches v c (first.caches v c hc hold) hold
    · exact fun v hv => rest.uncached v (first.uncached v hv)

theorem mem_eraseAll (gone : List Addr) (hbeg : l.beg ∉ gone) (hfin : l.fin ∉ gone)
    (harc : l.arc ∉ gone) :
    ∀ m : ArcMemory, l ∈ m.links → (∀ l' ∈ m.links, l'.arc = l.arc → l' = l) →
    (∀ l' ∈ m.links, l'.arc ≠ l.beg ∧ l'.arc ≠ l.fin) →
    l ∈ (gone.foldl ArcMemory.eraseEl m).links := by
  induction gone with
  | nil => exact fun m hmem _ _ => hmem
  | cons a gone ih =>
    intro m hmem alone nodes
    rw [List.mem_cons, not_or] at hbeg hfin harc
    have alive : l.arc ∉ doomed m.links m.links.length [a] := by
      intro h
      apply doomed_subset (S := fun b => b ≠ l.arc ∧ b ≠ l.beg ∧ b ≠ l.fin) _ _ _ _ _ h |>.1 rfl
      · intro l' hl' hends
        refine ⟨fun heq => ?_, (nodes l' hl').1, (nodes l' hl').2⟩
        rw [alone l' hl' heq] at hends
        rcases hends with h | h
        · exact h.2.1 rfl
        · exact h.2.2 rfl
      · intro b hb
        rw [List.mem_singleton.mp hb]
        exact ⟨harc.1 ∘ Eq.symm, hbeg.1 ∘ Eq.symm, hfin.1 ∘ Eq.symm⟩
    have sub : ∀ l' ∈ (m.eraseEl a).links, l' ∈ m.links := fun l' h => (List.mem_filter.mp h).1
    apply ih hbeg.2 hfin.2 harc.2
    · exact List.mem_filter.mpr ⟨hmem, decide_eq_true alive⟩
    · exact fun l' hl' => alone l' (sub l' hl')
    · exact fun l' hl' => nodes l' (sub l' hl')

end ScCore.Scp
