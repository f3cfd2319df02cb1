import Mathlib.Data.List.Nodup

/-!
# Intrusive rings

Nodes that carry their own links forward and back. A ring consists of a head and
the entries of its list, and a node that is on no list is linked to itself.
-/

universe u v

/-- The links of all nodes. -/
structure Links (N : Type u) where
  next : N → N
  prev : N → N

namespace Links

variable {N : Type u}

@[ext]
theorem ext {r r' : Links N} (next : ∀ n, r.next n = r'.next n)
    (prev : ∀ n, r.prev n = r'.prev n) : r = r' := by
  cases r
  cases r'
  congr
  · exact funext next
  · exact funext prev

/-- Every node is linked to itself. -/
def alone : Links N := ⟨id, id⟩

section Operations

variable [DecidableEq N] (r : Links N)

def setNext (a b : N) : Links N := { r with next := Function.update r.next a b }

def setPrev (a b : N) : Links N := { r with prev := Function.update r.prev a b }

/-- Takes a node out of its ring and links it to itself. -/
def remove (n : N) : Links N :=
  let r := r.setNext (r.prev n) (r.next n)
  let r := r.setPrev (r.next n) (r.prev n)
  (r.setNext n n).setPrev n n

/-- Links a node in behind another. -/
def insertAfter (a n : N) : Links N :=
  let r := r.setPrev n a
  let r := r.setPrev (r.next a) n
  let r := r.setNext n (r.next a)
  r.setNext a n

@[simp]
theorem next_remove (n x : N) : (r.remove n).next x =
    if x = n then n else if x = r.prev n then r.next n else r.next x := by
  simp only [remove, setNext, setPrev, Function.update_apply]

@[simp]
theorem prev_remove (n x : N) : (r.remove n).prev x =
    if x = n then n else if x = r.next n then r.prev n else r.prev x := by
  simp only [remove, setNext, setPrev, Function.update_apply]
  split
  · rfl
  · simp

@[simp]
theorem next_insertAfter (a n x : N) : (r.insertAfter a n).next x =
    if x = a then n else if x = n then r.next a else r.next x := by
  simp only [insertAfter, setNext, setPrev, Function.update_apply]

@[simp]
theorem prev_insertAfter (a n x : N) : (r.insertAfter a n).prev x =
    if x = r.next a then n else if x = n then a else r.prev x := by
  simp only [insertAfter, setNext, setPrev, Function.update_apply]

end Operations

variable {r r' : Links N} {a b h n p s x y : N} {l l₁ l₂ : List N}

/-- One node follows another, in both directions. -/
def Linked (r : Links N) (x y : N) : Prop := r.next x = y ∧ r.prev y = x

/-- The entries of a list follow one another between two nodes. -/
def Path (r : Links N) : N → List N → N → Prop
  | a, [], b => r.Linked a b
  | a, n :: l, b => r.Linked a n ∧ Path r n l b

/-- A ring with its head, on which every node stands once. -/
structure Ring (r : Links N) (h : N) (l : List N) : Prop where
  nodup : (h :: l).Nodup
  path : r.Path h l h

theorem Path.imp (path : r.Path a l b)
    (imp : ∀ x ∈ a :: l, ∀ y ∈ l ++ [b], r.Linked x y → r'.Linked x y) : r'.Path a l b := by
  induction l generalizing a with
  | nil => exact imp a (by simp) b (by simp) path
  | cons n l ih =>
    refine ⟨imp a (by simp) n (by simp) path.1, ih path.2 ?_⟩
    intro x hx y hy
    exact imp x (List.mem_cons_of_mem _ hx) y (List.mem_cons_of_mem _ hy)

theorem path_append : r.Path a (l₁ ++ n :: l₂) b ↔ r.Path a l₁ n ∧ r.Path n l₂ b := by
  induction l₁ generalizing a with
  | nil => rfl
  | cons x l₁ ih =>
    change r.Linked a x ∧ r.Path x (l₁ ++ n :: l₂) b ↔ (r.Linked a x ∧ r.Path x l₁ n) ∧ _
    rw [ih, and_assoc]

theorem Path.last (path : r.Path a l b) : ∃ x ∈ a :: l, r.Linked x b := by
  induction l generalizing a with
  | nil => exact ⟨a, by simp, path⟩
  | cons n l ih =>
    obtain ⟨x, hx, linked⟩ := ih path.2
    exact ⟨x, List.mem_cons_of_mem _ hx, linked⟩

theorem Path.first (path : r.Path a l b) : ∃ y ∈ l ++ [b], r.Linked a y := by
  cases l with
  | nil => exact ⟨b, by simp, path⟩
  | cons n l => exact ⟨n, by simp, path.1⟩

theorem Ring.around (ring : r.Ring h l) (hn : n ∈ l) : ∃ p ∈ h :: l, ∃ s ∈ h :: l,
    r.Linked p n ∧ r.Linked n s ∧ p ≠ n ∧ s ≠ n := by
  obtain ⟨l₁, l₂, rfl⟩ := List.append_of_mem hn
  have nodup := ring.nodup
  rw [← List.cons_append, List.nodup_middle, List.nodup_cons] at nodup
  obtain ⟨before, after⟩ := path_append.mp ring.path
  obtain ⟨p, hp, linkedp⟩ := before.last
  obtain ⟨s, hs, linkeds⟩ := after.first
  have hp' : p ∈ h :: l₁ ++ l₂ := List.mem_append_left _ hp
  have hs' : s ∈ h :: l₁ ++ l₂ := by
    simp only [List.mem_append, List.mem_cons, List.not_mem_nil, or_false] at hs ⊢
    tauto
  have member : ∀ x ∈ h :: l₁ ++ l₂, x ∈ h :: (l₁ ++ n :: l₂) := by
    intro x hx
    simp only [List.mem_append, List.mem_cons] at hx ⊢
    tauto
  refine ⟨p, member p hp', s, member s hs', linkedp, linkeds, ?_, ?_⟩
  · rintro rfl
    exact nodup.1 hp'
  · rintro rfl
    exact nodup.1 hs'

theorem Ring.linked (ring : r.Ring h l) (hn : n ∈ h :: l) :
    (∃ p ∈ h :: l, r.Linked p n) ∧ ∃ s ∈ h :: l, r.Linked n s := by
  rcases List.mem_cons.mp hn with rfl | hn
  · obtain ⟨y, hy, linked⟩ := ring.path.first
    exact ⟨ring.path.last, y, by simpa [or_comm] using hy, linked⟩
  · obtain ⟨p, hp, s, hs, linkedp, linkeds, -⟩ := ring.around hn
    exact ⟨⟨p, hp, linkedp⟩, s, hs, linkeds⟩

theorem Ring.frame (ring : r.Ring h l)
    (same : ∀ n ∈ h :: l, r'.next n = r.next n ∧ r'.prev n = r.prev n) : r'.Ring h l := by
  refine ⟨ring.nodup, ring.path.imp ?_⟩
  intro x hx y hy linked
  have hy' : y ∈ h :: l := by simpa [or_comm] using hy
  exact ⟨(same x hx).1.trans linked.1, (same y hy').2.trans linked.2⟩

variable [DecidableEq N]

/-! ## Taking out -/

theorem Linked.remove (hp : r.Linked p n) (hs : r.Linked n s) (hxy : r.Linked x y)
    (hx : x ≠ n) (hy : y ≠ n) : (r.remove n).Linked x y := by
  have hxp : x ≠ r.prev n := by
    rintro rfl
    exact hy (hxy.1.symm.trans ((congrArg r.next hp.2).trans hp.1))
  have hys : y ≠ r.next n := by
    rintro rfl
    exact hx (hxy.2.symm.trans ((congrArg r.prev hs.1).trans hs.2))
  constructor
  · rw [next_remove, if_neg hx, if_neg hxp]
    exact hxy.1
  · rw [prev_remove, if_neg hy, if_neg hys]
    exact hxy.2

theorem Linked.remove_self (self : r.Linked n n) : r.remove n = r := by
  ext x
  · rw [next_remove, self.1, self.2]
    split
    · next same => rw [same, self.1]
    · rfl
  · rw [prev_remove, self.1, self.2]
    split
    · next same => rw [same, self.2]
    · rfl

theorem Linked.bridge (hp : r.Linked p n) (hs : r.Linked n s) (hpn : p ≠ n) (hsn : s ≠ n) :
    (r.remove n).Linked p s := by
  constructor
  · rw [next_remove, if_neg hpn, if_pos hp.2.symm]
    exact hs.1
  · rw [prev_remove, if_neg hsn, if_pos hs.1.symm]
    exact hp.2

theorem Path.remove (path : r.Path a (l₁ ++ n :: l₂) b) (before : n ∉ a :: l₁)
    (after : n ∉ l₂ ++ [b]) : (r.remove n).Path a (l₁ ++ l₂) b := by
  obtain ⟨left, right⟩ := path_append.mp path
  obtain ⟨p, -, hp⟩ := left.last
  obtain ⟨s, -, hs⟩ := right.first
  clear left right
  induction l₁ generalizing a with
  | nil =>
    have hpa : r.Linked a n := path.1
    have han : a ≠ n := fun same => before (by simp [same])
    cases l₂ with
    | nil => exact hpa.bridge path.2 han fun same => after (by simp [same])
    | cons s l₂ =>
      refine ⟨hpa.bridge path.2.1 han fun same => after (by simp [same]), ?_⟩
      apply path.2.2.imp
      intro x hx y hy hxy
      apply hp.remove hs hxy
      · rintro rfl
        exact after (List.mem_append_left _ hx)
      · rintro rfl
        exact after (List.mem_cons_of_mem _ hy)
  | cons x l₁ ih =>
    refine ⟨hp.remove hs path.1 ?_ ?_, ih path.2 fun hn => before (List.mem_cons_of_mem _ hn)⟩
    · rintro rfl
      exact before List.mem_cons_self
    · rintro rfl
      exact before (by simp)

theorem Ring.remove (ring : r.Ring h (l₁ ++ n :: l₂)) : (r.remove n).Ring h (l₁ ++ l₂) := by
  have nodup := ring.nodup
  rw [← List.cons_append, List.nodup_middle, List.nodup_cons] at nodup
  refine ⟨nodup.2, ring.path.remove ?_ ?_⟩
  · exact fun hn => nodup.1 (List.mem_append_left _ hn)
  · intro hn
    apply nodup.1
    simp only [List.mem_append, List.mem_cons] at hn ⊢
    tauto

theorem Ring.remove_other (ring : r.Ring h l) (hp : r.Linked p n) (hs : r.Linked n s)
    (hn : n ∉ h :: l) : (r.remove n).Ring h l := by
  refine ⟨ring.nodup, ring.path.imp ?_⟩
  intro x hx y hy hxy
  apply hp.remove hs hxy
  · rintro rfl
    exact hn hx
  · rintro rfl
    exact hn (by simpa [or_comm] using hy)

/-! ## Putting in -/

theorem Ring.insertAfter (ring : r.Ring h l) (hn : n ∉ h :: l) :
    (r.insertAfter h n).Ring h (n :: l) := by
  have hnh : n ≠ h := fun same => hn (by simp [same])
  have hnext : n ≠ r.next h := by
    obtain ⟨-, s, hs, linked⟩ := ring.linked (n := h) List.mem_cons_self
    rintro rfl
    exact hn (linked.1 ▸ hs)
  have first : (r.insertAfter h n).Linked h n := by simp [Linked, hnext]
  have second : (r.insertAfter h n).Linked n (r.next h) := by simp [Linked, hnh]
  refine ⟨?_, first, ?_⟩
  · rw [List.nodup_cons, List.mem_cons, not_or]
    have nodup := List.nodup_cons.mp ring.nodup
    refine ⟨⟨hnh.symm, nodup.1⟩, List.nodup_cons.mpr ⟨?_, nodup.2⟩⟩
    exact fun h => hn (List.mem_cons_of_mem _ h)
  · cases l with
    | nil =>
      have self : r.next h = h := ring.path.1
      rw [self] at second
      exact second
    | cons s l =>
      have hs : r.next h = s := ring.path.1.1
      rw [hs] at second
      refine ⟨second, ring.path.2.imp ?_⟩
      intro x hx y hy hxy
      have nodup := ring.nodup
      have hxh : x ≠ h := by
        rintro rfl
        exact (List.nodup_cons.mp nodup).1 hx
      have hxn : x ≠ n := by
        rintro rfl
        exact hn (List.mem_cons_of_mem _ hx)
      have hyn : y ≠ n := by
        rintro rfl
        exact hn (by simp only [List.mem_append, List.mem_cons] at hy ⊢; tauto)
      have hys : y ≠ s := by
        rintro rfl
        simp only [List.nodup_cons, List.mem_cons, not_or] at nodup
        simp only [List.mem_append, List.mem_singleton] at hy
        rcases hy with hy | rfl
        · exact nodup.2.1 hy
        · exact nodup.1.1 rfl
      constructor
      · simpa [hxh, hxn] using hxy.1
      · simpa [hs, hys, hyn] using hxy.2

theorem Ring.insertAfter_other (ring : r.Ring h l) (ha : a ∉ h :: l) (hs : r.Linked a s)
    (hn : n ∉ h :: l) : (r.insertAfter a n).Ring h l := by
  apply ring.frame
  intro x hx
  have hxa : x ≠ a := by
    rintro rfl
    exact ha hx
  have hxn : x ≠ n := by
    rintro rfl
    exact hn hx
  have hxs : x ≠ r.next a := by
    rintro rfl
    obtain ⟨⟨q, hq, linked⟩, -⟩ := ring.linked hx
    have same : q = a := linked.2.symm.trans ((congrArg r.prev hs.1).trans hs.2)
    exact ha (same ▸ hq)
  simp [hxa, hxn, hxs]

end Links

/-! ## Lists of entries -/

/-- The heads of the lists and what the lists hold. -/
inductive RingNode (H : Type u) (W : Type v) where
  | head (h : H)
  | entry (w : W)
  deriving DecidableEq, Repr

/-- Which entries each list holds, the last one put in first. -/
abbrev EntryLists (H : Type u) (W : Type v) := H → List W

namespace EntryLists

variable {H : Type u} {W : Type v} [DecidableEq W]

/-- No list holds anything. -/
def empty : EntryLists H W := fun _ => []

def leave (lists : EntryLists H W) (w : W) : EntryLists H W := fun h => (lists h).erase w

/-- An entry leaves the list on which it is for the head of another. -/
def enter [DecidableEq H] (lists : EntryLists H W) (h : H) (w : W) : EntryLists H W :=
  Function.update (lists.leave w) h (w :: lists.leave w h)

variable {lists : EntryLists H W} {h : H} {w : W}

theorem leave_of_out (out : ∀ h, w ∉ lists h) : lists.leave w = lists :=
  funext fun h => List.erase_of_not_mem (out h)

theorem enter_of_out [DecidableEq H] (out : ∀ h, w ∉ lists h) :
    lists.enter h w = Function.update lists h (w :: lists h) := by
  rw [enter, leave_of_out out]

end EntryLists

namespace Links

variable {H : Type u} {W : Type v}

/-- The links are those of the rings of all the lists, and an entry is on one list at
most. -/
structure Rings (r : Links (RingNode H W)) (lists : EntryLists H W) : Prop where
  ring : ∀ h, r.Ring (.head h) ((lists h).map .entry)
  apart : ∀ h h' w, w ∈ lists h → w ∈ lists h' → h = h'
  free : ∀ w, (∀ h, w ∉ lists h) → r.Linked (.entry w) (.entry w)

theorem Rings.alone : (Links.alone : Links (RingNode H W)).Rings EntryLists.empty where
  ring _ := ⟨by simp [EntryLists.empty], rfl, rfl⟩
  apart _ _ _ hw := by cases hw
  free _ _ := ⟨rfl, rfl⟩

section

variable {r : Links (RingNode H W)} {lists : EntryLists H W} {h h' : H} {w v : W}

theorem Rings.nodup (rings : r.Rings lists) (h : H) : (lists h).Nodup :=
  List.Nodup.of_map _ (List.nodup_cons.mp (rings.ring h).nodup).2

/-- `prev` tells whether an entry is on a list. -/
theorem Rings.prev_eq_iff (rings : r.Rings lists) :
    r.prev (.entry w) = .entry w ↔ ∀ h, w ∉ lists h := by
  constructor
  · intro self h hw
    obtain ⟨p, -, s, -, before, -, other, -⟩ :=
      (rings.ring h).around (List.mem_map_of_mem (f := RingNode.entry) hw)
    exact other (before.2.symm.trans self)
  · exact fun out => (rings.free w out).2

variable [DecidableEq H] [DecidableEq W]

theorem Rings.remove (rings : r.Rings lists) (w : W) :
    (r.remove (.entry w)).Rings (lists.leave w) := by
  by_cases out : ∀ h, w ∉ lists h
  · rw [(rings.free w out).remove_self, EntryLists.leave_of_out out]
    exact rings
  · rw [not_forall_not] at out
    obtain ⟨h, hw⟩ := out
    obtain ⟨p, -, s, -, hp, hs, -⟩ :=
      (rings.ring h).around (List.mem_map_of_mem (f := RingNode.entry) hw)
    refine ⟨?_, ?_, ?_⟩
    · intro h'
      by_cases same : h' = h
      · subst same
        obtain ⟨l₁, l₂, out, split, left⟩ := List.exists_erase_eq hw
        have ring := rings.ring h'
        rw [split, List.map_append, List.map_cons] at ring
        rw [EntryLists.leave, left, List.map_append]
        exact ring.remove
      · have out : w ∉ lists h' := fun hw' => same (rings.apart h' h w hw' hw)
        rw [EntryLists.leave, List.erase_of_not_mem out]
        exact (rings.ring h').remove_other hp hs (by simpa using out)
    · intro h₁ h₂ v hv hv'
      exact rings.apart h₁ h₂ v (List.mem_of_mem_erase hv) (List.mem_of_mem_erase hv')
    · intro v hv
      by_cases same : v = w
      · subst same
        simp [Linked]
      · have out : ∀ h, v ∉ lists h := fun h hv' =>
          hv h ((List.mem_erase_of_ne same).mpr hv')
        have ne : RingNode.entry v ≠ (.entry w : RingNode H W) := by simpa using same
        exact hp.remove hs (rings.free v out) ne ne

theorem Rings.insertAfter (rings : r.Rings lists) (out : ∀ h, w ∉ lists h) (h : H) :
    (r.insertAfter (.head h) (.entry w)).Rings (lists.enter h w) := by
  rw [EntryLists.enter_of_out out]
  obtain ⟨-, s, -, hs⟩ := (rings.ring h).linked List.mem_cons_self
  refine ⟨?_, ?_, ?_⟩
  · intro h'
    by_cases same : h' = h
    · subst same
      rw [Function.update_self, List.map_cons]
      exact (rings.ring h').insertAfter (by simpa using out h')
    · rw [Function.update_of_ne same]
      exact (rings.ring h').insertAfter_other (by simpa using Ne.symm same) hs
        (by simpa using out h')
  · have mem : ∀ h₁ v, v ∈ Function.update lists h (w :: lists h) h₁ →
        h₁ = h ∧ v = w ∨ v ∈ lists h₁ := by
      intro h₁ v hv
      by_cases same : h₁ = h
      · subst same
        rw [Function.update_self, List.mem_cons] at hv
        exact hv.imp_left fun hv => ⟨rfl, hv⟩
      · rw [Function.update_of_ne same] at hv
        exact .inr hv
    intro h₁ h₂ v hv hv'
    rcases mem h₁ v hv with ⟨rfl, rfl⟩ | old <;> rcases mem h₂ v hv' with ⟨rfl, same⟩ | old'
    · rfl
    · exact absurd old' (out h₂)
    · exact absurd old (same ▸ out h₁)
    · exact rings.apart h₁ h₂ v old old'
  · intro v hv
    have ne : v ≠ w := by
      rintro rfl
      apply hv h
      rw [Function.update_self]
      exact List.mem_cons_self
    have hout : ∀ h', v ∉ lists h' := by
      intro h' hv'
      apply hv h'
      by_cases same : h' = h
      · subst same
        rw [Function.update_self]
        exact List.mem_cons_of_mem _ hv'
      · rwa [Function.update_of_ne same]
    have self := rings.free v hout
    have hfirst : RingNode.entry v ≠ r.next (.head h) := by
      intro first
      have back : r.prev (.entry v) = .head h := by rw [first, hs.1, hs.2]
      rw [self.2] at back
      cases back
    constructor
    · simp [ne, self.1]
    · simp [ne, hfirst, self.2]

end

end Links
