import Mathlib.Algebra.Group.Nat.Defs
import Mathlib.Data.List.Flatten
import Mathlib.Data.List.Nodup
import Mathlib.Data.List.Range

/-!
# Allocator of blocks of one size

`fixallocer` hands out the blocks of the pages that `falloc_getpage` has got from `mmap`. The first
word of a free block is the address of the next one. The page of a block that is freed is found by
clearing bits of its address. No page is ever released.
-/

namespace ScCore.Store

def fallocPagesize : Nat := 4096 * 10

def sizeofPageHdr : Nat := 32

/-- `page_hdr`. -/
structure FixPage where
  addr : Nat
  freePlace : Nat
  freeBlocks : Nat

/-- `fixallocer`: the pages from `last_page` on, the first words of free blocks, and the blocks
that have been handed out and not been freed. -/
structure FixAllocer where
  pages : List FixPage
  word : Nat → Nat
  live : List Nat

/-- The page of the header that `free` looks for, a number of 32 bits. -/
def headerOf (block : Nat) : Nat :=
  (BitVec.ofNat 32 block &&& ~~~(BitVec.ofNat 32 (fallocPagesize - 1))).toNat

namespace FixAllocer

variable (size : Nat)

def blocksPerPage : Nat := (fallocPagesize - sizeofPageHdr) / size

/-- The offset of the first block, by `data_index`. -/
def dataOffs : Nat := (fallocPagesize - blocksPerPage size * size) / 8 * 8

/-- The loop of `init_page`, from the block `p` on. -/
def initBlocks (word : Nat → Nat) (p : Nat) : Nat → Nat → Nat
  | 0 => Function.update word p 0
  | i + 1 => initBlocks (Function.update word p (p + size)) (p + size) i

variable (a : FixAllocer)

/-- `add_page`; `mmap` gives the address. -/
def addPage (addr : Nat) : FixAllocer :=
  let first := addr + dataOffs size
  { a with
    pages := ⟨addr, first, blocksPerPage size⟩ :: a.pages
    word := initBlocks size a.word first (blocksPerPage size - 1) }

/-- The page at an address is written. -/
def modify (addr : Nat) (f : FixPage → FixPage) : List FixPage :=
  a.pages.map fun p => if p.addr = addr then f p else p

/-- What is behind `__do_alloc`. -/
def take (p : FixPage) : Nat × FixAllocer :=
  (p.freePlace, { a with
    pages := a.modify p.addr fun p =>
      { p with freePlace := a.word p.freePlace, freeBlocks := p.freeBlocks - 1 }
    live := p.freePlace :: a.live })

/-- `alloc`; `addr` is the page that `mmap` would give. -/
def alloc (addr : Nat) : Nat × FixAllocer :=
  match a.pages.find? fun p => p.freeBlocks ≠ 0 with
  | some p => a.take p
  | none => (a.addPage size addr).take ⟨addr, addr + dataOffs size, blocksPerPage size⟩

/-- `free`. Nothing stands for what is written where there is no header. -/
def free (block : Nat) : Option FixAllocer :=
  (a.pages.find? fun p => p.addr = headerOf block).map fun p =>
    { pages := a.modify p.addr fun p =>
        { p with freePlace := block, freeBlocks := p.freeBlocks + 1 }
      word := Function.update a.word block p.freePlace
      live := a.live.erase block }

/-- Blocks one after the other. -/
def row (first : Nat) : Nat → List Nat
  | 0 => [first]
  | n + 1 => first :: row (first + size) n

/-- The blocks of a page. -/
def blocks (addr : Nat) : List Nat := row size (addr + dataOffs size) (blocksPerPage size - 1)

/-- Memory that no page has. -/
def Fresh (addr : Nat) : Prop :=
  ∀ p ∈ a.pages, addr + fallocPagesize ≤ p.addr ∨ p.addr + fallocPagesize ≤ addr

/-- The bits that are cleared are not set in the address of the page, which is one of 32 bits, and
no others are set in the offset of the block. -/
def Finds (addr block : Nat) : Prop :=
  addr < 2 ^ 32 ∧ BitVec.ofNat 32 addr &&& BitVec.ofNat 32 (fallocPagesize - 1) = 0 ∧
    BitVec.ofNat 32 (block - addr) &&& ~~~(BitVec.ofNat 32 (fallocPagesize - 1)) = 0

/-- The states reached by allocations and by freeing blocks whose pages are found. -/
inductive Reached : FixAllocer → Prop where
  | new (word : Nat → Nat) : Reached ⟨[], word, []⟩
  | alloc {a : FixAllocer} {addr : Nat} :
      Reached a → a.Fresh addr → Reached (a.alloc size addr).2
  | free {a a' : FixAllocer} {block : Nat} : Reached a → block ∈ a.live →
      (∀ p ∈ a.pages, block ∈ blocks size p.addr → Finds p.addr block) →
      a.free block = some a' → Reached a'

/-- Blocks that do not overlap. -/
def Apart (b b' : Nat) : Prop := b + size ≤ b' ∨ b' + size ≤ b

/-- Live blocks do not overlap and are inside of pages that have not been released, and freeing
one of which the page can be found finds it. -/
structure Sound : Prop where
  apart : a.live.Pairwise (Apart size)
  inside : ∀ b ∈ a.live, ∃ p ∈ a.pages, b ∈ blocks size p.addr ∧
    p.addr + sizeofPageHdr ≤ b ∧ b + size ≤ p.addr + fallocPagesize
  header : ∀ b ∈ a.live, ∀ p ∈ a.pages, b ∈ blocks size p.addr → Finds p.addr b →
    headerOf b = p.addr ∧ (a.free b).isSome

/-- The free blocks of a page, in the order in which they are handed out. -/
def Chain (word : Nat → Nat) : Nat → List Nat → Prop
  | p, [] => p = 0
  | p, b :: bs => p = b ∧ Chain word (word b) bs

/-- The blocks of all pages are live, or free and in the chain of their page. -/
structure Inv (chains : Nat → List Nat) : Prop where
  apart : a.pages.Pairwise fun p q =>
    p.addr + fallocPagesize ≤ q.addr ∨ q.addr + fallocPagesize ≤ p.addr
  chain : ∀ p ∈ a.pages, Chain a.word p.freePlace (chains p.addr)
  count : ∀ p ∈ a.pages, p.freeBlocks = (chains p.addr).length
  perm : ((a.pages.flatMap fun p => chains p.addr) ++ a.live).Perm
    (a.pages.flatMap fun p => blocks size p.addr)
  within : ∀ p ∈ a.pages, chains p.addr ⊆ blocks size p.addr

variable {size a} {a' : FixAllocer} {word word' : Nat → Nat} {addr block first n b : Nat}
  {bs : List Nat} {chains : Nat → List Nat} {p q : FixPage}

/-! ## The page of a block -/

theorem and_not_of {x y m : BitVec 32} (hx : x &&& m = 0) (hy : y &&& ~~~m = 0) :
    x &&& y = 0 ∧ (x ||| y) &&& ~~~m = x := by
  have hbit : ∀ i : Nat, i < 32 → (x.getLsbD i && m.getLsbD i) = false ∧
      (y.getLsbD i && !m.getLsbD i) = false := by
    intro i hi
    have h1 := congrArg (·.getLsbD i) hx
    have h2 := congrArg (·.getLsbD i) hy
    simpa [hi] using And.intro h1 h2
  constructor
  · apply BitVec.eq_of_getLsbD_eq
    intro i hi
    have := hbit i hi
    simp
    grind
  · apply BitVec.eq_of_getLsbD_eq
    intro i hi
    have := hbit i hi
    simp [hi]
    grind

theorem headerOf_eq (h : Finds addr block) (le : addr ≤ block) : headerOf block = addr := by
  obtain ⟨small, haddr, hoffs⟩ := h
  obtain ⟨offs, rfl⟩ := Nat.exists_eq_add_of_le le
  rw [Nat.add_sub_cancel_left] at hoffs
  obtain ⟨hzero, hor⟩ := and_not_of haddr hoffs
  rw [headerOf, BitVec.ofNat_add, BitVec.add_eq_or_of_and_eq_zero _ _ hzero, hor,
    BitVec.toNat_ofNat, Nat.mod_eq_of_lt small]

/-! ## The blocks of a page -/

theorem mem_row (h : b ∈ row size first n) : first ≤ b ∧ b + size ≤ first + (n + 1) * size := by
  induction n generalizing first with
  | zero =>
      rw [List.mem_singleton.mp h, Nat.zero_add, Nat.one_mul]
      exact ⟨Nat.le_refl _, Nat.le_refl _⟩
  | succ n ih =>
      rw [Nat.succ_mul]
      rcases List.mem_cons.mp h with rfl | h
      · exact ⟨Nat.le_refl _, by omega⟩
      · have := ih h
        omega

theorem row_apart : (row size first n).Pairwise (Apart size) := by
  induction n generalizing first with
  | zero => exact List.pairwise_singleton ..
  | succ n ih => exact List.pairwise_cons.mpr ⟨fun b hb => .inl (mem_row hb).1, ih⟩

theorem length_row : (row size first n).length = n + 1 := by
  induction n generalizing first with
  | zero => rfl
  | succ n ih => rw [row, List.length_cons, ih]

theorem dataOffs_spec (pos : 0 < size) (fits : size + sizeofPageHdr ≤ fallocPagesize) :
    0 < blocksPerPage size ∧ sizeofPageHdr ≤ dataOffs size ∧
      dataOffs size + blocksPerPage size * size ≤ fallocPagesize := by
  have hle : blocksPerPage size * size ≤ fallocPagesize - sizeofPageHdr := Nat.div_mul_le_self ..
  have hpos : 0 < blocksPerPage size := Nat.div_pos (Nat.le_sub_of_add_le fits) pos
  rw [dataOffs]
  generalize blocksPerPage size * size = used at hle ⊢
  simp only [fallocPagesize, sizeofPageHdr] at hle ⊢
  omega

theorem mem_blocks (pos : 0 < size) (fits : size + sizeofPageHdr ≤ fallocPagesize)
    (h : b ∈ blocks size addr) :
    addr + sizeofPageHdr ≤ b ∧ b + size ≤ addr + fallocPagesize := by
  obtain ⟨hblocks, hoffs, hend⟩ := dataOffs_spec pos fits
  have hrow := mem_row h
  rw [Nat.sub_add_cancel hblocks] at hrow
  omega

theorem Chain.congr (chain : Chain word first bs) (same : ∀ b ∈ bs, word' b = word b) :
    Chain word' first bs := by
  induction bs generalizing first with
  | nil => exact chain
  | cons b bs ih =>
      obtain ⟨rfl, chain⟩ := chain
      exact ⟨rfl, (same first (.head _)).symm ▸ ih chain fun b hb => same b (.tail _ hb)⟩

theorem initBlocks_of_not_mem {x : Nat} (h : x ∉ row size first n) :
    initBlocks size word first n x = word x := by
  induction n generalizing word first with
  | zero => exact Function.update_of_ne (fun hx => h (List.mem_singleton.mpr hx)) _ _
  | succ n ih =>
      obtain ⟨hne, hrow⟩ := not_or.mp (mt List.mem_cons.mpr h)
      rw [initBlocks, ih hrow, Function.update_of_ne hne]

theorem chain_initBlocks (pos : 0 < size) :
    Chain (initBlocks size word first n) first (row size first n) := by
  induction n generalizing word first with
  | zero => exact ⟨rfl, Function.update_self ..⟩
  | succ n ih =>
      have hnot : first ∉ row size (first + size) n := fun h => by
        have := (mem_row h).1
        omega
      refine ⟨rfl, ?_⟩
      rw [initBlocks, initBlocks_of_not_mem hnot, Function.update_self]
      exact ih

/-! ## The steps -/

namespace Inv

section

variable (inv : a.Inv size chains)
include inv

theorem addr_nodup : (a.pages.map (·.addr)).Nodup := by
  refine List.pairwise_map.mpr (inv.apart.imp fun h heq => ?_)
  simp only [fallocPagesize] at h
  omega

theorem eq_of_addr (hp : p ∈ a.pages) (hq : q ∈ a.pages) (h : q.addr = p.addr) :
    q = p := List.inj_on_of_nodup_map inv.addr_nodup hq hp h

theorem all_apart (pos : 0 < size) (fits : size + sizeofPageHdr ≤ fallocPagesize) :
    ((a.pages.flatMap fun p => chains p.addr) ++ a.live).Pairwise (Apart size) := by
  refine (inv.perm.pairwise_iff fun h => Or.symm h).mpr (List.pairwise_flatMap.mpr ⟨?_, ?_⟩)
  · exact fun p hp => row_apart
  · refine inv.apart.imp fun {p q} h b hb b' hb' => ?_
    have := mem_blocks pos fits hb
    have := mem_blocks pos fits hb'
    rcases h with h | h
    · exact .inl (by omega)
    · exact .inr (by omega)

theorem change (hp : p ∈ a.pages) {f : FixPage → FixPage} {live : List Nat} (bs : List Nat)
    (addr : ∀ q, (f q).addr = q.addr) (chain : Chain word' (f p).freePlace bs)
    (count : (f p).freeBlocks = bs.length) (within : bs ⊆ blocks size p.addr)
    (same : ∀ q ∈ a.pages, q.addr ≠ p.addr → ∀ b ∈ chains q.addr, word' b = a.word b)
    (perm : (bs ++ live).Perm (chains p.addr ++ a.live)) :
    (⟨a.modify p.addr f, word', live⟩ : FixAllocer).Inv size
      (Function.update chains p.addr bs) := by
  have haddr : ∀ q : FixPage, (if q.addr = p.addr then f q else q).addr = q.addr := fun q => by
    split
    · exact addr q
    · rfl
  have hflat : ∀ G : Nat → List Nat, (a.modify p.addr f).flatMap (fun q => G q.addr) =
      a.pages.flatMap fun q => G q.addr := fun G => by
    rw [modify, List.flatMap_map]
    exact List.flatMap_congr fun q _ => congrArg G (haddr q)
  have hpages : ∀ q ∈ a.modify p.addr f, q.addr = p.addr ∧ q = f p ∨
      q.addr ≠ p.addr ∧ q ∈ a.pages := by
    intro q hq
    obtain ⟨q, hmem, rfl⟩ := List.mem_map.mp hq
    by_cases h : q.addr = p.addr
    · obtain rfl := inv.eq_of_addr hp hmem h
      exact .inl ⟨haddr q, if_pos rfl⟩
    · rw [if_neg h]
      exact .inr ⟨h, hmem⟩
  refine ⟨?_, ?_, ?_, ?_, ?_⟩
  · refine List.pairwise_map.mpr (inv.apart.imp fun {q q'} h => ?_)
    rwa [haddr, haddr]
  · intro q hq
    rcases hpages q hq with ⟨h, rfl⟩ | ⟨h, hmem⟩
    · rwa [h, Function.update_self]
    · rw [Function.update_of_ne h]
      exact (inv.chain q hmem).congr (same q hmem h)
  · intro q hq
    rcases hpages q hq with ⟨h, rfl⟩ | ⟨h, hmem⟩
    · rwa [h, Function.update_self]
    · rw [Function.update_of_ne h, inv.count q hmem]
  · change ((a.modify p.addr f).flatMap (fun q => Function.update chains p.addr bs q.addr) ++
      live).Perm ((a.modify p.addr f).flatMap fun q => blocks size q.addr)
    rw [hflat, hflat]
    refine List.Perm.trans ?_ inv.perm
    have hnodup := inv.addr_nodup
    obtain ⟨ps, qs, heq⟩ := List.append_of_mem hp
    rw [heq, List.map_append, List.map_cons, List.nodup_middle, List.nodup_cons,
      ← List.map_append] at hnodup
    have hothers : ∀ q ∈ ps ++ qs, Function.update chains p.addr bs q.addr = chains q.addr :=
      fun q hq => Function.update_of_ne
        (fun h : q.addr = p.addr => hnodup.1 (h ▸ List.mem_map_of_mem hq)) _ _
    rw [heq, List.flatMap_append, List.flatMap_append, List.flatMap_cons, List.flatMap_cons,
      Function.update_self,
      List.flatMap_congr fun q hq => hothers q (List.mem_append_left _ hq),
      List.flatMap_congr fun q hq => hothers q (List.mem_append_right _ hq)]
    refine List.perm_iff_count.mpr fun x => ?_
    have := perm.count_eq x
    simp only [List.count_append] at this ⊢
    omega
  · intro q hq
    rcases hpages q hq with ⟨h, rfl⟩ | ⟨h, hmem⟩
    · rwa [h, Function.update_self]
    · rw [Function.update_of_ne h]
      exact inv.within q hmem

theorem take (hp : p ∈ a.pages) (has : p.freeBlocks ≠ 0) :
    ∃ chains, (a.take p).2.Inv size chains := by
  have hcount := inv.count p hp
  have hchain := inv.chain p hp
  have hwithin := inv.within p hp
  cases hfree : chains p.addr with
  | nil => exact absurd (hcount.trans (congrArg List.length hfree)) has
  | cons b bs =>
      rw [hfree] at hcount hchain hwithin
      obtain ⟨hb, hchain⟩ := hchain
      refine ⟨_, inv.change hp bs (fun _ => rfl) ?_ ?_ ?_ (fun _ _ _ _ _ => rfl) ?_⟩
      · change Chain a.word (a.word p.freePlace) bs
        rwa [hb]
      · exact Nat.sub_eq_of_eq_add hcount
      · exact fun x hx => hwithin (.tail _ hx)
      · rw [hfree, hb]
        exact List.perm_middle

theorem addPage (pos : 0 < size) (fits : size + sizeofPageHdr ≤ fallocPagesize)
    (fresh : a.Fresh addr) :
    (a.addPage size addr).Inv size (Function.update chains addr (blocks size addr)) := by
  have hne : ∀ q ∈ a.pages, q.addr ≠ addr := fun q hq h => by
    have := fresh q hq
    simp only [fallocPagesize] at this
    omega
  refine ⟨List.pairwise_cons.mpr ⟨fresh, inv.apart⟩, ?_, ?_, ?_, ?_⟩
  · refine List.forall_mem_cons.mpr ⟨?_, fun q hq => ?_⟩
    · rw [Function.update_self]
      exact chain_initBlocks pos
    · rw [Function.update_of_ne (hne q hq)]
      refine (inv.chain q hq).congr fun b hb => initBlocks_of_not_mem fun h => ?_
      have := mem_blocks pos fits (inv.within q hq hb)
      have : addr + sizeofPageHdr ≤ b ∧ b + size ≤ addr + fallocPagesize := mem_blocks pos fits h
      have := fresh q hq
      omega
  · refine List.forall_mem_cons.mpr ⟨?_, fun q hq => ?_⟩
    · rw [Function.update_self, blocks, length_row, Nat.sub_add_cancel (dataOffs_spec pos fits).1]
    · rw [Function.update_of_ne (hne q hq), inv.count q hq]
  · change ((_ :: a.pages).flatMap _ ++ a.live).Perm ((_ :: a.pages).flatMap _)
    rw [List.flatMap_cons, List.flatMap_cons, List.append_assoc, Function.update_self,
      List.flatMap_congr fun q hq => Function.update_of_ne (hne q hq) _ _]
    exact inv.perm.append_left _
  · refine List.forall_mem_cons.mpr ⟨?_, fun q hq => ?_⟩
    · rw [Function.update_self]
      exact fun _ h => h
    · rw [Function.update_of_ne (hne q hq)]
      exact inv.within q hq

theorem alloc (pos : 0 < size) (fits : size + sizeofPageHdr ≤ fallocPagesize)
    (fresh : a.Fresh addr) :
    ∃ chains, (a.alloc size addr).2.Inv size chains := by
  rw [FixAllocer.alloc]
  split
  · next p hfind =>
      exact inv.take (List.mem_of_find?_eq_some hfind) (by simpa using List.find?_some hfind)
  · exact (inv.addPage pos fits fresh).take (.head _) (dataOffs_spec pos fits).1.ne'

theorem mem_page (hb : b ∈ a.live) : ∃ p ∈ a.pages, b ∈ blocks size p.addr :=
  List.mem_flatMap.mp (inv.perm.mem_iff.mp (List.mem_append_right _ hb))

section

variable (pos : 0 < size) (fits : size + sizeofPageHdr ≤ fallocPagesize)
include pos fits

theorem finds (hp : p ∈ a.pages) (hb : b ∈ blocks size p.addr) (found : Finds p.addr b) :
    headerOf b = p.addr ∧
      a.pages.find? (fun q => q.addr = headerOf b) = some p := by
  have hheader := headerOf_eq found (Nat.le_of_add_right_le (mem_blocks pos fits hb).1)
  obtain ⟨q, hfind⟩ := Option.isSome_iff_exists.mp (List.find?_isSome
    (p := fun q => decide (q.addr = headerOf b)) |>.mpr ⟨p, hp, decide_eq_true hheader.symm⟩)
  have haddr : q.addr = headerOf b := by simpa using List.find?_some hfind
  obtain rfl := inv.eq_of_addr hp (List.mem_of_find?_eq_some hfind) (haddr.trans hheader)
  exact ⟨hheader, hfind⟩

theorem free (live : block ∈ a.live)
    (found : ∀ p ∈ a.pages, block ∈ blocks size p.addr → Finds p.addr block)
    (h : a.free block = some a') : ∃ chains, a'.Inv size chains := by
  obtain ⟨p, hp, hblock⟩ := inv.mem_page live
  obtain ⟨-, hfind⟩ := inv.finds pos fits hp hblock (found p hp hblock)
  rw [FixAllocer.free, hfind] at h
  obtain rfl := Option.some.inj h
  have hnot : ∀ q ∈ a.pages, ∀ b ∈ chains q.addr, b ≠ block := by
    intro q hq b hb heq
    have happ := (List.pairwise_append.mp (inv.all_apart pos fits)).2.2 b
      (List.mem_flatMap.mpr ⟨q, hq, hb⟩) block live
    simp only [Apart] at happ
    omega
  refine ⟨_, inv.change hp (block :: chains p.addr) (fun _ => rfl) ?_ ?_ ?_ ?_ ?_⟩
  · refine ⟨rfl, ?_⟩
    rw [Function.update_self]
    exact (inv.chain p hp).congr fun b hb => Function.update_of_ne (hnot p hp b hb) _ _
  · exact congrArg (· + 1) (inv.count p hp)
  · exact List.cons_subset.mpr ⟨hblock, inv.within p hp⟩
  · exact fun q hq _ b hb => Function.update_of_ne (hnot q hq b hb) _ _
  · exact List.perm_middle.symm.trans ((List.perm_cons_erase live).symm.append_left _)

theorem sound : a.Sound size := by
  refine ⟨(List.pairwise_append.mp (inv.all_apart pos fits)).2.1, ?_, ?_⟩
  · intro b hb
    obtain ⟨p, hp, hblock⟩ := inv.mem_page hb
    exact ⟨p, hp, hblock, mem_blocks pos fits hblock⟩
  · intro b hb p hp hblock found
    obtain ⟨hheader, hfind⟩ := inv.finds pos fits hp hblock found
    exact ⟨hheader, by rw [FixAllocer.free, hfind]; rfl⟩

end

end

end Inv

theorem Reached.inv (pos : 0 < size) (fits : size + sizeofPageHdr ≤ fallocPagesize)
    (reached : Reached size a) : ∃ chains, a.Inv size chains := by
  induction reached with
  | new => exact ⟨fun _ => [], List.Pairwise.nil, nofun, nofun, .refl _, nofun⟩
  | alloc _ fresh ih =>
      obtain ⟨_, inv⟩ := ih
      exact inv.alloc pos fits fresh
  | free _ live found h ih =>
      obtain ⟨_, inv⟩ := ih
      exact inv.free pos fits live found h

end FixAllocer

end ScCore.Store
