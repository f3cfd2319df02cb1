import ScCore.Tgf.Allocator

/-!
# Blocks of the arena

The blocks that `tgf_allocator_alloc` hands out, with the memory of their pages. The free offset
is rounded up before it is compared with the size of the page by a subtraction of unsigned
numbers, which wraps around when the page ends below the next multiple of the alignment.
-/

namespace ScCore.Tgf

open TgfAllocator

structure TgfBlock where
  addr : Nat
  size : Nat
  deriving DecidableEq

/-- `tgf_page`: the `room` bytes of memory from `base` on, the `size` that is noted in them, and
the blocks that have been cut from it. -/
structure TgfPage where
  base : Nat
  room : Nat
  size : BitVec 64
  blocks : List TgfBlock

/-- `tgf_allocator`, with its current page first. -/
structure Arena where
  chunkSize : BitVec 32
  pages : List TgfPage
  freeOffs : BitVec 32

namespace Arena

variable (a : Arena)

def allocator : TgfAllocator := ⟨a.chunkSize, a.pages.head?.map (·.size), a.freeOffs⟩

/-- A block is cut from the page `p` at `offs`. -/
def cut (p : TgfPage) (rest : List TgfPage) (offs : BitVec 32) (size : BitVec 64) :
    Option Nat × Arena :=
  let ptr := p.base + offs.toNat
  (some ptr, { a with
    pages := { p with blocks := ⟨ptr, size.toNat⟩ :: p.blocks } :: rest
    freeOffs := offs + size.setWidth 32 })

/-- The bytes that `malloc` is asked for: `alloc_a4k` has an `int` for their number. -/
def asked (size : BitVec 64) : Nat :=
  let page := a.allocator.newPage size (allignUp sizeofPage (allign size))
  ((page.setWidth 32).signExtend 64).toNat

/-- What is behind `__add_page`; `malloc` is its answer. -/
def addPage (size : BitVec 64) (malloc : Option Nat) : Option Nat × Arena :=
  let allignment := allignUp sizeofPage (allign size)
  match malloc with
  | none => (none, a)
  | some base =>
      a.cut ⟨base, a.asked size, a.allocator.newPage size allignment, []⟩ a.pages allignment size

def alloc (size : BitVec 64) (malloc : Option Nat) : Option Nat × Arena :=
  match a.pages with
  | [] => a.addPage size malloc
  | page :: rest =>
      let offs := allignUp a.freeOffs (allign size)
      let a := { a with freeOffs := offs }
      if page.size - offs.setWidth 64 < size then a.addPage size malloc
      else a.cut page rest offs size

/-- `tgf_allocator_free_all`: the oldest page stays, and nothing in it. -/
def freeAll : Arena :=
  match a.pages.getLast? with
  | none => a
  | some page => { a with pages := [{ page with blocks := [] }], freeOffs := sizeofPage }

def blocks : List TgfBlock := a.pages.flatMap (·.blocks)

/-- An answer of `malloc`: no memory, or memory for a page that no other page has. -/
def Serves (size : BitVec 64) (malloc : Option Nat) : Prop :=
  ∀ base, malloc = some base → base % 16 = 0 ∧ base + a.asked size ≤ 2 ^ 63 ∧
    ∀ p ∈ a.pages, base + a.asked size ≤ p.base ∨ p.base + p.room ≤ base

/-- The size and that of a page are numbers of 32 bits, and the current page does not end before
the multiple of the alignment at which the block would be put. -/
def Fits (size : BitVec 64) : Prop :=
  size.toNat + 16 < 2 ^ 32 ∧
    ∀ p ∈ a.pages.head?, (allignUp a.freeOffs (allign size)).toNat ≤ p.size.toNat

end Arena

def TgfBlock.Apart (b b' : TgfBlock) : Prop :=
  b.addr + b.size ≤ b'.addr ∨ b'.addr + b'.size ≤ b.addr

def TgfBlock.Alligned (b : TgfBlock) : Prop :=
  b.addr % (if 16 ≤ b.size then 16 else if 8 ≤ b.size then 8 else 4) = 0

def TgfPage.Has (p : TgfPage) (b : TgfBlock) : Prop :=
  p.base + sizeofPage.toNat ≤ b.addr ∧ b.addr + b.size ≤ p.base + p.room

structure Arena.Sound (a : Arena) : Prop where
  disjoint : a.blocks.Pairwise TgfBlock.Apart
  alligned : ∀ b ∈ a.blocks, b.Alligned
  inside : ∀ p ∈ a.pages, ∀ b ∈ p.blocks, p.Has b

/-- The arenas reached from a new one by allocations of blocks that fit. -/
inductive Arena.Reached : Arena → Prop where
  | new (chunkSize freeOffs : BitVec 32) : Reached ⟨chunkSize, [], freeOffs⟩
  | alloc {a : Arena} {size : BitVec 64} {malloc : Option Nat} :
      Reached a → a.Fits size → a.Serves size malloc → Reached (a.alloc size malloc).2
  | freeAll {a : Arena} : Reached a → Reached a.freeAll

structure TgfPage.Ok (p : TgfPage) : Prop where
  base : p.base % 16 = 0
  size : p.size.toNat = p.room
  small : p.room < 2 ^ 31
  header : 16 ≤ p.room
  disjoint : p.blocks.Pairwise TgfBlock.Apart
  alligned : ∀ b ∈ p.blocks, b.Alligned
  inside : ∀ b ∈ p.blocks, p.Has b

namespace Arena

structure Inv (a : Arena) : Prop where
  pages : ∀ p ∈ a.pages, p.Ok
  apart : a.pages.Pairwise fun p q => p.base + p.room ≤ q.base ∨ q.base + q.room ≤ p.base
  offs : ∀ p ∈ a.pages.head?, 16 ≤ a.freeOffs.toNat ∧ a.freeOffs.toNat ≤ p.room ∧
    ∀ b ∈ p.blocks, b.addr + b.size ≤ p.base + a.freeOffs.toNat

variable {a : Arena} {size : BitVec 64} {malloc : Option Nat}

theorem mask_toNat (x : BitVec 32) (k : Nat) :
    (x &&& ~~~(BitVec.ofNat 32 (2 ^ k - 1))).toNat = x.toNat / 2 ^ k * 2 ^ k := by
  have hshift : x &&& ~~~(BitVec.ofNat 32 (2 ^ k - 1)) = x >>> k <<< k := by
    apply BitVec.eq_of_getLsbD_eq
    intro i hi
    rw [BitVec.getLsbD_and, BitVec.getLsbD_not, BitVec.getLsbD_ofNat, Nat.testBit_two_pow_sub_one,
      BitVec.getLsbD_shiftLeft, BitVec.getLsbD_ushiftRight]
    by_cases hik : i < k
    · simp [hik]
    · simp [hik, hi, Nat.add_sub_cancel' (Nat.le_of_not_lt hik)]
  rw [hshift, BitVec.toNat_shiftLeft, BitVec.toNat_ushiftRight, Nat.shiftLeft_eq,
    Nat.shiftRight_eq_div_pow]
  exact Nat.mod_eq_of_lt (Nat.lt_of_le_of_lt (Nat.div_mul_le_self ..) x.isLt)

theorem allign_eq (size : BitVec 64) : ∃ k, k ≤ 4 ∧ allign size = BitVec.ofNat 32 (2 ^ k - 1) ∧
    2 ^ k = if 16 ≤ size.toNat then 16 else if 8 ≤ size.toNat then 8 else 4 := by
  unfold allign
  split
  · exact ⟨4, by decide, rfl, rfl⟩
  · split
    · exact ⟨3, by decide, rfl, rfl⟩
    · exact ⟨2, by decide, rfl, rfl⟩

theorem allignUp_sizeofPage (size : BitVec 64) : allignUp sizeofPage (allign size) = 16#32 := by
  unfold allign
  split
  · rfl
  · split <;> rfl

/-- Rounding up gives a multiple of the alignment, and what is added to the address of a page is
such a multiple in memory. -/
theorem allignUp_spec {offs : BitVec 32} (size : BitVec 64) (small : offs.toNat + 15 < 2 ^ 32) :
    offs.toNat ≤ (allignUp offs (allign size)).toNat ∧ ∀ base, base % 16 = 0 →
      TgfBlock.Alligned ⟨base + (allignUp offs (allign size)).toNat, size.toNat⟩ := by
  obtain ⟨k, hk, heq, hpow⟩ := allign_eq size
  have hle : 2 ^ k ≤ 16 := Nat.pow_le_pow_right (by decide) hk
  have hpos : 0 < 2 ^ k := Nat.two_pow_pos k
  have hmask : (BitVec.ofNat 32 (2 ^ k - 1)).toNat = 2 ^ k - 1 := by
    rw [BitVec.toNat_ofNat]
    omega
  have hup : (allignUp offs (allign size)).toNat =
      (offs.toNat + (2 ^ k - 1)) / 2 ^ k * 2 ^ k := by
    rw [heq, allignUp, mask_toNat, BitVec.toNat_add, hmask, Nat.mod_eq_of_lt (by omega)]
  constructor
  · have hdiv := Nat.div_add_mod (offs.toNat + (2 ^ k - 1)) (2 ^ k)
    have hmod := Nat.mod_lt (offs.toNat + (2 ^ k - 1)) hpos
    rw [hup, Nat.mul_comm]
    omega
  · intro base hbase
    have hdvd : 2 ^ k ∣ base :=
      Nat.dvd_trans (pow_dvd_pow 2 hk : 2 ^ k ∣ 2 ^ 4) (Nat.dvd_of_mod_eq_zero hbase)
    change (base + _) % (if 16 ≤ size.toNat then 16 else if 8 ≤ size.toNat then 8 else 4) = 0
    rw [hup, ← hpow]
    exact Nat.mod_eq_zero_of_dvd (Nat.dvd_add hdvd (Nat.dvd_mul_left ..))

theorem Inv.cut {p : TgfPage} {rest : List TgfPage} {offs : BitVec 32} (ok : p.Ok)
    (others : ∀ q ∈ rest, q.Ok)
    (apart : (p :: rest).Pairwise fun p q => p.base + p.room ≤ q.base ∨ q.base + q.room ≤ p.base)
    (header : 16 ≤ offs.toNat) (fits : offs.toNat + size.toNat ≤ p.room)
    (alligned : TgfBlock.Alligned ⟨p.base + offs.toNat, size.toNat⟩)
    (behind : ∀ b ∈ p.blocks, b.addr + b.size ≤ p.base + offs.toNat) :
    (a.cut p rest offs size).2.Inv := by
  have hroom := ok.small
  have hoffs : (offs + size.setWidth 32).toNat = offs.toNat + size.toNat := by
    rw [BitVec.toNat_add, BitVec.toNat_setWidth]
    omega
  have hhas : p.Has ⟨p.base + offs.toNat, size.toNat⟩ :=
    ⟨Nat.add_le_add_left header _, (Nat.add_assoc ..).trans_le (Nat.add_le_add_left fits _)⟩
  refine ⟨?_, ?_, ?_⟩
  · refine List.forall_mem_cons.mpr ⟨⟨ok.base, ok.size, ok.small, ok.header, ?_, ?_, ?_⟩, others⟩
    · exact List.pairwise_cons.mpr ⟨fun b hb => .inr (behind b hb), ok.disjoint⟩
    · exact List.forall_mem_cons.mpr ⟨alligned, ok.alligned⟩
    · exact List.forall_mem_cons.mpr ⟨hhas, ok.inside⟩
  · exact List.pairwise_cons.mpr (List.pairwise_cons.mp apart)
  · rintro _ ⟨⟩
    change 16 ≤ (offs + size.setWidth 32).toNat ∧ (offs + size.setWidth 32).toNat ≤ p.room ∧
      ∀ b ∈ _ :: p.blocks, b.addr + b.size ≤ p.base + (offs + size.setWidth 32).toNat
    rw [hoffs]
    refine ⟨Nat.le_add_right_of_le header, fits, List.forall_mem_cons.mpr ⟨?_, ?_⟩⟩
    · exact Nat.le_of_eq (Nat.add_assoc ..)
    · intro b hb
      have := behind b hb
      omega

theorem signExtend_small {page : BitVec 64} (small : page.toNat < 2 ^ 32)
    (given : ((page.setWidth 32).signExtend 64).toNat ≤ 2 ^ 63) :
    ((page.setWidth 32).signExtend 64).toNat = page.toNat ∧ page.toNat < 2 ^ 31 := by
  have hwidth : (page.setWidth 32).toNat = page.toNat := by
    rw [BitVec.toNat_setWidth, Nat.mod_eq_of_lt small]
  have hback : ((page.setWidth 32).setWidth 64).toNat = page.toNat := by
    rw [BitVec.toNat_setWidth, hwidth, Nat.mod_eq_of_lt page.isLt]
  rw [BitVec.toNat_signExtend, hback, BitVec.msb_eq_decide, hwidth] at given ⊢
  by_cases hmsb : 2 ^ 31 ≤ page.toNat
  · rw [if_pos (decide_eq_true hmsb)] at given
    omega
  · rw [if_neg (by simpa using hmsb)]
    exact ⟨rfl, Nat.lt_of_not_le hmsb⟩

theorem newPage_toNat (small : size.toNat + 16 < 2 ^ 32) :
    (a.allocator.newPage size 16#32).toNat < 2 ^ 32 ∧
      size.toNat + 16 ≤ (a.allocator.newPage size 16#32).toNat := by
  have hsum : (size + BitVec.setWidth 64 16#32).toNat = size.toNat + 16 := by
    rw [BitVec.toNat_add]
    exact Nat.mod_eq_of_lt (by change size.toNat + 16 < _; omega)
  have hchunk : (a.allocator.chunkSize.setWidth 64).toNat = a.allocator.chunkSize.toNat :=
    BitVec.toNat_setWidth_of_le (by decide)
  rw [newPage]
  split
  · next hlt =>
      rw [BitVec.lt_def, hsum] at hlt
      exact ⟨hchunk ▸ a.allocator.chunkSize.isLt, hlt.le⟩
  · rw [hsum]
    exact ⟨small, Nat.le_refl _⟩

theorem Inv.addPage (inv : a.Inv) (small : size.toNat + 16 < 2 ^ 32)
    (serves : a.Serves size malloc) : (a.addPage size malloc).2.Inv := by
  cases malloc with
  | none => exact inv
  | some base =>
      obtain ⟨hbase, hend, hothers⟩ := serves base rfl
      obtain ⟨hlt, hle⟩ := newPage_toNat (a := a) small
      have hasked : a.asked size =
          (((a.allocator.newPage size 16#32).setWidth 32).signExtend 64).toNat := by
        rw [asked, allignUp_sizeofPage]
      obtain ⟨hroom, hsmall⟩ := signExtend_small hlt (by omega)
      rw [← hasked] at hroom
      rw [Arena.addPage, allignUp_sizeofPage]
      apply Inv.cut
      · refine ⟨hbase, hroom.symm, hroom ▸ hsmall, ?_, List.Pairwise.nil, nofun, nofun⟩
        change 16 ≤ a.asked size
        omega
      · exact inv.pages
      · exact List.pairwise_cons.mpr ⟨hothers, inv.apart⟩
      · exact Nat.le_refl _
      · change 16 + size.toNat ≤ a.asked size
        omega
      · have hup := (@allignUp_spec sizeofPage size (by decide)).2 base hbase
        rwa [allignUp_sizeofPage] at hup
      · nofun

theorem Inv.alloc (inv : a.Inv) (fits : a.Fits size) (serves : a.Serves size malloc) :
    (a.alloc size malloc).2.Inv := by
  obtain ⟨chunkSize, pages, freeOffs⟩ := a
  cases pages with
  | nil => exact inv.addPage fits.1 serves
  | cons page rest =>
      obtain ⟨hheader, hroom, hblocks⟩ := inv.offs page rfl
      obtain ⟨ok, others⟩ := List.forall_mem_cons.mp inv.pages
      have hsmall := ok.small
      obtain ⟨hup, halligned⟩ := @allignUp_spec freeOffs size (by
        change freeOffs.toNat ≤ page.room at hroom
        omega)
      have hoffs : (allignUp freeOffs (allign size)).toNat ≤ page.size.toNat := fits.2 page rfl
      have hwidth : ((allignUp freeOffs (allign size)).setWidth 64).toNat =
          (allignUp freeOffs (allign size)).toNat := BitVec.toNat_setWidth_of_le (by decide)
      change 16 ≤ freeOffs.toNat at hheader
      have behind : ∀ b ∈ page.blocks,
          b.addr + b.size ≤ page.base + (allignUp freeOffs (allign size)).toNat := fun b hb =>
        (hblocks b hb).trans (Nat.add_le_add_left hup _)
      rw [Arena.alloc]
      dsimp only
      split
      · refine Inv.addPage ⟨inv.pages, inv.apart, ?_⟩ fits.1 serves
        rintro _ ⟨⟩
        exact ⟨hheader.trans hup, hoffs.trans_eq ok.size, behind⟩
      · next hfits =>
          refine Inv.cut ok others inv.apart (hheader.trans hup) ?_ (halligned _ ok.base) behind
          rw [BitVec.lt_def, BitVec.toNat_sub_of_le (by rw [BitVec.le_def, hwidth]; exact hoffs),
            hwidth] at hfits
          have := ok.size
          omega

theorem Inv.freeAll (inv : a.Inv) : a.freeAll.Inv := by
  rw [Arena.freeAll]
  cases hlast : a.pages.getLast? with
  | none => exact inv
  | some page =>
      have ok := inv.pages page (List.mem_of_getLast? hlast)
      refine ⟨?_, List.pairwise_singleton _ _, ?_⟩
      · rintro _ (_ | ⟨_, ⟨⟩⟩)
        exact ⟨ok.base, ok.size, ok.small, ok.header, List.Pairwise.nil, nofun, nofun⟩
      · rintro _ ⟨⟩
        exact ⟨Nat.le_refl _, ok.header, nofun⟩

theorem Reached.inv (reached : a.Reached) : a.Inv := by
  induction reached with
  | new => exact ⟨nofun, List.Pairwise.nil, nofun⟩
  | alloc _ fits serves ih => exact ih.alloc fits serves
  | freeAll _ ih => exact ih.freeAll

theorem Inv.sound (inv : a.Inv) : a.Sound := by
  refine ⟨?_, ?_, fun p hp => (inv.pages p hp).inside⟩
  · refine List.pairwise_flatMap.mpr ⟨fun p hp => (inv.pages p hp).disjoint, ?_⟩
    refine inv.apart.imp_of_mem fun {p q} hp hq happ b hb b' hb' => ?_
    have hin := (inv.pages p hp).inside b hb
    have hin' := (inv.pages q hq).inside b' hb'
    rcases happ with happ | happ
    · exact .inl (hin.2.trans (happ.trans (Nat.le_of_add_right_le hin'.1)))
    · exact .inr (hin'.2.trans (happ.trans (Nat.le_of_add_right_le hin.1)))
  · intro b hb
    obtain ⟨p, hp, hb⟩ := List.mem_flatMap.mp hb
    exact (inv.pages p hp).alligned b hb

/-- Where every block fits and `malloc` keeps its promise, the blocks between two calls of
`tgf_allocator_free_all` are apart, at multiples of their alignment and inside their pages. -/
theorem arena_sound (reached : a.Reached) : a.Sound := reached.inv.sound

/-- A block of 5 bytes and one of 3, in one page. -/
theorem arena_sound_two : (((⟨16384, [], 0⟩ : Arena).alloc 5 (some 4096)).2.alloc 3 none).2.Sound :=
  arena_sound (.alloc (.alloc (.new 16384 0) ⟨by decide, nofun⟩ (by rintro _ ⟨⟩; decide))
    ⟨by decide, by rintro _ ⟨⟩; decide⟩ nofun)

/-- The page of a block of 16385 bytes has no multiple of 4 behind it, and the next block is put
behind the page. -/
theorem arena_sound_fails :
    ¬(((⟨16384, [], 0⟩ : Arena).alloc 16385 (some 4096)).2.alloc 4 none).2.Sound := by
  intro sound
  exact absurd (sound.inside _ (.head _) _ (.head _)).2 (by decide)

end Arena

end ScCore.Tgf
