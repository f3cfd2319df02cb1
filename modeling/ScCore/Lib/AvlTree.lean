import Mathlib.Data.List.Basic
import Mathlib.Data.Nat.Fib.Basic
import Mathlib.Order.Lattice

/-!
# Balanced search trees with recorded balances

Binary trees whose nodes record the difference of the heights of their
subtrees, and paths from a subtree up to the root. A path says what a subtree
may be replaced by so that the whole tree stays ordered and balanced.
-/

universe u v

namespace ScCore.Lib

/-- A search tree with a recorded balance in every node. -/
inductive AvlTree (K : Type u) (V : Type v) where
  | nil
  | node (left : AvlTree K V) (balance : Int) (key : K) (value : V) (right : AvlTree K V)
  deriving DecidableEq

namespace AvlTree

variable {K : Type u} {V : Type v}

/-- One step from a node to its left or to its right child, with what stays behind. -/
inductive Frame (K : Type u) (V : Type v) where
  | left (balance : Int) (key : K) (value : V) (right : AvlTree K V)
  | right (left : AvlTree K V) (balance : Int) (key : K) (value : V)

/-- The way from a subtree up to the root, nearest node first. -/
abbrev Path (K : Type u) (V : Type v) := List (Frame K V)

/-- The node of a frame, with a subtree put back. -/
def Frame.plug (t : AvlTree K V) : Frame K V → AvlTree K V
  | .left balance key value other => .node t balance key value other
  | .right other balance key value => .node other balance key value t

/-- The whole tree, with a subtree put back. -/
def plug (t : AvlTree K V) : Path K V → AvlTree K V
  | [] => t
  | frame :: path => plug (frame.plug t) path

/-- The entries in the order of a walk from left to right. -/
def entries : AvlTree K V → List (K × V)
  | .nil => []
  | .node left _ key value right => left.entries ++ (key, value) :: right.entries

def height : AvlTree K V → Nat
  | .nil => 0
  | .node left _ _ _ right => max left.height right.height + 1

/-- The recorded balances are the height differences, and none exceeds one. -/
def Balanced : AvlTree K V → Prop
  | .nil => True
  | .node left balance _ _ right => left.Balanced ∧ right.Balanced ∧
      balance = right.height - left.height ∧ -1 ≤ balance ∧ balance ≤ 1

/-- The recorded balance of the topmost node. -/
def balance : AvlTree K V → Int
  | .nil => 0
  | .node _ balance _ _ _ => balance

/-- The keys to the left of a node rank below its key, those to the right above. -/
def Ordered (rank : K → Int) : AvlTree K V → Prop
  | .nil => True
  | .node left _ key _ right => left.Ordered rank ∧ right.Ordered rank ∧
      (∀ e ∈ left.entries, rank e.1 < rank key) ∧ ∀ e ∈ right.entries, rank key < rank e.1

@[simp] theorem entries_nil : (nil : AvlTree K V).entries = [] := rfl

@[simp] theorem entries_node (l r : AvlTree K V) (b : Int) (k : K) (v : V) :
    (node l b k v r).entries = l.entries ++ (k, v) :: r.entries := rfl

@[simp] theorem height_nil : (nil : AvlTree K V).height = 0 := rfl

@[simp] theorem height_node (l r : AvlTree K V) (b : Int) (k : K) (v : V) :
    (node l b k v r).height = max l.height r.height + 1 := rfl

@[simp] theorem balanced_nil : (nil : AvlTree K V).Balanced := trivial

@[simp] theorem balanced_node (l r : AvlTree K V) (b : Int) (k : K) (v : V) :
    (node l b k v r).Balanced ↔ l.Balanced ∧ r.Balanced ∧
      b = r.height - l.height ∧ -1 ≤ b ∧ b ≤ 1 := Iff.rfl

@[simp] theorem balance_node (l r : AvlTree K V) (b : Int) (k : K) (v : V) :
    (node l b k v r).balance = b := rfl

@[simp] theorem plug_nil (t : AvlTree K V) : plug t [] = t := rfl

@[simp] theorem plug_cons (t : AvlTree K V) (frame : Frame K V) (path : Path K V) :
    plug t (frame :: path) = plug (frame.plug t) path := rfl

/-- A tree is a search tree if and only if the walk meets the keys in rising order. -/
theorem ordered_iff {rank : K → Int} {t : AvlTree K V} :
    t.Ordered rank ↔ t.entries.Pairwise (fun d e => rank d.1 < rank e.1) := by
  induction t with
  | nil => simp [Ordered]
  | node l b k v r ihl ihr =>
    simp only [Ordered, ihl, ihr, entries_node, List.pairwise_append, List.pairwise_cons,
      List.mem_cons]
    constructor
    · rintro ⟨hl, hr, below, above⟩
      refine ⟨hl, ⟨above, hr⟩, ?_⟩
      rintro d hd e (rfl | he)
      · exact below d hd
      · exact lt_trans (below d hd) (above e he)
    · rintro ⟨hl, ⟨above, hr⟩, apart⟩
      refine ⟨hl, hr, ?_, above⟩
      intro d hd
      exact apart d hd (k, v) (Or.inl rfl)

/-- The entries met before a subtree. -/
def before : Path K V → List (K × V)
  | [] => []
  | .left _ _ _ _ :: path => before path
  | .right left _ key value :: path => before path ++ (left.entries ++ [(key, value)])

/-- The entries met after a subtree. -/
def after : Path K V → List (K × V)
  | [] => []
  | .left _ key value right :: path => (key, value) :: (right.entries ++ after path)
  | .right _ _ _ _ :: path => after path

/-- The path is balanced around a subtree of the given height. -/
def Fits : Path K V → Nat → Prop
  | [], _ => True
  | .left balance _ _ right :: path, h => right.Balanced ∧
      (balance = right.height - h ∧ -1 ≤ balance ∧ balance ≤ 1) ∧
      Fits path (max h right.height + 1)
  | .right left balance _ _ :: path, h => left.Balanced ∧
      (balance = h - left.height ∧ -1 ≤ balance ∧ balance ≤ 1) ∧
      Fits path (max left.height h + 1)

theorem entries_plug (t : AvlTree K V) (path : Path K V) :
    (plug t path).entries = before path ++ (t.entries ++ after path) := by
  induction path generalizing t with
  | nil => simp [before, after]
  | cons frame path ih =>
    rw [plug_cons, ih]
    cases frame with
    | left balance key value right => simp [Frame.plug, before, after]
    | right left balance key value => simp [Frame.plug, before, after]

theorem entries_plug_congr {t t' : AvlTree K V} (path : Path K V)
    (same : t'.entries = t.entries) : (plug t' path).entries = (plug t path).entries := by
  rw [entries_plug, entries_plug, same]

theorem balanced_plug {t : AvlTree K V} {path : Path K V} (balanced : t.Balanced)
    (fits : Fits path t.height) : (plug t path).Balanced := by
  induction path generalizing t with
  | nil => exact balanced
  | cons frame path ih =>
    cases frame with
    | left balance key value right =>
      obtain ⟨other, here, rest⟩ := fits
      apply ih
      · exact ⟨balanced, other, here⟩
      · exact rest
    | right left balance key value =>
      obtain ⟨other, here, rest⟩ := fits
      apply ih
      · exact ⟨other, balanced, here⟩
      · exact rest

/-- A balanced tree is not much higher than it must be. -/
theorem fib_height_le {t : AvlTree K V} (balanced : t.Balanced) :
    Nat.fib (t.height + 2) ≤ t.entries.length + 1 := by
  induction t with
  | nil => exact le_rfl
  | node l b k v r ihl ihr =>
    obtain ⟨hl, hr, hb, low, top⟩ := balanced
    have left := ihl hl
    have right := ihr hr
    rw [height_node, entries, List.length_append, List.length_cons]
    rcases Nat.le_total l.height r.height with le | le
    · have shorter : Nat.fib (r.height + 1) ≤ Nat.fib (l.height + 2) := Nat.fib_mono (by omega)
      have split : Nat.fib (r.height + 1 + 2) = Nat.fib (r.height + 1) + Nat.fib (r.height + 2) :=
        Nat.fib_add_two
      rw [max_eq_right le, split]
      omega
    · have shorter : Nat.fib (l.height + 1) ≤ Nat.fib (r.height + 2) := Nat.fib_mono (by omega)
      have split : Nat.fib (l.height + 1 + 2) = Nat.fib (l.height + 1) + Nat.fib (l.height + 2) :=
        Nat.fib_add_two
      rw [max_eq_left le, split]
      omega

end AvlTree

end ScCore.Lib
