import ScCore.Lib.AvlTree
import Mathlib.Data.BitVec

/-!
# The maps of TGF

The map utility keeps pairs in a balanced tree with parent pointers. A node
with the way up to the root is a subtree with a path. A null pointer that is
followed and a `MAP_BUG` that is reached are the missing results.
-/

namespace ScCore.Tgf

open Lib

/-- An untyped pointer. -/
abbrev Ptr := BitVec 64

/-- A node and all below it. -/
abbrev MapNode := AvlTree Ptr Ptr

def P2I (ptr : Ptr) : BitVec 32 := ptr.setWidth 32

def I2P (i : BitVec 32) : Ptr := i.signExtend 64

/-- The difference is an `int` and wraps around. -/
def mapCompInt (a b : Ptr) : Int := (P2I a - P2I b).toInt

def mapCompPtr (a b : Ptr) : Int := if a > b then 1 else if a = b then 0 else -1

def mapNodeNew (key value : Ptr) : MapNode := .node .nil 0 key value .nil

/-- Rotates a node that leans by two. The result is whether the height went
down, and what the parent of the node then points to. -/
def mapDoBalance : MapNode → Option (Int × MapNode)
  | .nil => none
  | .node left balance key value right =>
    if balance > 0 then
      match right with
      | .nil => none
      | .node pLeft pBalance pKey pValue pRight =>
        if pBalance ≥ 0 then
          let nodeBalance := if pBalance = 0 then 1 else 0
          some (pBalance,
            .node (.node left nodeBalance key value pLeft) (-nodeBalance) pKey pValue pRight)
        else
          match pLeft with
          | .nil => none
          | .node qLeft qBalance qKey qValue qRight =>
            some (1, .node
              (.node left (if qBalance ≤ 0 then 0 else -1) key value qLeft)
              0 qKey qValue
              (.node qRight (if qBalance ≥ 0 then 0 else 1) pKey pValue pRight))
    else
      match left with
      | .nil => none
      | .node pLeft pBalance pKey pValue pRight =>
        if pBalance ≤ 0 then
          let nodeBalance := -(if pBalance = 0 then 1 else 0)
          some (pBalance,
            .node pLeft (-nodeBalance) pKey pValue (.node pRight nodeBalance key value right))
        else
          match pRight with
          | .nil => none
          | .node qLeft qBalance qKey qValue qRight =>
            some (1, .node
              (.node pLeft (if qBalance ≤ 0 then 0 else -1) pKey pValue qLeft)
              0 qKey qValue
              (.node qRight (if qBalance ≥ 0 then 0 else 1) key value right))

/-- The loop after an insertion, with the node `p` that has grown. -/
def doBalance (p : MapNode) : AvlTree.Path Ptr Ptr → Option MapNode
  | [] => some p
  | .left balance key value right :: path =>
    let q := .node p (balance - 1) key value right
    if balance - 1 < -2 then none
    else if balance - 1 = -2 then
      match mapDoBalance q with
      | some (rv, q) => if rv ≠ 0 then some (AvlTree.plug q path) else none
      | none => none
    else if balance - 1 ≠ 0 then doBalance q path
    else some (AvlTree.plug q path)
  | .right left balance key value :: path =>
    let q := .node left (balance + 1) key value p
    if balance + 1 > 2 then none
    else if balance + 1 = 2 then
      match mapDoBalance q with
      | some (rv, q) => if rv ≠ 0 then some (AvlTree.plug q path) else none
      | none => none
    else if balance + 1 ≠ 0 then doBalance q path
    else some (AvlTree.plug q path)

/-- The walk down from a node `p`, which is not null. -/
def mapInsertAt (comp : Ptr → Ptr → Int) (key value : Ptr) :
    MapNode → AvlTree.Path Ptr Ptr → Option (Nat × MapNode)
  | .nil, _ => none
  | .node left balance pKey pValue right, path =>
    let cr := comp key pKey
    if cr = 0 then some (0, AvlTree.plug (.node left balance pKey pValue right) path)
    else if cr > 0 then
      match right with
      | .nil =>
        let p := .node left (balance + 1) pKey pValue (mapNodeNew key value)
        if balance + 1 ≠ 0 then (doBalance p path).map (1, ·)
        else some (1, AvlTree.plug p path)
      | .node .. => mapInsertAt comp key value right (.right left balance pKey pValue :: path)
    else
      match left with
      | .nil =>
        let p := .node (mapNodeNew key value) (balance - 1) pKey pValue right
        if balance - 1 ≠ 0 then (doBalance p path).map (1, ·)
        else some (1, AvlTree.plug p path)
      | .node .. => mapInsertAt comp key value left (.left balance pKey pValue right :: path)

def mapInsert (comp : Ptr → Ptr → Int) (root : MapNode) (key value : Ptr) :
    Option (Nat × MapNode) :=
  match root with
  | .nil => some (1, mapNodeNew key value)
  | .node .. => mapInsertAt comp key value root []

def mapFind (comp : Ptr → Ptr → Int) (key : Ptr) : MapNode → Option Ptr
  | .nil => none
  | .node left _ pKey pValue right =>
    let cr := comp key pKey
    if cr = 0 then some pValue
    else if cr > 0 then mapFind comp key right
    else mapFind comp key left

def tgfMapInAdd (root : MapNode) (key : BitVec 32) (value : Ptr) : Option (Nat × MapNode) :=
  mapInsert mapCompInt root (I2P key) value

def tgfMapInLookup (root : MapNode) (key : BitVec 32) : Option Ptr :=
  mapFind mapCompInt (I2P key) root

def tgfMapOutAdd (root : MapNode) (key : Ptr) (value : BitVec 32) : Option (Nat × MapNode) :=
  mapInsert mapCompPtr root key (I2P value)

def tgfMapOutLookup (root : MapNode) (key : Ptr) : Option (BitVec 32) :=
  (mapFind mapCompPtr key root).map P2I

open AvlTree

theorem mapDoBalance_left {l r : MapNode} {k v : Ptr} (hl : l.Balanced) (hr : r.Balanced)
    (high : r.height = l.height + 2) (leans : r.balance ≠ 0) :
    ∃ rv t, mapDoBalance (.node l 2 k v r) = some (rv, t) ∧ rv ≠ 0 ∧ t.Balanced ∧
      t.height = l.height + 2 ∧ t.entries = (node l 2 k v r).entries := by
  cases r with
  | nil => simp at high
  | node pl pb pk pv pr =>
    obtain ⟨hpl, hpr, hpb, low, top⟩ := hr
    simp only [height_node, balance_node] at high leans
    by_cases hp : pb ≥ 0
    · have one : pb = 1 := by omega
      subst one
      refine ⟨1, .node (.node l 0 k v pl) 0 pk pv pr, by simp [mapDoBalance], by decide, ?_, ?_, ?_⟩
      · simp only [balanced_node, height_node]
        refine ⟨⟨hl, hpl, ?_⟩, hpr, ?_⟩ <;> omega
      · simp only [height_node]
        omega
      · simp
    · have minus : pb = -1 := by omega
      subst minus
      cases pl with
      | nil =>
        simp only [height_nil] at hpb
        omega
      | node ql qb qk qv qr =>
        obtain ⟨hql, hqr, hqb, qlow, qtop⟩ := hpl
        simp only [height_node] at high hpb
        refine ⟨1, .node (.node l (if qb ≤ 0 then 0 else -1) k v ql) 0 qk qv
          (.node qr (if qb ≥ 0 then 0 else 1) pk pv pr), by simp [mapDoBalance], by decide,
          ?_, ?_, ?_⟩
        · simp only [balanced_node, height_node]
          refine ⟨⟨hl, hql, ?_⟩, ⟨hqr, hpr, ?_⟩, ?_⟩
          · split <;> omega
          · split <;> omega
          · omega
        · simp only [height_node]
          omega
        · simp

theorem mapDoBalance_right {l r : MapNode} {k v : Ptr} (hl : l.Balanced) (hr : r.Balanced)
    (high : l.height = r.height + 2) (leans : l.balance ≠ 0) :
    ∃ rv t, mapDoBalance (.node l (-2) k v r) = some (rv, t) ∧ rv ≠ 0 ∧ t.Balanced ∧
      t.height = r.height + 2 ∧ t.entries = (node l (-2) k v r).entries := by
  cases l with
  | nil => simp at high
  | node pl pb pk pv pr =>
    obtain ⟨hpl, hpr, hpb, low, top⟩ := hl
    simp only [height_node, balance_node] at high leans
    by_cases hp : pb ≤ 0
    · have minus : pb = -1 := by omega
      subst minus
      refine ⟨-1, .node pl 0 pk pv (.node pr 0 k v r), by simp [mapDoBalance], by decide,
        ?_, ?_, ?_⟩
      · simp only [balanced_node, height_node]
        refine ⟨hpl, ⟨hpr, hr, ?_⟩, ?_⟩ <;> omega
      · simp only [height_node]
        omega
      · simp
    · have one : pb = 1 := by omega
      subst one
      cases pr with
      | nil =>
        simp only [height_nil] at hpb
        omega
      | node ql qb qk qv qr =>
        obtain ⟨hql, hqr, hqb, qlow, qtop⟩ := hpr
        simp only [height_node] at high hpb
        refine ⟨1, .node (.node pl (if qb ≤ 0 then 0 else -1) pk pv ql) 0 qk qv
          (.node qr (if qb ≥ 0 then 0 else 1) k v r), by simp [mapDoBalance], by decide,
          ?_, ?_, ?_⟩
        · simp only [balanced_node, height_node]
          refine ⟨⟨hpl, hql, ?_⟩, ⟨hqr, hr, ?_⟩, ?_⟩
          · split <;> omega
          · split <;> omega
          · omega
        · simp only [height_node]
          omega
        · simp

/-- The loop ends with a balanced tree: a subtree that has grown by one and leans
needs at most one rotation further up. -/
theorem doBalance_spec {p : MapNode} {path : Path Ptr Ptr} {h : Nat} (balanced : p.Balanced)
    (leans : p.balance ≠ 0) (grown : p.height = h + 1) (fits : Fits path h) :
    ∃ m, doBalance p path = some m ∧ m.Balanced ∧ m.entries = (plug p path).entries := by
  induction path generalizing p h with
  | nil => exact ⟨p, rfl, balanced, rfl⟩
  | cons frame path ih =>
    cases frame with
    | left b k v r =>
      obtain ⟨hr, ⟨hb, low, top⟩, rest⟩ := fits
      by_cases rotate : b = -1
      · subst rotate
        obtain ⟨rv, t, run, nonzero, ht, high, same⟩ :=
          mapDoBalance_right (k := k) (v := v) balanced hr (by omega) leans
        refine ⟨plug t path, by simp [doBalance, run, nonzero], ?_, ?_⟩
        · apply balanced_plug ht
          convert rest using 1
          omega
        · exact entries_plug_congr path same
      · by_cases done : b - 1 = 0
        · refine ⟨plug (.node p (b - 1) k v r) path, ?_, ?_, entries_plug_congr path rfl⟩
          · simp [doBalance, done]
          · apply balanced_plug
            · refine ⟨balanced, hr, ?_⟩
              omega
            · convert rest using 1
              simp only [height_node]
              omega
        · have step : doBalance p (.left b k v r :: path) =
              doBalance (.node p (b - 1) k v r) path := by
            have hlow : ¬ b - 1 < -2 := by omega
            have hne : ¬ b - 1 = -2 := by omega
            simp [doBalance, done, hlow, hne]
          have balanced' : (node p (b - 1) k v r).Balanced := by
            refine ⟨balanced, hr, ?_⟩
            omega
          have grown' : (node p (b - 1) k v r).height = max h r.height + 1 + 1 := by
            simp only [height_node]
            omega
          obtain ⟨m, run, hm, same⟩ := ih balanced' done grown' rest
          exact ⟨m, step.trans run, hm, same.trans (entries_plug_congr path rfl)⟩
    | right l b k v =>
      obtain ⟨hl, ⟨hb, low, top⟩, rest⟩ := fits
      by_cases rotate : b = 1
      · subst rotate
        obtain ⟨rv, t, run, nonzero, ht, high, same⟩ :=
          mapDoBalance_left (k := k) (v := v) hl balanced (by omega) leans
        refine ⟨plug t path, by simp [doBalance, run, nonzero], ?_, ?_⟩
        · apply balanced_plug ht
          convert rest using 1
          omega
        · exact entries_plug_congr path same
      · by_cases done : b + 1 = 0
        · refine ⟨plug (.node l (b + 1) k v p) path, ?_, ?_, entries_plug_congr path rfl⟩
          · simp [doBalance, done]
          · apply balanced_plug
            · refine ⟨hl, balanced, ?_⟩
              omega
            · convert rest using 1
              simp only [height_node]
              omega
        · have step : doBalance p (.right l b k v :: path) =
              doBalance (.node l (b + 1) k v p) path := by
            have htop : ¬ b + 1 > 2 := by omega
            have hne : ¬ b + 1 = 2 := by omega
            simp [doBalance, done, htop, hne]
          have balanced' : (node l (b + 1) k v p).Balanced := by
            refine ⟨hl, balanced, ?_⟩
            omega
          have grown' : (node l (b + 1) k v p).height = max l.height h + 1 + 1 := by
            simp only [height_node]
            omega
          obtain ⟨m, run, hm, same⟩ := ih balanced' done grown' rest
          exact ⟨m, step.trans run, hm, same.trans (entries_plug_congr path rfl)⟩

end ScCore.Tgf
