import ScCore.Tgf.Map

/-!
# Insertions into the maps of TGF

What a sequence of insertions leaves in a map: the first value of every key,
in a balanced search tree. This rests on a comparison that agrees with an
order of the keys.
-/

namespace ScCore.Tgf

open Lib AvlTree

variable {comp : Ptr → Ptr → Int} {rank : Ptr → Int} {key value : Ptr}

structure Agrees (comp : Ptr → Ptr → Int) (rank : Ptr → Int) (a b : Ptr) : Prop where
  same : comp a b = 0 ↔ a = b
  right : 0 < comp a b ↔ rank b < rank a
  left : comp a b < 0 ↔ rank a < rank b

def Follows (comp : Ptr → Ptr → Int) (key : Ptr) : Path Ptr Ptr → Prop
  | [] => True
  | .left _ pKey _ _ :: path => comp key pKey < 0 ∧ Follows comp key path
  | .right _ _ pKey _ :: path => 0 < comp key pKey ∧ Follows comp key path

variable {path : Path Ptr Ptr} {t root m : MapNode} {rv : Nat}

theorem Follows.before_lt (ordered : (plug t path).Ordered rank)
    (agrees : ∀ e ∈ (plug t path).entries, Agrees comp rank key e.1)
    (follows : Follows comp key path) : ∀ e ∈ before path, rank e.1 < rank key := by
  induction path generalizing t with
  | nil => simp [before]
  | cons frame path ih =>
    cases frame with
    | left b k v r => exact ih ordered agrees follows.2
    | right l b k v =>
      have hk : rank k < rank key := by
        refine (agrees (k, v) ?_).right.mp follows.1
        rw [entries_plug, before]
        simp
      have hl : ∀ e ∈ l.entries, rank e.1 < rank k := by
        rw [ordered_iff, entries_plug, before, List.append_assoc, List.pairwise_append] at ordered
        have inner := (List.pairwise_append.mp ordered.2.1).1
        intro e he
        exact (List.pairwise_append.mp inner).2.2 e he (k, v) (by simp)
      intro e he
      simp only [before, List.mem_append, List.mem_singleton] at he
      rcases he with he | he | rfl
      · exact ih ordered agrees follows.2 e he
      · exact lt_trans (hl e he) hk
      · exact hk

theorem Follows.lt_after (ordered : (plug t path).Ordered rank)
    (agrees : ∀ e ∈ (plug t path).entries, Agrees comp rank key e.1)
    (follows : Follows comp key path) : ∀ e ∈ after path, rank key < rank e.1 := by
  induction path generalizing t with
  | nil => simp [after]
  | cons frame path ih =>
    cases frame with
    | right l b k v => exact ih ordered agrees follows.2
    | left b k v r =>
      have hk : rank key < rank k := by
        refine (agrees (k, v) ?_).left.mp follows.1
        rw [entries_plug, after]
        simp
      have hr : ∀ e ∈ r.entries, rank k < rank e.1 := by
        rw [ordered_iff, entries_plug, ← List.append_assoc, List.pairwise_append] at ordered
        intro e he
        exact (List.pairwise_cons.mp ordered.2.1).1 e (List.mem_append_left _ he)
      intro e he
      simp only [after, List.mem_cons, List.mem_append] at he
      rcases he with rfl | he | he
      · exact hk
      · exact lt_trans hk (hr e he)
      · exact ih ordered agrees follows.2 e he

theorem settle {p : MapNode} {h : Nat} (balanced : p.Balanced)
    (grown : p.height = if p.balance = 0 then h else h + 1) (fits : Fits path h) :
    ∃ m, (if p.balance ≠ 0 then (doBalance p path).map (Prod.mk 1) else some (1, plug p path)) =
      some (1, m) ∧ m.Balanced ∧ m.entries = (plug p path).entries := by
  by_cases leans : p.balance = 0
  · rw [if_pos leans] at grown
    refine ⟨plug p path, if_neg (not_not.mpr leans), ?_, rfl⟩
    apply balanced_plug balanced
    rwa [grown]
  · rw [if_neg leans] at grown
    obtain ⟨m, run, hm, same⟩ := doBalance_spec balanced leans grown fits
    refine ⟨m, ?_, hm, same⟩
    rw [if_pos leans, run, Option.map_some]

/-- What an insertion makes of a tree: nothing when the key is there, one more entry
at a free place where the comparisons lead otherwise. -/
def Inserted (comp : Ptr → Ptr → Int) (key value : Ptr) (t m : MapNode) (rv : Nat) : Prop :=
  (rv = 0 ∧ m = t ∧ ∃ e ∈ t.entries, comp key e.1 = 0) ∨
    (rv = 1 ∧ ∃ free, Follows comp key free ∧ (plug .nil free).entries = t.entries ∧
      m.entries = before free ++ (key, value) :: after free)

theorem mapInsertAt_spec (path : Path Ptr Ptr) (nonnull : t ≠ .nil) (balanced : t.Balanced)
    (fits : Fits path t.height) (follows : Follows comp key path) :
    ∃ rv m, mapInsertAt comp key value t path = some (rv, m) ∧ m.Balanced ∧
      Inserted comp key value (plug t path) m rv := by
  induction t generalizing path with
  | nil => exact absurd rfl nonnull
  | node l b k v r ihl ihr =>
    have whole := balanced
    obtain ⟨hl, hr, hb, low, top⟩ := balanced
    unfold mapInsertAt
    dsimp only
    by_cases zero : comp key k = 0
    · rw [if_pos zero]
      refine ⟨0, _, rfl, balanced_plug whole fits, Or.inl ⟨rfl, rfl, (k, v), ?_, zero⟩⟩
      rw [entries_plug]
      simp
    rw [if_neg zero]
    by_cases pos : comp key k > 0
    · rw [if_pos pos]
      cases r with
      | node rl rb rk rv rr =>
        exact ihr (.right l b k v :: path) (by simp) hr ⟨hl, ⟨hb, low, top⟩, fits⟩
          ⟨pos, follows⟩
      | nil =>
        simp only [height_node, height_nil] at hb fits
        have balanced' : (node l (b + 1) k v (mapNodeNew key value)).Balanced := by
          refine ⟨hl, by simp [mapNodeNew], ?_⟩
          simp only [mapNodeNew, height_node, height_nil]
          omega
        have grown : (node l (b + 1) k v (mapNodeNew key value)).height =
            if b + 1 = 0 then max l.height 0 + 1 else max l.height 0 + 1 + 1 := by
          simp only [mapNodeNew, height_node, height_nil]
          split <;> omega
        obtain ⟨m, run, hm, same⟩ := settle balanced' grown fits
        refine ⟨1, m, run, hm, Or.inr ⟨rfl, .right l b k v :: path, ⟨pos, follows⟩, rfl, ?_⟩⟩
        rw [same, entries_plug]
        simp [mapNodeNew, before, after]
    · rw [if_neg pos]
      have neg : comp key k < 0 := by omega
      cases l with
      | node ll lb lk lv lr =>
        exact ihl (.left b k v r :: path) (by simp) hl ⟨hr, ⟨hb, low, top⟩, fits⟩
          ⟨neg, follows⟩
      | nil =>
        simp only [height_node, height_nil] at hb fits
        have balanced' : (node (mapNodeNew key value) (b - 1) k v r).Balanced := by
          refine ⟨by simp [mapNodeNew], hr, ?_⟩
          simp only [mapNodeNew, height_node, height_nil]
          omega
        have grown : (node (mapNodeNew key value) (b - 1) k v r).height =
            if b - 1 = 0 then max 0 r.height + 1 else max 0 r.height + 1 + 1 := by
          simp only [mapNodeNew, height_node, height_nil]
          split <;> omega
        obtain ⟨m, run, hm, same⟩ := settle balanced' grown fits
        refine ⟨1, m, run, hm, Or.inr ⟨rfl, .left b k v r :: path, ⟨neg, follows⟩, rfl, ?_⟩⟩
        rw [same, entries_plug]
        simp [mapNodeNew, before, after]

theorem mapInsert_spec (comp : Ptr → Ptr → Int) (key value : Ptr) (balanced : root.Balanced) :
    ∃ rv m, mapInsert comp root key value = some (rv, m) ∧ m.Balanced ∧
      Inserted comp key value root m rv := by
  cases root with
  | nil =>
    refine ⟨1, mapNodeNew key value, rfl, by simp [mapNodeNew], Or.inr ⟨rfl, [], trivial, rfl, ?_⟩⟩
    simp [mapNodeNew, before, after]
  | node l b k v r => exact mapInsertAt_spec [] (by simp) balanced trivial trivial

/-! ## Order -/

theorem Inserted.fails_iff (ordered : root.Ordered rank)
    (agrees : ∀ e ∈ root.entries, Agrees comp rank key e.1)
    (inserted : Inserted comp key value root m rv) : rv = 0 ↔ key ∈ root.entries.map Prod.fst := by
  rcases inserted with ⟨rfl, -, e, he, zero⟩ | ⟨rfl, free, follows, same, -⟩
  · have hkey : key = e.1 := (agrees e he).same.mp zero
    simp only [true_iff]
    exact hkey ▸ List.mem_map_of_mem he
  · simp only [Nat.one_ne_zero, false_iff]
    intro hmem
    obtain ⟨e, he, rfl⟩ := List.mem_map.mp hmem
    rw [ordered_iff, ← same, ← ordered_iff] at ordered
    rw [← same] at agrees he
    rw [entries_plug, List.mem_append] at he
    rcases he with he | he
    · exact lt_irrefl _ (follows.before_lt ordered agrees e he)
    · exact lt_irrefl _ (follows.lt_after ordered agrees e he)

theorem Inserted.ordered (ordered : root.Ordered rank)
    (agrees : ∀ e ∈ root.entries, Agrees comp rank key e.1)
    (inserted : Inserted comp key value root m rv) : m.Ordered rank := by
  rcases inserted with ⟨-, rfl, -⟩ | ⟨-, free, follows, same, entries⟩
  · exact ordered
  · rw [ordered_iff, ← same, ← ordered_iff] at ordered
    rw [← same] at agrees
    have below := follows.before_lt ordered agrees
    have above := follows.lt_after ordered agrees
    rw [ordered_iff, entries_plug, List.pairwise_append] at ordered
    obtain ⟨hbefore, hafter, apart⟩ := ordered
    rw [ordered_iff, entries, List.pairwise_append, List.pairwise_cons]
    refine ⟨hbefore, ⟨above, hafter⟩, ?_⟩
    intro d hd e he
    rcases List.mem_cons.mp he with rfl | he
    · exact below d hd
    · exact apart d hd e he

theorem Inserted.mem_entries {e : Ptr × Ptr} (new : rv ≠ 0)
    (inserted : Inserted comp key value root m rv) :
    e ∈ m.entries ↔ e ∈ root.entries ∨ e = (key, value) := by
  rcases inserted with ⟨rfl, -⟩ | ⟨-, free, -, same, entries⟩
  · exact absurd rfl new
  · rw [entries, ← same, entries_plug]
    simp only [entries_nil, List.nil_append, List.mem_append, List.mem_cons]
    tauto

structure Represents (rank : Ptr → Int) (pairs : List (Ptr × Ptr)) (root : MapNode) : Prop where
  balanced : root.Balanced
  ordered : root.Ordered rank
  mem : ∀ key value, (key, value) ∈ root.entries ↔ pairs.lookup key = some value

theorem Represents.mem_keys {pairs : List (Ptr × Ptr)} (represents : Represents rank pairs root) :
    key ∈ root.entries.map Prod.fst ↔ key ∈ pairs.map Prod.fst := by
  constructor
  · intro hmem
    obtain ⟨⟨k, v⟩, he, rfl⟩ := List.mem_map.mp hmem
    have found := (represents.mem k v).mp he
    obtain ⟨before, after, rfl, -⟩ := List.lookup_eq_some_iff.mp found
    simp
  · intro hmem
    obtain ⟨⟨k, v⟩, he, rfl⟩ := List.mem_map.mp hmem
    have found : (pairs.lookup k).isSome := List.lookup_isSome_iff.mpr ⟨_, he, by simp⟩
    obtain ⟨v', hv'⟩ := Option.isSome_iff_exists.mp found
    exact List.mem_map.mpr ⟨(k, v'), (represents.mem k v').mpr hv', rfl⟩

theorem Represents.insert {pairs : List (Ptr × Ptr)} (represents : Represents rank pairs root)
    (value : Ptr) (agrees : ∀ k ∈ pairs.map Prod.fst, Agrees comp rank key k) :
    ∃ rv m, mapInsert comp root key value = some (rv, m) ∧
      Represents rank (pairs ++ [(key, value)]) m ∧
      (rv = 0 ↔ key ∈ pairs.map Prod.fst) ∧ (rv = 0 → m = root) := by
  obtain ⟨rv, m, run, balanced, inserted⟩ :=
    mapInsert_spec comp key value represents.balanced
  have agrees' : ∀ e ∈ root.entries, Agrees comp rank key e.1 := by
    intro e he
    exact agrees e.1 (represents.mem_keys.mp (List.mem_map_of_mem he))
  have fails := inserted.fails_iff represents.ordered agrees'
  rw [represents.mem_keys] at fails
  have unchanged : rv = 0 → m = root := by
    rintro rfl
    rcases inserted with ⟨-, same, -⟩ | ⟨one, -⟩
    · exact same
    · cases one
  refine ⟨rv, m, run, ⟨balanced, inserted.ordered represents.ordered agrees', ?_⟩,
    fails, unchanged⟩
  intro k v
  rw [List.lookup_append, List.lookup_singleton]
  by_cases old : rv = 0
  · rw [unchanged old, represents.mem]
    have known : key ∈ pairs.map Prod.fst := fails.mp old
    cases found : pairs.lookup k with
    | some v' => simp
    | none =>
      have unknown : ∀ e ∈ pairs, ¬ k = e.1 := by simpa using found
      have hne : ¬ k = key := by
        rintro rfl
        obtain ⟨e, he, rfl⟩ := List.mem_map.mp known
        exact unknown e he rfl
      simp [hne]
  · rw [inserted.mem_entries old, represents.mem]
    have unknown : pairs.lookup key = none := by
      rw [List.lookup_eq_none_iff]
      intro e he
      have hne : ¬ key = e.1 := by
        rintro rfl
        exact old (fails.mpr (List.mem_map_of_mem he))
      simpa using hne
    by_cases hk : k = key
    · subst hk
      simp [unknown, eq_comm]
    · cases found : pairs.lookup k with
      | some v' => simp [hk]
      | none => simp [hk]

theorem mapFind_eq_some (ordered : t.Ordered rank)
    (agrees : ∀ e ∈ t.entries, Agrees comp rank key e.1) :
    mapFind comp key t = some value ↔ (key, value) ∈ t.entries := by
  induction t with
  | nil => simp [mapFind]
  | node l b k v r ihl ihr =>
    obtain ⟨hl, hr, below, above⟩ := ordered
    have here : Agrees comp rank key k := agrees (k, v) (by simp)
    have noleft : rank k ≤ rank key → (key, value) ∉ l.entries := by
      intro hle hmem
      exact absurd (below _ hmem) (not_lt.mpr hle)
    have noright : rank key ≤ rank k → (key, value) ∉ r.entries := by
      intro hle hmem
      exact absurd (above _ hmem) (not_lt.mpr hle)
    rw [mapFind]
    simp only [entries_node, List.mem_append, List.mem_cons, Prod.mk.injEq] at agrees ⊢
    by_cases zero : comp key k = 0
    · have hk : key = k := here.same.mp zero
      subst hk
      simp [if_pos zero, noleft le_rfl, noright le_rfl, eq_comm]
    · have hk : key ≠ k := fun hk => zero (here.same.mpr hk)
      rw [if_neg zero]
      by_cases pos : comp key k > 0
      · rw [if_pos pos, ihr hr fun e he => agrees e (Or.inr (Or.inr he))]
        simp [hk, noleft (le_of_lt (here.right.mp pos))]
      · rw [if_neg pos, ihl hl fun e he => agrees e (Or.inl he)]
        have neg : comp key k < 0 := by omega
        simp [hk, noright (le_of_lt (here.left.mp neg))]

theorem mapFind_eq_none (other : ∀ e ∈ t.entries, comp key e.1 ≠ 0) :
    mapFind comp key t = none := by
  induction t with
  | nil => rfl
  | node l b k v r ihl ihr =>
    simp only [entries_node, List.mem_append, List.mem_cons] at other
    rw [mapFind]
    rw [if_neg (other (k, v) (Or.inr (Or.inl rfl)))]
    split
    · exact ihr fun e he => other e (Or.inr (Or.inr he))
    · exact ihl fun e he => other e (Or.inl he)

/-! ## Sequences of insertions -/

universe u v

variable {K : Type u} {V : Type v}

def insertAll (add : MapNode → K → V → Option (Nat × MapNode)) :
    List (K × V) → MapNode → Option MapNode
  | [], root => some root
  | (key, value) :: pairs, root =>
    (add root key value).bind fun (_, root) => insertAll add pairs root

theorem Represents.insertAll {done pairs : List (Ptr × Ptr)}
    (represents : Represents rank done root)
    (agrees : ∀ a ∈ (done ++ pairs).map Prod.fst, ∀ b ∈ (done ++ pairs).map Prod.fst,
      Agrees comp rank a b) :
    ∃ m, insertAll (mapInsert comp) pairs root = some m ∧ Represents rank (done ++ pairs) m := by
  induction pairs generalizing done root with
  | nil => exact ⟨root, rfl, by simpa using represents⟩
  | cons pair pairs ih =>
    obtain ⟨key, value⟩ := pair
    have here : ∀ k ∈ done.map Prod.fst, Agrees comp rank key k := by
      intro k hk
      apply agrees
      · simp
      · rw [List.map_append]
        exact List.mem_append_left _ hk
    obtain ⟨rv, m, run, step, -, -⟩ := represents.insert value here
    obtain ⟨m', rest, last⟩ := ih step (by simpa using agrees)
    refine ⟨m', ?_, by simpa using last⟩
    simp only [Tgf.insertAll, run, Option.bind_some, rest]

theorem insertAll_map {add : MapNode → K → V → Option (Nat × MapNode)} {conv : K → Ptr}
    {val : V → Ptr} (hadd : ∀ root key value, add root key value =
      mapInsert comp root (conv key) (val value)) (pairs : List (K × V)) (root : MapNode) :
    insertAll add pairs root = insertAll (mapInsert comp) (pairs.map (Prod.map conv val)) root := by
  induction pairs generalizing root with
  | nil => rfl
  | cons pair pairs ih =>
    obtain ⟨key, value⟩ := pair
    simp only [insertAll, List.map_cons, Prod.map_apply, hadd, ih]

theorem insertAll_concat (add : MapNode → K → V → Option (Nat × MapNode))
    (pairs : List (K × V)) (key : K) (value : V) (root : MapNode) :
    insertAll add (pairs ++ [(key, value)]) root =
      (insertAll add pairs root).bind fun root => (add root key value).map Prod.snd := by
  induction pairs generalizing root with
  | nil =>
    simp only [List.nil_append, insertAll, Option.bind_some]
    cases add root key value <;> rfl
  | cons pair pairs ih => simp only [List.cons_append, insertAll, ih, Option.bind_assoc]

structure Correct [DecidableEq K] (add : MapNode → K → V → Option (Nat × MapNode))
    (lookup : MapNode → K → Option V) (rank : Ptr → Int) (pairs : List (K × V))
    (root : MapNode) : Prop where
  run : insertAll add pairs .nil = some root
  ordered : root.Ordered rank
  balanced : root.Balanced
  first : ∀ key, lookup root key = pairs.lookup key
  last : ∀ before key value, pairs = before ++ [(key, value)] →
    ∃ root' rv, insertAll add before .nil = some root' ∧ add root' key value = some (rv, root) ∧
      (rv = 0 ↔ key ∈ before.map Prod.fst) ∧ (rv = 0 → root = root')

theorem lookup_map [DecidableEq K] {conv : K → Ptr} (inj : Function.Injective conv)
    (val : V → Ptr) (pairs : List (K × V)) (key : K) :
    (pairs.map (Prod.map conv val)).lookup (conv key) = (pairs.lookup key).map val := by
  induction pairs with
  | nil => rfl
  | cons pair pairs ih =>
    obtain ⟨k, v⟩ := pair
    by_cases hk : key = k
    · subst hk
      simp
    · have hconv : conv key ≠ conv k := fun h => hk (inj h)
      rw [List.map_cons, Prod.map_apply, List.lookup_cons, List.lookup_cons,
        beq_false_of_ne hk, beq_false_of_ne hconv]
      exact ih

section Wrapped

variable [DecidableEq K] {conv : K → Ptr} {val : V → Ptr} {unval : Ptr → V} {pairs : List (K × V)}

omit [DecidableEq K] in
theorem mem_keys_map {k : Ptr} :
    k ∈ (pairs.map (Prod.map conv val)).map Prod.fst ↔ ∃ key ∈ pairs.map Prod.fst, conv key =
    k := by
  simp

variable {root : MapNode}

omit [DecidableEq K] in
theorem Represents.key_of_mem {e : Ptr × Ptr}
    (represents : Represents rank (pairs.map (Prod.map conv val)) root) (he : e ∈ root.entries) :
    ∃ key ∈ pairs.map Prod.fst, conv key = e.1 :=
  mem_keys_map.mp (represents.mem_keys.mp (List.mem_map_of_mem he))

theorem Represents.find
    (represents : Represents rank (pairs.map (Prod.map conv val)) root)
    (back : ∀ value, unval (val value) = value)
    (exact : ∀ a b, comp (conv a) (conv b) = 0 ↔ a = b)
    (agrees : ∀ a ∈ pairs.map Prod.fst, ∀ b ∈ pairs.map Prod.fst,
      Agrees comp rank (conv a) (conv b)) (key : K) :
    (mapFind comp (conv key) root).map unval = pairs.lookup key := by
  have inj : Function.Injective conv := by
    intro a b h
    rw [← exact, h, exact]
  have found := lookup_map inj val pairs key
  cases hvalue : pairs.lookup key with
  | some value =>
    obtain ⟨before, after, rfl, -⟩ := List.lookup_eq_some_iff.mp hvalue
    have agreesKey : ∀ e ∈ root.entries, Agrees comp rank (conv key) e.1 := by
      intro e he
      obtain ⟨k, hk, same⟩ := represents.key_of_mem he
      rw [← same]
      exact agrees key (by simp) k hk
    rw [hvalue] at found
    have hmem := (represents.mem (conv key) (val value)).mpr found
    rw [(mapFind_eq_some represents.ordered agreesKey).mpr hmem, Option.map_some, back]
  | none =>
    rw [mapFind_eq_none, Option.map_none]
    intro e he zero
    obtain ⟨k, hk, same⟩ := represents.key_of_mem he
    rw [← same, exact] at zero
    obtain ⟨pair, hpair, rfl⟩ := List.mem_map.mp hk
    have other := List.lookup_eq_none_iff.mp hvalue pair hpair
    simp [zero] at other

theorem exists_correct (comp : Ptr → Ptr → Int) (conv : K → Ptr) (val : V → Ptr)
    (unval : Ptr → V) {add : MapNode → K → V → Option (Nat × MapNode)}
    {lookup : MapNode → K → Option V}
    (hadd : ∀ root key value, add root key value = mapInsert comp root (conv key) (val value))
    (hlookup : ∀ root key, lookup root key = (mapFind comp (conv key) root).map unval)
    (back : ∀ value, unval (val value) = value)
    (exact : ∀ a b, comp (conv a) (conv b) = 0 ↔ a = b)
    (agrees : ∀ a ∈ pairs.map Prod.fst, ∀ b ∈ pairs.map Prod.fst,
      Agrees comp rank (conv a) (conv b)) :
    ∃ root, Correct add lookup rank pairs root := by
  have empty : Represents rank [] .nil := ⟨trivial, trivial, by simp⟩
  have runs : ∀ l : List (K × V), l.map Prod.fst ⊆ pairs.map Prod.fst →
      ∃ root, insertAll add l .nil = some root ∧
        Represents rank (l.map (Prod.map conv val)) root := by
    intro l sub
    rw [insertAll_map hadd]
    apply empty.insertAll
    intro a ha b hb
    obtain ⟨i, hi, rfl⟩ := mem_keys_map.mp ha
    obtain ⟨j, hj, rfl⟩ := mem_keys_map.mp hb
    exact agrees i (sub hi) j (sub hj)
  obtain ⟨root, run, represents⟩ := runs pairs (List.Subset.refl _)
  refine ⟨root, run, represents.ordered, represents.balanced, ?_, ?_⟩
  · intro key
    rw [hlookup]
    exact represents.find back exact agrees key
  · rintro before key value rfl
    obtain ⟨root', run', represents'⟩ := runs before (by simp)
    have agreesLast : ∀ k ∈ (before.map (Prod.map conv val)).map Prod.fst,
        Agrees comp rank (conv key) k := by
      intro k hk
      obtain ⟨i, hi, rfl⟩ := mem_keys_map.mp hk
      apply agrees key (by simp) i
      rw [List.map_append]
      exact List.mem_append_left _ hi
    obtain ⟨rv, m, step, -, fails, unchanged⟩ :=
      represents'.insert (val value) agreesLast
    rw [← hadd] at step
    have same : m = root := by
      rw [insertAll_concat, run', Option.bind_some, step] at run
      exact Option.some.inj run
    subst same
    refine ⟨root', rv, run', step, ?_, unchanged⟩
    rw [fails, mem_keys_map]
    constructor
    · rintro ⟨i, hi, heq⟩
      rwa [← (exact i key).mp (by rw [heq, exact])]
    · intro hkey
      exact ⟨key, hkey, rfl⟩

end Wrapped

theorem P2I_I2P (i : BitVec 32) : P2I (I2P i) = i := by
  unfold P2I I2P
  ext j hj
  rw [BitVec.getElem_setWidth, BitVec.getLsbD_signExtend, if_pos hj, BitVec.getLsbD_eq_getElem hj]
  simp only [Bool.and_eq_right_iff_imp, decide_eq_true_eq]
  omega

def address (ptr : Ptr) : Int := ptr.toNat

def intKey (ptr : Ptr) : Int := (P2I ptr).toInt

theorem agrees_ptr (a b : Ptr) : Agrees mapCompPtr address a b := by
  have order : a > b ↔ address b < address a := BitVec.lt_def.trans Int.ofNat_lt.symm
  have equal : a = b ↔ address a = address b := BitVec.toNat_eq.trans Int.ofNat_inj.symm
  constructor <;> simp only [mapCompPtr, order, equal]
  · split
    · omega
    · split <;> omega
  · split
    · omega
    · split <;> omega
  · split
    · omega
    · split <;> omega

theorem mapCompInt_eq_zero (a b : BitVec 32) : mapCompInt (I2P a) (I2P b) = 0 ↔ a = b := by
  rw [mapCompInt, P2I_I2P, P2I_I2P, ← BitVec.toInt_zero (w := 32), BitVec.toInt_inj,
    BitVec.sub_eq_iff_eq_add, BitVec.zero_add]

theorem agrees_int {a b : BitVec 32} (close : a.ssubOverflow b = false) :
    Agrees mapCompInt intKey (I2P a) (I2P b) := by
  have difference : mapCompInt (I2P a) (I2P b) = a.toInt - b.toInt := by
    simp only [BitVec.ssubOverflow, Bool.or_eq_false_iff, decide_eq_false_iff_not] at close
    rw [mapCompInt, P2I_I2P, P2I_I2P, BitVec.toInt_sub]
    apply Int.bmod_eq_of_le <;> omega
  constructor
  · rw [mapCompInt_eq_zero]
    constructor
    · rintro rfl
      rfl
    · intro h
      rw [← P2I_I2P a, h, P2I_I2P]
  · rw [difference, intKey, intKey, P2I_I2P, P2I_I2P]
    omega
  · rw [difference, intKey, intKey, P2I_I2P, P2I_I2P]
    omega

/-- No difference of two keys leaves the range of an `int`. -/
def NoOverflow (keys : List (BitVec 32)) : Prop :=
  ∀ a ∈ keys, ∀ b ∈ keys, a.ssubOverflow b = false

/-- Keys around the circle of the integers: the subtraction puts the second below the
first, the third above the first and the second above the third. -/
def circle : List (BitVec 32 × Ptr) :=
  [(0, 1), (0xA0000000, 2), (0x40000000, 3), (0x20000000, 4), (0x50000000, 5), (0x60000000, 6)]

/-- How many keys `tgf_map_find` compares. -/
def mapFindCount (comp : Ptr → Ptr → Int) (key : Ptr) : MapNode → Nat
  | .nil => 0
  | .node left _ pKey _ right =>
    let cr := comp key pKey
    if cr = 0 then 1
    else if cr > 0 then mapFindCount comp key right + 1
    else mapFindCount comp key left + 1

theorem mapFindCount_le (comp : Ptr → Ptr → Int) (key : Ptr) (t : MapNode) :
    mapFindCount comp key t ≤ t.height := by
  induction t with
  | nil => exact le_rfl
  | node l b k v r ihl ihr =>
    rw [mapFindCount, height_node]
    split
    · omega
    · split <;> omega

/-- Whatever the comparison is like, insertions end, and each makes one entry more at most. -/
theorem insertAll_count (comp : Ptr → Ptr → Int) (pairs : List (Ptr × Ptr)) {root : MapNode}
    (balanced : root.Balanced) :
    ∃ m, insertAll (mapInsert comp) pairs root = some m ∧ m.Balanced ∧
      m.entries.length ≤ root.entries.length + pairs.length := by
  induction pairs generalizing root with
  | nil => exact ⟨root, rfl, balanced, le_rfl⟩
  | cons pair pairs ih =>
    obtain ⟨key, value⟩ := pair
    obtain ⟨rv, m, run, balanced', inserted⟩ := mapInsert_spec comp key value balanced
    have longer : m.entries.length ≤ root.entries.length + 1 := by
      rcases inserted with ⟨-, rfl, -⟩ | ⟨-, free, -, same, entries⟩
      · exact Nat.le_succ _
      · rw [entries, ← same, entries_plug]
        simp only [entries_nil, List.length_append, List.length_cons, List.length_nil]
        omega
    obtain ⟨m', rest, last, count⟩ := ih balanced'
    refine ⟨m', ?_, last, ?_⟩
    · simp only [insertAll, run, Option.bind_some, rest]
    · rw [List.length_cons]
      omega

end ScCore.Tgf
