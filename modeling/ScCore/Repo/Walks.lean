import ScCore.Repo.Directories
import Mathlib.Data.List.TakeWhile

/-!
# Walks through directories

The URIs under which directories are reached, how `find_dirent` follows a path to an
entry of one of them, and how a normalized URI is taken apart again.
-/

namespace ScCore.Repo

/-! ## Strings -/

section Strings

variable {b name s t uri : Uri} {c : Char} {slash : Bool}

def IsName (name : Uri) : Prop := name ≠ [] ∧ '/' ∉ name

theorem normalizeFrom_of_head (h : s.head? ≠ some '/') (slash : Bool) :
    normalizeFrom slash s = normalizeFrom false s := by
  cases s with
  | nil => simp [normalizeFrom]
  | cons c s =>
    have hc : c ≠ '/' := by simpa using h
    simp [normalizeFrom, hc]

theorem normalizeFrom_append (h : '/' ∉ name) (slash : Bool) :
    normalizeFrom slash (name ++ s) =
      name ++ normalizeFrom (if name = [] then slash else false) s := by
  induction name generalizing slash with
  | nil => simp
  | cons c name ih =>
    obtain ⟨hc, hname⟩ := not_or.mp (mt List.mem_cons.mpr h)
    rw [List.cons_append, normalizeFrom, if_neg (Ne.symm hc), ih hname]
    cases name <;> simp

theorem stripSlashes_append (h : IsName name) : stripSlashes (b ++ name) = b ++ name := by
  obtain ⟨c, hc⟩ : ∃ c, name.reverse.head? = some c := by
    cases hr : name.reverse with
    | nil => exact absurd (List.reverse_eq_nil_iff.mp hr) h.1
    | cons c _ => exact ⟨c, rfl⟩
  obtain ⟨l, hl⟩ := List.head?_eq_some_iff.mp hc
  have plain : c ≠ '/' := by
    rintro rfl
    exact h.2 (List.mem_reverse.mp (hl ▸ List.mem_cons_self))
  rw [stripSlashes, List.reverse_append, hl, List.cons_append, List.dropWhile_cons,
    if_neg (by simpa using plain), ← List.cons_append, ← hl, List.reverse_append,
    List.reverse_reverse, List.reverse_reverse]

theorem parts_of_append (h : '/' ∉ name) :
    lastPart (b ++ ['/'] ++ name) = name ∧ upToLast (b ++ ['/'] ++ name) = b ++ ['/'] := by
  have all : ∀ c ∈ name.reverse, decide (c ≠ '/') = true := by
    intro c hc
    refine decide_eq_true fun same => h ?_
    rw [← same]
    exact List.mem_reverse.mp hc
  constructor
  · rw [lastPart, List.reverse_append, List.takeWhile_append_of_pos all]
    simp
  · rw [upToLast, List.reverse_append, List.dropWhile_append_of_pos all]
    simp

theorem takeWhile_name (h : '/' ∉ name) :
    (name ++ '/' :: s).takeWhile (· ≠ '/') = name := by
  have all : ∀ c ∈ name, decide (c ≠ '/') = true := by
    intro c hc
    refine decide_eq_true fun same => h ?_
    rwa [← same]
  rw [List.takeWhile_append_of_pos all]
  simp

theorem normalizeFrom_letter (hc : c ≠ '/') (slash : Bool) : normalizeFrom slash (s ++ c :: t) =
    normalizeFrom slash (s ++ [c]) ++ normalizeFrom false t := by
  induction s generalizing slash with
  | nil => simp [normalizeFrom, hc]
  | cons x s ih =>
    rw [List.cons_append, List.cons_append, normalizeFrom, normalizeFrom]
    split
    · split
      · rw [ih]
      · rw [ih, List.cons_append]
    · rw [ih, List.cons_append]

theorem normalizeFrom_slashes (h : IsName name) (k : Nat) :
    normalizeFrom true (List.replicate k '/' ++ name) = name := by
  induction k with
  | zero => simpa [normalizeFrom, h.1] using normalizeFrom_append (s := []) h.2 true
  | succ k ih =>
    rw [List.replicate_succ, List.cons_append, normalizeFrom, if_pos rfl, if_pos rfl, ih]

theorem normalizeFrom_name (h : IsName name) (slash : Bool) :
    normalizeFrom slash (s ++ '/' :: name) = normalizeFrom slash (s ++ ['/']) ++ name := by
  have plain (slash : Bool) : normalizeFrom slash name = name := by
    simpa [normalizeFrom] using normalizeFrom_append (s := []) h.2 slash
  induction s generalizing slash with
  | nil => cases slash <;> simp [normalizeFrom, plain]
  | cons c s ih =>
    rw [List.cons_append, List.cons_append, normalizeFrom, normalizeFrom]
    split
    · split
      · exact ih true
      · rw [ih, List.cons_append]
    · rw [ih, List.cons_append]

theorem normalizeFrom_slash (s : Uri) (slash : Bool) :
    (slash = true ∧ normalizeFrom slash (s ++ ['/']) = []) ∨
      ∃ t, normalizeFrom slash (s ++ ['/']) = t ++ ['/'] := by
  induction s generalizing slash with
  | nil =>
    cases slash with
    | true => exact .inl ⟨rfl, rfl⟩
    | false => exact .inr ⟨[], rfl⟩
  | cons c s ih =>
    rw [List.cons_append, normalizeFrom]
    split
    · split
      · next skips => exact skips ▸ ih true
      · rcases ih true with ⟨-, none⟩ | ⟨t, ht⟩
        · exact .inr ⟨[], by rw [none]; rfl⟩
        · exact .inr ⟨'/' :: t, by rw [ht]; rfl⟩
    · rcases ih false with ⟨impossible, -⟩ | ⟨t, ht⟩
      · cases impossible
      · exact .inr ⟨c :: t, by rw [ht]; rfl⟩

theorem slash_mem_normalizeFrom (h : '/' ∈ s) : '/' ∈ normalizeFrom false s := by
  induction s with
  | nil => cases h
  | cons c s ih =>
    rw [normalizeFrom]
    split
    · exact List.mem_cons_self
    · next letter =>
      rcases List.mem_cons.mp h with same | h
      · exact absurd same.symm letter
      · exact List.mem_cons_of_mem c (ih h)

theorem eq_of_findRepo {r : RepoId} (h : findRepo uri = some (r, s)) : uri = r.uri ++ s := by
  rw [findRepo] at h
  split at h
  · cases h
  · next rooted =>
    have rooted : uri.head? = some '/' := not_not.mp rooted
    split at h
    · next tmp =>
      cases h
      exact (List.prefix_iff_eq_append.mp (List.isPrefixOf_iff_prefix.mp tmp)).symm
    · split at h
      · next proc =>
        cases h
        exact (List.prefix_iff_eq_append.mp (List.isPrefixOf_iff_prefix.mp proc)).symm
      · cases h
        obtain ⟨l, rfl⟩ := List.head?_eq_some_iff.mp rooted
        rfl

end Strings

/-! ## Directories under URIs -/

def mounts : List Uri := ["tmp".toList, "proc".toList]

theorem plain_of_mem_mounts {name : Uri} (h : name ∈ mounts) : '/' ∉ name := by
  rcases List.mem_cons.mp h with rfl | h
  · decide
  · rw [List.mem_singleton.mp h]
    decide

inductive Leads (ds : Dirs) : DirId → Uri → Prop where
  | root (r : RepoId) : Leads ds r.dir r.uri
  | sub {d d' : DirId} {b name : Uri} : Leads ds d b → IsName name →
      ¬(b = ['/'] ∧ name ∈ mounts) → ds.find d name = some ⟨name, .dir d'⟩ →
      Leads ds d' (b ++ name ++ ['/'])

/-- What is kept of the directories: no entry is without a name, every directory but the roots
has one entry that leads to it, and nothing is in those at which repositories are mounted. -/
structure Tree (ds : Dirs) : Prop where
  named : ∀ d, ds.find d [] = none
  inner : ∀ {d name x}, ds.find d name = some ⟨name, .dir x⟩ → 3 ≤ x ∧ x < ds.next
  inj : ∀ {d name d' name' x}, ds.find d name = some ⟨name, .dir x⟩ →
    ds.find d' name' = some ⟨name', .dir x⟩ → d = d' ∧ name = name'
  mounted : ∀ name ∈ mounts, ∃ x, ds.find 0 name = some ⟨name, .dir x⟩ ∧ ds.contents x = []
  above : ∀ x, ds.next ≤ x → ds.contents x = []
  roots : 3 ≤ ds.next

variable {ds : Dirs} {d d' : DirId} {b name read s t : Uri} {e : Dirent} {skipping : Bool}

theorem Dirs.name_of_find (h : ds.find d name = some e) : e.name = name := by
  have named := List.find?_some h
  exact decide_eq_true_eq.mp named

theorem Leads.ends (h : Leads ds d b) : ∃ b', b = b' ++ ['/'] := by
  cases h with
  | root r =>
    cases r with
    | root => exact ⟨[], rfl⟩
    | tmp => exact ⟨"/tmp".toList, rfl⟩
    | proc => exact ⟨"/proc".toList, rfl⟩
  | sub => exact ⟨_, rfl⟩

theorem Leads.eq_root (h : Leads ds d b) (root : b = ['/']) : d = 0 := by
  cases h with
  | root r =>
    cases r with
    | root => rfl
    | tmp => cases root
    | proc => cases root
  | @sub d₀ _ b₀ name₀ _ named =>
    rw [← List.nil_append ['/']] at root
    have empty := List.append_inj_left' root rfl
    exact absurd (List.append_eq_nil_iff.mp empty).2 named.1

theorem Dirs.findFrom_of_empty (empty : ds.contents d = []) :
    ds.findFrom d read skipping s = none := by
  have none : ∀ name, ds.find d name = none := fun name => by rw [find, empty]; rfl
  induction s generalizing read skipping with
  | nil => rw [findFrom, none]
  | cons c s ih =>
    rw [findFrom]
    split
    · split
      · exact ih
      · rw [none]
    · exact ih

theorem Leads.findFrom (h : Leads ds d b) (ok : Tree ds) (plain : '/' ∉ read)
    (start : skipping = true → read = []) (hf : ds.findFrom d read skipping s = some e) :
    ∃ d' b', Leads ds d' b' ∧ ds.find d' e.name = some e ∧ '/' ∉ e.name ∧
      b' ++ e.name = b ++ read ++ normalizeFrom skipping s := by
  induction s generalizing d b read skipping with
  | nil =>
    rw [Dirs.findFrom] at hf
    obtain rfl := Dirs.name_of_find hf
    exact ⟨d, b, h, hf, plain, by simp [normalizeFrom]⟩
  | cons c s ih =>
    rw [Dirs.findFrom] at hf
    rw [normalizeFrom]
    by_cases slash : c = '/'
    · rw [if_pos slash] at hf ⊢
      cases skipping with
      | true => exact ih h plain start hf
      | false =>
        rw [if_neg Bool.false_ne_true] at hf ⊢
        split at hf
        · cases hf
        · cases hf
        · next name d₁ found =>
          obtain rfl : name = read := Dirs.name_of_find found
          have named : IsName name := by
            refine ⟨?_, plain⟩
            rintro rfl
            rw [ok.named] at found
            cases found
          by_cases mount : b = ['/'] ∧ name ∈ mounts
          · -- what is mounted there is another repository
            obtain ⟨x, found', empty⟩ := ok.mounted name mount.2
            rw [h.eq_root mount.1, found'] at found
            cases found
            rw [Dirs.findFrom_of_empty empty] at hf
            cases hf
          · obtain ⟨d', b', h', found', plain', eq⟩ :=
              ih (h.sub named mount found) List.not_mem_nil (fun _ => rfl) hf
            exact ⟨d', b', h', found', plain', by rw [eq]; simp⟩
    · rw [if_neg slash] at hf ⊢
      have plain' : '/' ∉ read ++ [c] := by
        simpa using ⟨plain, Ne.symm slash⟩
      obtain ⟨d', b', h', found', plain'', eq⟩ :=
        @ih d b (read ++ [c]) false h plain' Bool.noConfusion hf
      exact ⟨d', b', h', found', plain'', by rw [eq]; simp⟩

theorem Dirs.findFrom_name (h : '/' ∉ name) :
    ds.findFrom d read skipping (name ++ s) =
      ds.findFrom d (read ++ name) (if name = [] then skipping else false) s := by
  induction name generalizing read skipping with
  | nil => simp
  | cons c name ih =>
    obtain ⟨hc, hname⟩ := not_or.mp (mt List.mem_cons.mpr h)
    rw [List.cons_append, findFrom, if_neg (Ne.symm hc), ih hname]
    cases name <;> simp

theorem Dirs.findFrom_of_head (h : s.head? ≠ some '/') (skipping : Bool) :
    ds.findFrom d read skipping s = ds.findFrom d read false s := by
  cases s with
  | nil => rfl
  | cons c s =>
    have hc : c ≠ '/' := by simpa using h
    rw [findFrom, if_neg hc, findFrom, if_neg hc]

theorem findRepo_append (r : RepoId)
    (other : r = .root → ∀ name ∈ mounts, ¬ (name ++ ['/']) <+: t) :
    findRepo (r.uri ++ t) = some (r, t) := by
  cases r with
  | root =>
    have tmp : ¬ RepoId.tmp.uri.isPrefixOf (RepoId.root.uri ++ t) := fun pre =>
      other rfl "tmp".toList List.mem_cons_self
        (List.cons_prefix_cons.mp (List.isPrefixOf_iff_prefix.mp pre)).2
    have proc : ¬ RepoId.proc.uri.isPrefixOf (RepoId.root.uri ++ t) := fun pre =>
      other rfl "proc".toList (List.mem_cons_of_mem _ List.mem_cons_self)
        (List.cons_prefix_cons.mp (List.isPrefixOf_iff_prefix.mp pre)).2
    rw [findRepo, if_neg tmp, if_neg proc]
    rfl
  | tmp => rfl
  | proc => rfl

def Below (b t : Uri) : Prop :=
  t ≠ [] ∧ t.head? ≠ some '/' ∧ (b = ['/'] → ∀ name ∈ mounts, ¬ (name ++ ['/']) <+: t)

theorem IsName.head (h : IsName name) : (name ++ t).head? ≠ some '/' := by
  cases hname : name with
  | nil => exact absurd hname h.1
  | cons c l =>
    intro same
    rw [hname] at h
    have hc : c = '/' := by simpa using same
    exact h.2 (hc ▸ List.mem_cons_self)

theorem IsName.below (h : IsName name) (b : Uri) : Below b name := by
  refine ⟨h.1, by simpa using h.head (t := []), fun _ m _ pre => h.2 ?_⟩
  exact pre.subset (List.mem_append_right m List.mem_cons_self)

theorem IsName.below_slash (h : IsName name) (mount : ¬(b = ['/'] ∧ name ∈ mounts)) :
    Below b (name ++ '/' :: t) := by
  refine ⟨by simp, h.head, ?_⟩
  rintro root m hm ⟨rest, eq⟩
  have same : m = name := by
    have both : m ++ '/' :: rest = name ++ '/' :: t := by simpa using eq
    have taken := congrArg (List.takeWhile (· ≠ '/')) both
    rwa [takeWhile_name (plain_of_mem_mounts hm), takeWhile_name h.2] at taken
  exact mount ⟨root, same ▸ hm⟩

theorem Leads.resolve (h : Leads ds d b) : ∃ r pre, ∀ t, Below b t →
    findRepo (b ++ t) = some (r, pre ++ t) ∧
      ds.findDirent r (pre ++ t) = some (ds.findFrom d [] false t) := by
  induction h with
  | root r =>
    refine ⟨r, [], fun t ⟨_, head, other⟩ => ⟨findRepo_append r ?_, ?_⟩⟩
    · rintro rfl
      exact other rfl
    · rw [List.nil_append, Dirs.findDirent, if_neg head]
  | @sub d d' b name h named mount found ih =>
    obtain ⟨r, pre, ih⟩ := ih
    refine ⟨r, pre ++ name ++ ['/'], fun t ⟨_, head, _⟩ => ?_⟩
    obtain ⟨hrepo, hf⟩ := ih _ (named.below_slash (t := t) mount)
    have regroup (u : Uri) : u ++ name ++ ['/'] ++ t = u ++ (name ++ '/' :: t) := by simp
    rw [regroup, regroup]
    refine ⟨hrepo, ?_⟩
    rw [hf, Dirs.findFrom_name named.2, if_neg named.1]
    simp [Dirs.findFrom, found, Dirs.findFrom_of_head head true]

theorem Dirs.findFrom_isName (h : '/' ∉ name) : ds.findFrom d [] false name = ds.find d name := by
  have read := @findFrom_name ds d name [] [] false h
  simpa [findFrom] using read

/-! ## New entries -/

section Add

variable {d₀ : DirId}

theorem Dirs.find_add_of_some (h : ds.find d name = some e) (d₀ : DirId) (e₀ : Dirent) :
    (ds.add d₀ e₀).find d name = some e := by
  rw [find_add, h, Option.some_or]

variable {e₀ : Dirent}

theorem Dirs.find_add_some (hf : (ds.add d₀ e₀).find d name = some e) :
    ds.find d name = some e ∨ ds.find d name = none ∧ d = d₀ ∧ name = e₀.name ∧ e = e₀ := by
  rw [find_add] at hf
  cases old : ds.find d name with
  | some e' =>
    rw [old] at hf
    exact .inl hf
  | none =>
    rw [old, Option.none_or] at hf
    split at hf
    · next here => exact .inr ⟨rfl, here.1, here.2.symm, (Option.some.inj hf).symm⟩
    · cases hf

theorem Leads.of_next {n : DirId} (h : Leads { ds with next := n } d b) : Leads ds d b := by
  induction h with
  | root r => exact .root r
  | sub _ named mount found ih => exact ih.sub named mount found

theorem Leads.next (h : Leads ds d b) (n : DirId) : Leads { ds with next := n } d b := by
  induction h with
  | root r => exact .root r
  | sub _ named mount found ih => exact ih.sub named mount found

theorem Leads.add (h : Leads ds d b) (d₀ : DirId) (e₀ : Dirent) : Leads (ds.add d₀ e₀) d b := by
  induction h with
  | root r => exact .root r
  | sub _ named mount found ih => exact ih.sub named mount (Dirs.find_add_of_some found d₀ e₀)

theorem Leads.of_add (fresh : ∀ n, e₀.target = .dir n → n ≠ d₀ ∧ ds.contents n = [])
    (h : Leads (ds.add d₀ e₀) d b) : Leads ds d b ∨
      ∃ b₀, Leads ds d₀ b₀ ∧ IsName e₀.name ∧ ¬(b₀ = ['/'] ∧ e₀.name ∈ mounts) ∧
        ds.find d₀ e₀.name = none ∧ e₀.target = .dir d ∧ b = b₀ ++ e₀.name ++ ['/'] := by
  induction h with
  | root r => exact .inl (.root r)
  | @sub d d' b name _ named mount found ih =>
    rw [Dirs.find_add] at found
    cases old : ds.find d name with
    | some e =>
      rw [old] at found
      cases found
      rcases ih with before | ⟨b₀, -, -, -, -, target, -⟩
      · exact .inl (before.sub named mount old)
      · rw [Dirs.find, (fresh d target).2] at old
        cases old
    | none =>
      rw [old, Option.none_or] at found
      split at found
      · next here =>
        obtain ⟨rfl, rfl⟩ := here
        have target : e₀.target = .dir d' := congrArg Dirent.target (Option.some.inj found)
        rcases ih with before | ⟨b₀, -, -, -, -, here, -⟩
        · exact .inr ⟨b, before, named, mount, old, target, rfl⟩
        · exact absurd rfl (fresh d here).1
      · cases found

theorem Leads.uri_root (h : Leads ds d b) (ok : Tree ds) (root : d = 0) : b = ['/'] := by
  cases h with
  | root r =>
    cases r with
    | root => rfl
    | tmp => cases root
    | proc => cases root
  | sub _ _ _ found => exact absurd (root ▸ (ok.inner found).1) (by decide)

theorem Leads.not_mount (h : Leads ds d b) (ok : Tree ds) {x : DirId} (hm : name ∈ mounts)
    (found : ds.find 0 name = some ⟨name, .dir x⟩) : d ≠ x := by
  rintro rfl
  cases h with
  | root r =>
    have := (ok.inner found).1
    cases r <;> simp [RepoId.dir] at this
  | @sub d₁ _ b₁ name₁ h₁ _ mount found₁ =>
    obtain ⟨rfl, rfl⟩ := ok.inj found₁ found
    exact mount ⟨h₁.uri_root ok rfl, hm⟩

theorem Leads.lt_next (h : Leads ds d b) (ok : Tree ds) : d < ds.next := by
  cases h with
  | root r => exact Nat.lt_of_lt_of_le (by cases r <;> decide) ok.roots
  | sub _ _ _ found => exact (ok.inner found).2

theorem Tree.add (ok : Tree ds) {b₀ : Uri} {n : DirId} (h : Leads ds d₀ b₀) (named : e₀.name ≠ [])
    (grows : ds.next ≤ n) (fresh : ∀ x, e₀.target = .dir x → x = ds.next ∧ x < n) :
    Tree ({ ds with next := n }.add d₀ e₀) := by
  have find_new {d : DirId} {name : Uri} {e : Dirent}
      (hf : ({ ds with next := n }.add d₀ e₀).find d name = some e) :
      ds.find d name = some e ∨ ds.find d name = none ∧ d = d₀ ∧ name = e₀.name ∧ e = e₀ :=
    Dirs.find_add_some hf
  refine ⟨fun d => ?_, fun {d name x} hf => ?_, fun {d name d' name' x} hf hf' => ?_,
    fun name hm => ?_, fun x hx => ?_, Nat.le_trans ok.roots grows⟩
  · by_contra found
    obtain ⟨e, found⟩ := Option.ne_none_iff_exists'.mp found
    rcases find_new found with old | ⟨-, -, empty, -⟩
    · rw [ok.named] at old
      cases old
    · exact named empty.symm
  · rcases find_new hf with old | ⟨-, -, -, rfl⟩
    · exact ⟨(ok.inner old).1, Nat.lt_of_lt_of_le (ok.inner old).2 grows⟩
    · obtain ⟨rfl, lt⟩ := fresh x rfl
      exact ⟨ok.roots, lt⟩
  · rcases find_new hf with old | ⟨-, rfl, rfl, eq⟩
    · rcases find_new hf' with old' | ⟨-, -, -, eq'⟩
      · exact ok.inj old old'
      · have new := (fresh x (congrArg Dirent.target eq'.symm)).1
        exact absurd new (Nat.ne_of_lt (ok.inner old).2)
    · rcases find_new hf' with old' | ⟨-, rfl, rfl, -⟩
      · have new := (fresh x (congrArg Dirent.target eq.symm)).1
        exact absurd new (Nat.ne_of_lt (ok.inner old').2)
      · exact ⟨rfl, rfl⟩
  · obtain ⟨x, found, empty⟩ := ok.mounted name hm
    have old : ({ ds with next := n } : Dirs).find 0 name = some ⟨name, .dir x⟩ := found
    refine ⟨x, Dirs.find_add_of_some old d₀ e₀, ?_⟩
    rw [Dirs.add]
    exact (if_neg (h.not_mount ok hm found).symm).trans empty
  · have lt := h.lt_next ok
    rw [Dirs.add]
    have other : x ≠ d₀ := by
      rintro rfl
      exact absurd (Nat.le_trans grows hx) (Nat.not_le.mpr lt)
    exact (if_neg other).trans (ok.above x (Nat.le_trans grows hx))

end Add

/-! ## The directory of a new entry -/

theorem takeWhile_slashes (s : Uri) :
    s.takeWhile (· = '/') = List.replicate (s.takeWhile (· = '/')).length '/' :=
  List.eq_replicate_of_mem fun c hc => by simpa using List.mem_takeWhile_imp hc

theorem dropWhile_split {p : Char → Bool} {l rest : Uri} {x : Char}
    (h : l.dropWhile p = x :: rest) : l = l.takeWhile p ++ x :: rest ∧ p x = false := by
  refine ⟨by rw [← h, List.takeWhile_append_dropWhile], ?_⟩
  have first := List.head?_dropWhile_not p l
  rwa [h] at first

variable {r : RepoId} {dir : Bool} {parent n : Uri}

/-- A path is that of a directory, slashes and the name, if it is not the name alone. -/
theorem Dirs.findDirectory_some (hf : ds.findDirectory r s dir = some (some (d, name))) :
    name ≠ [] ∧ ((name = s ∧ d = r.dir) ∨ ∃ parent c k n, c ≠ '/' ∧
      s = parent ++ c :: List.replicate (k + 1) '/' ++ name ∧
      ds.findDirent r (parent ++ [c]) = some (some ⟨n, .dir d⟩)) := by
  rw [findDirectory] at hf
  split at hf
  · cases hf
  · next nonempty =>
    split at hf
    · cases hf
    · generalize hsl : (if dir then s.reverse.takeWhile (· = '/') else []) = slashes at hf
      have hs : s = (s.reverse.drop slashes.length).reverse ++ slashes := by
        have whole : s.reverse = slashes ++ s.reverse.drop slashes.length ∧
            slashes.reverse = slashes := by
          rw [← hsl]
          split
          · refine ⟨(List.prefix_iff_eq_append.mp (List.takeWhile_prefix _)).symm, ?_⟩
            rw [takeWhile_slashes, List.reverse_replicate]
          · exact ⟨rfl, rfl⟩
        have both := congrArg List.reverse whole.1
        rwa [List.reverse_reverse, List.reverse_append, whole.2] at both
      dsimp only at hf
      generalize s.reverse.drop slashes.length = path at hf hs
      split at hf
      · cases hf
      · cases hf
      · next first letter =>
        split at hf
        · cases hf
          exact ⟨nonempty, .inl ⟨rfl, rfl⟩⟩
        · cases hf
          exact ⟨nonempty, .inl ⟨rfl, rfl⟩⟩
        · next sep before _ rest =>
          obtain ⟨hpath, hsep⟩ := dropWhile_split rest
          obtain rfl : sep = '/' := by simpa using hsep
          split at hf
          · cases hf
          · next _ hparent =>
            obtain ⟨c, parent, more⟩ := List.exists_cons_of_ne_nil hparent
            obtain ⟨hbefore, hc⟩ := dropWhile_split more
            rw [more] at hf
            obtain ⟨found, hf', hr⟩ := Option.bind_eq_some_iff.mp hf
            split at hr
            · next n d' =>
              cases hr
              have named : path.takeWhile (· ≠ '/') ≠ [] := by
                cases path with
                | nil => exact absurd rfl first
                | cons x l =>
                  have hx : x ≠ '/' := fun same => letter l (by rw [same])
                  simp [hx]
              refine ⟨fun h => named (List.reverse_eq_nil_iff.mp (List.append_eq_nil_iff.mp h).1),
                .inr ⟨parent.reverse, c, (before.takeWhile (· = '/')).length, n,
                  by simpa using hc, ?_, by simpa using hf'⟩⟩
              have back : path.reverse = parent.reverse ++
                  c :: List.replicate ((before.takeWhile (· = '/')).length + 1) '/' ++
                    (path.takeWhile (· ≠ '/')).reverse := by
                conv_lhs => rw [hpath, hbefore, takeWhile_slashes]
                simp [List.replicate_succ']
              rw [hs, back, List.append_assoc]
            · cases hr

theorem normalizeUri_append (r : RepoId) (t : Uri) :
    normalizeUri (r.uri ++ t) = r.uri ++ normalizeFrom true t := by
  cases r <;> simp [normalizeUri, RepoId.uri, normalizeFrom]

theorem not_mounted_of_findRepo {uri : Uri} (h : findRepo uri = some (.root, s))
    (hm : name ∈ mounts) :
    ¬ (name ++ ['/']) <+: s := by
  intro pre
  have whole : uri = '/' :: s := eq_of_findRepo h
  rw [findRepo, whole] at h
  rcases List.mem_cons.mp hm with rfl | hm
  · have tmp : RepoId.tmp.uri.isPrefixOf ('/' :: s) = true :=
      List.isPrefixOf_iff_prefix.mpr (List.cons_prefix_cons.mpr ⟨rfl, pre⟩)
    rw [if_neg (by simp), if_pos tmp] at h
    cases h
  · obtain rfl := List.mem_singleton.mp hm
    have proc : RepoId.proc.uri.isPrefixOf ('/' :: s) = true :=
      List.isPrefixOf_iff_prefix.mpr (List.cons_prefix_cons.mpr ⟨rfl, pre⟩)
    rw [if_neg (by simp)] at h
    split at h
    · cases h
    · cases h

theorem findDirent_some (h : ds.findDirent r s = some (some e)) :
    s.head? ≠ some '/' ∧ ds.findFrom r.dir [] false s = some e := by
  rw [Dirs.findDirent] at h
  split at h
  · cases h
  · next head => exact ⟨head, Option.some.inj h⟩

theorem not_mount_of_parent {uri : Uri} {c : Char} (repo : findRepo uri = some (r, s))
    (below : (parent ++ [c] ++ ['/']) <+: s) (plain : '/' ∉ n)
    (eq : b ++ n = r.uri ++ normalizeFrom false (parent ++ [c])) : ¬(b = ['/'] ∧ n ∈ mounts) := by
  rintro ⟨rfl, hm⟩
  cases r with
  | root =>
    have eq : n = normalizeFrom false (parent ++ [c]) := List.tail_eq_of_cons_eq eq
    have plain' : '/' ∉ parent ++ [c] := fun slash => plain (eq ▸ slash_mem_normalizeFrom slash)
    have same : n = parent ++ [c] := by
      have := normalizeFrom_append (s := []) plain' false
      simp [normalizeFrom] at this
      rw [eq, this]
    exact not_mounted_of_findRepo repo hm (same ▸ below)
  | tmp =>
    have eq : n = "tmp/".toList ++ normalizeFrom false (parent ++ [c]) := List.tail_eq_of_cons_eq eq
    exact plain (by rw [eq]; exact List.mem_append_left _ (by decide))
  | proc =>
    have eq : n = "proc/".toList ++ normalizeFrom false (parent ++ [c]) :=
      List.tail_eq_of_cons_eq eq
    exact plain (by rw [eq]; exact List.mem_append_left _ (by decide))

theorem Tree.findDirectory (ok : Tree ds) {uri : Uri} (repo : findRepo uri = some (r, s))
    (hf : ds.findDirectory r s dir = some (some (d, name))) :
    ∃ b, Leads ds d b ∧ name ≠ [] ∧ ('/' ∉ name → b ++ name = normalizeUri uri) := by
  obtain ⟨nonempty, ⟨rfl, rfl⟩ | ⟨parent, c, k, n, hc, hs, found⟩⟩ := Dirs.findDirectory_some hf
  · refine ⟨r.uri, .root r, nonempty, fun plain => ?_⟩
    rw [eq_of_findRepo repo, normalizeUri_append]
    have := normalizeFrom_append (s := []) plain true
    simpa [normalizeFrom] using this.symm
  · obtain ⟨head, found⟩ := findDirent_some found
    have start : false = true → ([] : Uri) = [] := nofun
    obtain ⟨d', b', h', found', plain, eq⟩ :=
      (Leads.root r).findFrom ok List.not_mem_nil start found
    have named : IsName n := by
      refine ⟨?_, plain⟩
      rintro rfl
      rw [ok.named] at found'
      cases found'
    rw [List.append_nil] at eq
    have below : (parent ++ [c] ++ ['/']) <+: s :=
      ⟨List.replicate k '/' ++ name, by rw [hs]; simp [List.replicate_succ]⟩
    have mount := not_mount_of_parent repo below plain eq
    refine ⟨_, h'.sub named mount found', nonempty, fun plain' => ?_⟩
    have rest : s = parent ++ c :: ('/' :: (List.replicate k '/' ++ name)) := by
      rw [hs]
      simp [List.replicate_succ]
    have tail : normalizeFrom false ('/' :: (List.replicate k '/' ++ name)) = '/' :: name := by
      rw [normalizeFrom, if_pos rfl, if_neg Bool.false_ne_true,
        normalizeFrom_slashes ⟨nonempty, plain'⟩]
    rw [eq, eq_of_findRepo repo, normalizeUri_append, rest, normalizeFrom_letter hc true, tail,
      normalizeFrom_of_head head true]
    simp

theorem Tree.of_stat (ok : Tree ds) {uri : Uri} {rv : Retval} (repo : findRepo uri = some (r, s))
    (hr : ds.stat r s = some rv) (exists' : rv ≠ rvErrGen) :
    uri = r.uri ∨ ∃ d b e, Leads ds d b ∧ ds.find d e.name = some e ∧ IsName e.name ∧
      b ++ e.name = normalizeUri uri := by
  rw [Dirs.stat] at hr
  split at hr
  · next empty =>
    rw [eq_of_findRepo repo, empty, List.append_nil]
    exact .inl rfl
  · obtain ⟨found, hf, hr⟩ := Option.bind_eq_some_iff.mp hr
    cases found with
    | none =>
      cases hr
      exact absurd rfl exists'
    | some e =>
      obtain ⟨head, found⟩ := findDirent_some hf
      have start : false = true → ([] : Uri) = [] := nofun
      obtain ⟨d, b, h, found', plain, eq⟩ :=
        (Leads.root r).findFrom ok List.not_mem_nil start found
      refine .inr ⟨d, b, e, h, found', ⟨fun empty => ?_, plain⟩, ?_⟩
      · rw [empty, ok.named] at found'
        cases found'
      · rw [eq, eq_of_findRepo repo, normalizeUri_append, normalizeFrom_of_head head true,
          List.append_nil]

/-! ## Paths in the directory of a new entry -/

theorem Dirs.findFrom_cons {c : Char} (h : ds.findFrom d read skipping (c :: s) = some e) :
    (c = '/' ∧ skipping = true ∧ ds.findFrom d read true s = some e) ∨
      (c = '/' ∧ skipping = false ∧ ∃ n d', ds.find d read = some ⟨n, .dir d'⟩ ∧
        ds.findFrom d' [] true s = some e) ∨
      (c ≠ '/' ∧ ds.findFrom d (read ++ [c]) false s = some e) := by
  rw [findFrom] at h
  split at h
  · next slash =>
    cases skipping with
    | true => exact .inl ⟨slash, rfl, h⟩
    | false =>
      rw [if_neg Bool.false_ne_true] at h
      split at h
      · cases h
      · cases h
      · next n d' found => exact .inr (.inl ⟨slash, rfl, n, d', found, h⟩)
  · next letter => exact .inr (.inr ⟨letter, h⟩)

theorem Dirs.findFrom_skip : ds.findFrom d read true ('/' :: s) = ds.findFrom d read true s := by
  rw [findFrom, if_pos rfl, if_pos rfl]

theorem Dirs.findFrom_enter (found : ds.find d read = some ⟨n, .dir d'⟩) :
    ds.findFrom d read false ('/' :: s) = ds.findFrom d' [] true s := by
  rw [findFrom, if_pos rfl, if_neg Bool.false_ne_true, found]

theorem Dirs.findFrom_letter {c : Char} (hc : c ≠ '/') :
    ds.findFrom d read skipping (c :: s) = ds.findFrom d (read ++ [c]) false s := by
  rw [findFrom, if_neg hc]

theorem Dirs.findFrom_add (h : ds.findFrom d read skipping s = some e) (d₀ : DirId)
    (e₀ : Dirent) : (ds.add d₀ e₀).findFrom d read skipping s = some e := by
  induction s generalizing d read skipping with
  | nil => exact find_add_of_some h d₀ e₀
  | cons c s ih =>
    obtain ⟨rfl, rfl, h⟩ | ⟨rfl, rfl, n, d', found, h⟩ | ⟨hc, h⟩ := findFrom_cons h
    · rw [findFrom_skip, ih h]
    · rw [findFrom_enter (find_add_of_some found d₀ e₀), ih h]
    · rw [findFrom_letter hc, ih h]

theorem Dirs.findFrom_below {c : Char} (hc : c ≠ '/')
    (h : ds.findFrom d read skipping (parent ++ [c]) = some ⟨n, .dir d'⟩) :
    ds.findFrom d read skipping (parent ++ c :: '/' :: s) = ds.findFrom d' [] true s := by
  induction parent generalizing d read skipping with
  | nil =>
    rw [List.nil_append, findFrom_letter hc] at h ⊢
    exact findFrom_enter h
  | cons x parent ih =>
    rw [List.cons_append] at h ⊢
    obtain ⟨rfl, rfl, h⟩ | ⟨rfl, rfl, n, d₁, found, h⟩ | ⟨hx, h⟩ := findFrom_cons h
    · rw [findFrom_skip, ih h]
    · rw [findFrom_enter found, ih h]
    · rw [findFrom_letter hx, ih h]

theorem Dirs.findFrom_slashes (h : IsName name) (k : Nat) :
    ds.findFrom d [] true (List.replicate k '/' ++ name) = ds.find d name := by
  induction k with
  | zero =>
    rw [List.replicate_zero, List.nil_append, findFrom_of_head (h.below []).2.1,
      findFrom_isName h.2]
  | succ k ih => rw [List.replicate_succ, List.cons_append, findFrom, if_pos rfl, if_pos rfl, ih]

theorem Dirs.findDirent_add {e₀ : Dirent} (hf : ds.findDirectory r s dir = some (some (d, name)))
    (plain : '/' ∉ name) (head : s.head? ≠ some '/') :
    (ds.add d e₀).findDirent r s = some ((ds.add d e₀).find d name) := by
  rw [findDirent, if_neg head]
  obtain ⟨nonempty, ⟨rfl, rfl⟩ | ⟨parent, c, k, n, hc, hs, found⟩⟩ := findDirectory_some hf
  · rw [findFrom_isName plain]
  · obtain ⟨-, found⟩ := findDirent_some found
    have rest : s = parent ++ c :: '/' :: (List.replicate k '/' ++ name) := by
      rw [hs]
      simp [List.replicate_succ]
    rw [rest, findFrom_below hc (findFrom_add found d e₀), findFrom_slashes ⟨nonempty, plain⟩]

theorem Dirs.findDirectory_below {c : Char} (hc : c ≠ '/') (named : IsName name)
    (found : ds.findDirent r (parent ++ [c]) = some (some ⟨n, .dir d⟩)) :
    ds.findDirectory r (parent ++ [c] ++ '/' :: name) false = some (some (d, name)) := by
  have back : (parent ++ [c] ++ '/' :: name).reverse =
      name.reverse ++ '/' :: c :: parent.reverse := by simp
  have plain : '/' ∉ name.reverse := fun h => named.2 (List.mem_reverse.mp h)
  have taken := takeWhile_name (s := c :: parent.reverse) plain
  have dropped : (name.reverse ++ '/' :: c :: parent.reverse).dropWhile (· ≠ '/') =
      '/' :: c :: parent.reverse := by
    have whole := List.takeWhile_append_dropWhile (p := (· ≠ '/'))
      (l := name.reverse ++ '/' :: c :: parent.reverse)
    rw [taken] at whole
    exact List.append_cancel_left whole
  have long : parent ++ [c] ++ '/' :: name ≠ ['/'] := by
    intro same
    have length := congrArg List.length same
    simp only [List.length_append, List.length_cons, List.length_nil] at length
    omega
  have nonempty : parent ++ [c] ++ '/' :: name ≠ [] := by simp
  rw [findDirectory, if_neg nonempty, if_neg long]
  simp only [Bool.false_eq_true, if_false, List.length_nil, List.drop_zero, back, dropped, taken]
  split
  · next empty => simp at empty
  · next tail slash =>
    obtain ⟨x, l, hx⟩ := List.exists_cons_of_ne_nil (mt List.reverse_eq_nil_iff.mp named.1)
    rw [hx, List.cons_append] at slash
    rw [hx, (List.cons.inj slash).1] at plain
    exact absurd List.mem_cons_self plain
  · have kept : (c :: parent.reverse).dropWhile (· = '/') = c :: parent.reverse :=
      List.dropWhile_cons_of_neg (by simpa using hc)
    rw [kept]
    simp [found]

theorem Leads.unique (h : Leads ds d b) (ok : Tree ds) {b' : Uri} (h' : Leads ds d b') :
    b = b' := by
  induction h generalizing b' with
  | root r =>
    generalize hd : r.dir = d at h'
    cases h' with
    | root r' => cases r <;> cases r' <;> first | rfl | cases hd
    | sub _ _ _ found =>
      have inner := (ok.inner found).1
      rw [← hd] at inner
      cases r <;> exact absurd inner (by decide)
  | sub h₁ _ _ found ih =>
    cases h' with
    | root r =>
      exact absurd (ok.inner found).1 (by cases r <;> decide)
    | sub h₂ _ _ found' =>
      obtain ⟨rfl, rfl⟩ := ok.inj found found'
      rw [ih h₂]

end ScCore.Repo
