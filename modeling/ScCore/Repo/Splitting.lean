import ScCore.Repo.Walks
import Mathlib.Data.List.Induction

/-!
# Splitting of URIs

`basename` and `dirname` of `string_util.h` with their indices, which are numbers of 32
bits. Nothing stands for an index that is outside of the string.
-/

namespace ScCore.Repo

namespace StringUtil

/-- `(int)uri.size()`. -/
def size (uri : Uri) : Int := Int.bmod uri.length (2 ^ 32)

/-- `uri[i]`. Behind the last character there is a zero. -/
def charAt (uri : Uri) (i : Int) : Option Char :=
  if i = uri.length then some (Char.ofNat 0)
  else if i < 0 then none
  else uri[i.toNat]?

/-- The loop of `find_last_slash`. -/
def lastSlashFrom (uri : Uri) : Nat → Option Nat
  | 0 => some 0
  | i + 1 => (charAt uri (i + 1 : Nat)).bind fun c =>
      if c ≠ '/' then lastSlashFrom uri i else some (i + 1)

def findLastSlash (uri : Uri) (start : Int) : Option Int :=
  let i := if start < 0 then size uri - 1 else start
  if i ≤ 0 then some i else (lastSlashFrom uri i.toNat).map (↑)

def trimFrom (uri : Uri) : Nat → Option Nat
  | 0 => none
  | len + 1 => (charAt uri len).bind fun c =>
      if c = '/' then trimFrom uri len else some (len + 1)

def trim (uri : Uri) : Option Nat :=
  if size uri ≤ 0 then none else trimFrom uri (size uri).toNat

/-- `substr`. A negative position is a large one, and a negative length takes the rest. -/
def substr (uri : Uri) (pos n : Int) : Option Uri :=
  if pos < 0 ∨ uri.length < pos then none
  else some ((uri.drop pos.toNat).take (if n < 0 then uri.length else n.toNat))

def basename (uri : Uri) : Option Uri :=
  (trim uri).bind fun len =>
    (findLastSlash uri (len - 1)).bind fun i => substr uri (i + 1) (len - (i + 1))

/-- The loop of `dirname` over the slashes before the last name. -/
def skipFrom (uri : Uri) : Nat → Option Nat
  | 0 => some 0
  | i + 1 => (charAt uri (i + 1 : Nat)).bind fun c =>
      if c = '/' then skipFrom uri i else some (i + 1)

def dirname (uri : Uri) : Option Uri :=
  (trim uri).bind fun len =>
    (findLastSlash uri (len - 1)).bind fun i =>
      (skipFrom uri i.toNat).bind fun i => substr uri 0 (i + 1)

section Loops

variable {a b m t name uri : Uri} {x : Char} {n : Nat}

theorem charAt_middle (a t : Uri) {i : Nat} (low : a.length ≤ i)
    (below : i < a.length + m.length) : ∃ c ∈ m, charAt (a ++ (m ++ t)) i = some c := by
  have place : i - a.length < m.length := by omega
  have inside : (i : Int) ≠ (a ++ (m ++ t)).length := by
    rw [List.length_append, List.length_append]
    omega
  refine ⟨m[i - a.length], List.getElem_mem place, ?_⟩
  rw [charAt, if_neg inside, if_neg (by omega), Int.toNat_natCast,
    List.getElem?_append_right low, List.getElem?_append_left place,
    List.getElem?_eq_getElem place]

theorem charAt_append (a t : Uri) (x : Char) : charAt (a ++ x :: t) a.length = some x := by
  obtain ⟨c, hc, here⟩ := charAt_middle (m := [x]) a t le_rfl (Nat.lt_succ_self _)
  rwa [List.mem_singleton.mp hc] at here

theorem charAt_slash {i k : Nat} (low : a.length ≤ i) (below : i < a.length + k) :
    charAt (a ++ (List.replicate k '/' ++ t)) i = some '/' := by
  obtain ⟨c, hc, here⟩ := charAt_middle (m := List.replicate k '/') a t low
    (by rwa [List.length_replicate])
  rwa [List.eq_of_mem_replicate hc] at here

theorem trimFrom_skip {k : Nat} (h : ∀ i, n ≤ i → i < n + k → charAt uri i = some '/') :
    trimFrom uri (n + k) = trimFrom uri n := by
  induction k with
  | zero => rfl
  | succ k ih =>
    rw [← Nat.add_assoc, trimFrom, h (n + k) (by omega) (by omega), Option.bind_some, if_pos rfl]
    exact ih fun i hi hik => h i hi (by omega)

theorem skipFrom_skip {k : Nat} (h : ∀ i, n < i → i ≤ n + k → charAt uri i = some '/') :
    skipFrom uri (n + k) = skipFrom uri n := by
  induction k with
  | zero => rfl
  | succ k ih =>
    rw [← Nat.add_assoc, skipFrom, h (n + k + 1) (by omega) (by omega), Option.bind_some,
      if_pos rfl]
    exact ih fun i hi hik => h i hi (by omega)

theorem lastSlashFrom_skip {k : Nat}
    (h : ∀ i, n < i → i ≤ n + k → ∃ c, charAt uri i = some c ∧ c ≠ '/') :
    lastSlashFrom uri (n + k) = lastSlashFrom uri n := by
  induction k with
  | zero => rfl
  | succ k ih =>
    obtain ⟨c, hc, hne⟩ := h (n + k + 1) (by omega) (by omega)
    rw [← Nat.add_assoc, lastSlashFrom, hc, Option.bind_some, if_pos hne]
    exact ih fun i hi hik => h i hi (by omega)

theorem size_eq (h : uri.length < 2 ^ 31) : size uri = uri.length := by
  exact Int.bmod_eq_of_le (by omega) (by omega)

theorem trim_eq (k : Nat) (hx : x ≠ '/')
    (h : (a ++ [x] ++ List.replicate k '/').length < 2 ^ 31) :
    trim (a ++ [x] ++ List.replicate k '/') = some (a.length + 1) := by
  have length : (a ++ [x] ++ List.replicate k '/').length = a.length + 1 + k := by
    rw [List.length_append, List.length_append, List.length_singleton, List.length_replicate]
  have last : trimFrom (a ++ [x] ++ List.replicate k '/') (a.length + 1) =
      some (a.length + 1) := by
    rw [List.append_assoc, List.singleton_append, trimFrom, charAt_append, Option.bind_some,
      if_neg hx]
  rw [trim, size_eq h, if_neg (by omega), Int.toNat_natCast, length, trimFrom_skip, last]
  intro i hi hik
  have place : (a ++ [x]).length = a.length + 1 := by simp
  have slash := charAt_slash (a := a ++ [x]) (t := []) (i := i) (k := k)
    (by omega) (by omega)
  rwa [List.append_nil] at slash

theorem findLastSlash_eq (h : '/' ∉ name) (first : b = [] ∨ x = '/') :
    findLastSlash (b ++ x :: (name ++ t)) ((b.length + name.length : Nat) : Int) =
      some (b.length : Int) := by
  have stop : lastSlashFrom (b ++ x :: (name ++ t)) b.length = some b.length := by
    cases b with
    | nil => rfl
    | cons c b =>
      obtain hnil | rfl := first
      · cases hnil
      · have here := charAt_append (c :: b) (name ++ t) '/'
        rw [List.length_cons] at here ⊢
        rw [lastSlashFrom, here]
        rfl
  have found : lastSlashFrom (b ++ x :: (name ++ t)) (b.length + name.length) =
      some b.length := by
    rw [lastSlashFrom_skip, stop]
    intro i hi hin
    have place : (b ++ [x]).length = b.length + 1 := by simp
    obtain ⟨c, hc, here⟩ := charAt_middle (m := name) (b ++ [x]) t (i := i) (by omega) (by omega)
    rw [List.append_assoc, List.singleton_append] at here
    refine ⟨c, here, ?_⟩
    rintro rfl
    exact h hc
  have nonneg : ¬ ((b.length + name.length : Nat) : Int) < 0 := by omega
  simp only [findLastSlash, if_neg nonneg]
  split
  · have zero : b.length + name.length = 0 := by omega
    rw [zero, Nat.eq_zero_of_add_eq_zero_right zero]
  · rw [Int.toNat_natCast, found]
    rfl

theorem skipFrom_eq (k : Nat) (hx : x ≠ '/') (t : Uri) :
    skipFrom (a ++ [x] ++ (List.replicate k '/' ++ t)) (a.length + k) = some a.length := by
  have stop : skipFrom (a ++ [x] ++ (List.replicate k '/' ++ t)) a.length = some a.length := by
    have here := charAt_append a (List.replicate k '/' ++ t) x
    rw [← List.singleton_append, ← List.append_assoc] at here
    cases hlen : a.length with
    | zero => rfl
    | succ i =>
      rw [hlen] at here
      rw [skipFrom, here, Option.bind_some, if_neg hx]
  rw [skipFrom_skip, stop]
  intro i hi hik
  have place : (a ++ [x]).length = a.length + 1 := by simp
  exact charAt_slash (a := a ++ [x]) (by omega) (by omega)

theorem skipFrom_slashes (k : Nat) (t : Uri) :
    skipFrom (List.replicate (k + 1) '/' ++ t) k = some 0 := by
  have all : skipFrom (List.replicate (k + 1) '/' ++ t) (0 + k) =
      skipFrom (List.replicate (k + 1) '/' ++ t) 0 :=
    skipFrom_skip fun i _ hik => charAt_slash (a := []) (k := k + 1) (Nat.zero_le _) (by
      rw [List.length_nil]
      omega)
  rwa [Nat.zero_add] at all

end Loops

end StringUtil

section Forms

variable {a b name uri : Uri} {c x : Char} {k : Nat}

theorem stripSlashes_slashes (a : Uri) (k : Nat) :
    stripSlashes (a ++ List.replicate k '/') = stripSlashes a := by
  induction k with
  | zero => rw [List.replicate_zero, List.append_nil]
  | succ k ih =>
    rw [← ih, List.replicate_succ', ← List.append_assoc, stripSlashes, List.reverse_append,
      List.reverse_singleton, List.singleton_append, List.dropWhile_cons_of_pos (by simp),
      stripSlashes]

theorem stripSlashes_letter (hc : c ≠ '/') : stripSlashes (a ++ [c]) = a ++ [c] := by
  rw [stripSlashes, List.reverse_append, List.reverse_singleton, List.singleton_append,
    List.dropWhile_cons_of_neg (by simpa using hc), List.reverse_cons, List.reverse_reverse]

/-- A URI is made of slashes only, or there is a last character before those at its end. -/
theorem slashes_or_letter (uri : Uri) : (∃ k, uri = List.replicate k '/') ∨
    ∃ a c k, uri = a ++ [c] ++ List.replicate k '/' ∧ c ≠ '/' := by
  induction uri using List.reverseRecOn with
  | nil => exact .inl ⟨0, rfl⟩
  | append_singleton uri c ih =>
    by_cases hc : c = '/'
    · rw [hc]
      obtain ⟨k, rfl⟩ | ⟨a, c', k, rfl, hc'⟩ := ih
      · exact .inl ⟨k + 1, List.replicate_succ'.symm⟩
      · exact .inr ⟨a, c', k + 1, by rw [List.replicate_succ', List.append_assoc], hc'⟩
    · exact .inr ⟨uri, c, 0, by rw [List.replicate_zero, List.append_nil], hc⟩

theorem exists_last (a : Uri) (c : Char) :
    ∃ b x name, a ++ [c] = b ++ x :: name ∧ '/' ∉ name ∧ (b = [] ∨ x = '/') := by
  induction a using List.reverseRecOn generalizing c with
  | nil => exact ⟨[], c, [], rfl, by simp, .inl rfl⟩
  | append_singleton a c' ih =>
    by_cases hc : c = '/'
    · exact ⟨a ++ [c'], c, [], rfl, by simp, .inr hc⟩
    · obtain ⟨b, x, name, parts, plain, first⟩ := ih c'
      refine ⟨b, x, name ++ [c], by rw [parts]; simp, ?_, first⟩
      rw [List.mem_append, not_or, List.mem_singleton]
      exact ⟨plain, Ne.symm hc⟩

end Forms

namespace StringUtil

section Results

variable {a b name uri : Uri} {c x : Char} {k : Nat}

theorem basename_eq (plain : '/' ∉ name) (first : b = [] ∨ x = '/')
    (parts : a ++ [c] = b ++ x :: name) (hc : c ≠ '/')
    (short : (a ++ [c] ++ List.replicate k '/').length < 2 ^ 31) :
    basename (a ++ [c] ++ List.replicate k '/') = some name := by
  have length : a.length + 1 = b.length + (name.length + 1) := by
    simpa using congrArg List.length parts
  have place : ((a.length + 1 : Nat) : Int) - 1 = (b.length + name.length : Nat) := by omega
  have whole : a ++ [c] ++ List.replicate k '/' = b ++ x :: (name ++ List.replicate k '/') := by
    rw [parts, List.append_assoc, List.cons_append]
  have found := findLastSlash_eq (t := List.replicate k '/') plain first
  rw [← whole] at found
  have inside : ¬ (((b.length : Int) + 1 < 0) ∨
      ((a ++ [c] ++ List.replicate k '/').length : Int) < (b.length : Int) + 1) := by
    rw [whole, List.length_append, List.length_cons]
    omega
  have low : ((b.length : Int) + 1).toNat = (b ++ [x]).length := by simp
  have count : ¬ ((a.length + 1 : Nat) : Int) - ((b.length : Int) + 1) < 0 ∧
      (((a.length + 1 : Nat) : Int) - ((b.length : Int) + 1)).toNat = name.length := by omega
  rw [basename, trim_eq k hc short, Option.bind_some, place, found, Option.bind_some, substr,
    if_neg inside, if_neg count.1, count.2, low, whole, List.append_cons b x (name ++ _),
    List.drop_left, List.take_left]

theorem dirname_eq (plain : '/' ∉ name) (first : b = [] ∨ x = '/')
    (parts : a ++ [c] = b ++ x :: name) (hc : c ≠ '/')
    (short : (a ++ [c] ++ List.replicate k '/').length < 2 ^ 31) :
    dirname (a ++ [c] ++ List.replicate k '/') =
      some (if stripSlashes b = [] then [x] else stripSlashes b) := by
  have length : a.length + 1 = b.length + (name.length + 1) := by
    simpa using congrArg List.length parts
  have place : ((a.length + 1 : Nat) : Int) - 1 = (b.length + name.length : Nat) := by omega
  have whole : a ++ [c] ++ List.replicate k '/' = b ++ x :: (name ++ List.replicate k '/') := by
    rw [parts, List.append_assoc, List.cons_append]
  have found := findLastSlash_eq (t := List.replicate k '/') plain first
  rw [← whole] at found
  rw [dirname, trim_eq k hc short, Option.bind_some, place, found, Option.bind_some,
    Int.toNat_natCast, whole]
  obtain ⟨m, rfl⟩ | ⟨a', c', m, rfl, hc'⟩ := slashes_or_letter b
  · -- only the first character is left
    have none := stripSlashes_slashes [] m
    rw [List.nil_append] at none
    have zero : skipFrom (List.replicate m '/' ++ x :: (name ++ List.replicate k '/'))
        (List.replicate m '/').length = some 0 := by
      rw [List.length_replicate]
      obtain hnil | rfl := first
      · have hm : m = 0 := by simpa using hnil
        rw [hm]
        rfl
      · have := skipFrom_slashes m (name ++ List.replicate k '/')
        rwa [List.replicate_succ', List.append_assoc, List.singleton_append] at this
    have empty : stripSlashes [] = [] := rfl
    rw [zero, none, empty, if_pos rfl, Option.bind_some, substr, if_neg (by omega),
      if_neg (by omega)]
    obtain hnil | rfl := first
    · rw [hnil]
      rfl
    · cases m <;> rfl
  · -- a character before the slashes is the last one that is kept
    have rest : a' ++ [c'] ++ List.replicate m '/' ++ x :: (name ++ List.replicate k '/') =
        a' ++ [c'] ++ (List.replicate (m + 1) '/' ++ (name ++ List.replicate k '/')) := by
      obtain hnil | rfl := first
      · simp at hnil
      · rw [List.replicate_succ']
        simp
    have here : (a' ++ [c'] ++ List.replicate m '/').length = a'.length + (m + 1) := by
      simp only [List.length_append, List.length_singleton, List.length_replicate]
      omega
    have kept : stripSlashes (a' ++ [c'] ++ List.replicate m '/') = a' ++ [c'] := by
      rw [stripSlashes_slashes, stripSlashes_letter hc']
    have count : ((a'.length : Int) + 1).toNat = (a' ++ [c']).length := by simp
    rw [rest, here, skipFrom_eq (m + 1) hc', Option.bind_some, kept, if_neg (by simp), substr,
      if_neg (by omega), if_neg (by omega), count, Int.toNat_zero, List.drop_zero, List.take_left]

theorem normalizeFrom_replicate (a name : Uri) (k : Nat) (slash : Bool) :
    normalizeFrom slash (a ++ (List.replicate (k + 1) '/' ++ name)) =
      normalizeFrom slash (a ++ '/' :: name) := by
  have skip (k : Nat) :
      normalizeFrom true (List.replicate k '/' ++ name) = normalizeFrom true name := by
    induction k with
    | zero => rfl
    | succ k ih =>
      rw [List.replicate_succ, List.cons_append, normalizeFrom, if_pos rfl, if_pos rfl, ih]
  induction a generalizing slash with
  | nil =>
    rw [List.nil_append, List.nil_append, List.replicate_succ, List.cons_append, normalizeFrom,
      normalizeFrom, skip, if_pos rfl, if_pos rfl]
  | cons c a ih =>
    rw [List.cons_append, List.cons_append, normalizeFrom, normalizeFrom, ih, ih]

/-- The directory and the name are the URI again, up to slashes that are repeated. -/
theorem normalizeUri_split (name : Uri) :
    normalizeUri ((if stripSlashes b = [] then ['/'] else stripSlashes b) ++ '/' :: name) =
      normalizeUri (b ++ '/' :: name) := by
  rw [normalizeUri, normalizeUri]
  obtain ⟨m, rfl⟩ | ⟨a', c', m, rfl, hc'⟩ := slashes_or_letter b
  · have none := stripSlashes_slashes [] m
    rw [List.nil_append] at none
    have two := normalizeFrom_replicate [] name 1 false
    have more := normalizeFrom_replicate [] name m false
    rw [List.replicate_succ'] at more
    rw [none, if_pos (show stripSlashes [] = [] from rfl)]
    simp only [List.nil_append, List.append_assoc, List.singleton_append] at two more ⊢
    rw [more]
    exact two
  · have more := normalizeFrom_replicate (a' ++ [c']) name m false
    rw [List.replicate_succ'] at more
    rw [stripSlashes_slashes, stripSlashes_letter hc', if_neg (by simp)]
    simp only [List.append_assoc, List.singleton_append] at more ⊢
    exact more.symm

/-- A URI with a character other than a slash is split without an index outside of it, and
with a slash before its last name the two parts are the URI again: up to repeated slashes,
it is the same without those at its end. -/
theorem split_lossless (uri : Uri) (short : uri.length < 2 ^ 31) (named : stripSlashes uri ≠ []) :
    ∃ dir base, dirname uri = some dir ∧ basename uri = some base ∧
      ('/' ∈ stripSlashes uri →
        normalizeUri (dir ++ '/' :: base) = normalizeUri (stripSlashes uri)) := by
  obtain ⟨k, rfl⟩ | ⟨a, c, k, rfl, hc⟩ := slashes_or_letter uri
  · have none := stripSlashes_slashes [] k
    exact absurd none named
  · obtain ⟨b, x, name, parts, plain, first⟩ := exists_last a c
    refine ⟨_, _, dirname_eq plain first parts hc short, basename_eq plain first parts hc short, ?_⟩
    rw [stripSlashes_slashes, stripSlashes_letter hc, parts]
    intro slash
    have hx : x = '/' := by
      obtain rfl | hx := first
      · rw [List.nil_append, List.mem_cons] at slash
        exact (slash.resolve_right plain).symm
      · exact hx
    rw [hx]
    exact normalizeUri_split name

/-- `//a//b/`, of which the two parts are `//a` and `b`. -/
theorem split_lossless_sub :
    ∃ dir base, dirname "//a//b/".toList = some dir ∧ basename "//a//b/".toList = some base ∧
      ('/' ∈ stripSlashes "//a//b/".toList →
        normalizeUri (dir ++ '/' :: base) = normalizeUri (stripSlashes "//a//b/".toList)) :=
  split_lossless _ (by decide) (by decide)

def SplitsBack (uri : Uri) : Prop :=
  ∃ dir base, dirname uri = some dir ∧ basename uri = some base ∧
    dir ++ '/' :: base = normalizeUri (stripSlashes uri)

instance (uri : Uri) : Decidable (SplitsBack uri) :=
  match hdir : dirname uri, hbase : basename uri with
  | some dir, some base =>
      decidable_of_iff (dir ++ '/' :: base = normalizeUri (stripSlashes uri)) <| by
        simp [SplitsBack, hdir, hbase]
  | none, _ => .isFalse (by simp [SplitsBack, hdir])
  | _, none => .isFalse (by simp [SplitsBack, hbase])

/-- The directory of `/seg` is the root, which ends in a slash, and that of `a//b/c` has two
slashes within. Without a slash the first character is lost, and of slashes alone, or of too
many characters, there is nothing. -/
theorem not_splitsBack :
    (∀ uri ∈ ["/seg".toList, "a//b/c".toList, "seg".toList, "/".toList], ¬ SplitsBack uri) ∧
      ¬ SplitsBack (List.replicate (2 ^ 31) 'a') := by
  constructor
  · decide
  · have outside (uri : Uri) (h : uri.length = 2 ^ 31) : ¬ SplitsBack uri := by
      rintro ⟨dir, base, hdir, -, -⟩
      have negative : size uri ≤ 0 := by
        have length : (uri.length : Int) = 2147483648 := by omega
        calc size uri = Int.bmod 2147483648 (2 ^ 32) := congrArg (Int.bmod · (2 ^ 32)) length
          _ ≤ 0 := by decide +kernel
      rw [dirname, trim, if_pos negative] at hdir
      cases hdir
    exact outside _ List.length_replicate

end Results

end StringUtil

end ScCore.Repo
