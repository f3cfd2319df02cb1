import ScCore.Search.Std5

/-!
# Filters over iterators

The classes of `sc_filter.h`: one filters each position of a tuple, the other one
requires equal elements at pairs of positions. A source is what is left of the
tuples that it yields; when it is over its values are null.
-/

namespace ScCore.Search

open Store

/-- `value(k)` of a source that stands on a tuple. -/
def valueAt (t : List Param) (k : Nat) : Option Addr :=
  match t[k]? with
  | some (.addr a) => a
  | _ => none

/-- `sc_single_filter`, or null. -/
abbrev SingleFilter := Option (Addr → Bool)

def SingleFilter.passes (f : SingleFilter) (a : Addr) : Bool :=
  match f with
  | some checkValue => checkValue a
  | none => true

/-- `sc_iterator_complex_filter`: its filters and what is left of its source. -/
structure ComplexFilter where
  filters : List SingleFilter
  source : List (List Param)

namespace ComplexFilter

def checkTuple (filters : List SingleFilter) (t : List Param) : Bool :=
  filters.zipIdx.all fun (f, i) => (valueAt t i).any f.passes

/-- `next`: the source is moved on until it is over or stands on a tuple that passes. -/
def next (it : ComplexFilter) : ComplexFilter :=
  { it with source := it.source.tail.dropWhile fun t => !checkTuple it.filters t }

/-- The filter is not null and does not let the source's present value pass. -/
def refuses (f : SingleFilter) (pos : Nat) : List (List Param) → Bool
  | [] => false
  | t :: _ => f.any fun checkValue => !(valueAt t pos).any checkValue

def setFilter (it : ComplexFilter) (pos : Nat) (f : SingleFilter) : ComplexFilter :=
  let set := { it with filters := it.filters.set pos f }
  if refuses f pos it.source then set.next else set

def create (filters : List SingleFilter) (source : List (List Param)) : ComplexFilter :=
  filters.zipIdx.foldl (fun it (f, pos) => it.setFilter pos f)
    ⟨filters.map fun _ => none, source⟩

end ComplexFilter

/-- `sc_match_filter` over a complex filter of the same width. -/
structure MatchFilter where
  iter : ComplexFilter
  pairs : List (Nat × Nat)

namespace MatchFilter

/-- `check_tuple`, where the iterator stands on a tuple: no value is null, and matched values
are equal. -/
def checkTuple (width : Nat) (pairs : List (Nat × Nat)) (t : List Param) : Bool :=
  (List.range width).all (fun i => (valueAt t i).isSome) &&
    pairs.all fun (i, j) => valueAt t i == valueAt t j

def passes (it : MatchFilter) : Bool :=
  it.iter.source.head?.any (checkTuple it.iter.filters.length it.pairs)

theorem next_shorter {it : ComplexFilter} (h : it.next.source ≠ []) :
    it.next.source.length < it.source.length := by
  have le := (List.dropWhile_suffix (fun t => !ComplexFilter.checkTuple it.filters t)
    (l := it.source.tail)).length_le
  cases hsource : it.source with
  | nil => simp [ComplexFilter.next, hsource] at h
  | cons t rest =>
    rw [hsource] at le
    simpa [ComplexFilter.next, hsource] using Nat.lt_succ_of_le le

/-- `next`: on, until the iterator is over or stands on a tuple that passes. -/
def next (it : MatchFilter) : MatchFilter :=
  let moved := { it with iter := it.iter.next }
  if _ : moved.iter.source = [] ∨ moved.passes then moved else moved.next
termination_by it.iter.source.length
decreasing_by exact next_shorter (not_or.mp ‹_›).1

def begin (it : MatchFilter) : MatchFilter := if it.passes then it else it.next

inductive Yields : MatchFilter → List (List Param) → Prop where
  | isOver {it} : it.iter.source = [] → Yields it []
  | next {it t rest tuples} : it.iter.source = t :: rest → Yields it.next tuples →
      Yields it (t :: tuples)

end MatchFilter

def Full (width : Nat) (t : List Param) : Prop := ∀ i < width, (valueAt t i).isSome = true

section Complex

variable {filters : List SingleFilter} {f : SingleFilter} {pos : Nat} {t : List Param}
  {source : List (List Param)}

theorem checkTuple_iff : ComplexFilter.checkTuple filters t = true ↔
    ∀ i f, filters[i]? = some f → (valueAt t i).any f.passes = true := by
  simp only [ComplexFilter.checkTuple, List.all_eq_true, Prod.forall]
  constructor
  · intro h i f hf
    exact h f i (List.mem_zipIdx_iff_getElem?.mpr hf)
  · intro h f i hmem
    exact h i f (List.mem_zipIdx_iff_getElem?.mp hmem)

theorem any_passes_none (h : (valueAt t pos).isSome = true) :
    (valueAt t pos).any (SingleFilter.passes none) = true := by
  obtain ⟨a, ha⟩ := Option.isSome_iff_exists.mp h
  rw [ha]
  rfl

theorem checkTuple_set (hpos : filters[pos]? = some none) (full : Full filters.length t) :
    ComplexFilter.checkTuple (filters.set pos f) t =
      (ComplexFilter.checkTuple filters t && (valueAt t pos).any f.passes) := by
  have hlt := (List.getElem?_eq_some_iff.mp hpos).1
  rw [Bool.eq_iff_iff, Bool.and_eq_true, checkTuple_iff, checkTuple_iff]
  constructor
  · intro h
    refine ⟨fun i f' hf' => ?_, h pos f (by rw [List.getElem?_set_self hlt])⟩
    by_cases heq : pos = i
    · subst heq
      cases hpos.symm.trans hf'
      exact any_passes_none (full pos hlt)
    · exact h i f' (by rw [List.getElem?_set_ne heq, hf'])
  · rintro ⟨h, hf⟩ i f' hf'
    by_cases heq : pos = i
    · subst heq
      rw [List.getElem?_set_self hlt] at hf'
      cases hf'
      exact hf
    · rw [List.getElem?_set_ne heq] at hf'
      exact h i f' hf'

/-- The tuples that were passed over fail, and the one where the source stands passes. -/
structure Settled (source : List (List Param)) (it : ComplexFilter) : Prop where
  suffix : it.source <:+ source
  kept : it.source.filter (ComplexFilter.checkTuple it.filters) =
    source.filter (ComplexFilter.checkTuple it.filters)
  head : ∀ t ∈ it.source.head?, ComplexFilter.checkTuple it.filters t = true

theorem filter_dropWhile {α : Type} (p : α → Bool) (l : List α) :
    (l.dropWhile fun a => !p a).filter p = l.filter p := by
  cases hdrop : l.dropWhile fun a => !p a with
  | nil => rw [Std5Iter.filter_of_dropWhile_nil hdrop, List.filter_nil]
  | cons a rest =>
    rw [(Std5Iter.filter_of_dropWhile hdrop).1, List.filter_cons_of_pos]
    simpa [hdrop] using List.head_dropWhile_not (fun a => !p a) (l := l) (by simp [hdrop])

theorem head_dropWhile {α : Type} (p : α → Bool) (l : List α) :
    ∀ a ∈ (l.dropWhile fun a => !p a).head?, p a = true := by
  intro a ha
  have := List.head?_dropWhile_not (fun a => !p a) l
  rw [Option.mem_def.mp ha] at this
  simpa using this

theorem Settled.setFilter {it : ComplexFilter} (settled : Settled source it)
    (full : ∀ t ∈ source, Full it.filters.length t) (hpos : it.filters[pos]? = some none) :
    Settled source (it.setFilter pos f) ∧ (it.setFilter pos f).filters = it.filters.set pos f := by
  obtain ⟨filters, left⟩ := it
  obtain ⟨suffix, kept, head⟩ := settled
  dsimp only at full hpos suffix kept head ⊢
  have check : ∀ t ∈ source, ComplexFilter.checkTuple (filters.set pos f) t =
      (ComplexFilter.checkTuple filters t && (valueAt t pos).any f.passes) :=
    fun t ht => checkTuple_set hpos (full t ht)
  have hlt := (List.getElem?_eq_some_iff.mp hpos).1
  have kept' : left.filter (ComplexFilter.checkTuple (filters.set pos f)) =
      source.filter (ComplexFilter.checkTuple (filters.set pos f)) := by
    rw [List.filter_congr fun t ht => check t (suffix.subset ht), List.filter_congr check]
    simp only [Bool.and_comm (ComplexFilter.checkTuple _ _), ← List.filter_filter]
    rw [kept]
  cases f with
  | none =>
    have same : (⟨filters, left⟩ : ComplexFilter).setFilter pos none =
        ⟨filters.set pos none, left⟩ := by
      cases left <;> rfl
    rw [same]
    refine ⟨⟨suffix, kept', fun t ht => ?_⟩, rfl⟩
    have hmem := suffix.subset (List.mem_of_mem_head? ht)
    exact (check t hmem).trans (by simp [head t ht, any_passes_none (full t hmem pos hlt)])
  | some checkValue =>
    cases left with
    | nil => exact ⟨⟨suffix, kept', by simp [ComplexFilter.setFilter, ComplexFilter.refuses]⟩, rfl⟩
    | cons t rest =>
      have hmem := suffix.subset List.mem_cons_self
      cases passes : (valueAt t pos).any checkValue with
      | true =>
        have same : (⟨filters, t :: rest⟩ : ComplexFilter).setFilter pos (some checkValue) =
            ⟨filters.set pos (some checkValue), t :: rest⟩ := by
          simp [ComplexFilter.setFilter, ComplexFilter.refuses, passes]
        rw [same]
        refine ⟨⟨suffix, kept', ?_⟩, rfl⟩
        rintro _ ⟨⟩
        rw [check t hmem, head t rfl]
        exact passes
      | false =>
        have moved : (⟨filters, t :: rest⟩ : ComplexFilter).setFilter pos (some checkValue) =
            ⟨filters.set pos (some checkValue), rest.dropWhile fun t =>
              !ComplexFilter.checkTuple (filters.set pos (some checkValue)) t⟩ := by
          simp [ComplexFilter.setFilter, ComplexFilter.refuses, passes, ComplexFilter.next]
        have fails : ComplexFilter.checkTuple (filters.set pos (some checkValue)) t = false := by
          rw [check t hmem, Bool.and_eq_false_iff]
          exact .inr passes
        rw [moved]
        refine ⟨⟨?_, ?_, head_dropWhile _ _⟩, rfl⟩
        · exact ((List.dropWhile_suffix _).trans (List.suffix_cons t rest)).trans suffix
        · rw [filter_dropWhile, ← kept', List.filter_cons_of_neg (by simp [fails])]

theorem Settled.setFilters {it : ComplexFilter} {fs done : List SingleFilter}
    (settled : Settled source it)
    (hfilters : it.filters = done ++ fs.map fun _ => none)
    (full : ∀ t ∈ source, Full (done.length + fs.length) t) :
    Settled source ((fs.zipIdx done.length).foldl (fun it (f, pos) => it.setFilter pos f) it) ∧
      ((fs.zipIdx done.length).foldl (fun it (f, pos) => it.setFilter pos f) it).filters =
        done ++ fs := by
  induction fs generalizing it done with
  | nil => exact ⟨settled, hfilters⟩
  | cons f fs ih =>
    have hpos : it.filters[done.length]? = some none := by simp [hfilters]
    have hlen : it.filters.length = done.length + (f :: fs).length := by simp [hfilters]
    obtain ⟨settled', hset⟩ := settled.setFilter (f := f) (by rwa [hlen]) hpos
    have hnext : (it.setFilter done.length f).filters =
        (done ++ [f]) ++ fs.map fun _ => none := by
      rw [hset, hfilters]
      simp
    have next := ih settled' hnext (by simpa [Nat.add_assoc, Nat.add_comm 1] using full)
    simpa using next

theorem create_settled {fs : List SingleFilter} (full : ∀ t ∈ source, Full fs.length t) :
    Settled source (ComplexFilter.create fs source) ∧
      (ComplexFilter.create fs source).filters = fs := by
  have start : Settled source ⟨fs.map fun _ => none, source⟩ := by
    refine ⟨List.suffix_rfl, rfl, fun t ht => ?_⟩
    have hfull := full t (List.mem_of_mem_head? ht)
    refine checkTuple_iff.mpr fun i f hf => ?_
    obtain ⟨hi, hf⟩ := List.getElem?_eq_some_iff.mp hf
    simp only [List.getElem_map] at hf
    rw [← hf]
    exact any_passes_none (hfull i (by simpa using hi))
  have unset : (⟨fs.map fun _ => none, source⟩ : ComplexFilter).filters =
      [] ++ fs.map fun _ => none := rfl
  exact start.setFilters unset (by simpa using full)

end Complex

section Match

variable {it : MatchFilter} {source : List (List Param)} {fs : List SingleFilter}
  {pairs : List (Nat × Nat)}

def MatchFilter.admits (it : MatchFilter) (t : List Param) : Bool :=
  ComplexFilter.checkTuple it.iter.filters t &&
    MatchFilter.checkTuple it.iter.filters.length it.pairs t

theorem dropWhile_both {α : Type} (c m : α → Bool) (l : List α) :
    (l.dropWhile fun a => !(c a && m a)) =
      match l.dropWhile fun a => !c a with
      | [] => []
      | a :: rest => if m a then a :: rest else rest.dropWhile fun a => !(c a && m a) := by
  induction l with
  | nil => rfl
  | cons a l ih =>
    simp only [List.dropWhile_cons]
    cases hc : c a with
    | false => simpa using ih
    | true => cases hm : m a <;> simp [hm]

theorem MatchFilter.next_eq (it : MatchFilter) :
    it.next = { it with iter := { it.iter with
      source := it.iter.source.tail.dropWhile fun t => !it.admits t } } := by
  have both := dropWhile_both (ComplexFilter.checkTuple it.iter.filters)
    (MatchFilter.checkTuple it.iter.filters.length it.pairs) it.iter.source.tail
  induction it using MatchFilter.next.induct with
  | case1 it moved stop =>
    rw [MatchFilter.next, dif_pos stop]
    simp only [MatchFilter.admits, both]
    cases hleft : it.iter.source.tail.dropWhile fun t =>
        !ComplexFilter.checkTuple it.iter.filters t with
    | nil => simp only [ComplexFilter.next, hleft]
    | cons t rest =>
      have passes : MatchFilter.checkTuple it.iter.filters.length it.pairs t = true := by
        simpa [moved, ComplexFilter.next, MatchFilter.passes, hleft] using stop
      simp only [ComplexFilter.next, hleft, passes, if_true]
  | case2 it moved on ih =>
    rw [MatchFilter.next, dif_neg on, ih (dropWhile_both _ _ _)]
    simp only [MatchFilter.admits, both]
    cases hleft : it.iter.source.tail.dropWhile fun t =>
        !ComplexFilter.checkTuple it.iter.filters t with
    | nil => simp [moved, ComplexFilter.next, hleft] at on
    | cons t rest =>
      have fails : MatchFilter.checkTuple it.iter.filters.length it.pairs t = false := by
        simpa [moved, ComplexFilter.next, MatchFilter.passes, hleft] using on
      simp [ComplexFilter.next, hleft, fails, moved]

theorem MatchFilter.yields_of (head : ∀ t ∈ it.iter.source.head?, it.admits t = true) :
    MatchFilter.Yields it (it.iter.source.filter it.admits) := by
  induction hn : it.iter.source.length using Nat.strong_induction_on generalizing it with
  | _ n ih =>
    cases hsource : it.iter.source with
    | nil => exact .isOver hsource
    | cons t rest =>
      have passes : it.admits t = true := head t (by simp [hsource])
      have hnext : it.next.iter.source = rest.dropWhile fun t => !it.admits t := by
        rw [MatchFilter.next_eq, hsource, List.tail_cons]
      have same : it.next.admits = it.admits := by
        rw [MatchFilter.next_eq]
        rfl
      rw [List.filter_cons_of_pos passes]
      refine .next hsource ?_
      have shorter : it.next.iter.source.length < n := by
        rw [← hn, hsource, hnext]
        exact Nat.lt_succ_of_le (List.dropWhile_suffix _).length_le
      have stands : ∀ t ∈ it.next.iter.source.head?, it.next.admits t = true := by
        rw [hnext, same]
        exact head_dropWhile _ _
      have left := ih _ shorter stands rfl
      rwa [hnext, same, filter_dropWhile] at left

theorem MatchFilter.next_length (it : MatchFilter) (h : it.iter.source ≠ []) :
    it.next.iter.source.length < it.iter.source.length := by
  rw [MatchFilter.next_eq]
  have le := (List.dropWhile_suffix (fun t => !it.admits t) (l := it.iter.source.tail)).length_le
  rw [List.length_tail] at le
  have := List.length_pos_of_ne_nil h
  simp only
  omega

def MatchFilter.tuples (it : MatchFilter) : List (List Param) :=
  if _ : it.iter.source = [] then [] else it.iter.source.headD [] :: it.next.tuples
termination_by it.iter.source.length
decreasing_by exact it.next_length ‹_›

theorem MatchFilter.yields_tuples (it : MatchFilter) : MatchFilter.Yields it it.tuples := by
  induction it using MatchFilter.tuples.induct with
  | case1 it ended =>
    rw [MatchFilter.tuples, dif_pos ended]
    exact .isOver ended
  | case2 it more ih =>
    rw [MatchFilter.tuples, dif_neg more]
    obtain ⟨t, rest, hsource⟩ := List.exists_cons_of_ne_nil more
    rw [hsource]
    exact .next hsource ih

theorem MatchFilter.Yields.unique {l l' : List (List Param)} (h : MatchFilter.Yields it l)
    (h' : MatchFilter.Yields it l') : l = l' := by
  induction h generalizing l' with
  | isOver ended =>
    cases h' with
    | isOver => rfl
    | next hsource _ => cases ended.symm.trans hsource
  | next hsource _ ih =>
    cases h' with
    | isOver ended => cases ended.symm.trans hsource
    | next hsource' rest =>
      cases hsource.symm.trans hsource'
      rw [ih rest]

theorem MatchFilter.begin_yields (full : ∀ t ∈ source, Full fs.length t) :
    MatchFilter.Yields (MatchFilter.begin ⟨ComplexFilter.create fs source, pairs⟩)
      (source.filter fun t => ComplexFilter.checkTuple fs t &&
        MatchFilter.checkTuple fs.length pairs t) := by
  obtain ⟨settled, hfilters⟩ := create_settled full
  have kept := settled.kept
  rw [hfilters] at kept
  have whole : (ComplexFilter.create fs source).source.filter (fun t =>
      ComplexFilter.checkTuple fs t && MatchFilter.checkTuple fs.length pairs t) =
      source.filter fun t => ComplexFilter.checkTuple fs t &&
        MatchFilter.checkTuple fs.length pairs t := by
    simp only [Bool.and_comm (ComplexFilter.checkTuple fs _), ← List.filter_filter]
    rw [kept]
  have admits : MatchFilter.admits ⟨ComplexFilter.create fs source, pairs⟩ = fun t =>
      ComplexFilter.checkTuple fs t && MatchFilter.checkTuple fs.length pairs t := by
    funext t
    rw [MatchFilter.admits, hfilters]
  rw [← whole, ← admits]
  unfold MatchFilter.begin
  split
  · next passes =>
    apply MatchFilter.yields_of
    intro t ht
    simp only [MatchFilter.passes, Option.any_eq_true] at passes
    obtain ⟨t', ht', passes⟩ := passes
    cases ht.symm.trans ht'
    rw [MatchFilter.admits, Bool.and_eq_true]
    exact ⟨settled.head t ht, passes⟩
  · next fails =>
    have stands : ∀ t ∈
          (MatchFilter.next ⟨ComplexFilter.create fs source, pairs⟩).iter.source.head?,
        (MatchFilter.next ⟨ComplexFilter.create fs source, pairs⟩).admits t = true := by
      rw [MatchFilter.next_eq]
      exact head_dropWhile _ _
    have left := MatchFilter.yields_of stands
    rw [MatchFilter.next_eq] at left ⊢
    cases hsource : (ComplexFilter.create fs source).source with
    | nil => simpa [hsource] using left
    | cons t rest =>
      have dropped : MatchFilter.admits ⟨ComplexFilter.create fs source, pairs⟩ t = false := by
        rw [MatchFilter.admits, Bool.and_eq_false_iff]
        exact .inr (by simpa [MatchFilter.passes, hsource] using fails)
      rw [List.filter_cons_of_neg (by simp [dropped])]
      simp only [hsource, List.tail_cons] at left
      have kept' := filter_dropWhile
        (MatchFilter.admits ⟨ComplexFilter.create fs source, pairs⟩) rest
      rw [← kept']
      exact left

theorem MatchFilter.tuples_begin (full : ∀ t ∈ source, Full fs.length t) :
    (MatchFilter.begin ⟨ComplexFilter.create fs source, pairs⟩).tuples =
      source.filter fun t => ComplexFilter.checkTuple fs t &&
        MatchFilter.checkTuple fs.length pairs t :=
  (MatchFilter.yields_tuples _).unique (MatchFilter.begin_yields full)

end Match

end ScCore.Search
