import Mathlib.Data.List.Induction
import Mathlib.Data.List.Nodup
import ScCore.Repo.Walks

/-!
# Entries under paths

The names that a path is made of, and the entry that they lead to from a directory on. A new entry
is found under the path by which it was made and under no other, and one that is removed is not
found any more.
-/

namespace ScCore.Repo

/-! ## Names of a path -/

/-- The names that `find_dirent` reads, with what has been read of the first and whether slashes
are being skipped. -/
def namesFrom : Uri → Bool → Uri → List Uri
  | name, _, [] => [name]
  | name, skipping, c :: s =>
      if c = '/' then
        if skipping then namesFrom name true s else name :: namesFrom [] true s
      else namesFrom (name ++ [c]) false s

def pathNames (s : Uri) : List Uri := namesFrom [] false s

variable {read name parent s : Uri} {skipping : Bool} {c : Char}

theorem namesFrom_ne_nil (read : Uri) (skipping : Bool) (s : Uri) :
    namesFrom read skipping s ≠ [] := by
  induction s generalizing read skipping with
  | nil => exact List.cons_ne_nil read []
  | cons c s ih =>
    rw [namesFrom]
    split
    · split
      · exact ih read true
      · exact List.cons_ne_nil read _
    · exact ih (read ++ [c]) false

theorem namesFrom_plain (h : '/' ∉ name) (read : Uri) (skipping : Bool) :
    namesFrom read skipping name = [read ++ name] := by
  induction name generalizing read skipping with
  | nil => rw [namesFrom, List.append_nil]
  | cons c name ih =>
    obtain ⟨hc, hname⟩ := not_or.mp (mt List.mem_cons.mpr h)
    rw [namesFrom, if_neg (Ne.symm hc), ih hname, List.append_assoc, List.singleton_append]

theorem namesFrom_slashes (h : '/' ∉ name) (k : Nat) :
    namesFrom [] true (List.replicate k '/' ++ name) = [name] := by
  induction k with
  | zero => exact namesFrom_plain h [] true
  | succ k ih => rw [List.replicate_succ, List.cons_append, namesFrom, if_pos rfl, if_pos rfl, ih]

theorem namesFrom_below (hc : c ≠ '/') (h : '/' ∉ name) (k : Nat) (read : Uri)
    (skipping : Bool) :
    namesFrom read skipping (parent ++ c :: List.replicate (k + 1) '/' ++ name) =
      namesFrom read skipping (parent ++ [c]) ++ [name] := by
  induction parent generalizing read skipping with
  | nil =>
    rw [List.nil_append, List.nil_append, List.cons_append, List.replicate_succ, List.cons_append,
      namesFrom, if_neg hc, namesFrom, if_pos rfl, if_neg Bool.false_ne_true,
      namesFrom_slashes h, namesFrom, if_neg hc, namesFrom]
    rfl
  | cons x parent ih =>
    rw [List.cons_append, List.cons_append, List.cons_append, namesFrom, namesFrom]
    split
    · split
      · exact ih read true
      · rw [ih, List.cons_append]
    · exact ih (read ++ [x]) false

/-! ## Following names -/

namespace Dirs

def follow (ds : Dirs) : DirId → List Uri → Option Dirent
  | _, [] => none
  | d, [name] => ds.find d name
  | d, name :: names =>
      match ds.find d name with
      | some ⟨_, .dir d'⟩ => ds.follow d' names
      | _ => none

def walk (ds : Dirs) : DirId → List Uri → Option DirId
  | d, [] => some d
  | d, name :: names =>
      match ds.find d name with
      | some ⟨_, .dir d'⟩ => ds.walk d' names
      | _ => none

variable {ds : Dirs} {d d' x : DirId} {names : List Uri}

theorem findFrom_eq_follow (d : DirId) (read : Uri) (skipping : Bool) (s : Uri) :
    ds.findFrom d read skipping s = ds.follow d (namesFrom read skipping s) := by
  induction s generalizing d read skipping with
  | nil => rfl
  | cons c s ih =>
    rw [findFrom, namesFrom]
    split
    · split
      · exact ih d read true
      · obtain ⟨next, rest, hrest⟩ := List.exists_cons_of_ne_nil (namesFrom_ne_nil [] true s)
        rw [hrest, follow]
        · cases hfind : ds.find d read with
          | none => rfl
          | some found =>
            obtain ⟨_, dir | seg⟩ := found
            · rw [← hrest]
              exact ih dir [] true
            · rfl
        · exact List.cons_ne_nil next rest
    · exact ih d (read ++ [c]) false

theorem follow_cons (d : DirId) (name : Uri) (hnames : names ≠ []) :
    ds.follow d (name :: names) = match ds.find d name with
      | some ⟨_, .dir d'⟩ => ds.follow d' names
      | _ => none := by
  obtain ⟨next, rest, rfl⟩ := List.exists_cons_of_ne_nil hnames
  rfl

theorem follow_append (d : DirId) (names : List Uri) (name : Uri) :
    ds.follow d (names ++ [name]) = (ds.walk d names).bind fun d' => ds.find d' name := by
  induction names generalizing d with
  | nil => rfl
  | cons first names ih =>
    rw [List.cons_append, follow_cons _ _ (List.append_ne_nil_of_right_ne_nil _ (by simp)), walk]
    cases hfind : ds.find d first with
    | none => rfl
    | some found =>
      obtain ⟨_, dir | seg⟩ := found
      · exact ih dir
      · rfl

theorem walk_append (d : DirId) (names : List Uri) (name : Uri) :
    ds.walk d (names ++ [name]) = (ds.walk d names).bind fun d' =>
      match ds.find d' name with
      | some ⟨_, .dir x⟩ => some x
      | _ => none := by
  induction names generalizing d with
  | nil =>
    rw [List.nil_append, walk, walk, Option.bind_some]
    rfl
  | cons first names ih =>
    rw [List.cons_append, walk, walk]
    cases hfind : ds.find d first with
    | none => rfl
    | some found =>
      obtain ⟨_, dir | seg⟩ := found
      · exact ih dir
      · rfl

theorem walk_of_follow {name : Uri} (h : ds.follow d names = some ⟨name, .dir x⟩) :
    ds.walk d names = some x := by
  obtain rfl | ⟨before, last, rfl⟩ := List.eq_nil_or_concat names
  · cases h
  · rw [List.concat_eq_append, follow_append] at h
    obtain ⟨d', hwalk, hfind⟩ := Option.bind_eq_some_iff.mp h
    rw [List.concat_eq_append, walk_append, hwalk, Option.bind_some, hfind]

theorem follow_of_empty (empty : ds.contents d = []) (names : List Uri) :
    ds.follow d names = none := by
  have none (name : Uri) : ds.find d name = none := by
    rw [find, empty]
    rfl
  cases names with
  | nil => rfl
  | cons name names =>
    cases names with
    | nil => exact none name
    | cons next rest => rw [follow_cons _ _ (List.cons_ne_nil next rest), none]

end Dirs

/-! ## Forests of directories -/

/-- What is kept of the directories: a name stands once in each of them, a directory that is no
root has one entry, a segment has one, and those that are not made yet are empty. -/
structure Forest (ds : Dirs) : Prop where
  names : ∀ d, ((ds.contents d).map Dirent.name).Nodup
  inner : ∀ d e x, e ∈ ds.contents d → e.target = .dir x → 3 ≤ x ∧ x < ds.next
  inj : ∀ d e d' e', e ∈ ds.contents d → e' ∈ ds.contents d' → e.target = e'.target →
    d = d' ∧ e = e'
  above : ∀ x, ds.next ≤ x → ds.contents x = []
  roots : 3 ≤ ds.next

namespace Dirs

variable {ds : Dirs} {d d' x : DirId} {e e' : Dirent} {name : Uri} {names : List Uri}

theorem mem_of_find (h : ds.find d name = some e) : e ∈ ds.contents d ∧ e.name = name :=
  ⟨List.mem_of_find?_eq_some h, name_of_find h⟩

theorem find_of_mem (ok : Forest ds) (h : e ∈ ds.contents d) : ds.find d e.name = some e := by
  cases hfind : ds.find d e.name with
  | none =>
    have absent := List.find?_eq_none.mp hfind e h
    simp at absent
  | some e' =>
    obtain ⟨hmem, hname⟩ := mem_of_find hfind
    exact congrArg some (List.inj_on_of_nodup_map (ok.names d) hmem h hname)

variable {r r' : RepoId} {names' : List Uri}

theorem walk_inj (ok : Forest ds) (h : ds.walk r.dir names = some d)
    (h' : ds.walk r'.dir names' = some d) : r = r' ∧ names = names' := by
  have root (r : RepoId) {d x : DirId} {names : List Uri} {name : Uri}
      (h : ds.walk r.dir [] = some d) (h' : ds.walk x (names ++ [name]) = some d) : False := by
    rw [walk_append] at h'
    obtain ⟨d₁, -, hfind⟩ := Option.bind_eq_some_iff.mp h'
    split at hfind <;> cases hfind
    rename_i hfind
    cases h
    have inner := (ok.inner _ _ _ (mem_of_find hfind).1 rfl).1
    cases r <;> exact absurd inner (by decide)
  induction names using List.reverseRecOn generalizing d names' with
  | nil =>
    obtain rfl | ⟨before, last, rfl⟩ := List.eq_nil_or_concat names'
    · refine ⟨?_, rfl⟩
      have same : r.dir = r'.dir := Option.some.inj (h.trans h'.symm)
      cases r <;> cases r' <;> first | rfl | cases same
    · rw [List.concat_eq_append] at h'
      exact (root r h h').elim
  | append_singleton before last ih =>
    obtain rfl | ⟨before', last', rfl⟩ := List.eq_nil_or_concat names'
    · exact (root r' h' h).elim
    · rw [List.concat_eq_append] at h' ⊢
      rw [walk_append] at h h'
      obtain ⟨d₁, hwalk, hfind⟩ := Option.bind_eq_some_iff.mp h
      obtain ⟨d₂, hwalk', hfind'⟩ := Option.bind_eq_some_iff.mp h'
      split at hfind <;> cases hfind
      rename_i hfind
      split at hfind' <;> cases hfind'
      rename_i hfind'
      obtain ⟨hmem, hname⟩ := mem_of_find hfind
      obtain ⟨hmem', hname'⟩ := mem_of_find hfind'
      obtain ⟨rfl, same⟩ := ok.inj _ _ _ _ hmem hmem' rfl
      cases same
      obtain ⟨rfl, rfl⟩ := ih hwalk hwalk'
      exact ⟨rfl, by rw [← hname, ← hname']⟩

theorem walk_lt (ok : Forest ds) (h : ds.walk r.dir names = some d) : d < ds.next := by
  obtain rfl | ⟨before, last, rfl⟩ := List.eq_nil_or_concat names
  · cases h
    have root : r.dir < 3 := by cases r <;> decide
    exact Nat.lt_of_lt_of_le root ok.roots
  · rw [List.concat_eq_append, walk_append] at h
    obtain ⟨d', -, hfind⟩ := Option.bind_eq_some_iff.mp h
    split at hfind <;> cases hfind
    rename_i hfind
    exact (ok.inner d' _ d (mem_of_find hfind).1 rfl).2

theorem mem_of_follow (h : ds.follow d names = some e) : ∃ d', e ∈ ds.contents d' := by
  obtain rfl | ⟨before, last, rfl⟩ := List.eq_nil_or_concat names
  · cases h
  · rw [List.concat_eq_append, follow_append] at h
    obtain ⟨d', -, hfind⟩ := Option.bind_eq_some_iff.mp h
    exact ⟨d', (mem_of_find hfind).1⟩

theorem follow_inj (ok : Forest ds) (h : ds.follow r.dir names = some e)
    (h' : ds.follow r'.dir names' = some e') (same : e.target = e'.target) :
    r = r' ∧ names = names' := by
  obtain rfl | ⟨before, last, rfl⟩ := List.eq_nil_or_concat names
  · cases h
  · obtain rfl | ⟨before', last', rfl⟩ := List.eq_nil_or_concat names'
    · cases h'
    · rw [List.concat_eq_append, follow_append] at h h'
      obtain ⟨d₁, hwalk, hfind⟩ := Option.bind_eq_some_iff.mp h
      obtain ⟨d₂, hwalk', hfind'⟩ := Option.bind_eq_some_iff.mp h'
      obtain ⟨hmem, hname⟩ := mem_of_find hfind
      obtain ⟨hmem', hname'⟩ := mem_of_find hfind'
      obtain ⟨rfl, rfl⟩ := ok.inj _ _ _ _ hmem hmem' same
      obtain ⟨rfl, rfl⟩ := walk_inj ok hwalk hwalk'
      exact ⟨rfl, by rw [← hname, ← hname']⟩

/-! ## Changes -/

theorem mem_add (h : e' ∈ (ds.add d e).contents d') : e' ∈ ds.contents d' ∨ d' = d ∧ e' = e := by
  by_cases hd : d' = d
  · subst hd
    have contents : (ds.add d' e).contents d' = ds.contents d' ++ [e] := if_pos rfl
    rw [contents, List.mem_append, List.mem_singleton] at h
    exact h.imp_right fun h => ⟨rfl, h⟩
  · have contents : (ds.add d e).contents d' = ds.contents d' := if_neg hd
    exact .inl (contents ▸ h)

theorem remove_sublist (d : DirId) (name : Uri) (d' : DirId) :
    ((ds.remove d name).contents d').Sublist (ds.contents d') := by
  by_cases hd : d' = d
  · subst hd
    have contents : (ds.remove d' name).contents d' =
        (ds.contents d').eraseP fun e => e.name = name := if_pos rfl
    rw [contents]
    exact List.eraseP_sublist
  · have contents : (ds.remove d name).contents d' = ds.contents d' := if_neg hd
    rw [contents]

theorem follow_next (n : DirId) (d : DirId) (names : List Uri) :
    { ds with next := n : Dirs }.follow d names = ds.follow d names := by
  induction names generalizing d with
  | nil => rfl
  | cons name names ih =>
    cases names with
    | nil => rfl
    | cons next rest =>
      have nonempty : next :: rest ≠ [] := List.cons_ne_nil next rest
      rw [follow_cons _ _ nonempty, follow_cons _ _ nonempty]
      have same : { ds with next := n : Dirs }.find d name = ds.find d name := rfl
      rw [same]
      simp only [ih]

theorem walk_next (n : DirId) (d : DirId) (names : List Uri) :
    { ds with next := n : Dirs }.walk d names = ds.walk d names := by
  induction names generalizing d with
  | nil => rfl
  | cons name names ih =>
    rw [walk, walk]
    have same : { ds with next := n : Dirs }.find d name = ds.find d name := rfl
    rw [same]
    simp only [ih]

def Under (ds : Dirs) (d : DirId) (name : Uri) (x : DirId) (names : List Uri) : Prop :=
  ∃ before, names = before ++ [name] ∧ ds.walk x before = some d

theorem under_singleton {last : Uri} : Under ds d name x [last] ↔ x = d ∧ last = name := by
  constructor
  · rintro ⟨before, hnames, hwalk⟩
    cases before with
    | nil =>
      cases hnames
      exact ⟨Option.some.inj hwalk, rfl⟩
    | cons first before => simp at hnames
  · rintro ⟨rfl, rfl⟩
    exact ⟨[], rfl, rfl⟩

theorem under_cons {first : Uri} (hnames : names ≠ []) :
    Under ds d name x (first :: names) ↔
      ∃ n y, ds.find x first = some ⟨n, .dir y⟩ ∧ Under ds d name y names := by
  constructor
  · rintro ⟨before, heq, hwalk⟩
    cases before with
    | nil =>
      cases heq
      exact absurd rfl hnames
    | cons _ before =>
      cases heq
      rw [walk] at hwalk
      split at hwalk
      · rename_i n y hfind
        exact ⟨n, y, hfind, before, rfl, hwalk⟩
      · cases hwalk
  · rintro ⟨n, y, hfind, before, rfl, hwalk⟩
    refine ⟨first :: before, rfl, ?_⟩
    rw [walk, hfind]
    exact hwalk

open Classical in
/-- A new entry is found under its names, and the others are found as before. -/
theorem follow_add (absent : ds.find d e.name = none)
    (fresh : ∀ y, e.target = .dir y → y ≠ d ∧ ds.contents y = []) (x : DirId)
    (names : List Uri) :
    (ds.add d e).follow x names =
      if Under ds d e.name x names then some e else ds.follow x names := by
  induction names generalizing x with
  | nil =>
    rw [if_neg]
    · rfl
    · rintro ⟨before, heq, -⟩
      simp at heq
  | cons first names ih =>
    cases names with
    | nil =>
      rw [follow, follow, find_add]
      by_cases here : x = d ∧ e.name = first
      · obtain ⟨rfl, rfl⟩ := here
        rw [absent, if_pos ⟨rfl, rfl⟩, if_pos (under_singleton.mpr ⟨rfl, rfl⟩)]
        rfl
      · rw [if_neg here, Option.or_none, if_neg]
        intro under
        obtain ⟨hx, hname⟩ := under_singleton.mp under
        exact here ⟨hx, hname.symm⟩
    | cons next rest =>
      have nonempty : next :: rest ≠ [] := List.cons_ne_nil next rest
      rw [follow_cons _ _ nonempty, follow_cons _ _ nonempty, find_add]
      cases hfind : ds.find x first with
      | some found =>
        rw [Option.some_or]
        obtain ⟨n, y | i⟩ := found
        · dsimp only
          rw [ih y]
          congr 1
          rw [under_cons nonempty, hfind]
          apply propext
          constructor
          · exact fun under => ⟨n, y, rfl, under⟩
          · rintro ⟨_, _, ⟨⟩, under⟩
            exact under
        · rw [if_neg]
          rintro under
          obtain ⟨_, _, found, -⟩ := (under_cons nonempty).mp under
          rw [hfind] at found
          cases found
      | none =>
        have notUnder : ¬ Under ds d e.name x (first :: next :: rest) := by
          intro under
          obtain ⟨_, _, found, -⟩ := (under_cons nonempty).mp under
          rw [hfind] at found
          cases found
        rw [Option.none_or, if_neg notUnder]
        · by_cases here : x = d ∧ e.name = first
          · rw [if_pos here]
            obtain ⟨n, y | i⟩ := e
            · obtain ⟨hy, empty⟩ := fresh y rfl
              refine follow_of_empty ?_ _
              rw [add]
              exact (if_neg hy).trans empty
            · rfl
          · rw [if_neg here]

theorem find?_eraseP {l : List Dirent} (nodup : (l.map Dirent.name).Nodup) (name last : Uri) :
    (l.eraseP fun e => e.name = name).find? (fun e => e.name = last) =
      if last = name then none else l.find? fun e => e.name = last := by
  induction l with
  | nil =>
    rw [List.eraseP_nil, List.find?_nil, ite_self]
  | cons e l ih =>
    obtain ⟨hnot, nodup⟩ := List.nodup_cons.mp nodup
    by_cases hname : e.name = name
    · rw [List.eraseP_cons_of_pos (by simpa using hname)]
      by_cases hlast : last = name
      · rw [if_pos hlast, List.find?_eq_none]
        intro e' he' same
        rw [decide_eq_true_iff] at same
        refine hnot (List.mem_map.mpr ⟨e', he', ?_⟩)
        rw [same, hlast, hname]
      · rw [if_neg hlast, List.find?_cons_of_neg]
        rw [decide_eq_true_iff, hname]
        exact Ne.symm hlast
    · rw [List.eraseP_cons_of_neg (by simpa using hname)]
      by_cases hlast : e.name = last
      · have other : last ≠ name := hlast ▸ hname
        rw [if_neg other, List.find?_cons_of_pos (by simpa using hlast),
          List.find?_cons_of_pos (by simpa using hlast)]
      · rw [List.find?_cons_of_neg (by simpa using hlast), ih nodup,
          List.find?_cons_of_neg (by simpa using hlast)]

theorem find_remove (ok : Forest ds) (d : DirId) (name : Uri) (x : DirId) (last : Uri) :
    (ds.remove d name).find x last =
      if x = d ∧ last = name then none else ds.find x last := by
  by_cases hx : x = d
  · subst hx
    have contents : (ds.remove x name).contents x =
        (ds.contents x).eraseP fun e => e.name = name := if_pos rfl
    rw [find, contents, find?_eraseP (ok.names x)]
    by_cases hlast : last = name
    · rw [if_pos hlast, if_pos ⟨rfl, hlast⟩]
    · rw [if_neg hlast, if_neg (fun h => hlast h.2)]
      rfl
  · have contents : (ds.remove d name).contents x = ds.contents x := if_neg hx
    rw [find, contents, if_neg (fun h => hx h.1)]
    rfl

open Classical in
theorem follow_remove (ok : Forest ds) (hfind : ds.find d name = some e)
    (empty : ∀ y, e.target = .dir y → ds.contents y = []) (x : DirId) (names : List Uri) :
    (ds.remove d name).follow x names =
      if Under ds d name x names then none else ds.follow x names := by
  induction names generalizing x with
  | nil => exact (ite_self none).symm
  | cons first names ih =>
    cases names with
    | nil =>
      rw [follow, follow, find_remove ok]
      simp only [under_singleton]
    | cons next rest =>
      have nonempty : next :: rest ≠ [] := List.cons_ne_nil next rest
      rw [follow_cons _ _ nonempty, follow_cons _ _ nonempty, find_remove ok]
      by_cases here : x = d ∧ first = name
      · obtain ⟨rfl, rfl⟩ := here
        rw [if_pos ⟨rfl, rfl⟩, hfind]
        obtain ⟨n, y | i⟩ := e
        · dsimp only
          rw [follow_of_empty (empty y rfl), ite_self]
        · exact (ite_self none).symm
      · rw [if_neg here]
        cases hfirst : ds.find x first with
        | some found =>
          obtain ⟨n, y | i⟩ := found
          · dsimp only
            rw [ih y]
            congr 1
            rw [under_cons nonempty, hfirst]
            apply propext
            constructor
            · exact fun under => ⟨n, y, rfl, under⟩
            · rintro ⟨_, _, ⟨⟩, under⟩
              exact under
          · exact (ite_self none).symm
        | none => exact (ite_self none).symm

theorem under_iff (ok : Forest ds) {before : List Uri} (h : ds.walk r.dir before = some d) :
    Under ds d name r'.dir names ↔ r' = r ∧ names = before ++ [name] := by
  constructor
  · rintro ⟨before', rfl, hwalk⟩
    obtain ⟨rfl, rfl⟩ := walk_inj ok h hwalk
    exact ⟨rfl, rfl⟩
  · rintro ⟨rfl, rfl⟩
    exact ⟨before, rfl, h⟩

end Dirs

namespace Forest

variable {ds : Dirs} {d : DirId} {e : Dirent} {name : Uri}

theorem add (ok : Forest ds) (absent : ds.find d e.name = none)
    (fresh : ∀ y, e.target = .dir y → 3 ≤ y ∧ y < ds.next)
    (single : ∀ d' e', e' ∈ ds.contents d' → e'.target ≠ e.target) (made : d < ds.next) :
    Forest (ds.add d e) := by
  constructor
  · intro d'
    by_cases hd : d' = d
    · subst hd
      have contents : (ds.add d' e).contents d' = ds.contents d' ++ [e] := if_pos rfl
      rw [contents, List.map_append, List.map_singleton, List.nodup_append]
      refine ⟨ok.names d', List.nodup_singleton _, ?_⟩
      intro n hn n' hn' same
      obtain ⟨e', he', rfl⟩ := List.mem_map.mp hn
      obtain rfl := List.mem_singleton.mp hn'
      have found := List.find?_eq_none.mp absent e' he'
      rw [decide_eq_true_iff] at found
      exact found same
    · have contents : (ds.add d e).contents d' = ds.contents d' := if_neg hd
      rw [contents]
      exact ok.names d'
  · intro d' e' x h htarget
    obtain h | ⟨-, rfl⟩ := Dirs.mem_add h
    · exact ok.inner d' e' x h htarget
    · exact fresh x htarget
  · intro d₁ e₁ d₂ e₂ h₁ h₂ same
    obtain old₁ | ⟨hd₁, he₁⟩ := Dirs.mem_add h₁
    · obtain old₂ | ⟨-, he₂⟩ := Dirs.mem_add h₂
      · exact ok.inj d₁ e₁ d₂ e₂ old₁ old₂ same
      · exact absurd (same.trans (congrArg Dirent.target he₂)) (single d₁ e₁ old₁)
    · obtain old₂ | ⟨hd₂, he₂⟩ := Dirs.mem_add h₂
      · exact absurd (same.symm.trans (congrArg Dirent.target he₁)) (single d₂ e₂ old₂)
      · exact ⟨hd₁.trans hd₂.symm, he₁.trans he₂.symm⟩
  · intro x hx
    have hd : x ≠ d := (Nat.ne_of_lt (Nat.lt_of_lt_of_le made hx)).symm
    have contents : (ds.add d e).contents x = ds.contents x := if_neg hd
    rw [contents]
    exact ok.above x hx
  · exact ok.roots

theorem succ (ok : Forest ds) : Forest { ds with next := ds.next + 1 } where
  names := ok.names
  inner d e x h htarget := (ok.inner d e x h htarget).imp_right Nat.lt_succ_of_lt
  inj := ok.inj
  above x hx := ok.above x (Nat.le_of_succ_le hx)
  roots := Nat.le_succ_of_le ok.roots

theorem remove (ok : Forest ds) (d : DirId) (name : Uri) : Forest (ds.remove d name) := by
  have sub (d' : DirId) : ((ds.remove d name).contents d').Sublist (ds.contents d') :=
    Dirs.remove_sublist d name d'
  constructor
  · exact fun d' => (ok.names d').sublist ((sub d').map Dirent.name)
  · exact fun d' e x h => ok.inner d' e x ((sub d').subset h)
  · exact fun d₁ e₁ d₂ e₂ h₁ h₂ => ok.inj d₁ e₁ d₂ e₂ ((sub d₁).subset h₁) ((sub d₂).subset h₂)
  · intro x hx
    have empty := sub x
    rw [ok.above x hx] at empty
    exact List.sublist_nil.mp empty
  · exact ok.roots

end Forest

end ScCore.Repo
