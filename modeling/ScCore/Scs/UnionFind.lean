import ScCore.Scs.Resolve

/-!
# Aliases are a union-find

What the links that aliases make resolve to, for every sequence of calls that succeed.
-/

namespace ScCore.Scs

variable {R : Type} {h : List (Event R)} {t : ScText R}

structure Contributed (h : List (Event R)) (t : ScText R) : Prop where
  type : ∀ r e, t.elems[r]? = some e → e.aliasRef = none → ∀ i, e.type.getLsbD i = true ↔
    Declares h fun d => Connected h (.inr d.ref) (.inr r) ∧ d.type.getLsbD i = true
  beg : ∀ r e, t.elems[r]? = some e → e.aliasRef = none → ∀ l, e.beg = some l ↔
    Declares h fun d => Connected h (.inr d.ref) (.inr r) ∧ d.left = some l
  content : ∀ r e, t.elems[r]? = some e → e.aliasRef = none → ∀ v, e.content = some v ↔
    ∃ m, Connected h (.inr m) (.inr r) ∧ .gave m (some v) ∈ h

/-- Along calls that give begins and ends to arcs only, every element resolves to a real
one, and what is connected, and nothing else, to the same one. That one has the types, the
begin, the end and the content of its class. -/
theorem aliases_resolve (scan : Idtf → Option R) (lax : Bool) (calls : List ScCall)
    (run : ScText.new.run scan lax calls [] = some (t, h))
    (arcs : ∀ call ∈ calls, call.arcsOnly = true) :
    (∀ ref < t.elems.length, ∃ r < t.elems.length,
      t.getRealElement ref = some r ∧ t.aliasOf r = none) ∧
    (∀ id id', (t.idmap id).isSome → (t.idmap id').isSome →
      ((t.idmap id).bind t.getRealElement = (t.idmap id').bind t.getRealElement ↔
        Connected h (.inl id) (.inl id'))) ∧
    ∀ r e, t.elems[r]? = some e → e.aliasRef = none →
      ClassData h (BegunIn h) (fun m => Connected h (.inr m) (.inr r)) e := by
  obtain ⟨joined, -, classes⟩ := Resolved.new.run run arcs
  refine ⟨?_, ?_, ?_⟩
  · intro ref lt
    obtain ⟨r, hr⟩ := joined.total ref
    exact ⟨r, joined.real_lt lt hr, hr, ScText.getRealElement_root hr⟩
  · intro id id' known _
    apply joined.real_eq_iff (x := .inl id) (y := .inl id')
    obtain ⟨ref, hid⟩ := Option.isSome_iff_exists.mp known
    obtain ⟨r, hr⟩ := joined.total ref
    rw [ScText.itemReal, hid, Option.bind_some, hr]
    rfl
  · intro r e he real
    apply (classes r e he real).members
    intro m
    apply (joined.real_iff _).symm
    rwa [ScText.aliasOf_of he]

def joinCalls : List ScCall :=
  List.replicate 9 (.addElFull none 0 none none) ++
    [.addElFull (some [120]) 0 none none, .addElFull (some [121]) 0 none none,
      .addArc (some 9) 0xa0 (some 10) none, .addAlias [120] 10, .addCont 9 [65] .string]

theorem aliases_resolve_join :
    ∃ t h, ScText.new.run (R := Nat) (fun _ => none) false joinCalls [] = some (t, h) ∧
      ((t.idmap [120]).bind t.getRealElement = (t.idmap [121]).bind t.getRealElement ↔
        Connected h (.inl [120]) (.inl [121])) := by
  have hrun : ∃ t h, ScText.new.run (R := Nat) (fun _ => none) false joinCalls []
      = some (t, h) ∧ (t.idmap [120]).isSome ∧ (t.idmap [121]).isSome := ⟨_, _, rfl, rfl, rfl⟩
  obtain ⟨t, h, run, first, second⟩ := hrun
  have resolved := aliases_resolve (fun _ => none) false joinCalls run (by decide)
  exact ⟨t, h, run, resolved.2.1 [120] [121] first second⟩

/-- An arc makes its begin a node, an element that is no arc drops the begin that it is
given, and a second content replaces the first. -/
theorem contributed_fails :
    (∃ t h, ScText.new.run (R := Nat) (fun _ => none) false
        [.addElFull none 0 none none, .addArc (some 0) 0 none none] [] = some (t, h) ∧
      ¬Contributed h t) ∧
    (∃ t h, ScText.new.run (R := Nat) (fun _ => none) false
        [.addElFull none 0 none none, .addElFull (some [120]) 0 none none,
          .addElFull (some [120]) 0 (some 0) none] [] = some (t, h) ∧ ¬Contributed h t) ∧
    ∃ t h, ScText.new.run (R := Nat) (fun _ => none) false
        [.addElFull none 0 none none, .addCont 0 [65] .string, .addCont 0 [66] .string] []
          = some (t, h) ∧ ¬Contributed h t := by
  refine ⟨⟨_, _, rfl, ?_⟩, ⟨_, _, rfl, ?_⟩, ⟨_, _, rfl, ?_⟩⟩
  · intro all
    have bit := (all.type 0 _ rfl rfl 2).mp (by decide)
    obtain ⟨d, mem, -, hd⟩ := bit
    rcases List.mem_cons.mp mem with same | mem
    · cases same
      cases hd
    · cases List.mem_singleton.mp mem
      cases hd
  · intro all
    have beg := (all.beg 1 _ rfl rfl 0).mpr ⟨_, List.mem_cons_self, .refl _, rfl⟩
    cases beg
  · intro all
    have content := (all.content 0 _ rfl rfl (.text .string [65])).mpr
      ⟨0, .refl _, List.mem_cons_of_mem _ List.mem_cons_self⟩
    cases content

end ScCore.Scs
