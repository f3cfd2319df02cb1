import ScCore.Lib.Cursor
import ScCore.Rgp.Handlers

/-!
# Iterators over a connection

The values that the replies to `CREATE_ITERATOR` and `NEXT_ITERATOR` carry, and
what a client has got of the tuples of the iterator when a reply says that it is
over. `NEXT_ITERATOR` leaves the tuple on which the last reply has left the
iterator before it sends any, so a client gets them all only from one reply.
-/

namespace ScCore.Rgp

/-- An `sc_iterator` over a memory that does not change, with what `next` returns in
each of its classes: that it is over, or that it stands on a tuple. -/
structure ScIterator (σ V : Type) where
  next : σ → σ × Retval
  isOver : σ → Bool
  value : σ → Nat → V
  next_over : ∀ s, isOver s = true → next s = (s, rvElseGen)
  next_rv : ∀ s, isOver s = false → (next s).2 = if isOver (next s).1 then rvElseGen else rvOk

/-- The reply to a request for values. The last argument of a reply with `RV_OK` says
whether the iterator is over. -/
structure IteratorReply (V : Type) where
  rv : Retval
  values : List V
  isOver : Option Bool

namespace ScIterator

variable {σ V : Type}

def valueSendCount : Nat := 10

/-- The loop of `encode_sc_iterator_values`, with the number of tuples it may still send. -/
def encodeValues (it : ScIterator σ V) (needValues : List Nat) : Nat → σ → σ × List V
  | 0, s => (s, [])
  | n + 1, s =>
      if it.isOver s then (s, [])
      else
        let (s', values) := encodeValues it needValues n (it.next s).1
        (s', needValues.map (it.value s) ++ values)

/-- `encode_sc_iterator_values` in a reply with `RV_OK`. -/
def encode (it : ScIterator σ V) (needValues : List Nat) (s : σ) : σ × IteratorReply V :=
  let (s', values) := it.encodeValues needValues valueSendCount s
  (s', ⟨rvOk, values, some (it.isOver s')⟩)

/-- `RGP_CONSTR_ALL_INPUT`, `RGP_CONSTR_ALL_OUTPUT` and `RGP_CONSTR_ON_SEGMENT`. -/
def constrAllInput : Nat := 1
def constrAllOutput : Nat := 2
def constrOnSegment : Nat := 14

def needValues (constr : Nat) (params : List Param) : List Nat :=
  (params.zipIdx.filter fun p => p.1.type = .scType).map Prod.snd ++
    if constr = constrOnSegment then [0] else []

/-- `RGP_REQ_CREATE_ITERATOR` for an iterator that has been created. -/
def createIterator (it : ScIterator σ V) (constr : Nat) (params : List Param) (s : σ) :
    σ × IteratorReply V :=
  it.encode (needValues constr params) s

/-- `RGP_REQ_NEXT_ITERATOR` with value indexes. The table of the commands admits five
of them. -/
def nextIterator (it : ScIterator σ V) (indexes : List Nat) (s : σ) : σ × IteratorReply V :=
  if (commandInfo .nextIterator).admits (indexes.length + 1) then
    let (s', rv) := it.next s
    if rv = rvOk then it.encode indexes s' else (s', ⟨rv, [], none⟩)
  else (s, ⟨rvRgpErrArgCnt, [], none⟩)

inductive Fetches (it : ScIterator σ V) (indexes : List Nat) : σ → List V → Prop
  | last {s : σ} (isOver : (it.nextIterator indexes s).2.isOver = some true) :
      Fetches it indexes s (it.nextIterator indexes s).2.values
  | more {s : σ} {values : List V} (goesOn : (it.nextIterator indexes s).2.isOver ≠ some true)
      (others : Fetches it indexes (it.nextIterator indexes s).1 values) :
      Fetches it indexes s ((it.nextIterator indexes s).2.values ++ values)

inductive Iterates (it : ScIterator σ V) (constr : Nat) (params : List Param) (s : σ) :
    List V → Prop
  | once (isOver : (it.createIterator constr params s).2.isOver = some true) :
      Iterates it constr params s (it.createIterator constr params s).2.values
  | more {values : List V} (goesOn : (it.createIterator constr params s).2.isOver ≠ some true)
      (others : Fetches it (needValues constr params) (it.createIterator constr params s).1
        values) :
      Iterates it constr params s ((it.createIterator constr params s).2.values ++ values)

def cursor (it : ScIterator σ V) : Cursor σ (Nat → V) := ⟨it.isOver, fun s => (it.next s).1,
    it.value⟩

def group (indexes : List Nat) (tuple : Nat → V) : List V := indexes.map tuple

/-- The values are groups, one for each tuple and in their order. A group without
values is not to be seen in a reply. -/
def Groups (indexes : List Nat) (tuples : List (Nat → V)) (values : List V) : Prop :=
  values = tuples.flatMap (group indexes) ∧ ∀ t ∈ tuples, group indexes t ≠ []

def Complete (it : ScIterator σ V) (constr : Nat) (params : List Param) (s : σ)
    (tuples : List (Nat → V)) : Prop :=
  ∃ values, it.Iterates constr params s values ∧ Groups (needValues constr params) tuples values

variable {it : ScIterator σ V} {indexes : List Nat} {s : σ} {tuples : List (Nat → V)}
  {values : List V} {constr : Nat} {params : List Param}

theorem length_group (indexes : List Nat) (tuple : Nat → V) :
    (group indexes tuple).length = indexes.length :=
  List.length_map _

theorem length_groups (indexes : List Nat) (tuples : List (Nat → V)) :
    (tuples.flatMap (group indexes)).length = tuples.length * indexes.length := by
  induction tuples with
  | nil => simp
  | cons t tuples ih =>
    rw [List.flatMap_cons, List.length_append, length_group, ih, List.length_cons, Nat.succ_mul,
      Nat.add_comm]

theorem encodeValues_eq (it : ScIterator σ V) (indexes : List Nat) (n : Nat) (s : σ) :
    it.encodeValues indexes n s =
      ((it.cursor.batch n s).1, (it.cursor.batch n s).2.flatMap (group indexes)) := by
  induction n generalizing s with
  | zero => rfl
  | succ n ih =>
    have hcursor : it.cursor.isOver s = it.isOver s := rfl
    simp only [encodeValues, Cursor.batch, hcursor]
    cases it.isOver s with
    | true => rfl
    | false =>
      simp only [Bool.false_eq_true, if_false]
      rw [ih]
      rfl

theorem encode_spec (h : it.cursor.Yields s tuples) (indexes : List Nat) :
    (it.encode indexes s).2 = ⟨rvOk, (tuples.take valueSendCount).flatMap (group indexes),
        some (tuples.drop valueSendCount).isEmpty⟩ ∧
      it.cursor.Yields (it.encode indexes s).1 (tuples.drop valueSendCount) := by
  obtain ⟨taken, left⟩ := h.batch valueSendCount
  simp only [encode, encodeValues_eq, taken]
  refine ⟨?_, left⟩
  congr 2
  rw [Bool.eq_iff_iff, List.isEmpty_iff]
  exact left.isOver_iff

theorem next_eq_over (hy : it.cursor.Yields s []) : it.next s = (s, rvElseGen) :=
  it.next_over s (hy.isOver_iff.mpr rfl)

theorem next_eq {t : Nat → V} (hy : it.cursor.Yields s (t :: tuples)) :
    (it.next s).2 = (if tuples = [] then rvElseGen else rvOk) ∧
      it.cursor.Yields (it.next s).1 tuples := by
  have left := hy.next (List.cons_ne_nil t tuples)
  have stands : it.isOver s = false := by
    rw [← Bool.not_eq_true]
    exact fun h => List.cons_ne_nil t tuples (hy.isOver_iff.mp h)
  refine ⟨?_, left⟩
  rw [it.next_rv s stands]
  exact if_congr left.isOver_iff rfl rfl

theorem nextIterator_length (hy : it.cursor.Yields s tuples) (indexes : List Nat) :
    ∃ left, it.cursor.Yields (it.nextIterator indexes s).1 left ∧
      (it.nextIterator indexes s).2.values.length + (left.length - 1) * indexes.length ≤
        (tuples.length - 1) * indexes.length := by
  unfold nextIterator
  split
  · cases tuples with
    | nil =>
      simp only [next_eq_over hy]
      exact ⟨[], hy, by simp [rvOk, rvElseGen]⟩
    | cons t tuples =>
      obtain ⟨hrv, left⟩ := next_eq hy
      simp only [hrv]
      by_cases hnil : tuples = []
      · subst hnil
        exact ⟨[], by simpa [rvOk, rvElseGen] using left, by simp [rvOk, rvElseGen]⟩
      · obtain ⟨hreply, hleft⟩ := encode_spec left indexes
        simp only [hnil, if_false, if_true, hreply]
        refine ⟨_, hleft, ?_⟩
        rw [length_groups, ← Nat.add_mul]
        apply Nat.mul_le_mul_right
        simp only [List.length_take, List.length_drop, List.length_cons]
        have := List.length_pos_iff.mpr hnil
        omega
  · exact ⟨tuples, hy, by simp⟩

theorem Fetches.length_le (h : it.Fetches indexes s values) (hy : it.cursor.Yields s tuples) :
    values.length ≤ (tuples.length - 1) * indexes.length := by
  induction h generalizing tuples with
  | last _ =>
    obtain ⟨left, _, hle⟩ := nextIterator_length hy indexes
    omega
  | more _ _ ih =>
    obtain ⟨left, hleft, hle⟩ := nextIterator_length hy indexes
    have := ih hleft
    rw [List.length_append]
    omega

theorem needValues_eq_nil (hconstr : constraintInfos[constr]?.join = some params) :
    needValues constr params = [] ↔ constr = constrAllInput ∨ constr = constrAllOutput := by
  have each : ∀ k : Fin constraintInfos.length, ∀ params ∈ constraintInfos[k].toList,
      (needValues k params = [] ↔ k.val = constrAllInput ∨ k.val = constrAllOutput) := by
    decide
  have hinfo := Option.join_eq_some_iff.mp hconstr
  obtain ⟨hlt, heq⟩ := List.getElem?_eq_some_iff.mp hinfo
  apply each ⟨constr, hlt⟩ params
  simp only [Fin.getElem_fin, heq, Option.toList_some, List.mem_singleton]

theorem Complete.length_le (h : it.Complete constr params s tuples)
    (hconstr : constraintInfos[constr]?.join = some params) (hy : it.cursor.Yields s tuples) :
    tuples = [] ∨ tuples.length ≤ 10 ∧ constr ≠ constrAllInput ∧ constr ≠ constrAllOutput := by
  obtain ⟨hreply, hleft⟩ := encode_spec hy (needValues constr params)
  obtain ⟨values, hit, rfl, hsent⟩ := h
  by_cases hnil : tuples = []
  · exact .inl hnil
  obtain ⟨t, ht⟩ := List.exists_mem_of_ne_nil tuples hnil
  have hsome : needValues constr params ≠ [] := fun h => hsent t ht (by rw [h]; rfl)
  rw [Ne, needValues_eq_nil hconstr, not_or] at hsome
  refine .inr ⟨?_, hsome⟩
  rw [← not_or, ← needValues_eq_nil hconstr] at hsome
  have hwidth := List.length_pos_iff.mpr hsome
  by_contra hlong
  -- ten tuples in the first reply, and all but one of the others in the next ones
  generalize hvalues : tuples.flatMap (group (needValues constr params)) = values at hit
  have hlen := congrArg List.length hvalues
  rw [length_groups] at hlen
  cases hit with
  | once isOver =>
    have : tuples.length ≤ 10 := by simpa [createIterator, hreply, valueSendCount] using isOver
    exact hlong this
  | more _ others =>
    have hrest := others.length_le hleft
    simp only [createIterator, hreply, List.length_append, length_groups, List.length_take,
      List.length_drop, valueSendCount] at hlen hrest
    rw [Nat.min_eq_left (by omega)] at hlen
    have hle : tuples.length * (needValues constr params).length ≤
        (tuples.length - 1) * (needValues constr params).length := by
      calc tuples.length * (needValues constr params).length
          ≤ (10 + (tuples.length - 10 - 1)) * (needValues constr params).length := by
            rw [Nat.add_mul]
            omega
        _ = (tuples.length - 1) * (needValues constr params).length := by
            congr 1
            omega
    have := Nat.le_of_mul_le_mul_right hle hwidth
    omega

/-- A client gets each tuple of an iterator exactly when there are at most ten, and
values are sent for the constraint if there is one. -/
theorem complete_iff (it : ScIterator σ V) (hconstr : constraintInfos[constr]?.join = some params)
    (hy : it.cursor.Yields s tuples) :
    it.Complete constr params s tuples ↔
      tuples = [] ∨ tuples.length ≤ 10 ∧ constr ≠ constrAllInput ∧ constr ≠ constrAllOutput := by
  constructor
  · intro h
    exact h.length_le hconstr hy
  · intro h
    obtain ⟨hreply, -⟩ := encode_spec hy (needValues constr params)
    have hle : tuples.length ≤ valueSendCount := by
      rcases h with rfl | ⟨hle, -⟩
      · exact Nat.zero_le _
      · exact hle
    rw [List.take_of_length_le hle, List.drop_of_length_le hle] at hreply
    refine ⟨_, .once (by rw [createIterator, hreply]; rfl), ?_⟩
    rw [createIterator, hreply]
    refine ⟨rfl, ?_⟩
    rcases h with rfl | ⟨-, hsome⟩
    · simp
    · rw [← not_or, ← needValues_eq_nil hconstr] at hsome
      intro t _ ht
      exact hsome (List.map_eq_nil_iff.mp ht)

def countdown : ScIterator (List Nat) Nat where
  next
    | [] => ([], rvElseGen)
    | _ :: rest => (rest, if rest.isEmpty then rvElseGen else rvOk)
  isOver s := s.isEmpty
  value s i := s.headD 0 + i
  next_over := by simp
  next_rv := by
    intro s h
    cases s with
    | nil => simp at h
    | cons _ rest => rfl

theorem yields_countdown (s : List Nat) : countdown.cursor.Yields s (s.map fun n i => n + i) := by
  induction s with
  | nil => exact .finished rfl
  | cons n s ih => exact .value rfl ih

/-- Two elements with an arc from a given one. -/
theorem complete_iff_two :
    countdown.Complete 3 [pdAddr, pdType, pdType] [4, 9] ([4, 9].map fun n i => n + i) :=
  (complete_iff countdown rfl (yields_countdown [4, 9])).mpr
    (.inr ⟨by decide, by decide, by decide⟩)

/-- Of eleven tuples the last one is lost, and no reply says over. -/
theorem complete_fails :
    ¬countdown.Complete 3 [pdAddr, pdType, pdType] (List.range 11)
      ((List.range 11).map fun n i => n + i) := by
  intro h
  have := h.length_le rfl (yields_countdown (List.range 11))
  simp at this

end ScIterator

end ScCore.Rgp
