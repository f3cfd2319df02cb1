import ScCore.Store.Memory

/-!
# Ring of events

`event_fifo` keeps the events for a sink in a ring. Equal indices stand for an empty ring,
since a full one is emptied at once.
-/

namespace ScCore.Store

inductive EventType where
  | genel | createLink | setBeg | setEnd | setIdtf | eraseEl | setCont | changeType | unlink

structure EventStruct where
  type : EventType
  idtf : ScString
  aux : ScString
  t : ScType
  t2 : ScType
  cont : Content

/-- The arguments of the `put_` functions. -/
inductive Event where
  | genel (idtf : ScString) (type : ScType)
  | createLink (idtf : ScString)
  | eraseEl (idtf : ScString)
  | setBeg (idtf aux : ScString)
  | setEnd (idtf aux : ScString)
  | setIdtf (idtf aux : ScString)
  | setCont (idtf : ScString) (cont : Content)
  | unlink
  | changeType (idtf : ScString) (t t2 : ScType)

/-- What a `put_` function stores in a slot; the other fields keep what they hold. -/
def Event.store : Event → EventStruct → EventStruct
  | genel idtf type, s => { s with type := .genel, idtf := idtf, t := type }
  | createLink idtf, s => { s with type := .createLink, idtf := idtf }
  | eraseEl idtf, s => { s with type := .eraseEl, idtf := idtf }
  | setBeg idtf aux, s => { s with type := .setBeg, idtf := idtf, aux := aux }
  | setEnd idtf aux, s => { s with type := .setEnd, idtf := idtf, aux := aux }
  | setIdtf idtf aux, s => { s with type := .setIdtf, idtf := idtf, aux := aux }
  | setCont idtf cont, s => { s with type := .setCont, idtf := idtf, cont := cont }
  | unlink, s => { s with type := .unlink }
  | changeType idtf t t2, s => { s with type := .changeType, idtf := idtf, t := t, t2 := t2 }

/-- The event of a slot: its type and the fields that belong to the type. -/
def EventStruct.event (s : EventStruct) : Event :=
  match s.type with
  | .genel => .genel s.idtf s.t
  | .createLink => .createLink s.idtf
  | .setBeg => .setBeg s.idtf s.aux
  | .setEnd => .setEnd s.idtf s.aux
  | .setIdtf => .setIdtf s.idtf s.aux
  | .eraseEl => .eraseEl s.idtf
  | .setCont => .setCont s.idtf s.cont
  | .changeType => .changeType s.idtf s.t s.t2
  | .unlink => .unlink

theorem Event.event_store (e : Event) (s : EventStruct) : (e.store s).event = e := by
  cases e <;> rfl

/-- `event_fifo`, with all that its sink has received. -/
structure EventFifo where
  fifo : Nat → EventStruct
  head : Nat
  tail : Nat
  received : List EventStruct

namespace EventFifo

def size : Nat := 32

inductive Call where
  | put (e : Event)
  | sync

def new (slots : Nat → EventStruct) : EventFifo := ⟨slots, 0, 0, []⟩

/-- `__sync`; the fuel bounds the turns of the loop. -/
def drain : Nat → EventFifo → Option EventFifo
  | 0, _ => none
  | fuel + 1, f =>
      let f := { f with received := f.received ++ [f.fifo f.tail], tail := (f.tail + 1) % size }
      if f.tail = f.head then some f else drain fuel f

/-- `get_struct`, the fields of the event, and `release_struct`. -/
def put (f : EventFifo) (e : Event) : Option EventFifo :=
  let f := { f with
    fifo := Function.update f.fifo f.head (e.store (f.fifo f.head))
    head := (f.head + 1) % size }
  if f.head = f.tail then drain size f else some f

/-- `sync`, and the destructor. -/
def sync (f : EventFifo) : Option EventFifo := if f.tail ≠ f.head then drain size f else some f

def exec (f : EventFifo) : Call → Option EventFifo
  | .put e => f.put e
  | .sync => f.sync

def run : List Call → EventFifo → Option EventFifo
  | [], f => some f
  | call :: calls, f => (f.exec call).bind (run calls)

def events : List Call → List Event
  | [] => []
  | .put e :: calls => e :: events calls
  | .sync :: calls => events calls

/-- The `n` slots from the tail on. -/
def slots (f : EventFifo) (n : Nat) : List Nat := (List.range n).map fun i => (f.tail + i) % size

def count (f : EventFifo) : Nat := (f.head + (size - f.tail)) % size

def waiting (f : EventFifo) : List Nat := f.slots f.count

structure Holds (f : EventFifo) (evs : List Event) : Prop where
  head : f.head < size
  tail : f.tail < size
  content : (f.received ++ f.waiting.map f.fifo).map (·.event) = evs

variable {f : EventFifo} {evs : List Event} {n : Nat}

theorem slots_succ_left (f : EventFifo) (n : Nat) (tail : f.tail < size) :
    f.slots (n + 1) = f.tail :: { f with tail := (f.tail + 1) % size }.slots n := by
  simp only [slots, List.range_succ_eq_map, List.map_cons, List.map_map, Nat.add_zero,
    Nat.mod_eq_of_lt tail]
  congr 1
  refine List.map_congr_left fun i _ => ?_
  simp only [Function.comp_apply, size]
  omega

theorem slots_succ (f : EventFifo) (n : Nat) :
    f.slots (n + 1) = f.slots n ++ [(f.tail + n) % size] := by
  rw [slots, List.range_succ, List.map_append, List.map_singleton]
  rfl

theorem drain_eq {fuel : Nat} (tail : f.tail < size) (head : f.head = (f.tail + (n + 1)) % size)
    (lt : n < size) (enough : n < fuel) :
    drain fuel f = some { f with
      tail := f.head, received := f.received ++ (f.slots (n + 1)).map f.fifo } := by
  induction n generalizing f fuel with
  | zero =>
    cases fuel with
    | zero => cases enough
    | succ fuel =>
      simp only [drain, head, if_true]
      simp [slots, Nat.mod_eq_of_lt tail]
  | succ n ih =>
    cases fuel with
    | zero => cases enough
    | succ fuel =>
      have turn : (f.tail + 1) % size ≠ f.head := by
        rw [head]
        unfold size at lt tail ⊢
        omega
      rw [slots_succ_left f _ tail]
      simp only [drain, turn, if_false]
      refine (ih (Nat.mod_lt _ (Nat.zero_lt_of_lt tail)) ?_ (Nat.lt_of_succ_lt lt)
        (Nat.lt_of_succ_lt_succ enough)).trans ?_
      · rw [head]
        unfold size
        dsimp only
        omega
      · simp only [List.append_assoc, List.map_cons, List.singleton_append]
        rfl

theorem waiting_nil (same : f.head = f.tail) (tail : f.tail < size) : f.waiting = [] := by
  rw [waiting, count, same, Nat.add_sub_cancel' (Nat.le_of_lt tail), Nat.mod_self]
  rfl

theorem drains (tail : f.tail < size) (next : f.head = (f.tail + (n + 1)) % size) (lt : n < size)
    (content : (f.received ++ (f.slots (n + 1)).map f.fifo).map (·.event) = evs) :
    ∃ f', drain size f = some f' ∧ f'.Holds evs ∧ f'.waiting = [] := by
  have head : f.head < size := next ▸ Nat.mod_lt _ (Nat.zero_lt_of_lt tail)
  obtain ⟨f', hf'⟩ : ∃ f', f' = { f with
    tail := f.head, received := f.received ++ (f.slots (n + 1)).map f.fifo } := ⟨_, rfl⟩
  have empty : f'.waiting = [] := hf' ▸ waiting_nil rfl head
  refine ⟨f', hf' ▸ drain_eq tail next lt lt, ⟨hf' ▸ head, hf' ▸ head, ?_⟩, empty⟩
  rw [empty, List.map_nil, List.append_nil, hf']
  exact content

namespace Holds

theorem head_eq (holds : f.Holds evs) : f.head = (f.tail + f.count) % size := by
  have head := holds.head
  have tail := holds.tail
  unfold count size at *
  omega

theorem head_free (holds : f.Holds evs) : f.head ∉ f.waiting := by
  intro waits
  obtain ⟨i, hi, same⟩ := List.mem_map.mp waits
  rw [List.mem_range] at hi
  have head := holds.head
  have tail := holds.tail
  unfold count size at *
  omega

theorem sync (holds : f.Holds evs) : ∃ f', f.sync = some f' ∧ f'.Holds evs ∧ f'.waiting = [] := by
  by_cases same : f.tail = f.head
  · exact ⟨f, if_neg (not_not.mpr same), holds, waiting_nil same.symm holds.tail⟩
  · obtain ⟨n, hn⟩ : ∃ n, f.count = n + 1 := by
      refine Nat.exists_eq_succ_of_ne_zero fun none => same ?_
      rw [holds.head_eq, none, Nat.add_zero, Nat.mod_eq_of_lt holds.tail]
    have lt : f.count < size := Nat.mod_lt _ (Nat.zero_lt_of_lt holds.tail)
    rw [EventFifo.sync, if_pos same]
    exact drains holds.tail (hn ▸ holds.head_eq) (by omega) (hn ▸ holds.content)

theorem put (holds : f.Holds evs) (e : Event) :
    ∃ f', f.put e = some f' ∧ f'.Holds (evs ++ [e]) := by
  have lt : f.count < size := Nat.mod_lt _ (Nat.zero_lt_of_lt holds.tail)
  have pos : (f.head + 1) % size < size := Nat.mod_lt _ (Nat.zero_lt_of_lt holds.tail)
  obtain ⟨g, hg⟩ : ∃ g, g = { f with
    fifo := Function.update f.fifo f.head (e.store (f.fifo f.head))
    head := (f.head + 1) % size } := ⟨_, rfl⟩
  have next : g.head = (g.tail + (f.count + 1)) % size := by
    have head := holds.head_eq
    rw [hg]
    unfold size at head ⊢
    dsimp only
    omega
  -- The event is behind those that wait, which stay.
  have content : (g.received ++ (g.slots (f.count + 1)).map g.fifo).map (·.event) = evs ++ [e] := by
    have kept : (f.slots f.count).map g.fifo = (f.slots f.count).map f.fifo := by
      refine List.map_congr_left fun i hi => ?_
      rw [hg]
      refine Function.update_of_ne ?_ _ _
      rintro rfl
      exact holds.head_free hi
    have stored : (g.fifo f.head).event = e := by
      rw [hg]
      dsimp only
      rw [Function.update_self, e.event_store]
    have slots : g.slots (f.count + 1) = f.slots f.count ++ [f.head] := by
      rw [holds.head_eq, ← slots_succ, hg]
      rfl
    have received : g.received = f.received := hg ▸ rfl
    rw [slots, @List.map_append _ _ g.fifo, kept, List.map_singleton, ← List.append_assoc,
      List.map_append, List.map_singleton, stored, received]
    exact congrArg (· ++ [e]) holds.content
  have call : f.put e = if g.head = g.tail then drain size g else some g := by
    rw [hg]
    rfl
  have tail : g.tail < size := hg ▸ holds.tail
  have head : g.head < size := hg ▸ pos
  rw [call]
  by_cases full : g.head = g.tail
  · obtain ⟨f', h, holds, -⟩ := drains tail next lt content
    exact ⟨f', (if_pos full).trans h, holds⟩
  · refine ⟨g, if_neg full, head, tail, ?_⟩
    have more : g.count = f.count + 1 := by
      unfold count size at *
      omega
    rw [waiting, more]
    exact content

theorem run (calls : List Call) : ∀ {f : EventFifo} {evs : List Event}, f.Holds evs →
    ∃ f', run calls f = some f' ∧ f'.Holds (evs ++ events calls) := by
  induction calls with
  | nil => exact fun {f evs} holds => ⟨f, rfl, (List.append_nil evs).symm ▸ holds⟩
  | cons call calls ih =>
    intro f evs holds
    cases call with
    | put e =>
      obtain ⟨f₁, h₁, holds⟩ := holds.put e
      obtain ⟨f₂, h₂, holds⟩ := ih holds
      exact ⟨f₂, Option.bind_eq_some_iff.mpr ⟨f₁, h₁, h₂⟩, List.append_assoc _ [e] _ ▸ holds⟩
    | sync =>
      obtain ⟨f₁, h₁, holds, -⟩ := holds.sync
      obtain ⟨f₂, h₂, holds⟩ := ih holds
      exact ⟨f₂, Option.bind_eq_some_iff.mpr ⟨f₁, h₁, h₂⟩, holds⟩

end Holds

/-- After any calls the next event finds a slot whose own event has been delivered, and those
that wait are still there behind the delivered ones; the destructor delivers what waits. -/
theorem fifo_delivers (slots : Nat → EventStruct) (calls : List Call) :
    ∃ f f', run calls (new slots) = some f ∧ f.head ∉ f.waiting ∧
      (f.received ++ f.waiting.map f.fifo).map (·.event) = events calls ∧
      f.sync = some f' ∧ f'.received.map (·.event) = events calls := by
  have start : (new slots).Holds [] := ⟨Nat.zero_lt_succ 31, Nat.zero_lt_succ 31, by
    rw [waiting_nil rfl (Nat.zero_lt_succ 31)]
    rfl⟩
  obtain ⟨f, hf, holds⟩ := Holds.run calls start
  obtain ⟨f', hf', delivered, empty⟩ := holds.sync
  refine ⟨f, f', hf, holds.head_free, holds.content, hf', ?_⟩
  have content := delivered.content
  rwa [empty, List.map_nil, List.append_nil] at content

end EventFifo

end ScCore.Store
