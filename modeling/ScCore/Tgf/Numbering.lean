import ScCore.Tgf.Commands
import ScCore.Tgf.Insertion

/-!
# Writer and reader number the same objects

The writer's map has the index of every command in the stream that was written with a
user object, the reader's map the user object that its client has attached to a command.
Both count the commands, so that an index names the same command on either side.
-/

namespace ScCore.Tgf

open Lib AvlTree

/-- A call of `tgf_write_command`, and whether its bytes can be written. -/
structure WriteCall where
  cmd : Command
  clId : Ptr
  io : Bool
  deriving DecidableEq, Repr

/-- The states of a stream that is written to by calls that meet a condition, and the
calls of which the command is in the stream. -/
inductive Written (ok : StreamOut → Prop) : StreamOut → List WriteCall → Prop where
  | new : Written ok StreamOut.new []
  | call {s s' : StreamOut} {accepted : List WriteCall} {err : Option TgfErr} (call : WriteCall) :
      Written ok s accepted → ok s → s.writeCommand call.cmd call.clId call.io = some (err, s') →
      Written ok s' (accepted ++ if err = none then [call] else [])

inductive ReadBack (replies : Nat → Bool × Ptr) :
    List Command → List (Except TgfErr Command) → ClientIn → Prop where
  | new : ReadBack replies [] [] ClientIn.new
  | next {cmds : List Command} {seen : List (Except TgfErr Command)} {r r' : ClientIn}
      {got : Except TgfErr Command} (cmd : Command) : ReadBack replies cmds seen r →
      r.processCommand cmd (replies cmds.length) = some (got, r') →
      ReadBack replies (cmds ++ [cmd]) (seen ++ [got]) r'

def StreamOut.Numbered (s : StreamOut) : Prop := s.cmdIndex + 1 ≠ 0

instance (s : StreamOut) : Decidable s.Numbered := inferInstanceAs (Decidable (_ ≠ _))

/-! ## Translations -/

theorem translateArgs_getElem? {f : Argument → ArgType → Except TgfErr Argument}
    {args args' : List Argument} {row : List ArgType} (h : translateArgs f args row = .ok args')
    {k : Nat} {arg : Argument} (harg : args[k]? = some arg) :
    ∃ arg', args'[k]? = some arg' ∧ ∀ expected, row[k]? = some expected → f arg expected = .ok
    arg' := by
  induction args generalizing args' row k with
  | nil => cases harg
  | cons a args ih =>
    cases row with
    | nil =>
      cases h
      exact ⟨arg, harg, nofun⟩
    | cons e row =>
      rw [translateArgs] at h
      cases hf : f a e with
      | error err =>
        rw [hf] at h
        cases h
      | ok a' =>
        cases hrest : translateArgs f args row with
        | error err =>
          rw [hf, hrest] at h
          cases h
        | ok rest =>
          rw [hf, hrest] at h
          cases h
          cases k with
          | zero =>
            cases harg
            refine ⟨a', rfl, ?_⟩
            rintro expected ⟨⟩
            exact hf
          | succ k => exact ih hrest harg

variable {cmd cmd' : Command} {map : MapNode} {s s' : StreamOut} {err : Option TgfErr}
  {accepted : List WriteCall} {r : ClientIn}

theorem commandCheck_some {row : List ArgType} (h : commandCheck cmd = some row) :
    row = (knownCmds cmd.type).2.2 ∧ cmd.args.length ≤ row.length ∧
      ∀ (k : Nat) (arg : Argument) (expected : ArgType), cmd.args[k]? = some arg →
        row[k]? = some expected → expected.accepts arg.type = true := by
  have rowLength : (knownCmds cmd.type).2.1 = (knownCmds cmd.type).2.2.length := by
    cases cmd.type <;> rfl
  simp only [commandCheck, Bool.or_eq_true, decide_eq_true_eq] at h
  split at h
  · cases h
  · next hlength =>
    split at h
    · next hall =>
      cases h
      refine ⟨rfl, rowLength ▸ Nat.not_lt.mp fun h => hlength (Or.inr h),
        fun k arg expected harg hexpected => ?_⟩
      apply List.all_eq_true.mp hall (arg, expected)
      apply List.mem_of_getElem?
      exact List.getElem?_zip_eq_some.mpr ⟨harg, hexpected⟩
    · cases h

theorem translateCommand_ok {f : Argument → ArgType → Except TgfErr Argument}
    (h : translateCommand f cmd = .ok cmd') :
    cmd'.type = cmd.type ∧ commandCheck cmd = some (knownCmds cmd.type).2.2 ∧
      translateArgs f cmd.args (knownCmds cmd.type).2.2 = .ok cmd'.args := by
  rw [translateCommand] at h
  cases hcheck : commandCheck cmd with
  | none =>
    rw [hcheck] at h
    cases h
  | some row =>
    obtain ⟨rfl, -⟩ := commandCheck_some hcheck
    cases hargs : translateArgs f cmd.args (knownCmds cmd.type).2.2 with
    | error err =>
      rw [hcheck] at h
      simp only [hargs] at h
      cases h
    | ok args =>
      rw [hcheck] at h
      simp only [hargs] at h
      cases h
      exact ⟨rfl, rfl, rfl⟩

theorem mapFind_mem {comp : Ptr → Ptr → Int} {key value : Ptr} {t : MapNode}
    (h : mapFind comp key t = some value) : ∃ e ∈ t.entries, comp key e.1 = 0 ∧ e.2 = value := by
  induction t with
  | nil => cases h
  | node l b k v r ihl ihr =>
    simp only [entries_node, List.mem_append, List.mem_cons]
    rw [mapFind] at h
    split at h
    · next zero =>
      cases h
      exact ⟨(k, value), Or.inr (Or.inl rfl), zero, rfl⟩
    · split at h
      · obtain ⟨e, he, found⟩ := ihr h
        exact ⟨e, Or.inr (Or.inr he), found⟩
      · obtain ⟨e, he, found⟩ := ihl h
        exact ⟨e, Or.inl he, found⟩

/-- A reference that is not the reserved one is written as the index of its object. -/
theorem translateOut_userid (h : translateOut map cmd = .ok cmd')
    (crc : cmd'.args.findSome? updateCrcArgument = none) {k : Nat} {arg : Argument}
    (harg : cmd.args[k]? = some arg) (huser : arg.type = .userid) (href : arg.aInt32 ≠ -1) :
    ∃ id, tgfMapOutLookup map arg.aUserid = some id ∧ cmd'.args[k]? = some (arg.setInt32 id) ∧
      (knownCmds cmd.type).2.2[k]? = some .userid := by
  obtain ⟨-, hcheck, hargs⟩ := translateCommand_ok h
  obtain ⟨-, hlength, haccepts⟩ := commandCheck_some hcheck
  obtain ⟨arg', harg', htranslated⟩ := translateArgs_getElem? hargs harg
  have hk : k < (knownCmds cmd.type).2.2.length :=
    Nat.lt_of_lt_of_le (List.getElem?_eq_some_iff.mp harg).1 hlength
  have hrow := List.getElem?_eq_getElem hk
  have hstep := htranslated _ hrow
  have hfits := haccepts k arg _ harg hrow
  rw [translateOutArg] at hstep
  split at hstep
  · next hother =>
    -- an argument of any type is not translated, and is refused by the checksum
    cases hstep
    have hbad := List.findSome?_eq_none_iff.mp crc arg (List.mem_of_getElem? harg')
    rw [updateCrcArgument, huser] at hbad
    cases hbad
  · next hexpected =>
    rw [not_not] at hexpected
    simp only [huser, ne_eq, not_true_eq_false, if_false] at hstep
    split at hstep
    · cases hstep
    · next id hlookup =>
      cases hstep
      exact ⟨id, hlookup, harg', by rw [hrow, hexpected]⟩

@[simp]
theorem aInt32_setInt32 (arg : Argument) (id : BitVec 32) : (arg.setInt32 id).aInt32 = id :=
  BitVec.setWidth_append_eq_right

/-! ## The writer -/

theorem writeCommand_cases {clId : Ptr} {io : Bool}
    (h : s.writeCommand cmd clId io = some (err, s')) :
    (err ≠ none ∧ s' = s) ∨
    (err ≠ none ∧ s.lastErr = none ∧ s'.lastErr ≠ none ∧ s'.written = s.written) ∨
    (err = none ∧ s.lastErr = none ∧ ∃ added hash cmd',
      s.addObject clId = some (added, hash) ∧ added ≠ 0 ∧ translateOut hash cmd = .ok cmd' ∧
      cmd'.args.findSome? updateCrcArgument = none ∧
      s' = ⟨hash, s.cmdIndex + 1, none, s.written ++ [cmd']⟩) := by
  rw [StreamOut.writeCommand] at h
  cases hlast : s.lastErr with
  | some e =>
    rw [hlast] at h
    cases h
    exact .inl ⟨nofun, rfl⟩
  | none =>
    rw [hlast] at h
    dsimp only at h
    split at h
    · cases h
    · cases h
      exact .inl ⟨nofun, rfl⟩
    · next added hash hnew hadd =>
      split at h
      · cases h
        exact .inr (.inl ⟨nofun, rfl, nofun, rfl⟩)
      · next cmd' htranslate =>
        rw [StreamOut.writeTranslatedCommand] at h
        split at h
        · cases h
          exact .inr (.inl ⟨nofun, rfl, nofun, rfl⟩)
        · next hcrc =>
          cases io with
          | false =>
            cases h
            exact .inr (.inl ⟨nofun, rfl, nofun, rfl⟩)
          | true =>
            cases h
            exact .inr (.inr ⟨rfl, rfl, added, hash, cmd', hadd, hnew, htranslate, hcrc, rfl⟩)

structure Tree (map : MapNode) : Prop where
  balanced : map.Balanced
  ordered : map.Ordered address

def Produced (accepted : List WriteCall) (e : Ptr × Ptr) : Prop :=
  e.1 ≠ 0 ∧ ∃ i call, accepted[i]? = some call ∧ call.clId = e.1 ∧ e.2 = I2P (BitVec.ofNat 32 i)

theorem Tree.add {map' : MapNode} (tree : Tree map) {clId : Ptr} {index : BitVec 32} {added : Nat}
    (h : tgfMapOutAdd map clId index = some (added, map')) (new : added ≠ 0) :
    Tree map' ∧ (∀ v, (clId, v) ∉ map.entries) ∧
      ∀ e, e ∈ map'.entries ↔ e ∈ map.entries ∨ e = (clId, I2P index) := by
  obtain ⟨rv, m, hrun, balanced, inserted⟩ :=
    mapInsert_spec mapCompPtr clId (I2P index) tree.balanced
  cases hrun.symm.trans h
  have agrees : ∀ e ∈ map.entries, Agrees mapCompPtr address clId e.1 := fun e _ =>
    agrees_ptr clId e.1
  refine ⟨⟨balanced, inserted.ordered tree.ordered agrees⟩, fun v hmem => ?_, fun e => ?_⟩
  · exact new ((inserted.fails_iff tree.ordered agrees).mpr (List.mem_map_of_mem hmem))
  · exact inserted.mem_entries new

theorem Tree.lookup {p : Ptr} {id : BitVec 32} (h : tgfMapOutLookup map p = some id) :
    ∃ v, (p, v) ∈ map.entries ∧ P2I v = id := by
  obtain ⟨v, hfind, rfl⟩ := Option.map_eq_some_iff.mp h
  obtain ⟨e, he, hzero, rfl⟩ := mapFind_mem hfind
  rw [(agrees_ptr p e.1).same] at hzero
  exact ⟨e.2, hzero ▸ he, rfl⟩

def RefersTo (accepted : List WriteCall) (j : Nat) (call : WriteCall) (cmd : Command) : Prop :=
  cmd.type = call.cmd.type ∧ ∀ (k : Nat) (arg : Argument), call.cmd.args[k]? = some arg →
    arg.type = .userid → arg.aInt32 ≠ -1 →
    ∃ i producer arg', i ≤ j ∧ accepted[i]? = some producer ∧ producer.clId = arg.aUserid ∧
      arg.aUserid ≠ 0 ∧ cmd.args[k]? = some arg' ∧ arg'.aInt32 = BitVec.ofNat 32 i ∧
      (knownCmds cmd.type).2.2[k]? = some .userid

structure WriterInv (s : StreamOut) (accepted : List WriteCall) : Prop where
  length : s.written.length = accepted.length
  small : accepted.length < 2 ^ 32
  index : s.lastErr = none → s.cmdIndex = BitVec.ofNat 32 accepted.length
  tree : s.lastErr = none → Tree s.hash
  produced : s.lastErr = none → ∀ e, e ∈ s.hash.entries ↔ Produced accepted e
  refers : ∀ j call cmd, accepted[j]? = some call → s.written[j]? = some cmd →
    RefersTo accepted j call cmd
  once : ∀ (i i' : Nat) (call call' : WriteCall), accepted[i]? = some call →
    accepted[i']? = some call' → call.clId ≠ 0 → call.clId = call'.clId → i = i'

theorem WriterInv.new : WriterInv StreamOut.new [] where
  length := rfl
  small := by decide
  index _ := rfl
  tree _ := ⟨trivial, trivial⟩
  produced _ e := by simp [StreamOut.new, Produced]
  refers j call cmd h := by simp at h
  once i i' call call' h := by simp at h

theorem Produced.mono {e : Ptr × Ptr} (h : Produced accepted e) (more : List WriteCall) :
    Produced (accepted ++ more) e := by
  obtain ⟨hne, i, call, hcall, rest⟩ := h
  refine ⟨hne, i, call, ?_, rest⟩
  rw [List.getElem?_append_left (List.getElem?_eq_some_iff.mp hcall).1, hcall]

theorem RefersTo.mono {j : Nat} {call : WriteCall} (h : RefersTo accepted j call cmd)
    (more : List WriteCall) : RefersTo (accepted ++ more) j call cmd := by
  refine ⟨h.1, fun k arg harg huser href => ?_⟩
  obtain ⟨i, producer, arg', hij, hproducer, rest⟩ := h.2 k arg harg huser href
  refine ⟨i, producer, arg', hij, ?_, rest⟩
  rw [List.getElem?_append_left (List.getElem?_eq_some_iff.mp hproducer).1, hproducer]

theorem getElem?_concat {α : Type} {l : List α} {a b : α} {i : Nat} :
    (l ++ [a])[i]? = some b ↔ l[i]? = some b ∨ i = l.length ∧ a = b := by
  by_cases hi : i < l.length
  · rw [List.getElem?_append_left hi]
    simp [Nat.ne_of_lt hi]
  · rw [List.getElem?_append_right (Nat.le_of_not_lt hi), List.getElem?_eq_none
      (Nat.le_of_not_lt hi)]
    by_cases heq : i = l.length
    · simp [heq]
    · have hpos : i - l.length ≠ 0 := by omega
      simp [heq, hpos]

theorem WriterInv.call {call : WriteCall} (inv : WriterInv s accepted) (numbered : s.Numbered)
    (h : s.writeCommand call.cmd call.clId call.io = some (err, s')) :
    WriterInv s' (accepted ++ if err = none then [call] else []) := by
  obtain ⟨herr, rfl⟩ | ⟨herr, -, hlast, hwritten⟩ |
    ⟨rfl, hlast, added, hash, cmd', hadd, hnew, htranslate, hcrc, rfl⟩ := writeCommand_cases h
  · rw [if_neg herr, List.append_nil]
    exact inv
  · rw [if_neg herr, List.append_nil]
    constructor
    · rw [hwritten, inv.length]
    · exact inv.small
    · exact fun h => absurd h hlast
    · exact fun h => absurd h hlast
    · exact fun h => absurd h hlast
    · rw [hwritten]
      exact inv.refers
    · exact inv.once
  · rw [if_pos rfl]
    have index := inv.index hlast
    have small : accepted.length + 1 < 2 ^ 32 := by
      have := inv.small
      rw [StreamOut.Numbered, index] at numbered
      have hne : accepted.length + 1 ≠ 2 ^ 32 := by
        intro heq
        apply numbered
        rw [show (1 : BitVec 32) = BitVec.ofNat 32 1 from rfl, ← BitVec.ofNat_add, heq]
        rfl
      omega
    obtain ⟨tree, unknown, entries⟩ : Tree hash ∧
        (call.clId ≠ 0 → ∀ v, (call.clId, v) ∉ s.hash.entries) ∧
        ∀ e, e ∈ hash.entries ↔ e ∈ s.hash.entries ∨
          call.clId ≠ 0 ∧ e = (call.clId, I2P s.cmdIndex) := by
      rw [StreamOut.addObject] at hadd
      split at hadd
      · next hzero =>
        cases hadd
        exact ⟨inv.tree hlast, fun h => absurd hzero h, fun e => by simp [hzero]⟩
      · next hzero =>
        obtain ⟨tree, unknown, entries⟩ := (inv.tree hlast).add hadd hnew
        exact ⟨tree, fun _ => unknown, fun e => by rw [entries e, and_iff_right
          (a := call.clId ≠ 0) hzero]⟩
    have produced : ∀ e, e ∈ hash.entries ↔ Produced (accepted ++ [call]) e := by
      intro e
      rw [entries e, inv.produced hlast e, index]
      constructor
      · rintro (hold | ⟨hne, rfl⟩)
        · exact hold.mono [call]
        · exact ⟨hne, accepted.length, call, getElem?_concat.mpr (.inr ⟨rfl, rfl⟩), rfl, rfl⟩
      · rintro ⟨hne, i, producer, hproducer, hobject, hindex⟩
        rcases getElem?_concat.mp hproducer with hold | ⟨rfl, rfl⟩
        · exact .inl ⟨hne, i, producer, hold, hobject, hindex⟩
        · exact .inr ⟨hobject ▸ hne, Prod.ext hobject.symm hindex⟩
    have fresh : ∀ (i : Nat) (producer : WriteCall), accepted[i]? = some producer → call.clId ≠ 0 →
        producer.clId ≠ call.clId := by
      intro i producer hproducer hne heq
      apply unknown hne (I2P (BitVec.ofNat 32 i))
      rw [inv.produced hlast]
      exact ⟨hne, i, producer, hproducer, heq, rfl⟩
    constructor
    · simp [inv.length]
    · simpa using small
    · intro _
      rw [index, List.length_append]
      exact (BitVec.ofNat_add accepted.length 1).symm
    · exact fun _ => tree
    · exact fun _ => produced
    · intro j call' cmd hcall' hcmd
      rcases getElem?_concat.mp hcall' with hold | ⟨rfl, rfl⟩
      · have hj : j < s.written.length := inv.length ▸ (List.getElem?_eq_some_iff.mp hold).1
        have hcmd' : s.written[j]? = some cmd := by
          rw [← hcmd, List.getElem?_append_left hj]
        exact (inv.refers j call' cmd hold hcmd').mono [call]
      · rw [← inv.length] at hcmd
        obtain rfl : cmd' = cmd := by simpa using hcmd
        have htype := (translateCommand_ok htranslate).1
        refine ⟨htype, fun k arg harg huser href => ?_⟩
        obtain ⟨id, hlookup, harg', hrow⟩ := translateOut_userid htranslate hcrc harg huser href
        obtain ⟨v, hentry, hid⟩ := Tree.lookup hlookup
        obtain ⟨hne, i, producer, hproducer, hobject, hindex⟩ := (produced _).mp hentry
        have hi := (List.getElem?_eq_some_iff.mp hproducer).1
        rw [List.length_append] at hi
        refine ⟨i, producer, _, Nat.le_of_lt_succ hi, hproducer, hobject, hne, harg', ?_, ?_⟩
        · rw [aInt32_setInt32, ← hid]
          have hindex : v = I2P (BitVec.ofNat 32 i) := hindex
          rw [hindex, P2I_I2P]
        · rw [htype, hrow]
    · intro i i' producer producer' hi hi' hne heq
      rcases getElem?_concat.mp hi with hold | ⟨rfl, rfl⟩
      · rcases getElem?_concat.mp hi' with hold' | ⟨rfl, rfl⟩
        · exact inv.once i i' producer producer' hold hold' hne heq
        · exact absurd heq (fresh i producer hold (heq ▸ hne))
      · rcases getElem?_concat.mp hi' with hold' | ⟨rfl, rfl⟩
        · exact absurd heq.symm (fresh i' producer' hold' hne)
        · rfl

theorem Written.inv (written : Written StreamOut.Numbered s accepted) : WriterInv s accepted := by
  induction written with
  | new => exact WriterInv.new
  | call call _ numbered h ih => exact ih.call numbered h

/-! ## The reader -/

structure ReaderInv (replies : Nat → Bool × Ptr) (cmds : List Command)
    (seen : List (Except TgfErr Command)) (r : ClientIn) : Prop where
  length : seen.length = cmds.length
  index : r.cmdIndex = BitVec.ofNat 32 cmds.length
  balanced : r.hash.Balanced
  attached : ∀ e ∈ r.hash.entries, ∃ i, i < cmds.length ∧ replies i = (false, e.2) ∧
    e.1 = I2P (BitVec.ofNat 32 i)
  resolved : ∀ (j : Nat) (cmd got : Command), cmds[j]? = some cmd → seen[j]? = some (.ok got) →
    ∀ (k : Nat) (arg : Argument), cmd.args[k]? = some arg →
      (knownCmds cmd.type).2.2[k]? = some .userid → arg.aInt32 ≠ -1 →
      ∃ i obj, i < j ∧ replies i = (false, obj) ∧ arg.aInt32 = BitVec.ofNat 32 i ∧
        got.args[k]? = some ⟨.userid, obj⟩

theorem processCommand_cases {r' : ClientIn} {cb : Bool × Ptr} {got : Except TgfErr Command}
    (h : r.processCommand cmd cb = some (got, r')) :
    got = translateIn r.hash cmd ∧ r'.cmdIndex = r.cmdIndex + 1 ∧ (r'.hash = r.hash ∨
      cb.1 = false ∧ ∃ added, tgfMapInAdd r.hash r.cmdIndex cb.2 = some (added, r'.hash) ∧
        added ≠ 0) := by
  have back : r.cmdIndex + 1 - 1 = r.cmdIndex := BitVec.add_sub_cancel _ _
  simp only [ClientIn.processCommand, back] at h
  split at h
  · next err htranslate =>
    cases h
    exact ⟨htranslate.symm, rfl, .inl rfl⟩
  · next cmd' htranslate =>
    split at h
    · cases h
      exact ⟨htranslate.symm, rfl, .inl rfl⟩
    · next hcb =>
      split at h
      · cases h
        exact ⟨htranslate.symm, rfl, .inl rfl⟩
      · split at h
        · cases h
        · cases h
          exact ⟨htranslate.symm, rfl, .inl rfl⟩
        · next added hash hnew hadd =>
          cases h
          exact ⟨htranslate.symm, rfl, .inr ⟨Bool.eq_false_of_not_eq_true hcb, added, hadd, hnew⟩⟩

theorem translateIn_userid {got : Command} (h : translateIn map cmd = .ok got) {k : Nat}
    {arg : Argument} (harg : cmd.args[k]? = some arg)
    (hrow : (knownCmds cmd.type).2.2[k]? = some .userid) (href : arg.aInt32 ≠ -1) :
    ∃ e ∈ map.entries, mapCompInt (I2P arg.aInt32) e.1 = 0 ∧
      got.args[k]? = some ⟨.userid, e.2⟩ := by
  obtain ⟨-, -, hargs⟩ := translateCommand_ok h
  obtain ⟨arg', harg', htranslated⟩ := translateArgs_getElem? hargs harg
  have hstep := htranslated _ hrow
  rw [translateInArg, if_neg (not_not.mpr rfl), if_neg href] at hstep
  split at hstep
  · cases hstep
  · next obj hlookup =>
    cases hstep
    obtain ⟨e, he, hzero, rfl⟩ := mapFind_mem hlookup
    exact ⟨e, he, hzero, harg'⟩

theorem ReadBack.inv {replies : Nat → Bool × Ptr} {cmds : List Command}
    {seen : List (Except TgfErr Command)} (read : ReadBack replies cmds seen r) :
    ReaderInv replies cmds seen r := by
  induction read with
  | new =>
    constructor
    · rfl
    · rfl
    · trivial
    · exact fun e he => absurd he List.not_mem_nil
    · intro j cmd got hcmd
      simp at hcmd
  | @next cmds seen r r' got cmd _ h inv =>
    obtain ⟨hgot, hindex, hhash⟩ := processCommand_cases h
    constructor
    · simp [inv.length]
    · rw [hindex, inv.index, List.length_append]
      exact (BitVec.ofNat_add cmds.length 1).symm
    · rcases hhash with heq | ⟨-, added, hadd, -⟩
      · rw [heq]
        exact inv.balanced
      · obtain ⟨rv, m, hrun, balanced, -⟩ :=
          mapInsert_spec mapCompInt (I2P r.cmdIndex) (replies cmds.length).2 inv.balanced
        cases hrun.symm.trans hadd
        exact balanced
    · have old : ∀ e ∈ r.hash.entries, ∃ i, i < (cmds ++ [cmd]).length ∧
          replies i = (false, e.2) ∧ e.1 = I2P (BitVec.ofNat 32 i) := by
        intro e he
        obtain ⟨i, hi, rest⟩ := inv.attached e he
        exact ⟨i, by simpa using Nat.lt_succ_of_lt hi, rest⟩
      rcases hhash with heq | ⟨hcb, added, hadd, hnew⟩
      · rw [heq]
        exact old
      · obtain ⟨rv, m, hrun, -, inserted⟩ :=
          mapInsert_spec mapCompInt (I2P r.cmdIndex) (replies cmds.length).2 inv.balanced
        cases hrun.symm.trans hadd
        intro e he
        rcases (inserted.mem_entries hnew).mp he with he | rfl
        · exact old e he
        · exact ⟨cmds.length, by simp, Prod.ext hcb rfl, by rw [inv.index]⟩
    · intro j cmd' got' hcmd' hgot' k arg harg hrow href
      rcases getElem?_concat.mp hcmd' with hold | ⟨rfl, rfl⟩
      · have hj : j < seen.length := inv.length ▸ (List.getElem?_eq_some_iff.mp hold).1
        rw [List.getElem?_append_left hj] at hgot'
        exact inv.resolved j cmd' got' hold hgot' k arg harg hrow href
      · rw [← inv.length] at hgot'
        obtain rfl : got = .ok got' := by simpa using hgot'
        obtain ⟨e, he, hzero, hresult⟩ := translateIn_userid hgot.symm harg hrow href
        obtain ⟨i, hi, hreply, hkey⟩ := inv.attached e he
        rw [hkey, mapCompInt_eq_zero] at hzero
        exact ⟨i, e.2, hi, hreply, hzero, hresult⟩

/-- A reference that the reader's client sees is the object that it has attached to the
command that the writer wrote with the object that is referred to, and to no other. -/
theorem numbering_agrees (replies : Nat → Bool × Ptr) (s : StreamOut) (accepted : List WriteCall)
    (cmds : List Command) (seen : List (Except TgfErr Command)) (r : ClientIn)
    (written : Written StreamOut.Numbered s accepted) (begun : cmds <+: s.written)
    (read : ReadBack replies cmds seen r) (j k : Nat) (call : WriteCall) (got : Command)
    (arg : Argument) (hcall : accepted[j]? = some call) (hgot : seen[j]? = some (.ok got))
    (harg : call.cmd.args[k]? = some arg) (huser : arg.type = .userid) (href : arg.aInt32 ≠ -1) :
    ∃ i producer obj, i < j ∧ accepted[i]? = some producer ∧ producer.clId = arg.aUserid ∧
      replies i = (false, obj) ∧ got.args[k]? = some ⟨.userid, obj⟩ ∧
      ∀ (i' : Nat) (producer' : WriteCall), accepted[i']? = some producer' →
        producer'.clId = arg.aUserid → i' = i := by
  have writer := written.inv
  have reader := read.inv
  have hj : j < cmds.length := reader.length ▸ (List.getElem?_eq_some_iff.mp hgot).1
  have hcmd := List.getElem?_eq_getElem hj
  have hwritten : s.written[j]? = some cmds[j] := by
    obtain ⟨rest, hrest⟩ := begun
    rw [← hcmd, ← hrest, List.getElem?_append_left hj]
  obtain ⟨htype, hrefers⟩ := writer.refers j call _ hcall hwritten
  obtain ⟨i, producer, arg', hij, hproducer, hobject, hne, harg', hindex, hrow⟩ :=
    hrefers k arg harg huser href
  have hi := (List.getElem?_eq_some_iff.mp hproducer).1
  have hjlt := (List.getElem?_eq_some_iff.mp hcall).1
  have small := writer.small
  have href' : arg'.aInt32 ≠ -1 := by
    intro heq
    have hlast := congrArg BitVec.toNat (hindex.symm.trans heq)
    simp only [BitVec.toNat_ofNat, BitVec.reduceNeg] at hlast
    omega
  obtain ⟨i', obj, hi', hreply, hindex', hresult⟩ :=
    reader.resolved j _ got hcmd hgot k arg' harg' hrow href'
  obtain rfl : i = i' := by
    have hsame := congrArg BitVec.toNat (hindex.symm.trans hindex')
    simp only [BitVec.toNat_ofNat] at hsame
    omega
  refine ⟨i, producer, obj, hi', hproducer, hobject, hreply, hresult, ?_⟩
  intro i'' producer'' hproducer'' hobject''
  exact writer.once i'' i producer'' producer hproducer'' hproducer (hobject''.symm ▸ hne)
    (hobject''.trans hobject.symm)

/-- `TGF_GENEL`, `TGF_SETBEG` and `TGF_NOP` as a client writes them. -/
def genel (obj : Ptr) : WriteCall := ⟨⟨.genel, [⟨.string, 1⟩, ⟨.sctype, 2⟩]⟩, obj, true⟩

def setbeg (obj : Ptr) : WriteCall := ⟨⟨.setbeg, [⟨.userid, obj⟩, ⟨.userid, obj⟩]⟩, 0, true⟩

def nop : WriteCall := ⟨⟨.nop, []⟩, 0, true⟩

/-- An element is generated and is an end of itself. -/
theorem numbering_agrees_setbeg : ∃ (got : Command) (i : Nat) (producer : WriteCall) (obj : Ptr),
    i < 1 ∧ [genel 16, setbeg 16][i]? = some producer ∧ producer.clId = 16 ∧
    (fun _ : Nat => (false, (100 : Ptr))) i = (false, obj) ∧ got.args[0]? = some ⟨.userid, obj⟩ ∧
    ∀ (i' : Nat) (producer' : WriteCall), [genel 16, setbeg 16][i']? = some producer' →
      producer'.clId = 16 → i' = i := by
  have written : Written StreamOut.Numbered _ [genel 16, setbeg 16] :=
    .call (setbeg 16) (.call (genel 16) .new (by decide) rfl) (by decide) rfl
  have read : ReadBack (fun _ => (false, 100)) _ _ _ :=
    .next ⟨.setbeg, [⟨.int32, 0⟩, ⟨.int32, 0⟩]⟩ (.next (genel 16).cmd .new rfl) rfl
  exact ⟨_, numbering_agrees _ _ _ _ _ _ written (List.prefix_refl _) read 1 0 (setbeg 16) _ _
    rfl rfl rfl rfl (by decide)⟩

theorem Written.nops (hlast : s.lastErr = none) (written : Written (fun _ => True) s accepted)
    (n : Nat) :
    Written (fun _ => True) ⟨s.hash, s.cmdIndex + BitVec.ofNat 32 n, none,
      s.written ++ List.replicate n nop.cmd⟩ (accepted ++ List.replicate n nop) := by
  induction n with
  | zero =>
    obtain ⟨hash, cmdIndex, lastErr, cmds⟩ := s
    obtain rfl : lastErr = none := hlast
    simpa using written
  | succ n ih =>
    have step := Written.call nop ih trivial rfl
    rw [List.replicate_succ', List.replicate_succ', ← List.append_assoc, ← List.append_assoc,
      BitVec.ofNat_add, ← BitVec.add_assoc]
    exact step

theorem ReadBack.nops {replies : Nat → Bool × Ptr} {cmds : List Command}
    {seen : List (Except TgfErr Command)} (read : ReadBack replies cmds seen r) (n : Nat)
    (silent : ∀ i, cmds.length ≤ i → i < cmds.length + n → replies i = (false, 0)) :
    ReadBack replies (cmds ++ List.replicate n nop.cmd) (seen ++ List.replicate n (.ok nop.cmd))
      ⟨r.hash, r.cmdIndex + BitVec.ofNat 32 n⟩ := by
  induction n with
  | zero => simpa using read
  | succ n ih =>
    have before := ih fun i hi hlt => silent i hi (Nat.lt_succ_of_lt hlt)
    have reply : replies (cmds ++ List.replicate n nop.cmd).length = (false, 0) := by
      rw [List.length_append, List.length_replicate]
      exact silent _ (Nat.le_add_right _ _) (Nat.lt_succ_self _)
    have step := ReadBack.next nop.cmd before (by rw [reply]; rfl)
    rw [List.replicate_succ', List.replicate_succ', ← List.append_assoc, ← List.append_assoc,
      BitVec.ofNat_add, ← BitVec.add_assoc]
    exact step

def AlwaysAgrees : Prop :=
  ∀ (replies : Nat → Bool × Ptr) (s : StreamOut) (accepted : List WriteCall) (cmds : List Command)
    (seen : List (Except TgfErr Command)) (r : ClientIn), Written (fun _ => True) s accepted →
    cmds <+: s.written → ReadBack replies cmds seen r →
    ∀ (j k : Nat) (call : WriteCall) (got : Command) (arg : Argument), accepted[j]? = some call →
      seen[j]? = some (.ok got) → call.cmd.args[k]? = some arg → arg.type = .userid →
      arg.aInt32 ≠ -1 → ∃ i producer obj, i < j ∧ accepted[i]? = some producer ∧
        producer.clId = arg.aUserid ∧ replies i = (false, obj) ∧ got.args[k]? = some ⟨.userid, obj⟩

/-- After so many commands that the counter is back at zero, two objects have one index. -/
theorem not_alwaysAgrees_of_wrap (n : Nat) (wrap : (1 : BitVec 32) + BitVec.ofNat 32 n = 0) :
    ¬AlwaysAgrees := by
  intro claim
  let replies : Nat → Bool × Ptr := fun i =>
    if i = 0 then (false, 100) else if i = n + 1 then (false, 200) else (false, 0)
  have first : Written (fun _ => True) ⟨mapNodeNew 16 (I2P 0), 1 + BitVec.ofNat 32 n, none,
      [(genel 16).cmd] ++ List.replicate n nop.cmd⟩ ([genel 16] ++ List.replicate n nop) :=
    Written.nops rfl (.call (genel 16) .new trivial rfl) n
  rw [wrap] at first
  let setbegOut : Command := ⟨.setbeg, [⟨.int32, 0⟩, ⟨.int32, 0⟩]⟩
  let map : MapNode := .node .nil 1 16 (I2P 0) (mapNodeNew 32 (I2P 0))
  have next : Written (fun _ => True) ⟨map, 1, none,
      [(genel 16).cmd] ++ List.replicate n nop.cmd ++ [(genel 32).cmd]⟩
      ([genel 16] ++ List.replicate n nop ++ [genel 32]) := .call (genel 32) first trivial rfl
  have written : Written (fun _ => True) ⟨map, 2, none,
      [(genel 16).cmd] ++ List.replicate n nop.cmd ++ [(genel 32).cmd] ++ [setbegOut]⟩
      ([genel 16] ++ List.replicate n nop ++ [genel 32] ++ [setbeg 32]) :=
    .call (setbeg 32) next trivial rfl
  have silent : ∀ i, 1 ≤ i → i < 1 + n → replies i = (false, 0) := by
    intro i hi hlt
    have hne : i ≠ 0 := by omega
    have hne' : i ≠ n + 1 := by omega
    simp [replies, hne, hne']
  have one : ReadBack replies [(genel 16).cmd] [.ok (genel 16).cmd] ⟨mapNodeNew (I2P 0) 100, 1⟩ :=
    .next (genel 16).cmd .new rfl
  have begun := one.nops n silent
  rw [wrap] at begun
  have reply : ∀ l : List Command, l.length = n + 1 → replies l.length = (false, 200) := by
    intro l hl
    simp [replies, hl]
  have noReply : ∀ l : List Command, l.length = n + 2 → replies l.length = (false, 0) := by
    intro l hl
    simp [replies, hl]
  have second := ReadBack.next (genel 32).cmd begun (by rw [reply _ (by simp)]; rfl)
  have read := ReadBack.next setbegOut second (by rw [noReply _ (by simp)]; rfl)
  obtain ⟨i, producer, obj, hi, hproducer, hobject, hreply, hresult⟩ :=
    claim replies _ _ _ _ _ written (List.prefix_refl _) read (n + 2) 0 (setbeg 32) _
      ⟨.userid, 32⟩ (getElem?_concat.mpr (.inr ⟨by simp, rfl⟩))
      (getElem?_concat.mpr (.inr ⟨by simp, rfl⟩)) rfl rfl (by decide)
  rcases getElem?_concat.mp hproducer with hproducer | ⟨rfl, -⟩
  · rcases getElem?_concat.mp hproducer with hproducer | ⟨rfl, -⟩
    · have hmem := List.mem_of_getElem? hproducer
      rcases List.mem_append.mp hmem with hmem | hmem
      · rw [List.mem_singleton.mp hmem] at hobject
        exact absurd hobject (by decide)
      · rw [List.eq_of_mem_replicate hmem] at hobject
        exact absurd hobject (by decide)
    · rw [List.length_append, List.length_replicate, Nat.add_comm] at hreply
      have hobj : (false, (200 : Ptr)) = (false, obj) := by
        rw [← hreply]
        simp [replies]
      cases hobj
      exact absurd hresult (by decide)
  · simp at hi

/-- So many commands are 2³² - 1. -/
theorem numbering_agrees_fails : ¬AlwaysAgrees := not_alwaysAgrees_of_wrap 4294967295 rfl

end ScCore.Tgf
