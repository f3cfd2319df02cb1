import ScCore.Rgp.ControlSocket

/-!
# What the control socket lets through

Which bytes make a connection reach outside its tables: an argument type without a
prototype, a command without an entry, a constraint without an entry, an iterator
whose constraint has more parameters than the request has arguments, and a session
that no login has set. The reader and the table of the commands rule out the rest.
-/

namespace ScCore.Rgp

open Turn Param

variable {W Obj Rep : Type}

namespace Command

variable {getObj : GetObj Obj} {c c' : Command Obj} {bs bs' rest : List Byte} {r : ReadResult}

/-! ## Requests that have been read -/

/-- What the reader keeps: behind the id it is a known one with an admitted number of
arguments, and a command that is read has that many. -/
def Formed (c : Command Obj) : Prop :=
  match c.readingState with
  | .readCmdId => c.args = []
  | .readArgCount => c.args = [] ∧ ∃ id, c.id = some id
  | .readArgType => ∃ id, c.id = some id ∧ (commandInfo id).admits c.argsCount
  | .readArg => (∃ id, c.id = some id ∧ (commandInfo id).admits c.argsCount) ∧ ∃ a, c.back = some a
  | .readed => ∃ id, c.id = some id ∧ (commandInfo id).admits c.args.length ∧
      (c.args = [] → (commandInfo id).argsCount = 0 ∧ (commandInfo id).maxRestCount = none)

theorem formed_new : Formed (new : Command Obj) := rfl

theorem formed_readCount {id : CommandT} (hid : c.id = some id) (hargs : c.args = [])
    (hstate : c.readingState = .readArgCount) (count : Nat) :
    Formed (after (c.readCount id count rest)) := by
  unfold readCount
  simp only
  split
  · next hadmits =>
    split
    · next hnone =>
      have hcount : count = 0 := by simpa [CommandInfo.admits, hnone] using hadmits
      refine ⟨id, hid, ?_, fun _ => hnone⟩
      change (commandInfo id).admits c.args.length = true
      rw [hargs, List.length_nil, ← hcount]
      exact hadmits
    · exact ⟨id, hid, hadmits⟩
  · simp only [after, Formed, hstate]
    exact ⟨hargs, id, hid⟩

theorem formed_readType {id : CommandT} (hid : c.id = some id)
    (hadmits : (commandInfo id).admits c.argsCount) (hstate : c.readingState = .readArgType)
    (number : Nat) : Formed (after (c.readType number rest)) := by
  unfold readType
  split
  · simp only [after, Formed, hstate]
    exact ⟨id, hid, hadmits⟩
  · split
    · simp only [after, Formed, hstate]
      exact ⟨id, hid, hadmits⟩
    · exact ⟨⟨id, hid, hadmits⟩, _, rfl⟩

theorem formed_readBack {id : CommandT} (hid : c.id = some id)
    (hadmits : (commandInfo id).admits c.argsCount) (hstate : c.readingState = .readArg)
    (arg : Arg Obj) : Formed (after (c.readBack arg rest r)) := by
  unfold readBack
  split
  · simp only
    split
    · next hlen =>
      refine ⟨id, hid, ?_, fun hnil => absurd hnil (by simp [after])⟩
      change (commandInfo id).admits (c.args ++ [arg]).length = true
      rw [hlen]
      exact hadmits
    · exact ⟨id, hid, hadmits⟩
  · simp only [after, Formed, hstate]
    exact ⟨⟨id, hid, hadmits⟩, _, rfl⟩

theorem formed_turn (getObj : GetObj Obj) (bs : List Byte) (formed : c.Formed) :
    Formed (after (turn getObj c bs)) := by
  have kept := formed
  unfold turn
  cases hstate : c.readingState with
  | readCmdId =>
    simp only [Formed, hstate] at formed
    cases bs with
    | nil => exact kept
    | cons b rest =>
      simp only
      split
      · exact ⟨formed, _, rfl⟩
      · simpa only [after, Formed, hstate] using formed
  | readArgCount =>
    simp only [Formed, hstate] at formed
    obtain ⟨hargs, id, hid⟩ := formed
    cases bs with
    | nil => exact kept
    | cons b rest =>
      rw [hid]
      exact formed_readCount hid hargs hstate b.toNat
  | readArgType =>
    simp only [Formed, hstate] at formed
    obtain ⟨id, hid, hadmits⟩ := formed
    simp only
    split
    · exact kept
    · exact formed_readType hid hadmits hstate _
  | readArg =>
    simp only [Formed, hstate] at formed
    obtain ⟨⟨id, hid, hadmits⟩, a, hback⟩ := formed
    simp only [hback]
    exact formed_readBack hid hadmits hstate _
  | readed => exact kept

theorem formed_run {k : Nat} (formed : c.Formed)
    (h : run (turn getObj) k c bs = some (c', rest, r)) : c'.Formed := by
  induction k generalizing c bs with
  | zero => cases h
  | succ k ih =>
    have hturn := formed_turn getObj bs formed
    simp only [run] at h
    cases ht : turn getObj c bs with
    | next c₁ rest₁ =>
      rw [ht] at h hturn
      exact ih hturn h
    | stop c₁ rest₁ r₁ =>
      rw [ht] at h hturn
      cases h
      exact hturn

/-! ## Argument types without a prototype -/

inductive Passes (getObj : GetObj Obj) : Command Obj → List Byte → Command Obj → List Byte → Prop
  | refl (c : Command Obj) (bs : List Byte) : Passes getObj c bs c bs
  | head {c c₁ c' : Command Obj} {bs bs₁ bs' : List Byte} (first : turn getObj c bs = .next c₁ bs₁)
      (others : Passes getObj c₁ bs₁ c' bs') : Passes getObj c bs c' bs'

def NullType (getObj : GetObj Obj) (c : Command Obj) (bs : List Byte) : Prop :=
  ∃ c' bs' rest, Passes getObj c bs c' bs' ∧ c'.readingState = .readArgType ∧
    takeInt 2 bs' = some (0, rest)

theorem readChars_ne_crash (n : Nat) (chars bs : List Byte) :
    (StringArg.readChars n chars bs).2.2 ≠ .crash := by
  simp only [StringArg.readChars]
  split <;> simp

theorem string_ne_crash (a : StringArg) (bs : List Byte) : (a.read bs).2.2 ≠ .crash := by
  unfold StringArg.read
  split
  · exact readChars_ne_crash _ _ _
  · split
    · simp
    · exact readChars_ne_crash _ _ _

theorem content_ne_crash (a : ContentArg) (bs : List Byte) : (a.read bs).2.2 ≠ .crash := by
  have data (a : ContentArg) (t : Nat) {demand : ReadResult} (hd : demand ≠ .crash)
      (bs : List Byte) : (a.readData t demand bs).2.2 ≠ .crash := by
    unfold ContentArg.readData
    split
    · simp
    · exact string_ne_crash a.str bs
    · split <;> simp
    · simp
    · simp
    · exact hd
  unfold ContentArg.read
  split
  · exact data a _ (by simp) bs
  · split
    · simp
    · exact data _ _ (by simp) _

theorem arg_ne_crash (getObj : GetObj Obj) (a : Arg Obj) (bs : List Byte) :
    (a.read getObj bs).2.2 ≠ .crash := by
  cases a with
  | int type width value =>
    simp only [Arg.read]
    split <;> simp
  | object type value =>
    simp only [Arg.read]
    split <;> simp
  | string value => exact string_ne_crash value bs
  | content value => exact content_ne_crash value bs

theorem number_of_argPrototype {number : Nat} {type : ArgType}
    (htype : ArgType.all[number]? = some type) (h : (argPrototype type : Option (Arg Obj)) = none) :
    number = 0 := by
  cases type
  case unknown =>
    have hlt := (List.getElem?_eq_some_iff.mp htype).1
    exact (List.getElem?_inj hlt (by decide)).mp (htype.trans rfl)
  all_goals cases h

theorem readType_crash {number : Nat} (h : c.readType number rest = .stop c' bs' .crash) :
    number = 0 := by
  unfold readType at h
  split at h
  · cases h
  · next type htype =>
    split at h
    · next hnull => exact number_of_argPrototype htype hnull
    · cases h

theorem readBack_ne_crash {arg : Arg Obj} (hr : r ≠ .crash) :
    c.readBack arg rest r ≠ .stop c' bs' .crash := by
  unfold readBack
  split
  · simp only
    split <;> simp
  · intro h
    cases h
    exact hr rfl

/-- A formed command calls through a null pointer only where an argument has the type 0. -/
theorem stop_crash (formed : c.Formed) (h : turn getObj c bs = .stop c' rest .crash) :
    c.readingState = .readArgType ∧ ∃ rest, takeInt 2 bs = some (0, rest) := by
  unfold turn at h
  cases hstate : c.readingState with
  | readCmdId =>
    simp only [hstate] at h
    cases bs with
    | nil => cases h
    | cons b bs =>
      simp only at h
      split at h <;> cases h
  | readArgCount =>
    simp only [Formed, hstate] at h formed
    obtain ⟨_, id, hid⟩ := formed
    cases bs with
    | nil => cases h
    | cons b bs =>
      simp only [hid, readCount] at h
      split at h
      · split at h <;> cases h
      · cases h
  | readArgType =>
    simp only [hstate] at h
    split at h
    · cases h
    · next number rest' ht =>
      obtain rfl := readType_crash h
      exact ⟨rfl, rest', ht⟩
  | readArg =>
    simp only [Formed, hstate] at h formed
    obtain ⟨_, a, hback⟩ := formed
    simp only [hback] at h
    exact absurd h (readBack_ne_crash (arg_ne_crash getObj a bs))
  | readed =>
    simp only [hstate] at h
    cases h

/-- A reader that is not stopped by a null prototype does not stop at one. -/
theorem crash_of_nullType (null : NullType getObj c bs) :
    ∃ c' rest, c.read getObj bs = some (c', rest, .crash) := by
  obtain ⟨c₁, bs₁, rest, passes, hstate, htake⟩ := null
  induction passes with
  | refl c bs =>
    refine ⟨c, rest, read_of_run (k := 1) ?_⟩
    simp [run, turn, hstate, htake, readType, ArgType.all, argPrototype]
  | @head c c₁ _ bs bs₁ _ first _ ih =>
    obtain ⟨c', rest', h⟩ := ih hstate htake
    refine ⟨c', rest', read_of_run (k := 2 * bs₁.length + 2 + 1) ?_⟩
    simp only [run, first]
    exact h

theorem nullType_of_run {k : Nat} (formed : c.Formed)
    (h : run (turn getObj) k c bs = some (c', rest, .crash)) : NullType getObj c bs := by
  induction k generalizing c bs with
  | zero => cases h
  | succ k ih =>
    have hturn := formed_turn getObj bs formed
    simp only [run] at h
    cases ht : turn getObj c bs with
    | next c₁ bs₁ =>
      rw [ht] at h hturn
      obtain ⟨c₂, bs₂, rest₂, passes, null⟩ := ih hturn h
      exact ⟨c₂, bs₂, rest₂, .head ht passes, null⟩
    | stop c₁ bs₁ r =>
      rw [ht] at h
      cases h
      obtain ⟨hstate, rest, htake⟩ := stop_crash formed ht
      exact ⟨c, bs, rest, .refl c bs, hstate, htake⟩

theorem crash_iff (formed : c.Formed) (h : c.read getObj bs = some (c', rest, r)) :
    r = .crash ↔ NullType getObj c bs := by
  constructor
  · rintro rfl
    exact nullType_of_run formed h
  · intro null
    obtain ⟨c₁, rest₁, h₁⟩ := crash_of_nullType null
    rw [h] at h₁
    cases h₁
    rfl

end Command

/-! ## Requests and their handlers -/

section Requests

variable {H : Host W Obj Rep} {request : Command Obj} {h : Handler W Obj Rep} {id : CommandT}

theorem length_waitParams (args : List (Arg Obj)) : (waitParams args).length ≤ args.length := by
  induction args with
  | nil => exact Nat.le_refl 0
  | cons arg args ih =>
    unfold waitParams
    split
    · simpa using ih
    · exact Nat.zero_le _

theorem params_length (hh : handlerOf H id = some h) (args : List (Arg Obj)) :
    (h.params args).length = (commandInfo id).argsCount ∨
      id = .createIterator ∨ id = .attachWait ∨ id = .activate := by
  cases id <;> cases hh <;> first | exact .inl rfl | simp

theorem rest_needs_one (hh : handlerOf H id = some h) :
    (commandInfo id).maxRestCount = none ∨ (commandInfo id).argsCount = 1 := by
  cases id <;> cases hh <;> first | exact .inl rfl | exact .inr rfl

theorem argsCount_le (formed : request.Formed) (hreaded : request.readingState = .readed)
    (hid : request.id = some id) (hh : handlerOf H id = some h) :
    (commandInfo id).argsCount ≤ request.args.length := by
  simp only [Command.Formed, hreaded, hid, Option.some.injEq] at formed
  obtain ⟨_, rfl, hadmits, hnil⟩ := formed
  rcases rest_needs_one hh with hrest | hone
  · simp only [CommandInfo.admits, hrest, Bool.or_false, decide_eq_true_eq] at hadmits
    exact Nat.le_of_eq hadmits.symm
  · rw [hone]
    apply List.length_pos_iff.mpr
    intro hargs
    rw [hone] at hnil
    cases (hnil hargs).1

theorem params_le (formed : request.Formed) (hreaded : request.readingState = .readed)
    (hid : request.id = some id) (hh : handlerOf H id = some h) (hne : id ≠ .createIterator) :
    (h.params request.args).length ≤ request.args.length := by
  have hcount := argsCount_le formed hreaded hid hh
  rcases params_length hh request.args with heq | heq | rfl | rfl
  · exact Nat.le_trans (Nat.le_of_eq heq) hcount
  · exact absurd heq hne
  · cases hh
    have := length_waitParams request.args.tail
    simp only [commandInfo] at hcount
    simp only [handlerAttachWait, List.length_cons, List.length_tail] at this ⊢
    omega
  · cases hh
    simp only [commandInfo] at hcount
    simp only [handlerActivate, List.length_cons, List.length_map, List.length_tail]
    omega

/-- A request for an iterator has an argument for every parameter of its constraint,
or one of those it has cannot be taken. -/
def Enough (H : Host W Obj Rep) (env : Env W) (request : Command Obj) : Prop :=
  let params := (handlerCreateIterator H).params request.args
  params.length ≤ request.args.length ∨
    ∃ x ∈ params.zip request.args, x.1.obstacle (H.dead env.world) x.2 ≠ none

def UsesSession (H : Host W Obj Rep) (env : Env W) (request : Command Obj) : Prop :=
  ∃ h, request.handler? H = some h ∧ h.usesSession request.args = true ∧
    takeArgs (H.dead env.world) (h.params request.args) request.args = none

/-- A request that its handler can serve: the command has an entry, every constraint
among its arguments has one, an iterator has its arguments, and a login has set the
session where it is used; `CLOSE` closes it. -/
structure Admissible (H : Host W Obj Rep) (env : Env W) (request : Command Obj) : Prop where
  dispatched : ∃ id, request.id = some id ∧ id.dispatched = true
  constraints : request.isPrintable = true
  enough : request.id = some .createIterator → Enough H env request
  loggedIn : UsesSession H env request ∨ request.id = some .close → env.workSession ≠ none

theorem handler?_eq (hid : request.id = some id) : request.handler? H = handlerOf H id := by
  simp [Command.handler?, hid, requestDispatchTable_number]

/-- A handler asks for an argument that is not there only by a constraint. -/
theorem takeArgs_ne_fault (env : Env W) (formed : request.Formed)
    (hreaded : request.readingState = .readed) (hid : request.id = some id)
    (hh : handlerOf H id = some h) :
    takeArgs (H.dead env.world) (h.params request.args) request.args ≠ some .fault ↔
      (id = .createIterator → Enough H env request) := by
  by_cases hne : id = .createIterator
  · subst hne
    cases hh
    rw [Ne, takeArgs_fault]
    simp only [Enough, forall_true_left]
    constructor
    · intro hno
      by_contra hnot
      simp only [not_or, not_exists, not_and, not_not, Nat.not_le] at hnot
      exact hno hnot
    · rintro (hle | ⟨x, hx, hob⟩) ⟨hlt, hall⟩
      · omega
      · exact hob (hall x hx)
  · simp only [hne, false_implies, iff_true]
    exact takeArgs_enough (params_le formed hreaded hid hh hne)

theorem call_fault {env : Env W} (hh : handlerOf H id = some h) (args : List (Arg Obj)) :
    (h.call H env args).2 = .error .fault ↔
      takeArgs (H.dead env.world) (h.params args) args = some .fault ∨
        (takeArgs (H.dead env.world) (h.params args) args = none ∧
          h.usesSession args = true ∧ env.workSession = none) := by
  unfold Handler.call
  split
  · next halt ht => simp [ht]
  · next ht =>
    split
    · next hs => simpa [ht] using hs
    · next hs =>
      simp only [body_ne_fault hh env args, ht, false_iff]
      simpa using hs

variable {c : Connection (Env W) Obj Rep}

theorem settle_fault : c.settle = .fault ↔ c.closed = true ∧ c.world.workSession = none := by
  unfold Connection.settle
  split
  · next hc => simpa using hc
  · next hc => simpa using hc

theorem execute_fault (hopen : c.closed = false) (hprint : request.isPrintable = true)
    (hid : request.id = some id) (hh : handlerOf H id = some h) :
    c.execute H request = .fault ↔
      (h.call H c.world request.args).2 = .error .fault ∨
        (id = .close ∧ c.world.workSession = none) := by
  simp only [Connection.execute, hprint, handler?_eq hid, hh, if_true]
  by_cases hclose : id = .close
  · subst hclose
    cases hh
    simp [Handler.call, handlerClose, takeArgs, Connection.conclude, settle_fault]
  · have hcl : h.closes = false := by simp [closes_eq hh, hclose]
    rcases h.call H c.world request.args with ⟨env, result⟩
    cases result with
    | ok reply => simp [Connection.conclude, settle_fault, hopen, hcl, hclose]
    | error halt =>
      cases halt <;>
        simp [Connection.conclude, settle_fault, Connection.catchError, hopen, hcl, hclose]

theorem execute_iff (hopen : c.closed = false) (formed : request.Formed)
    (hreaded : request.readingState = .readed) :
    c.execute H request ≠ .fault ↔ Admissible H c.world request := by
  have hformed := formed
  simp only [Command.Formed, hreaded] at hformed
  obtain ⟨id, hid, -, -⟩ := hformed
  cases hprint : request.isPrintable with
  | false =>
    have hfault : c.execute H request = .fault := by simp [Connection.execute, hprint]
    exact ⟨fun hne => absurd hfault hne, fun ad => absurd ad.constraints (by simp [hprint])⟩
  | true =>
    cases hh : handlerOf H id with
    | none =>
      have hfault : c.execute H request = .fault := by
        simp [Connection.execute, hprint, handler?_eq hid, hh]
      refine ⟨fun hne => absurd hfault hne, fun ad => ?_⟩
      obtain ⟨id', hid', hd⟩ := ad.dispatched
      cases hid.symm.trans hid'
      rw [(handlerOf_eq_none H id).mp hh] at hd
      cases hd
    | some h =>
      have hd : id.dispatched = true := by
        rw [← Bool.not_eq_false, ← handlerOf_eq_none H id, hh]
        simp
      have hargs := takeArgs_ne_fault (H := H) c.world formed hreaded hid hh
      rw [Ne, execute_fault hopen hprint hid hh, call_fault hh]
      constructor
      · intro hno
        simp only [not_or, not_and] at hno
        obtain ⟨⟨htake, hsession⟩, hclose⟩ := hno
        refine ⟨⟨id, hid, hd⟩, hprint, fun hit => ?_, ?_⟩
        · cases hid.symm.trans hit
          exact hargs.mp htake rfl
        · rintro (⟨h', hh', huses, htakes⟩ | hcl)
          · rw [handler?_eq hid, hh] at hh'
            cases hh'
            exact hsession htakes huses
          · cases hid.symm.trans hcl
            exact hclose rfl
      · intro ad
        rintro ((htake | ⟨htake, huses, hnone⟩) | ⟨rfl, hnone⟩)
        · exact hargs.mpr (fun hit => ad.enough (hit ▸ hid)) htake
        · exact ad.loggedIn (.inl ⟨h, (handler?_eq hid).trans hh, huses, htake⟩) hnone
        · exact ad.loggedIn (.inr hid) hnone

end Requests

/-! ## Chunks -/

section Chunks

variable {H : Host W Obj Rep} {c c' : Connection (Env W) Obj Rep} {request : Command Obj}
  {chunk : List Byte}

def Connection.Formed (c : Connection (Env W) Obj Rep) : Prop :=
  ∀ request, c.request = some request → request.Formed

theorem Connection.Formed.getD (formed : c.Formed) : (c.request.getD Command.new).Formed := by
  cases hreq : c.request with
  | none => exact Command.formed_new
  | some request => exact formed request hreq

def MeetsNull (H : Host W Obj Rep) (c : Connection (Env W) Obj Rep) (chunk : List Byte) : Prop :=
  Command.NullType (H.getObj c.world.world) (c.request.getD Command.new) (c.requestBuf ++ chunk)

theorem not_nullType_of_readed {getObj : GetObj Obj} {bs : List Byte}
    (hreaded : request.readingState = .readed) : ¬request.NullType getObj bs := by
  rintro ⟨c', bs', rest, passes, hstate, -⟩
  cases passes with
  | refl =>
    rw [hreaded] at hstate
    cases hstate
  | head first _ =>
    simp only [Command.turn, hreaded] at first
    cases first

theorem decode_spec (formed : c.Formed) (chunk : List Byte) :
    ∃ request buf r, c.decode H chunk = some (request, buf, r) ∧ request.Formed ∧
      (request.readingState = .readed ↔ r = .done) ∧ (r = .crash ↔ MeetsNull H c chunk) := by
  unfold Connection.decode MeetsNull
  by_cases hreaded : (c.request.getD Command.new).readingState = .readed
  · simp only [Command.isReaded, hreaded, decide_true, if_true]
    refine ⟨_, _, _, rfl, formed.getD, by simp [hreaded], ?_⟩
    simpa using not_nullType_of_readed hreaded
  · simp only [Command.isReaded, hreaded, decide_false, Bool.false_eq_true, if_false]
    obtain ⟨⟨request, buf, r⟩, h⟩ := Command.read_total (H.getObj c.world.world)
      (c.request.getD Command.new) (c.requestBuf ++ chunk)
    exact ⟨request, buf, r, h, Command.formed_run formed.getD h, (Command.run_spec h).1,
      Command.crash_iff formed.getD h⟩

/-- The bytes that a connection can take: no argument type among them is 0, and a
request that they complete is one that its handler can serve. -/
def Takes (H : Host W Obj Rep) (c : Connection (Env W) Obj Rep) (chunk : List Byte) : Prop :=
  chunk ≠ [] → c.closed = false → ¬MeetsNull H c chunk ∧
    ∀ request buf, c.decode H chunk = some (request, buf, .done) → Admissible H c.world request

theorem arrive_eq (hnil : chunk ≠ []) (hopen : c.closed = false) :
    c.arrive H chunk = match c.decode H chunk with
      | none => .fault
      | some (request, buf, r) => c.decoded H request buf r := by
  unfold Connection.arrive
  rw [List.isEmpty_eq_false_iff.mpr hnil, hopen]
  rfl

theorem arrive_iff (formed : c.Formed) : c.arrive H chunk ≠ .fault ↔ Takes H c chunk := by
  unfold Connection.arrive Takes
  by_cases hnil : chunk = []
  · simp [hnil]
  by_cases hopen : c.closed = false
  · obtain ⟨request, buf, r, hdecode, hformed, hreaded, hcrash⟩ := decode_spec (H := H) formed chunk
    simp only [List.isEmpty_eq_false_iff.mpr hnil, hopen, Bool.or_false, Bool.false_eq_true,
      if_false,
      hdecode, hnil, ne_eq, not_false_eq_true, true_implies, ← hcrash, Option.some.injEq,
      Prod.mk.injEq, and_imp]
    cases r with
    | crash => simp [Connection.decoded]
    | error code => simp [Connection.decoded]
    | need n =>
      have : request.isReaded = false := by simpa [Command.isReaded] using hreaded
      simp [Connection.decoded, this]
    | done =>
      have hstate := hreaded.mpr rfl
      have : request.isReaded = true := by simp [Command.isReaded, hstate]
      simp only [Connection.decoded, this, if_true]
      have := execute_iff (H := H)
        (c := { c with requestBuf := buf, request := some request }) hopen hformed hstate
      simp only [ne_eq] at this
      rw [this]
      constructor
      · rintro ad
        refine ⟨by simp, ?_⟩
        rintro _ _ rfl rfl -
        exact ad
      · intro h
        exact h.2 request buf rfl rfl trivial
  · simp [hopen]

theorem formed_of_request {log : List (Event Obj Rep)} {env : Env W} {buf : List Byte}
    {closed : Bool} (h : request.Formed) :
    Connection.Formed ⟨env, buf, some request, closed, log⟩ := by
  rintro _ ⟨⟩
  exact h

theorem settle_eq (h : c.settle = .goesOn c') : c' = c := by
  unfold Connection.settle at h
  split at h
  · cases h
  · cases h
    rfl

theorem conclude_formed {result : Except Halt Rep} (formed : c.Formed)
    (h : c.conclude result = .goesOn c') : c'.Formed := by
  cases result with
  | ok reply =>
    obtain rfl := settle_eq h
    rintro _ ⟨⟩
  | error halt =>
    cases halt with
    | error code =>
      obtain rfl := settle_eq h
      exact formed
    | badCast => cases h
    | fault => cases h

theorem execute_formed (hformed : request.Formed) (h : c.execute H request = .goesOn c') :
    c'.Formed := by
  unfold Connection.execute at h
  split at h
  · split at h
    · cases h
    · exact conclude_formed (formed_of_request hformed) h
  · cases h

theorem arrive_formed (formed : c.Formed) (h : c.arrive H chunk = .goesOn c') : c'.Formed := by
  unfold Connection.arrive at h
  split at h
  · cases h
    exact formed
  · obtain ⟨request, buf, r, hdecode, hformed, -, -⟩ := decode_spec (H := H) formed chunk
    rw [hdecode] at h
    have reads : ∀ {c'}, (if request.isReaded then
        Connection.execute H { c with requestBuf := buf, request := some request } request
        else .goesOn { c with requestBuf := buf, request := some request }) = .goesOn c' →
        c'.Formed := by
      intro c' h
      split at h
      · exact execute_formed hformed h
      · cases h
        exact formed_of_request hformed
    cases r with
    | crash => cases h
    | error code =>
      cases h
      exact formed_of_request hformed
    | need n => exact reads h
    | done => exact reads h

def Answered (H : Host W Obj Rep) (c : Connection (Env W) Obj Rep) (chunk : List Byte) : Prop :=
  chunk ≠ [] → c.closed = false → ∀ request buf code,
    c.decode H chunk = some (request, buf, .error code) →
    ∃ c', c.arrive H chunk = .goesOn c' ∧ c'.log = c.log ++ [.replied (.error code)]

theorem answered (H : Host W Obj Rep) (c : Connection (Env W) Obj Rep) (chunk : List Byte) :
    Answered H c chunk := by
  intro hnil hopen request buf code hdecode
  refine ⟨Connection.catchError { c with requestBuf := buf, request := some request } code, ?_, rfl⟩
  rw [arrive_eq hnil hopen, hdecode]
  rfl

def Host.server (H : Host W Obj Rep) : Server (Env W) Obj Rep where
  getObj env := H.getObj env.world
  handler id env request :=
    match handlerOf H id with
    | none => (env, .error rvErrGen, false)
    | some h =>
        let (env, result) := h.call H env request.args
        (env, result.mapError fun
          | .error code => code
          | _ => rvErrGen, h.closes)

/-! ## Byte sequences -/

/-- Whatever chunks arrive one after the other, nothing is used that is not there, and
what the reader rejects gets an error reply. -/
def Guarded (H : Host W Obj Rep) : Connection (Env W) Obj Rep → List (List Byte) → Prop
  | _, [] => True
  | c, chunk :: chunks => c.arrive H chunk ≠ .fault ∧ Answered H c chunk ∧
      ∀ c', c.arrive H chunk = .goesOn c' → Guarded H c' chunks

def TakesAll (H : Host W Obj Rep) : Connection (Env W) Obj Rep → List (List Byte) → Prop
  | _, [] => True
  | c, chunk :: chunks => Takes H c chunk ∧
      ∀ c', c.arrive H chunk = .goesOn c' → TakesAll H c' chunks

theorem guarded_iff_of_formed {chunks : List (List Byte)} (formed : c.Formed) :
    Guarded H c chunks ↔ TakesAll H c chunks := by
  induction chunks generalizing c with
  | nil => exact Iff.rfl
  | cons chunk chunks ih =>
    simp only [Guarded, TakesAll, arrive_iff formed, answered, true_and]
    constructor
    · rintro ⟨takes, others⟩
      exact ⟨takes, fun c' h => (ih (arrive_formed formed h)).mp (others c' h)⟩
    · rintro ⟨takes, others⟩
      exact ⟨takes, fun c' h => (ih (arrive_formed formed h)).mpr (others c' h)⟩

def Connection.accepted (w : W) : Connection (Env W) Obj Rep := Connection.start ⟨w, none⟩

/-- A new connection reaches outside its tables exactly when it gets a chunk that it
cannot take. -/
theorem guarded_iff (H : Host W Obj Rep) (w : W) (chunks : List (List Byte)) :
    Guarded H (.accepted w) chunks ↔ TakesAll H (.accepted w) chunks := by
  apply guarded_iff_of_formed
  intro request h
  cases h

def emptyHost : Host Unit Unit Unit where
  getObj _ _ _ := none
  dead _ _ := false
  next _ w := (w, rvOk)
  answer _ _ _ w := (w, .ok ())
  retval _ := ()

/-- `OPEN_SEGMENT` as the first request uses a session that no login has set. -/
theorem guarded_fails :
    ¬Guarded emptyHost (Connection.accepted ()) [[3, 1, 0, 14, 0, 0, 0, 0]] := by
  intro h
  exact h.1 rfl

end Chunks

end ScCore.Rgp
