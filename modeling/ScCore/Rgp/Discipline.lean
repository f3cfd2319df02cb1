import ScCore.Rgp.Connection
import ScCore.Rgp.Resume

/-!
# One reply for each request

A request that is read whole and whose handler does not throw is answered once,
however its bytes are split, and leaves a connection that is ready for the next
one. A request that fails is answered as well, but leaves its decoder behind; only
a command id that is not known leaves one that is as good as new.
-/

namespace ScCore.Rgp

open Turn

/-! ## Reading -/

section Reading

variable {Obj : Type} {getObj : GetObj Obj} {c c' : Command Obj} {bs rest more : List Byte}
  {r : ReadResult}

theorem StringArg.read_length (a : StringArg) (bs : List Byte) :
    (a.read bs).2.1.length ≤ bs.length := by
  unfold StringArg.read
  split
  · simp [readChars]
  · split
    · exact Nat.le_refl _
    · next n rest h =>
      have := takeInt_length h
      simp only [readChars, List.length_drop]
      omega

theorem ContentArg.readData_length (a : ContentArg) (t : Nat) (demand : ReadResult)
    (bs : List Byte) : (a.readData t demand bs).2.1.length ≤ bs.length := by
  unfold readData
  split
  · exact Nat.le_refl _
  · exact StringArg.read_length _ _
  · split
    · exact Nat.le_refl _
    · next h =>
      have := takeInt_length h
      simp only
      omega
  all_goals exact Nat.le_refl _

theorem Arg.read_length (getObj : GetObj Obj) (bs : List Byte) (a : Arg Obj) :
    (a.read getObj bs).2.1.length ≤ bs.length := by
  cases a with
  | int type width value =>
    simp only [Arg.read]
    split
    · exact Nat.le_refl _
    · next h =>
      have := takeInt_length h
      simp only
      omega
  | object type value =>
    simp only [Arg.read]
    split
    · exact Nat.le_refl _
    · next h =>
      have := takeInt_length h
      simp only
      omega
  | string value => exact StringArg.read_length _ _
  | content value =>
    simp only [Arg.read, ContentArg.read]
    split
    · exact ContentArg.readData_length _ _ _ _
    · split
      · exact Nat.le_refl _
      · next type rest h =>
        have := takeInt_length h
        have hle := ContentArg.readData_length { value with type := some type } type (.need 2) rest
        exact Nat.le_trans hle (by omega)

namespace Command

def work (c : Command Obj) (bs : List Byte) : Nat :=
  2 * bs.length + if c.readingState = .readArg then 1 else 0

def BadId (bs : List Byte) (r : ReadResult) : Prop :=
  ∃ b rest, bs = b :: rest ∧ CommandT.ofByte b = none ∧ r = .error rvRgpErrCmd

def after : Turn (Command Obj) Byte ReadResult → Command Obj
  | .next c _ => c
  | .stop c _ _ => c

/-- What one round can do: it leaves less work and does not come back to the id,
or the state in which it stops says how it stops. -/
def TurnSpec (c : Command Obj) (bs : List Byte) : Turn (Command Obj) Byte ReadResult → Prop
  | .next c' rest => c'.work rest < c.work bs ∧ c'.readingState ≠ .readCmdId
  | .stop c' _ r => (c'.readingState = .readed ↔ r = .done) ∧
      (c'.readingState = .readCmdId → c.readingState = .readCmdId ∧ (bs = [] ∨ BadId bs r))

theorem readCount_spec {id : CommandT} {count : Nat} (hstate : c.readingState = .readArgCount)
    (hlen : rest.length < bs.length) : TurnSpec c bs (c.readCount id count rest) := by
  unfold readCount
  simp only
  split
  · split <;> simp [TurnSpec, work, hstate, hlen] 
  · simp [TurnSpec, hstate]

theorem readType_spec {number : Nat} (hstate : c.readingState = .readArgType)
    (hlen : rest.length + 2 = bs.length) : TurnSpec c bs (c.readType number rest) := by
  unfold readType
  split
  · simp [TurnSpec, hstate]
  · split
    · simp [TurnSpec, hstate]
    · simp only [TurnSpec, work, hstate, if_true]
      exact ⟨by simp; omega, by simp⟩

theorem readBack_spec {arg : Arg Obj} (hstate : c.readingState = .readArg)
    (hlen : rest.length ≤ bs.length) : TurnSpec c bs (c.readBack arg rest r) := by
  unfold readBack
  split
  · simp only
    split <;> simp only [TurnSpec, work, hstate, if_true] <;> exact ⟨by simp; omega, by simp⟩
  · next hr =>
    simp only [TurnSpec, hstate]
    exact ⟨⟨(by cases ·), fun h => absurd h hr⟩, (by cases ·)⟩

theorem turn_spec (getObj : GetObj Obj) (c : Command Obj) (bs : List Byte) :
    TurnSpec c bs (turn getObj c bs) := by
  unfold turn
  cases hstate : c.readingState with
  | readCmdId =>
    cases bs with
    | nil => simp [TurnSpec, hstate]
    | cons b rest =>
      simp only
      split
      · simp [TurnSpec, work, hstate]
      · next hid =>
        simp only [TurnSpec, hstate]
        exact ⟨⟨(by cases ·), (by cases ·)⟩, fun _ => ⟨trivial, .inr ⟨b, rest, rfl, hid, rfl⟩⟩⟩
  | readArgCount =>
    cases bs with
    | nil => simp [TurnSpec, hstate]
    | cons b rest =>
      cases hid : c.id with
      | none => simp [TurnSpec, hstate]
      | some id => exact readCount_spec hstate (by simp)
  | readArgType =>
    simp only
    split
    · simp [TurnSpec, hstate]
    · next ht => exact readType_spec hstate (takeInt_length ht)
  | readArg =>
    simp only
    split
    · next arg _ => exact readBack_spec hstate (Arg.read_length getObj bs arg)
    · simp [TurnSpec, hstate]
  | readed => simp [TurnSpec, hstate]

theorem read_total (getObj : GetObj Obj) (c : Command Obj) (bs : List Byte) :
    ∃ x, c.read getObj bs = some x := by
  refine run_total work (fun c bs c' rest h => ?_) ?_
  · have := turn_spec getObj c bs
    rw [h] at this
    exact this.1
  · unfold work
    split <;> omega

theorem read_of_run {k : Nat} {x : Command Obj × List Byte × ReadResult}
    (h : run (turn getObj) k c bs = some x) : c.read getObj bs = some x := by
  obtain ⟨y, hy⟩ := read_total getObj c bs
  rw [hy, (run_mono (turn getObj) c bs).unique hy h]

theorem read_settled (h : c.read getObj bs = some (c', rest, r)) (hr : ¬r.needs ∨ c'.Stuck)
    (more : List Byte) : c.read getObj (bs ++ more) = some (c', rest ++ more, r) :=
  read_of_run ((resumable getObj).run_stop h hr more)

theorem read_resume (h : c.read getObj bs = some (c', rest, r)) (hr : r.needs)
    (free : ¬c'.Stuck) (more : List Byte) :
    c.read getObj (bs ++ more) = c'.read getObj (rest ++ more) := by
  obtain ⟨x, hx⟩ := read_total getObj c' (rest ++ more)
  rw [hx]
  exact read_of_run ((resumable getObj).run_resume h hr free hx)

/-- The state in which the reader stops says how it has stopped; with input it
stops at the id only by an error. -/
theorem run_spec {k : Nat} (h : run (turn getObj) k c bs = some (c', rest, r)) :
    (c'.readingState = .readed ↔ r = .done) ∧
      (c'.readingState = .readCmdId →
        c.readingState = .readCmdId ∧ (bs = [] ∨ BadId bs r)) := by
  induction k generalizing c bs with
  | zero => cases h
  | succ k ih =>
    simp only [run] at h
    have spec := turn_spec getObj c bs
    cases ht : turn getObj c bs with
    | next c₁ rest₁ =>
      rw [ht] at h spec
      obtain ⟨hread, hid⟩ := ih h
      exact ⟨hread, fun hc' => absurd (hid hc').1 spec.2⟩
    | stop c₁ rest₁ r₁ =>
      rw [ht] at h spec
      cases h
      exact spec

structure Untouched (c : Command Obj) : Prop where
  state : c.readingState = .readCmdId
  argsCount : c.argsCount = 0
  args : c.args = []
  back : c.back = none

theorem untouched_new : Untouched (new : Command Obj) := ⟨rfl, rfl, rfl, rfl⟩

theorem Untouched.read_eq (u : Untouched c) (hbs : bs ≠ []) :
    c.read getObj bs = new.read getObj bs := by
  obtain ⟨state, id, argsCount, args, back⟩ := c
  obtain ⟨rfl, rfl, rfl, rfl⟩ := u
  cases bs with
  | nil => exact absurd rfl hbs
  | cons b rest =>
    simp only [read, run, turn, new]

end Command

end Reading

/-! ## Requests -/

section Requests

variable {W Obj Rep : Type} {S : Server W Obj Rep} {c c' : Connection W Obj Rep}
  {chunk : List Byte} {chunks : List (List Byte)}

open Command

/-- A split of the bytes of one request: a command that is read whole, or one
whose reading fails. -/
structure IsRequest (Obj : Type) (chunks : List (List Byte)) : Prop where
  ne_nil : chunks ≠ []
  chunk_ne_nil : ∀ chunk ∈ chunks, chunk ≠ []
  reads : ∀ getObj : GetObj Obj, ∃ cmd rest r,
    Command.new.read getObj chunks.flatten = some (cmd, rest, r) ∧
      ¬r.needs ∧ (r = .done → rest = [])

def Connection.Ready (c : Connection W Obj Rep) : Prop :=
  c.requestBuf = [] ∧ ∀ cmd, c.request = some cmd → Untouched cmd

/-- The request is answered once, after at most one run of its own handler, and
the next one will be decoded from its first byte. -/
structure Served (S : Server W Obj Rep) (c : Connection W Obj Rep) (chunks : List (List Byte))
    (c' : Connection W Obj Rep) : Prop where
  answered : ∃ runs reply, c'.log = c.log ++ runs ++ [.replied reply] ∧
    (runs = [] ∨ ∃ cmd rest r,
      Command.new.read (S.getObj c.world) chunks.flatten = some (cmd, rest, r) ∧
      runs = [.executed cmd])
  ready : c'.Ready

def Replies (S : Server W Obj Rep) (c : Connection W Obj Rep) (chunks : List (List Byte)) : Prop :=
  ∃ cmd id reply, Command.new.read (S.getObj c.world) chunks.flatten = some (cmd, [], .done) ∧
    cmd.id = some id ∧ id.dispatched = true ∧ (S.handler id c.world cmd).2.1 = .ok reply

def Fits (S : Server W Obj Rep) (c : Connection W Obj Rep) (chunks : List (List Byte)) : Prop :=
  Replies S c chunks ∨
    ∃ b rest, chunks = [b :: rest] ∧ CommandT.ofByte b = none

/-! ### Replies -/

def Event.isReply : Event Obj Rep → Bool
  | .replied _ => true
  | .executed _ => false

def Connection.replies (c : Connection W Obj Rep) : Nat := c.log.countP Event.isReply

theorem Served.replies (s : Served S c chunks c') : c'.replies = c.replies + 1 := by
  obtain ⟨runs, reply, hlog, hruns⟩ := s.answered
  rw [Connection.replies, hlog, List.countP_append, List.countP_append]
  rcases hruns with rfl | ⟨cmd, -, -, -, rfl⟩ <;> simp [Connection.replies, Event.isReply]

section Executing

variable {cmd : Command Obj} {id : CommandT}

theorem executingResponse_ok {reply : Rep} (hid : cmd.id = some id) (hd : id.dispatched = true)
    (h : (S.handler id c.world cmd).2.1 = .ok reply) :
    c.executingResponse S cmd = some ⟨(S.handler id c.world cmd).1, c.requestBuf, none,
      c.closed || (S.handler id c.world cmd).2.2,
      c.log ++ [.executed cmd] ++ [.replied (.ok reply)]⟩ := by
  simp only [Connection.executingResponse, hid, hd, if_true, h]

theorem executingResponse_error {code : Retval} (hid : cmd.id = some id)
    (hd : id.dispatched = true) (h : (S.handler id c.world cmd).2.1 = .error code) :
    c.executingResponse S cmd = some ⟨(S.handler id c.world cmd).1, [], some cmd,
      c.closed || (S.handler id c.world cmd).2.2,
      c.log ++ [.executed cmd] ++ [.replied (.error code)]⟩ := by
  simp only [Connection.executingResponse, hid, hd, if_true, h]
  rfl

theorem executingResponse_cases (h : c.executingResponse S cmd = some c') :
    ∃ id, cmd.id = some id ∧ id.dispatched = true ∧
      ((∃ reply, (S.handler id c.world cmd).2.1 = .ok reply ∧
          c'.log = c.log ++ [.executed cmd] ++ [.replied (.ok reply)]) ∨
        (∃ code, (S.handler id c.world cmd).2.1 = .error code ∧
          c'.log = c.log ++ [.executed cmd] ++ [.replied (.error code)] ∧
          c'.request = some cmd)) := by
  cases hid : cmd.id with
  | none => simp [Connection.executingResponse, hid] at h
  | some id =>
    cases hd : id.dispatched with
    | false => simp [Connection.executingResponse, hid, hd] at h
    | true =>
      refine ⟨id, rfl, hd, ?_⟩
      cases hres : (S.handler id c.world cmd).2.1 with
      | ok reply =>
        rw [executingResponse_ok hid hd hres] at h
        cases h
        exact .inl ⟨reply, rfl, rfl⟩
      | error code =>
        rw [executingResponse_error hid hd hres] at h
        cases h
        exact .inr ⟨code, rfl, rfl, rfl⟩

theorem replies_executingResponse (h : c.executingResponse S cmd = some c') :
    c'.replies = c.replies + 1 := by
  obtain ⟨id, -, -, ⟨reply, -, hlog⟩ | ⟨code, -, hlog, -⟩⟩ := executingResponse_cases h <;>
    simp [Connection.replies, hlog, Event.isReply]

end Executing

theorem handleDataReaded_replies (hchunk : chunk ≠ [])
    (h : c.handleDataReaded S chunk = some c') :
    c.replies < c'.replies ∨ (c'.replies = c.replies ∧ ¬c'.Ready) := by
  have after : ∀ {cmd buf r}, c.afterRead S cmd buf r = some c' →
      (cmd.readingState = .readCmdId → ∃ code, r = .error code) →
      c.replies < c'.replies ∨ (c'.replies = c.replies ∧ ¬c'.Ready) := by
    intro cmd buf r h hid
    have rest : (if cmd.isReaded then ({ c with requestBuf := buf, request := some cmd } :
        Connection W Obj Rep).executingResponse S cmd else
          some { c with requestBuf := buf, request := some cmd }) = some c' →
        (∀ code, r ≠ .error code) →
        c.replies < c'.replies ∨ (c'.replies = c.replies ∧ ¬c'.Ready) := by
      intro h hr
      split at h
      · refine .inl ?_
        rw [replies_executingResponse h]
        exact Nat.lt_succ_self _
      · cases h
        refine .inr ⟨rfl, fun ready => ?_⟩
        obtain ⟨code, hcode⟩ := hid (ready.2 cmd rfl).state
        exact hr code hcode
    unfold Connection.afterRead at h
    cases r with
    | error code =>
      cases h
      refine .inl ?_
      simp [Connection.replies, Connection.catchError, Event.isReply]
    | crash => cases h
    | need n => exact rest h fun _ h => by cases h
    | done => exact rest h fun _ h => by cases h
  unfold Connection.handleDataReaded at h
  split at h
  · cases h
  · simp only at h
    split at h
    · next hread => exact after h fun hid => by simp [isReaded, hid] at hread
    · obtain ⟨⟨cmd, buf, r⟩, hread, h⟩ := Option.bind_eq_some_iff.mp h
      refine after h fun hid => ?_
      rcases ((run_spec hread).2 hid).2 with hnil | ⟨-, -, -, -, hr⟩
      · exact absurd (List.append_eq_nil_iff.mp hnil).2 hchunk
      · exact ⟨_, hr⟩

theorem receive_replies (hne : chunks ≠ []) (hchunks : ∀ chunk ∈ chunks, chunk ≠ [])
    (h : Connection.receive S c chunks = some c') : c.replies < c'.replies ∨ ¬c'.Ready := by
  induction chunks generalizing c with
  | nil => exact absurd rfl hne
  | cons chunk rest ih =>
    obtain ⟨c₁, hc₁, h⟩ := Option.bind_eq_some_iff.mp h
    have step := handleDataReaded_replies (hchunks chunk List.mem_cons_self) hc₁
    cases rest with
    | nil =>
      cases h
      exact step.imp_right And.right
    | cons chunk' rest =>
      have hle : c.replies ≤ c₁.replies := by
        rcases step with h | ⟨h, -⟩ <;> omega
      refine (ih (by simp) (fun chunk' hc => hchunks _ (List.mem_cons_of_mem _ hc)) h).imp_left ?_
      omega

/-! ### One request -/

section OneRequest

variable {cmd : Command Obj} {rest : List Byte} {r : ReadResult}

theorem not_needs_done : ¬ReadResult.done.needs := id

theorem receive_eq (hopen : c.closed = false) (hne : chunks ≠ [])
    (unread : (c.request.getD new).readingState ≠ .readed)
    (hread : (c.request.getD new).read (S.getObj c.world) (c.requestBuf ++ chunks.flatten) =
      some (cmd, rest, r)) (hr : ¬r.needs) :
    ∃ pre chunk post buf, chunks = pre ++ chunk :: post ∧ rest = buf ++ post.flatten ∧
      Connection.receive S c chunks =
        (c.afterRead S cmd buf r).bind fun c => Connection.receive S c post := by
  induction chunks generalizing c with
  | nil => exact absurd rfl hne
  | cons chunk chunks ih =>
    have hunread : (c.request.getD new).isReaded = false := by simpa [isReaded] using unread
    rw [List.flatten_cons, ← List.append_assoc] at hread
    obtain ⟨⟨cmd₁, buf, r₁⟩, hread₁⟩ :=
      read_total (S.getObj c.world) (c.request.getD new) (c.requestBuf ++ chunk)
    have hreceive : Connection.receive S c (chunk :: chunks) =
        (c.afterRead S cmd₁ buf r₁).bind fun c => Connection.receive S c chunks := by
      simp [Connection.receive, Connection.handleDataReaded, hopen, hunread, hread₁]
    by_cases hr₁ : ¬r₁.needs ∨ cmd₁.Stuck
    · have hwhole := read_settled hread₁ hr₁ chunks.flatten
      rw [hread] at hwhole
      obtain ⟨rfl, rfl, rfl⟩ := triple_inj (Option.some.inj hwhole)
      exact ⟨[], chunk, chunks, buf, rfl, rfl, hreceive⟩
    · rw [not_or, not_not] at hr₁
      obtain ⟨needs, free⟩ := hr₁
      have unread₁ : cmd₁.readingState ≠ .readed := by
        intro hreaded
        rw [(run_spec hread₁).1.mp hreaded] at needs
        exact needs
      have hafter : c.afterRead S cmd₁ buf r₁ =
          some { c with requestBuf := buf, request := some cmd₁ } := by
        cases r₁ with
        | need n => simp [Connection.afterRead, isReaded, unread₁]
        | _ => exact absurd needs id
      rw [hreceive, hafter, Option.bind_some]
      cases chunks with
      | nil =>
        rw [List.flatten_nil, List.append_nil, hread₁] at hread
        cases hread
        exact absurd needs hr
      | cons chunk' chunks =>
        rw [read_resume hread₁ needs free] at hread
        obtain ⟨pre, chunk'', post, buf', hchunks, hrest, h⟩ :=
          ih (c := { c with requestBuf := buf, request := some cmd₁ }) hopen (by simp) unread₁ hread
        exact ⟨chunk :: pre, chunk'', post, buf', by rw [hchunks]; rfl, hrest, h⟩

theorem Connection.Ready.read_eq (ready : c.Ready) {bs : List Byte} (hbs : bs ≠ []) :
    (c.request.getD new).read (S.getObj c.world) (c.requestBuf ++ bs) =
      new.read (S.getObj c.world) bs := by
  rw [ready.1, List.nil_append]
  cases hreq : c.request with
  | none => rfl
  | some cmd => exact (ready.2 cmd hreq).read_eq hbs

theorem Connection.Ready.unread (ready : c.Ready) :
    (c.request.getD new).readingState = .readCmdId := by
  cases hreq : c.request with
  | none => rfl
  | some cmd => exact (ready.2 cmd hreq).state

theorem flatten_ne_nil (hne : chunks ≠ []) (hchunks : ∀ chunk ∈ chunks, chunk ≠ []) :
    chunks.flatten ≠ [] := by
  cases chunks with
  | nil => exact absurd rfl hne
  | cons chunk chunks =>
    rw [List.flatten_cons]
    exact List.append_ne_nil_of_left_ne_nil (hchunks chunk List.mem_cons_self) _

theorem receive_done (hopen : c.closed = false) (ready : c.Ready) (hne : chunks ≠ [])
    (hchunks : ∀ chunk ∈ chunks, chunk ≠ [])
    (hread : new.read (S.getObj c.world) chunks.flatten = some (cmd, [], .done)) :
    Connection.receive S c chunks =
      ({ c with requestBuf := [], request := some cmd } : Connection W Obj Rep).executingResponse
        S cmd := by
  have hbs := flatten_ne_nil hne hchunks
  have unread : (c.request.getD new).readingState ≠ .readed := by simp [ready.unread]
  obtain ⟨pre, chunk, post, buf, hsplit, hrest, h⟩ :=
    receive_eq hopen hne unread ((ready.read_eq hbs).trans hread) not_needs_done
  obtain ⟨rfl, hpost⟩ := List.append_eq_nil_iff.mp hrest.symm
  have hpost : post = [] := by
    by_contra hmore
    refine flatten_ne_nil hmore (fun chunk' hmem => hchunks chunk' ?_) hpost
    rw [hsplit]
    exact List.mem_append_right _ (List.mem_cons_of_mem _ hmem)
  have hreaded : cmd.isReaded = true := by simpa [isReaded] using (run_spec hread).1.mpr rfl
  rw [h, hpost]
  simp only [Connection.afterRead, hreaded, if_true, Connection.receive,
    Option.bind_fun_some]

theorem receive_badId {b : Byte} (bs : List Byte) (chunks : List (List Byte))
    (hopen : c.closed = false) (ready : c.Ready) (hb : CommandT.ofByte b = none) :
    ∃ c₁ : Connection W Obj Rep, c₁.Ready ∧
      c₁.log = c.log ++ [.replied (.error rvRgpErrCmd)] ∧
      Connection.receive S c ((b :: bs) :: chunks) = Connection.receive S c₁ chunks := by
  have hread : (c.request.getD new).read (S.getObj c.world) (c.requestBuf ++ (b :: bs)) =
      some (new, bs, .error rvRgpErrCmd) := by
    rw [ready.read_eq (List.cons_ne_nil b bs)]
    simp only [Command.read, run, turn, new, hb]
  have hunread : (c.request.getD new).isReaded = false := by simp [isReaded, ready.unread]
  refine ⟨({ c with requestBuf := bs, request := some new } : Connection W Obj Rep).catchError
    rvRgpErrCmd, ⟨rfl, fun cmd hcmd => ?_⟩, rfl, ?_⟩
  · cases hcmd
    exact untouched_new
  · simp [Connection.receive, Connection.handleDataReaded, hopen, hunread, hread,
      Connection.afterRead]

theorem serves_of_replies (hopen : c.closed = false) (ready : c.Ready)
    (isReq : IsRequest Obj chunks) (h : Replies S c chunks) :
    ∃ c', Connection.receive S c chunks = some c' ∧ Served S c chunks c' := by
  obtain ⟨cmd, id, reply, hread, hid, hd, hreply⟩ := h
  refine ⟨_, (receive_done hopen ready isReq.ne_nil isReq.chunk_ne_nil hread).trans
      (executingResponse_ok hid hd hreply),
    ⟨[.executed cmd], .ok reply, rfl, .inr ⟨cmd, [], .done, hread, rfl⟩⟩, rfl, fun _ h => ?_⟩
  cases h

theorem serves_of_badId {b : Byte} {bs : List Byte} (hopen : c.closed = false) (ready : c.Ready)
    (hb : CommandT.ofByte b = none) :
    ∃ c', Connection.receive S c [b :: bs] = some c' ∧ Served S c [b :: bs] c' := by
  obtain ⟨c₁, hready, hlog, h⟩ := receive_badId (S := S) bs [] hopen ready hb
  exact ⟨c₁, h, ⟨[], _, by rw [hlog, List.append_nil], .inl rfl⟩, hready⟩

theorem not_served_of_receive {c₁ : Connection W Obj Rep} (hreplies : c₁.replies = c.replies + 1)
    (hne : chunks ≠ []) (hchunks : ∀ chunk ∈ chunks, chunk ≠ [])
    (h : Connection.receive S c₁ chunks = some c') {whole : List (List Byte)} :
    ¬Served S c whole c' := by
  intro served
  rcases receive_replies hne hchunks h with hlt | hready
  · have := served.replies
    omega
  · exact hready served.ready

theorem fits_of_served (hopen : c.closed = false) (ready : c.Ready) (isReq : IsRequest Obj chunks)
    (h : Connection.receive S c chunks = some c') (served : Served S c chunks c') :
    Fits S c chunks := by
  have hbs := flatten_ne_nil isReq.ne_nil isReq.chunk_ne_nil
  have unread : (c.request.getD new).readingState ≠ .readed := by simp [ready.unread]
  obtain ⟨cmd, rest, r, hread, hr, hdone⟩ := isReq.reads (S.getObj c.world)
  obtain ⟨pre, chunk, post, buf, hchunks, -, heq⟩ :=
    receive_eq hopen isReq.ne_nil unread ((ready.read_eq hbs).trans hread) hr
  have hspec := (run_spec hread).2
  cases r with
  | need n => exact absurd trivial hr
  | crash =>
    rw [heq] at h
    cases h
  | done =>
    rw [hdone rfl] at hread
    rw [receive_done hopen ready isReq.ne_nil isReq.chunk_ne_nil hread] at h
    obtain ⟨id, hid, hd, ⟨reply, hreply, -⟩ | ⟨code, -, -, hrequest⟩⟩ := executingResponse_cases h
    · exact .inl ⟨cmd, id, reply, hread, hid, hd, hreply⟩
    · have hstate := (served.ready.2 cmd hrequest).state
      rw [(run_spec hread).1.mpr rfl] at hstate
      cases hstate
  | error code =>
    by_cases bad : BadId chunks.flatten (.error code)
    · obtain ⟨b, bs, hflat, hb, -⟩ := bad
      obtain ⟨⟩ | ⟨first, more⟩ := chunks
      · exact absurd rfl isReq.ne_nil
      · obtain ⟨⟩ | ⟨b', bs'⟩ := first
        · exact absurd rfl (isReq.chunk_ne_nil [] List.mem_cons_self)
        · obtain ⟨rfl, -⟩ := List.cons.inj hflat
          obtain ⟨c₁, -, hlog, hreceive⟩ :=
            receive_badId (S := S) bs' more hopen ready hb
          by_cases hmore : more = []
          · exact .inr ⟨b', bs', by rw [hmore], hb⟩
          · refine absurd served (not_served_of_receive ?_ hmore (fun chunk hmem =>
              isReq.chunk_ne_nil chunk (List.mem_cons_of_mem _ hmem)) (hreceive ▸ h))
            simp [Connection.replies, hlog, Event.isReply]
    · rw [heq] at h
      simp only [Connection.afterRead, Option.bind_some] at h
      by_cases hpost : post = []
      · subst hpost
        cases h
        have hstate := (served.ready.2 cmd rfl).state
        exact absurd ((hspec hstate).2.resolve_left hbs) bad
      · refine absurd served (not_served_of_receive ?_ hpost (fun chunk' hmem =>
          isReq.chunk_ne_nil chunk' ?_) h)
        · simp [Connection.replies, Connection.catchError, Event.isReply]
        · rw [hchunks]
          exact List.mem_append_right _ (List.mem_cons_of_mem _ hmem)

theorem serves_iff (hopen : c.closed = false) (ready : c.Ready) (isReq : IsRequest Obj chunks) :
    (∃ c', Connection.receive S c chunks = some c' ∧ Served S c chunks c') ↔ Fits S c chunks := by
  refine ⟨fun ⟨c', h, served⟩ => fits_of_served hopen ready isReq h served, fun fits => ?_⟩
  rcases fits with h | ⟨b, bs, rfl, hb⟩
  · exact serves_of_replies hopen ready isReq h
  · exact serves_of_badId hopen ready hb

end OneRequest

/-! ### All requests -/

def Disciplined (S : Server W Obj Rep) : Connection W Obj Rep → List (List (List Byte)) → Prop
  | _, [] => True
  | c, chunks :: rest => c.closed = true ∨
      ∃ c', c.receive S chunks = some c' ∧ Served S c chunks c' ∧ Disciplined S c' rest

def AllFit (S : Server W Obj Rep) : Connection W Obj Rep → List (List (List Byte)) → Prop
  | _, [] => True
  | c, chunks :: rest => c.closed = true ∨
      (Fits S c chunks ∧ ∀ c', c.receive S chunks = some c' → AllFit S c' rest)

theorem disciplined_iff_of_ready {requests : List (List (List Byte))} (ready : c.Ready)
    (areReqs : ∀ chunks ∈ requests, IsRequest Obj chunks) :
    Disciplined S c requests ↔ AllFit S c requests := by
  induction requests generalizing c with
  | nil => exact Iff.rfl
  | cons chunks rest ih =>
    cases hclosed : c.closed with
    | true => exact ⟨fun _ => .inl hclosed, fun _ => .inl hclosed⟩
    | false =>
      have iff := serves_iff (S := S) hclosed ready (areReqs chunks List.mem_cons_self)
      have restReqs : ∀ chunks ∈ rest, IsRequest Obj chunks := fun chunks hmem =>
        areReqs chunks (List.mem_cons_of_mem _ hmem)
      constructor
      · rintro (h | ⟨c', h, served, disciplined⟩)
        · rw [hclosed] at h
          cases h
        · refine .inr ⟨iff.mp ⟨c', h, served⟩, fun c'' h' => ?_⟩
          rw [h] at h'
          cases h'
          exact (ih served.ready restReqs).mp disciplined
      · rintro (h | ⟨fits, all⟩)
        · rw [hclosed] at h
          cases h
        · obtain ⟨c', h, served⟩ := iff.mpr fits
          exact .inr ⟨c', h, served, (ih served.ready restReqs).mpr (all c' h)⟩

theorem ready_start (w : W) : (Connection.start w : Connection W Obj Rep).Ready :=
  ⟨rfl, fun _ h => by cases h⟩

end Requests

def echo : Server Unit Unit Unit where
  getObj _ _ _ := none
  handler id _ _ := ((), .ok (), id == .close)

def conversation : List (List (List Byte)) := [[[200, 9]], [[0, 1, 0], [13, 1]], [[1], [0]]]

set_option maxRecDepth 2000 in
theorem read_login (getObj : GetObj Unit) : Command.new.read getObj [0, 1, 0, 13, 1] =
    some (⟨.readed, some .login, 1, [.int .scBoolean 1 (some 1)], none⟩, [], .done) := by
  rfl

theorem conversation_requests : ∀ chunks ∈ conversation, IsRequest Unit chunks := by
  intro chunks hmem
  simp only [conversation, List.mem_cons, List.not_mem_nil, or_false] at hmem
  rcases hmem with rfl | rfl | rfl
  · exact ⟨by simp, by simp, fun _ => ⟨_, _, _, rfl, id, (by cases ·)⟩⟩
  · exact ⟨by simp, by simp, fun getObj => ⟨_, _, _, read_login getObj, id, fun _ => rfl⟩⟩
  · exact ⟨by simp, by simp, fun _ => ⟨_, _, _, rfl, id, fun _ => rfl⟩⟩

end ScCore.Rgp
