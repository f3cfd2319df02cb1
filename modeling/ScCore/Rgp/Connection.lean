import ScCore.Rgp.Command

/-!
# RGP connections

The control socket of an `rgp_connection`: bytes arrive in chunks, are collected
into a request, and a request is handed to its handler. The handlers and what
they work on are parameters.
-/

namespace ScCore.Rgp

/-- What the handlers do: the lookup of registered objects, and the effect of a
request with its reply or the code of the `rgp_error` that the handler, or the
writing of its reply, has thrown. A handler may close the connection. -/
structure Server (W Obj Rep : Type) where
  getObj : W → GetObj Obj
  handler : CommandT → W → Command Obj → W × Except Retval Rep × Bool

inductive Event (Obj Rep : Type) where
  | executed (request : Command Obj)
  | replied (reply : Except Retval Rep)

/-- `rgp_connection`: the buffer, the request that is being read and what has
happened so far. -/
structure Connection (W Obj Rep : Type) where
  world : W
  requestBuf : List Byte
  request : Option (Command Obj)
  closed : Bool
  log : List (Event Obj Rep)

namespace Connection

variable {W Obj Rep : Type} (S : Server W Obj Rep)

def start (w : W) : Connection W Obj Rep := ⟨w, [], none, false, []⟩

/-- The `catch` clause: an error reply is sent and the buffer is dropped. -/
def catchError (c : Connection W Obj Rep) (code : Retval) : Connection W Obj Rep :=
  { c with requestBuf := [], log := c.log ++ [.replied (.error code)] }

/-- `executing_response`, with the clause that catches what the handler throws.
Only a reply that was sent drops the request. -/
def executingResponse (c : Connection W Obj Rep) (request : Command Obj) :
    Option (Connection W Obj Rep) :=
  match request.id with
  | none => none
  | some id =>
      if id.dispatched then
        let (w, result, closes) := S.handler id c.world request
        let c : Connection W Obj Rep :=
          ⟨w, c.requestBuf, some request, c.closed || closes, c.log ++ [.executed request]⟩
        match result with
        | .error code => some (c.catchError code)
        | .ok reply => some { c with request := none, log := c.log ++ [.replied (.ok reply)] }
      else none

def afterRead (c : Connection W Obj Rep) (request : Command Obj) (buf : List Byte)
    (r : ReadResult) : Option (Connection W Obj Rep) :=
  let c := { c with requestBuf := buf, request := some request }
  match r with
  | .error code => some (c.catchError code)
  | .crash => none
  | _ => if request.isReaded then c.executingResponse S request else some c

/-- `handle_data_readed` for a chunk that has arrived. A request that is read
already is executed without reading. -/
def handleDataReaded (c : Connection W Obj Rep) (chunk : List Byte) :
    Option (Connection W Obj Rep) :=
  if c.closed then none
  else
    let buf := c.requestBuf ++ chunk
    let request := c.request.getD Command.new
    if request.isReaded then c.afterRead S request buf .done
    else do
      let (request, buf, r) ← request.read (S.getObj c.world) buf
      c.afterRead S request buf r

def receive : Connection W Obj Rep → List (List Byte) → Option (Connection W Obj Rep)
  | c, [] => some c
  | c, chunk :: rest => (c.handleDataReaded S chunk).bind fun c => receive c rest

end Connection

end ScCore.Rgp
