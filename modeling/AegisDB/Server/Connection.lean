import Mathlib.Data.List.Basic

/-!
# A client connection

`tcp_server.c` serves a connection from the thread that polls it. Bytes are read into a buffer; each
line of it is handed to `aegis_request_handle`, one request at a time: while a response is in flight
nothing is read and no other line is looked at. `Link` is a connection together with what it has
received, handed over, queued and sent, and `linkStep` is one turn of `loop_main` on it. The handler
of requests and its database are parameters.
-/

namespace AegisDB

/-- `'\n'`. -/
def newline : UInt8 := 10

/-- A line without a `'\r'` at its end. -/
def stripCr (line : List UInt8) : List UInt8 :=
  if line.getLast? = some 13 then line.dropLast else line

def maxLine (maxPayloadBytes : ℕ) : ℕ := maxPayloadBytes + 4096

/-! ## The connection -/

/-- `Conn`: the read buffer with its capacity, and the response in flight, sent up to `woff`. -/
structure Conn where
  rbuf : List UInt8
  rcap : ℕ
  wbuf : List UInt8
  woff : ℕ
  wantWrite : Bool
  closeAfterWrite : Bool
  requests : ℕ
deriving DecidableEq

/-- What `accept` leaves: `calloc`. -/
def Conn.accepted : Conn := ⟨[], 0, [], 0, false, false, 0⟩

/-- What a `read` does that does not block. -/
inductive ReadResult
  | got (chunk : List UInt8)
  | intr
  | eof
  | failed
deriving DecidableEq

/-- What a `write` does that does not block. -/
inductive WriteResult
  | wrote (n : ℕ)
  | intr
  | failed
deriving DecidableEq

/-- A connection, and what has passed through it. -/
structure Link (σ : Type) where
  conn : Conn
  db : σ
  received : List UInt8
  /-- The lines handed to `aegis_request_handle`, with the database each was handed to. -/
  calls : List (σ × List UInt8)
  queued : List (List UInt8)
  sent : List UInt8
  closed : Bool

def Link.accepted {σ : Type} (db : σ) : Link σ := ⟨.accepted, db, [], [], [], [], false⟩

variable {σ : Type}

def Link.handed (l : Link σ) : List (List UInt8) := l.calls.map Prod.snd

/-- The bytes of the response in flight that are still to be sent. -/
def Conn.pending (c : Conn) : List UInt8 := c.wbuf.drop c.woff

def Link.stage (l : Link σ) (resp : List UInt8) : Link σ :=
  { l with
    conn := { l.conn with wbuf := resp, woff := 0, wantWrite := true }
    queued := l.queued ++ [resp] }

/-- The error for a line that is too long becomes the response in flight, and the last one. -/
def Link.reject (l : Link σ) (resp : List UInt8) : Link σ :=
  { l.stage resp with conn := { (l.stage resp).conn with closeAfterWrite := true } }

/-- A `write` has taken the next `n` bytes. -/
def Link.wrote (l : Link σ) (n : ℕ) : Link σ :=
  { l with
    conn := { l.conn with woff := l.conn.woff + n }
    sent := l.sent ++ l.conn.pending.take n }

def Link.drained (l : Link σ) : Link σ :=
  { l with conn := { l.conn with wbuf := [], woff := 0, wantWrite := false } }

/-- `conn_flush`, with what the writes do before one blocks; what is left of them, and whether to
keep the connection. No `write` takes more than it is given. -/
def connFlush : Link σ → List WriteResult → Option (Link σ × List WriteResult × Bool)
  | l, ws =>
    if l.conn.pending = [] then some (l.drained, ws, !l.conn.closeAfterWrite)
    else
      match ws with
      | [] => some (l, [], true)
      | .wrote n :: ws => if n ≤ l.conn.pending.length then connFlush (l.wrote n) ws else none
      | .intr :: ws => connFlush l ws
      | .failed :: ws => some (l, ws, false)

section Serve

variable (handle : σ → List UInt8 → σ × Option (List UInt8)) (tooLarge : Option (List UInt8))
  (limit : ℕ)

/-- A line is handed to `aegis_request_handle`, which answers it unless it runs out of memory. -/
def Link.call (l : Link σ) (line : List UInt8) : Link σ × Option (List UInt8) :=
  let (db, resp) := handle l.db line
  ({ l with
      db
      calls := l.calls ++ [(l.db, line)]
      conn := { l.conn with requests := l.conn.requests + resp.elim 0 fun _ => 1 } },
    resp)

/-- The line at the front leaves the buffer. -/
def Link.consume (l : Link σ) (rest : List UInt8) : Link σ :=
  { l with conn := { l.conn with rbuf := rest } }

/-- What `conn_advance` does with a line. An empty line is no request. -/
def Link.takeLine (l : Link σ) (line rest : List UInt8) : Link σ × Option (List UInt8) :=
  if stripCr line = [] then (l.consume rest, none)
  else (l.consume rest).call handle (stripCr line)

/-- `conn_advance`: the lines of the buffer, until one is incomplete or a response is in flight.
Every turn but the last takes a line. -/
def connAdvance : ℕ → Link σ → List WriteResult → Option (Link σ × List WriteResult × Bool)
  | 0, l, ws => some (l, ws, true)
  | fuel + 1, l, ws =>
    if l.conn.wantWrite then some (l, ws, true)
    else
      match l.conn.rbuf.idxOf? newline with
      | none =>
        if limit < l.conn.rbuf.length then
          match tooLarge with
          | none => some (l, ws, false)
          | some resp => connFlush (l.reject resp) ws
        else some (l, ws, true)
      | some i =>
        match l.takeLine handle (l.conn.rbuf.take i) (l.conn.rbuf.drop (i + 1)) with
        | (l', none) => connAdvance fuel l' ws
        | (l', some resp) =>
          (connFlush (l'.stage resp) ws).bind fun (l', ws, keep) =>
            if keep then connAdvance fuel l' ws else some (l', ws, false)

/-- What `conn_read` returns. -/
inductive ReadStatus
  | more
  | eof
  | failed
deriving DecidableEq

/-- The buffer grows when it is full, up to one byte more than a line may have. -/
def Conn.grow (c : Conn) : Conn :=
  { c with
    rcap :=
      if c.rbuf.length = c.rcap then
        min (if c.rcap ≠ 0 then c.rcap * 2 else 4096) (limit + 1)
      else c.rcap }

/-- `conn_read`, with what the reads do before one blocks. No `read` returns more than there is room
for. -/
def connRead : Link σ → List ReadResult → Option (Link σ × ReadStatus)
  | l, rs =>
    if l.conn.rbuf.length = l.conn.rcap ∧ limit < l.conn.rcap then some (l, .more)
    else
      let c := l.conn.grow limit
      match rs with
      | [] => some ({ l with conn := c }, .more)
      | .got chunk :: rs =>
        if chunk ≠ [] ∧ c.rbuf.length + chunk.length ≤ c.rcap then
          connRead
            { l with conn := { c with rbuf := c.rbuf ++ chunk }, received := l.received ++ chunk } rs
        else none
      | .intr :: rs => connRead { l with conn := c } rs
      | .eof :: _ => some ({ l with conn := c }, .eof)
      | .failed :: _ => some ({ l with conn := c }, .failed)

/-- What `poll` reports. -/
structure Revents where
  pollin : Bool
  pollout : Bool
  /-- `POLLERR`, `POLLHUP` or `POLLNVAL`. -/
  err : Bool
deriving DecidableEq

inductive LinkAct (σ : Type)
  | poll (re : Revents) (reads : List ReadResult) (writes : List WriteResult)
  | reap
  /-- Other connections have been served, and left the database as it is now. -/
  | elsewhere (db : σ)

/-- `conn_free`. -/
def Link.close (l : Link σ) (closeit : Bool) : Link σ := { l with closed := l.closed || closeit }

/-- The part of `loop_main` for `POLLIN`, with whether to close. -/
def serveIn (l : Link σ) (reads : List ReadResult) (writes : List WriteResult) :
    Option (Link σ × Bool) :=
  (connRead limit l reads).bind fun (l, rr) =>
    if rr = .failed then some (l, true)
    else
      (connAdvance handle tooLarge limit (l.conn.rbuf.length + 1) l writes).map
        fun (l, _, keep) => (l, !keep || rr = .eof)

/-- The part of `loop_main` for `POLLOUT`, with whether to close. -/
def serveOut (l : Link σ) (writes : List WriteResult) : Option (Link σ × Bool) :=
  (connFlush l writes).bind fun (l, ws, keep) =>
    if keep then
      (connAdvance handle tooLarge limit (l.conn.rbuf.length + 1) l ws).map
        fun (l, _, keep) => (l, !keep)
    else some (l, true)

/-- One turn of `loop_main` on a connection. It is polled for reading or for writing, never for
both. -/
def linkStep (l : Link σ) : LinkAct σ → Option (Link σ)
  | .poll re reads writes =>
    if l.closed || (re.pollin && l.conn.wantWrite) || (re.pollout && !l.conn.wantWrite) then none
    else
      (if re.pollin then serveIn handle tooLarge limit l reads writes else some (l, false)).bind
        fun (l, closeit) =>
          (if !closeit && re.pollout then serveOut handle tooLarge limit l writes
            else some (l, closeit)).map fun (l, closeit) => l.close (closeit || re.err)
  | .reap => if l.closed then none else some (l.close true)
  | .elsewhere db => if l.closed then none else some { l with db }

end Serve

end AegisDB
