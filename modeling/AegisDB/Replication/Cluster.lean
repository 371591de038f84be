import AegisDB.Storage.Checkpoints

/-!
# A primary and its replica

The replication stream between two stores. The replica dials, sends the size of its log and the last
generation it has seen, and follows the answer: it keeps its log or empties it, and then appends the
frames it is sent, each at the offset it comes with. The primary answers from its generation, which
counts the compactions of the running process, and from the size of its log; then it reads its own
log frame by frame, behind a look at the generation under the log lock.

Both ends run apart from each other. The messages between them stand in a channel, which outlives a
crash of the primary.
-/

namespace AegisDB

open Bytes Option

inductive Msg
  | frame (offset : ℕ) (payload : Bytes)
  | heartbeat (size : ℕ)
  | reset
  | incompatible (offset : ℕ)
  deriving DecidableEq

/-- The replica cannot read a frame of the primary. -/
def Msg.isIncompatible : Msg → Bool
  | .incompatible _ => true
  | _ => false

/-- The thread of the primary that serves the connection. -/
inductive Streamer
  | dialled (fromOff gen : ℕ)
  /-- `cur_gen` is loaded. -/
  | loaded (fromOff gen curGen : ℕ)
  /-- The handshake is answered; `size` is the log size that the loop has seen last. -/
  | streaming (curGen cursor size : ℕ)
  | gone
  deriving DecidableEq

structure Session where
  streamer : Streamer
  /-- The answer to the handshake on its way: the generation, and whether to reset. -/
  reply : Option (ℕ × Bool)
  channel : List Msg
  following : Bool
  /-- The primary's log is not the one any more that this connection streams. -/
  stale : Bool

structure Cluster where
  primary : Store
  replica : Store
  gen : ℕ
  stopped : Bool
  session : Option Session
  /-- The replica's log is not a copy any more: the primary has swapped its log, or lost bytes that
  the replica held or that were on their way. -/
  stale : Bool

inductive ClusterAct (F : Framing)
  | primary (a : StoreAct F)
  | replica (a : StoreAct F)
  /-- The replica ends with `k` bytes of its log on disk, and starts again. -/
  | restart (k : ℕ)
  | dial
  | load
  | answer
  | sample
  | send
  | heartbeat
  | notice
  | endStream
  | greet
  | receive (n : F.Nonce)
  | hangUp

/-- A primary neither follows nor is reset. -/
def StoreAct.isPrimary {F : Framing} : StoreAct F → Bool
  | .stream .. | .reset => false
  | _ => true

/-- What a replica does by itself while it runs: it neither writes nor compacts. -/
def StoreAct.isReplica {F : Framing} : StoreAct F → Bool
  | .engine (.flush _) | .engine (.sync _) | .checkpoint | .saveMetadata => true
  | _ => false

def framesIn : List Msg → List Bytes
  | [] => []
  | .frame _ p :: ms => p :: framesIn ms
  | _ :: ms => framesIn ms

/-- The bytes of log that the replica holds or that are on their way. -/
def Cluster.held (F : Framing) (c : Cluster) : ℕ :=
  c.replica.engine.db.log.bytes.length +
    c.session.elim 0 fun ss => framesSize F (framesIn ss.channel)

/-- The connection behind a change of the primary's log. -/
def Session.outdated (ss : Session) (lost : Bool) : Session := { ss with stale := ss.stale || lost }

/-- The cluster behind a step of the primary. A restart ends the streamer. -/
def Cluster.afterPrimary {F : Framing} (c : Cluster) (a : StoreAct F) (primary : Store) : Cluster :=
  match a with
  | .engine (.rename true) =>
    { c with primary, session := c.session.map fun ss => ss.outdated true, stale := true }
  | .restart _ =>
    let lost := decide (primary.engine.db.log.bytes.length < c.held F)
    { c with
      primary
      session := c.session.map fun ss => { ss.outdated lost with streamer := .gone }
      stale := c.stale || lost }
  | _ => { c with primary }

section

variable (F : Framing) (batch : ℕ) (codec : UInt8)

/-- The replica behind a message, and whether it goes on. -/
def Cluster.handle (c : Cluster) (n : F.Nonce) : Msg → Option (Store × Bool)
  | .heartbeat _ => some (c.replica, true)
  | .incompatible _ => some (c.replica, false)
  | .reset => (storeStep F batch c.replica .reset).map fun replica => (replica, false)
  | .frame offset p =>
    if p = [] ∨ maxPayload < p.length ∨ offset ≠ c.replica.engine.db.log.size then
      some (c.replica, false)
    else
      -- a frame that does not decode is in the log, and ends the connection
      (storeStep F batch c.replica (.stream n p)).map fun replica =>
        (replica, (recordDecode p).isSome)

/-- The answer to a handshake: a reset if the generation is another one, or the log shorter than the
replica's. -/
def Session.answered (ss : Session) (fromOff gen curGen logSize generation : ℕ) : Session :=
  let reset := decide (gen ≠ curGen ∨ logSize < fromOff)
  { ss with
    streamer := .streaming curGen (if reset then 0 else fromOff) 0
    reply := some (curGen, reset)
    stale := decide (curGen ≠ generation) }

/-- The frame at the cursor on its way, or the message that the replica cannot read it. -/
def Session.sent (ss : Session) (curGen cursor size : ℕ) (p : Bytes) : Session :=
  if p.head?.any fun v => codec < v then
    { ss with streamer := .gone, channel := ss.channel ++ [.incompatible cursor] }
  else
    { ss with
      streamer := .streaming curGen (cursor + F.overhead + p.length) size
      channel := ss.channel ++ [.frame cursor p] }

/-- What a step does to the connection when it is one of the streamer's; the primary stays as it
is. -/
def Session.serve (primary : Engine) (ss : Session) : ClusterAct F → Option Session
  | .load =>
    match ss.streamer with
    | .dialled fromOff gen =>
      some { ss with streamer := .loaded fromOff gen primary.db.generation }
    | _ => none
  | .answer =>
    match ss.streamer with
    | .loaded fromOff gen curGen =>
      if primary.phase.indexFree then
        some (ss.answered fromOff gen curGen primary.db.log.size primary.db.generation)
      else none
    | _ => none
  | .sample =>
    match ss.streamer with
    | .streaming curGen cursor _ =>
      if primary.phase.indexFree then
        some { ss with streamer := .streaming curGen cursor primary.db.log.size }
      else none
    | _ => none
  | .send =>
    match ss.streamer with
    | .streaming curGen cursor size =>
      if cursor < size ∧ primary.phase.logFree ∧ primary.db.generation = curGen then
        (primary.db.log.read F cursor).map (ss.sent F codec curGen cursor size)
      else none
    | _ => none
  | .heartbeat =>
    match ss.streamer with
    | .streaming _ _ size => some { ss with channel := ss.channel ++ [.heartbeat size] }
    | _ => none
  | .notice =>
    match ss.streamer with
    | .streaming curGen _ _ =>
      if primary.db.generation ≠ curGen then
        some { ss with streamer := .gone, channel := ss.channel ++ [.reset] }
      else none
    | _ => none
  | .endStream => some { ss with streamer := .gone }
  | _ => none

/-- The replica behind the answer to its handshake. -/
def Cluster.greeted (c : Cluster) (ss : Session) (gen : ℕ) (replica : Store) : Cluster :=
  { c with
    replica
    gen
    session := some { ss with reply := none, following := true }
    stale := ss.stale }

def Cluster.received (c : Cluster) (ss : Session) (m : Msg) (ms : List Msg) (replica : Store)
    (goesOn : Bool) : Cluster :=
  { c with
    replica
    stopped := c.stopped || m.isIncompatible
    session := if goesOn then some { ss with channel := ms } else none }

def clusterStep (c : Cluster) : ClusterAct F → Option Cluster
  | .primary a =>
    if a.isPrimary then (storeStep F batch c.primary a).map (c.afterPrimary a) else none
  | .replica a =>
    if a.isReplica then
      (storeStep F batch c.replica a).map fun replica => { c with replica }
    else none
  | .restart k =>
    (storeStep F batch c.replica (.restart k)).map fun replica =>
      { c with replica, gen := 0, stopped := false, session := none }
  | .dial =>
    if c.session.isNone && !c.stopped then
      some { c with session := some ⟨.dialled c.replica.engine.db.log.size c.gen, none, [], false, false⟩ }
    else none
  | .greet =>
    c.session.bind fun ss => ss.reply.bind fun (gen, reset) =>
      (if reset then storeStep F batch c.replica .reset else some c.replica).map
        (c.greeted ss gen)
  | .receive n =>
    c.session.bind fun ss =>
      match ss.channel with
      | [] => none
      | m :: ms =>
        if ss.following then
          (c.handle F batch n m).map fun x => c.received ss m ms x.1 x.2
        else none
  | .hangUp => some { c with session := none }
  | a =>
    c.session.bind fun ss => (ss.serve F codec c.primary.engine a).map fun ss =>
      { c with session := some ss }

end

def Cluster.fresh : Cluster where
  primary := .fresh
  replica := .fresh
  gen := 0
  stopped := false
  session := none
  stale := false

/-! ## What a step can do -/

section

variable {F : Framing} {batch : ℕ} {codec : UInt8}

inductive Serves (F : Framing) (codec : UInt8) (primary : Engine) (ss : Session) :
    ClusterAct F → Session → Prop
  | load {fromOff gen} (streamer : ss.streamer = .dialled fromOff gen) :
    Serves F codec primary ss .load
      { ss with streamer := .loaded fromOff gen primary.db.generation }
  | answer {fromOff gen curGen} (streamer : ss.streamer = .loaded fromOff gen curGen)
    (free : primary.phase.indexFree = true) :
    Serves F codec primary ss .answer
      (ss.answered fromOff gen curGen primary.db.log.size primary.db.generation)
  | sample {curGen cursor size} (streamer : ss.streamer = .streaming curGen cursor size)
    (free : primary.phase.indexFree = true) :
    Serves F codec primary ss .sample
      { ss with streamer := .streaming curGen cursor primary.db.log.size }
  | send {cursor size p} (streamer : ss.streamer = .streaming primary.db.generation cursor size)
    (lt : cursor < size) (free : primary.phase.logFree = true)
    (read : primary.db.log.read F cursor = some p) :
    Serves F codec primary ss .send (ss.sent F codec primary.db.generation cursor size p)
  | heartbeat {curGen cursor size} (streamer : ss.streamer = .streaming curGen cursor size) :
    Serves F codec primary ss .heartbeat { ss with channel := ss.channel ++ [.heartbeat size] }
  | notice {curGen cursor size} (streamer : ss.streamer = .streaming curGen cursor size)
    (ne : primary.db.generation ≠ curGen) :
    Serves F codec primary ss .notice
      { ss with streamer := .gone, channel := ss.channel ++ [.reset] }
  | endStream : Serves F codec primary ss .endStream { ss with streamer := .gone }

theorem Serves.of_eq {primary : Engine} {ss ss' : Session} {a : ClusterAct F}
    (h : ss.serve F codec primary a = some ss') : Serves F codec primary ss a ss' := by
  cases a with
  | load =>
    simp only [Session.serve] at h
    split at h
    · cases h
      exact .load ‹_›
    · cases h
  | answer =>
    simp only [Session.serve] at h
    split at h
    · obtain ⟨free, h⟩ := ite_none_right_eq_some.1 h
      cases h
      exact .answer ‹_› free
    · cases h
  | sample =>
    simp only [Session.serve] at h
    split at h
    · obtain ⟨free, h⟩ := ite_none_right_eq_some.1 h
      cases h
      exact .sample ‹_› free
    · cases h
  | send =>
    simp only [Session.serve] at h
    split at h
    · obtain ⟨⟨lt, free, rfl⟩, h⟩ := ite_none_right_eq_some.1 h
      obtain ⟨p, read, rfl⟩ := map_eq_some_iff.1 h
      exact .send ‹_› lt free read
    · cases h
  | heartbeat =>
    simp only [Session.serve] at h
    split at h
    · cases h
      exact .heartbeat ‹_›
    · cases h
  | notice =>
    simp only [Session.serve] at h
    split at h
    · obtain ⟨ne, h⟩ := ite_none_right_eq_some.1 h
      cases h
      exact .notice ‹_› ne
    · cases h
  | endStream =>
    cases h
    exact .endStream
  | _ => cases h

inductive Handles (F : Framing) (batch : ℕ) (replica : Store) : Msg → Store → Bool → Prop
  | heartbeat {size} : Handles F batch replica (.heartbeat size) replica true
  | incompatible {offset} : Handles F batch replica (.incompatible offset) replica false
  | reset {replica'} (step : StoreStep F batch replica (.reset : StoreAct F) replica') :
    Handles F batch replica .reset replica' false
  | refused {offset p} : Handles F batch replica (.frame offset p) replica false
  | frame {n : F.Nonce} {p : Bytes} {replica'} (step : StoreStep F batch replica (.stream n p) replica') :
    Handles F batch replica (.frame replica.engine.db.log.size p) replica' (recordDecode p).isSome

theorem Handles.of_eq {c : Cluster} {n : F.Nonce} {m : Msg} {replica : Store} {goesOn : Bool}
    (h : c.handle F batch n m = some (replica, goesOn)) :
    Handles F batch c.replica m replica goesOn := by
  cases m with
  | heartbeat size =>
    cases h
    exact .heartbeat
  | incompatible offset =>
    cases h
    exact .incompatible
  | reset =>
    obtain ⟨replica', hstep, h⟩ := map_eq_some_iff.1 h
    cases h
    exact .reset (.of_eq hstep)
  | frame offset p =>
    simp only [Cluster.handle] at h
    split at h
    · cases h
      exact .refused
    · rename_i hok
      obtain ⟨-, -, hoff⟩ : p ≠ [] ∧ ¬ maxPayload < p.length ∧ offset = c.replica.engine.db.log.size := by
        simpa only [not_or, not_not] using hok
      obtain ⟨replica', hstep, h⟩ := map_eq_some_iff.1 h
      cases h
      subst hoff
      exact .frame (.of_eq hstep)

inductive ClusterStep (F : Framing) (batch : ℕ) (codec : UInt8) (c : Cluster) :
    ClusterAct F → Cluster → Prop
  | primary {a primary} (isPrimary : a.isPrimary = true)
    (step : StoreStep F batch c.primary a primary) :
    ClusterStep F batch codec c (.primary a) (c.afterPrimary a primary)
  | replica {a replica} (isReplica : a.isReplica = true)
    (step : StoreStep F batch c.replica a replica) :
    ClusterStep F batch codec c (.replica a) { c with replica }
  | restart {k replica} (step : StoreStep F batch c.replica (.restart k : StoreAct F) replica) :
    ClusterStep F batch codec c (.restart k)
      { c with replica, gen := 0, stopped := false, session := none }
  | dial (none : c.session = none) :
    ClusterStep F batch codec c .dial
      { c with session := some ⟨.dialled c.replica.engine.db.log.size c.gen, .none, [], false, false⟩ }
  | serve {a ss ss'} (session : c.session = some ss) (serves : Serves F codec c.primary.engine ss a ss') :
    ClusterStep F batch codec c a { c with session := some ss' }
  | keep {ss gen} (session : c.session = some ss) (reply : ss.reply = some (gen, false)) :
    ClusterStep F batch codec c .greet (c.greeted ss gen c.replica)
  | empty {ss gen replica} (session : c.session = some ss) (reply : ss.reply = some (gen, true))
    (step : StoreStep F batch c.replica (.reset : StoreAct F) replica) :
    ClusterStep F batch codec c .greet (c.greeted ss gen replica)
  | receive {n ss m ms replica goesOn} (session : c.session = some ss)
    (channel : ss.channel = m :: ms) (following : ss.following = true)
    (handles : Handles F batch c.replica m replica goesOn) :
    ClusterStep F batch codec c (.receive n) (c.received ss m ms replica goesOn)
  | hangUp : ClusterStep F batch codec c .hangUp { c with session := .none }

theorem ClusterStep.of_eq {c c' : Cluster} {a : ClusterAct F}
    (h : clusterStep F batch codec c a = some c') : ClusterStep F batch codec c a c' := by
  cases a with
  | primary a =>
    obtain ⟨isPrimary, h⟩ := ite_none_right_eq_some.1 h
    obtain ⟨primary, hstep, rfl⟩ := map_eq_some_iff.1 h
    exact .primary isPrimary (.of_eq hstep)
  | replica a =>
    obtain ⟨isReplica, h⟩ := ite_none_right_eq_some.1 h
    obtain ⟨replica, hstep, rfl⟩ := map_eq_some_iff.1 h
    exact .replica isReplica (.of_eq hstep)
  | restart k =>
    obtain ⟨replica, hstep, rfl⟩ := map_eq_some_iff.1 h
    exact .restart (.of_eq hstep)
  | dial =>
    obtain ⟨hand, h⟩ := ite_none_right_eq_some.1 h
    obtain ⟨hnone, -⟩ := Bool.and_eq_true_iff.1 hand
    cases h
    exact .dial (isNone_iff_eq_none.1 hnone)
  | greet =>
    obtain ⟨ss, session, h⟩ := bind_eq_some_iff.1 h
    obtain ⟨⟨gen, reset⟩, reply, h⟩ := bind_eq_some_iff.1 h
    obtain ⟨replica, hstep, rfl⟩ := map_eq_some_iff.1 h
    cases reset with
    | false =>
      cases hstep
      exact .keep session reply
    | true => exact .empty session reply (.of_eq hstep)
  | receive n =>
    obtain ⟨ss, session, h⟩ := bind_eq_some_iff.1 h
    split at h
    · cases h
    · obtain ⟨following, h⟩ := ite_none_right_eq_some.1 h
      obtain ⟨⟨replica, goesOn⟩, hhandle, rfl⟩ := map_eq_some_iff.1 h
      exact .receive session ‹_› following (.of_eq hhandle)
  | hangUp =>
    cases h
    exact .hangUp
  | load | answer | sample | send | heartbeat | notice | endStream =>
    obtain ⟨ss, session, h⟩ := bind_eq_some_iff.1 h
    obtain ⟨ss', hserve, rfl⟩ := map_eq_some_iff.1 h
    exact .serve session (.of_eq hserve)

end

end AegisDB
