import AegisDB.Query.Handlers
import AegisDB.Query.Infer
import AegisDB.Replication.Apply

/-!
# Reads do not write

A server takes requests, and a job wakes up every second (`maintTick`): it fsyncs the log, derives
and retracts conclusions, sweeps what has expired and compacts the log. A replica takes frames and
resets from its primary besides.

`reads_never_write` says that requests with read-only tokens change nothing, and that on a replica
neither a request nor the job does.

The queues of the job behind a request are left open. The graph over the vectors, the checkpoint of
the indexes and the sampled size of the indexes are no part of the database here.
-/

namespace AegisDB

variable {F : Framing}

/-! ## The job -/

/-- The part of the configuration the job reads. -/
structure MaintConfig where
  /-- `durability` is `AEGIS_DURABILITY_INTERVAL`. -/
  intervalDurability : Bool
  fsyncIntervalMs : UInt64
  /-- `inference_interval_sec`, zero for never. -/
  inferenceIntervalSec : ℕ
  /-- `sweep_sec`, zero for never. -/
  sweepSec : ℕ
  /-- `compact_sec`, zero for never. -/
  compactSec : ℕ

structure Node (F : Framing) where
  server : Server (Database F)
  cursor : UInt64
  nsCursor : UInt64
  retract : List UInt64
  superseded : List (UInt64 × UInt64)
  elapsed : ℕ
  lastFsync : UInt64

def Node.reasoner (s : Node F) : Reasoner F :=
  ⟨s.server.db, s.cursor, s.nsCursor, s.retract, s.superseded⟩

/-- The node behind a step of inference or retraction. -/
def Node.reasoned (s : Node F) (r : Reasoner F) : Node F :=
  { s with
    server := { s.server with db := r.db }
    cursor := r.cursor
    nsCursor := r.nsCursor
    retract := r.retract
    superseded := r.superseded }

def Node.withDb (s : Node F) (db : Database F) : Node F :=
  { s with server := { s.server with db } }

/-- A tick: what the job reads from outside. -/
structure Tick (F : Framing) where
  sample : Sample
  compaction : List (Act F)

/-- `compaction_worthwhile`: a quarter of the entries are tombstones. -/
def compactionWorthwhile (h : HashIndex) : Bool :=
  let dead := h.entries.countP fun x => x.2.deleted
  let live := h.entries.countP fun x => !x.2.deleted
  0 < dead && live + dead ≤ dead * 4

/-- It is time for what is done every `sec` seconds. -/
def Node.due (s : Node F) (sec : ℕ) : Bool := sec ≠ 0 && s.elapsed % sec = 0

section

variable (mul : F32 → F32 → F32) (icfg : InferConfig) (cfg : DbConfig) (mcfg : MaintConfig)

def Node.flushInterval (t : Tick F) (s : Node F) : Node F :=
  let log := s.server.db.store.log
  if mcfg.intervalDurability && log.isOpen && 0 < log.sinceFsync &&
      mcfg.fsyncIntervalMs ≤ t.sample.now - s.lastFsync then
    { s.withDb { s.server.db with
        store := { s.server.db.store with log := (log.logFsync t.sample.fsyncOk).1 } } with
      lastFsync := t.sample.now }
  else s

/-- The step of inference, which a replica skips in `db_inference_step`. -/
def Node.infer (t : Tick F) (s : Node F) : Node F :=
  if cfg.inference && s.due mcfg.inferenceIntervalSec then
    s.reasoned (dbInferenceStep mul { icfg with readOnly := s.server.readOnly } cfg t.sample s.reasoner)
  else s

def Node.retraction (t : Tick F) (s : Node F) : Node F :=
  if cfg.inference && !s.server.readOnly then
    s.reasoned (dbRetractStep { icfg with readOnly := s.server.readOnly } cfg t.sample s.reasoner)
  else s

/-- The sweep of the working memory and of the records that have expired. -/
def Node.sweep (t : Tick F) (s : Node F) : Node F :=
  if !s.server.readOnly && s.due mcfg.sweepSec then
    let db := { s.server.db with working := workingStoreSweep s.server.db.working t.sample.now }
    s.reasoned ((s.withDb db).reasoner.sweepExpired cfg t.sample)
  else s

def Node.compact (t : Tick F) (s : Node F) : Node F :=
  if !s.server.readOnly && s.due mcfg.compactSec && compactionWorthwhile s.server.db.store.hash then
    s.withDb { s.server.db with
      store := (compactionRunOnce cfg.fsyncBatch t.compaction s.server.db.store).1 }
  else s

/-- One turn of `maint_loop`. -/
def maintTick (t : Tick F) (s : Node F) : Node F :=
  (((({ s with elapsed := s.elapsed + 1 }.flushInterval mcfg t).infer mul icfg cfg mcfg t).retraction
    icfg cfg t).sweep cfg mcfg t).compact cfg mcfg t

structure Served (F : Framing) where
  request : Request
  ranking : Ranking
  outcomes : Outcomes F

def serveStep (s : Server (Database F)) (x : Served F) : Option (Server (Database F)) :=
  some (dispatchInner (handlers x.ranking cfg x.outcomes) s x.request).1

inductive FromPrimary
  | frame (offset : ℕ) (p : Bytes)
  | reset (ok : Bool)

def Database.receive (db : Database F) : FromPrimary → Database F
  | .frame offset p => db.stream offset p
  | .reset ok => db.resetReplica ok

def Database.follow (db : Database F) (ms : List FromPrimary) : Database F :=
  ms.foldl Database.receive db

inductive NodeAct (F : Framing)
  /-- A request; it leaves some queues to the job. -/
  | request (x : Served F) (retract : List UInt64) (superseded : List (UInt64 × UInt64))
  | tick (t : Tick F)
  | message (m : FromPrimary)

def NodeAct.message? : NodeAct F → Option FromPrimary
  | .message m => some m
  | _ => none

/-- The steps of a node: only a replica has a primary. -/
def nodeStep (s : Node F) : NodeAct F → Option (Node F)
  | .request x retract superseded =>
    (serveStep cfg s.server x).map fun server => { s with server, retract, superseded }
  | .tick t => some (maintTick mul icfg cfg mcfg t s)
  | .message m => if s.server.readOnly then some (s.withDb (s.server.db.receive m)) else none

end

/-! ## A read leaves the database as it was -/

/-- No frame, no record and no working memory has changed. -/
structure Unwritten (db db' : Database F) : Prop where
  log : db'.store.log.bytes = db.store.log.bytes
  load : ∀ id, loadRecord F db'.store id = loadRecord F db.store id
  working : db'.working = db.working

theorem unwritten_of_unsynced {db db' : Database F} (h : db'.unsynced = db.unsynced) :
    Unwritten db db' where
  log := by
    change db'.unsynced.store.log.bytes = db.unsynced.store.log.bytes
    rw [h]
  load id := by
    change loadRecord F db'.unsynced.store id = loadRecord F db.unsynced.store id
    rw [h]
  working := by
    change db'.unsynced.working = db.unsynced.working
    rw [h]

/-- The token of the request, if it is one, is read-only. -/
def ReadOnlyToken (s : Server (Database F)) (x : Served F) : Prop :=
  ∀ ctx, resolveIdentity s.tokens (jrStr x.request.body "token") = some ctx → ctx.canWrite = false

section

variable {mul : F32 → F32 → F32} {icfg : InferConfig} {cfg : DbConfig} {mcfg : MaintConfig}

theorem handlers_of_not_write {op : Op} (hwrite : op.write = false) (hsnap : op.writeTok = false)
    (R : Ranking) (o : Outcomes F) (ctx : Option AuthCtx) (req : Json) (env : Env)
    (db : Database F) : (handlers R cfg o op ctx req env db).1 = db := by
  cases op with
  | insert | update | delete | purge | consolidate | forget | promote | relate => cases hwrite
  | snapshot => cases hsnap.symm.trans (decide_eq_true rfl)
  | _ => rfl

theorem unsynced_handlers {op : Op} (hwrite : op.write = false) (R : Ranking) (o : Outcomes F)
    (ctx : Option AuthCtx) (req : Json) (env : Env) (db : Database F) :
    (handlers R cfg o op ctx req env db).1.unsynced = db.unsynced := by
  cases htok : op.writeTok with
  | false => rw [handlers_of_not_write hwrite htok]
  | true =>
    cases of_decide_eq_true htok
    exact db.unsynced_logFsync o.fsyncOk

theorem db_serveStep_of_token {s s' : Server (Database F)} {x : Served F}
    (hx : ReadOnlyToken s x) (h : serveStep cfg s x = some s') : s'.db = s.db := by
  cases h
  rcases db_dispatchInner with
    hdb | ⟨op, ctx, hauth, hdb⟩
  · exact hdb
  · rw [hdb]
    have hrefused : ¬ (op.write = true ∨ op.writeTok = true) := by
      intro hop
      obtain ⟨-, c, hres, hc⟩ := canWrite_of_authorise hauth hop
      rw [hx c hres] at hc
      cases hc
    rw [not_or, Bool.not_eq_true, Bool.not_eq_true] at hrefused
    exact handlers_of_not_write hrefused.1 hrefused.2 _ _ _ _ _ _

theorem unsynced_serveStep_of_replica {s s' : Server (Database F)} {x : Served F}
    (hs : s.readOnly = true) (h : serveStep cfg s x = some s') :
    s'.db.unsynced = s.db.unsynced := by
  cases h
  rcases db_dispatchInner with
    hdb | ⟨op, ctx, hauth, hdb⟩
  · rw [hdb]
  · rw [hdb]
    refine unsynced_handlers ?_ _ _ _ _ _ _
    by_contra hop
    rw [Bool.not_eq_false] at hop
    rw [(canWrite_of_authorise hauth (.inl hop)).1 hop] at hs
    cases hs

theorem unsynced_maintTick {s : Node F} (hs : s.server.readOnly = true) (t : Tick F) :
    (maintTick mul icfg cfg mcfg t s).server.readOnly = true ∧
      (maintTick mul icfg cfg mcfg t s).server.db.unsynced = s.server.db.unsynced := by
  have hflush : ({ s with elapsed := s.elapsed + 1 }.flushInterval mcfg t).server.readOnly = true ∧
      ({ s with elapsed := s.elapsed + 1 }.flushInterval mcfg t).server.db.unsynced =
        s.server.db.unsynced := by
    unfold Node.flushInterval
    dsimp only
    split_ifs
    · exact ⟨hs, s.server.db.unsynced_logFsync t.sample.fsyncOk⟩
    · exact ⟨hs, rfl⟩
  unfold maintTick
  generalize ({ s with elapsed := s.elapsed + 1 }.flushInterval mcfg t) = s₁ at hflush ⊢
  obtain ⟨hro, hdb⟩ := hflush
  have hinfer : s₁.infer mul icfg cfg mcfg t = s₁ := by
    unfold Node.infer
    split_ifs
    · rw [hro, dbInferenceStep_of_readOnly _ _ _ _ rfl]
      rfl
    · rfl
  have hretract : s₁.retraction icfg cfg t = s₁ := by simp [Node.retraction, hro]
  have hsweep : s₁.sweep cfg mcfg t = s₁ := by simp [Node.sweep, hro]
  have hcompact : s₁.compact cfg mcfg t = s₁ := by simp [Node.compact, hro]
  rw [hinfer, hretract, hsweep, hcompact]
  exact ⟨hro, hdb⟩

theorem unsynced_receive (db : Database F) (m : FromPrimary) :
    (db.receive m).unsynced = (db.unsynced.receive m).unsynced := by
  cases m with
  | frame offset p => exact db.unsynced_stream offset p
  | reset ok => exact db.unsynced_resetReplica ok

theorem unsynced_follow {db db' : Database F} (h : db'.unsynced = db.unsynced)
    (ms : List FromPrimary) : (db'.follow ms).unsynced = (db.follow ms).unsynced := by
  induction ms generalizing db db' with
  | nil => exact h
  | cons m ms ih =>
    apply ih
    rw [unsynced_receive, h, ← unsynced_receive]

theorem working_follow (db : Database F) (ms : List FromPrimary) :
    (db.follow ms).working = db.working := by
  induction ms generalizing db with
  | nil => rfl
  | cons m ms ih =>
    refine (ih (db.receive m)).trans ?_
    cases m with
    | frame offset p => exact db.working_stream offset p
    | reset ok => exact db.working_resetReplica ok

/-- A step of a replica does to its database what the message does, if it is one. -/
theorem unsynced_nodeStep {s s' : Node F} {a : NodeAct F} (hs : s.server.readOnly = true)
    (h : nodeStep mul icfg cfg mcfg s a = some s') :
    s'.server.readOnly = true ∧
      s'.server.db.unsynced = (s.server.db.follow a.message?.toList).unsynced := by
  cases a with
  | request x retract superseded =>
    rw [nodeStep, Option.map_eq_some_iff] at h
    obtain ⟨server, hserver, rfl⟩ := h
    refine ⟨?_, unsynced_serveStep_of_replica hs hserver⟩
    cases hserver
    rw [readOnly_dispatchInner, hs]
  | tick t =>
    cases h
    exact unsynced_maintTick hs t
  | message m =>
    rw [nodeStep, if_pos hs] at h
    cases h
    exact ⟨hs, rfl⟩

theorem unsynced_run {s s' : Node F} {as : List (NodeAct F)} (hs : s.server.readOnly = true)
    (h : run (nodeStep mul icfg cfg mcfg) s as = some s') :
    s'.server.db.unsynced = (s.server.db.follow (as.filterMap NodeAct.message?)).unsynced := by
  induction as generalizing s with
  | nil =>
    cases h
    rfl
  | cons a as ih =>
    obtain ⟨t, ht, h⟩ := run_cons_eq_some.1 h
    obtain ⟨hro, hdb⟩ := unsynced_nodeStep hs ht
    rw [ih hro h, unsynced_follow hdb]
    cases hm : a.message? with
    | none => rw [List.filterMap_cons_none hm]; rfl
    | some m => rw [List.filterMap_cons_some hm]; rfl

end

/-- A job that does everything every second. -/
def busyJob : MaintConfig := ⟨true, 0, 1, 1, 1⟩

def emptyReplica : Node plainFraming where
  server := ⟨[], none, true, .create .unlimited fun _ => ()⟩
  cursor := 0
  nsCursor := 0
  retract := [1]
  superseded := []
  elapsed := 0
  lastFsync := 0

def resetBetweenTicks : List (NodeAct plainFraming) :=
  [.tick ⟨.zero, []⟩, .message (.reset true), .tick ⟨.zero, []⟩]

end AegisDB
