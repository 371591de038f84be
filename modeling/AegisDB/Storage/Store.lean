import AegisDB.Storage.CleanEngine

/-!
# The store across restarts

The engine with what outlives it: the log, `memory.index` with the last checkpoint of the hash index,
and `metadata.db` with a floor for the ids. A store takes inserts and rewrites of its records, frames
streamed by a primary, checkpoints, compactions and replica resets; and it restarts, behind a clean
shutdown or behind a crash that cuts the log anywhere above what was fsynced.
-/

namespace AegisDB

open Bytes Option

def WireRecord.withId (r : WireRecord) (id : UInt64) : WireRecord :=
  ⟨{ r.1 with id }, { r.2 with }⟩

structure Store where
  engine : Engine
  index : Option Checkpoint
  /-- The `next_id` of `metadata.db`, zero without the file. -/
  floor : UInt64
  nextId : UInt64
  /-- The ids of inserts that have appended their frame and not returned. -/
  pending : List UInt64
  /-- The ids whose insert has been acknowledged, in this process or an earlier one. -/
  acked : List UInt64
  /-- The log `memory.index` was taken from is gone: it was swapped or reset, or covered bytes of it
  were lost. -/
  stale : Bool

inductive StoreAct (F : Framing)
  | insert (n : F.Nonce) (r : WireRecord)
  | ack (id : UInt64) (ok : Bool)
  /-- The append of an update, a relate, a promotion or a delete. -/
  | rewrite (n : F.Nonce) (r : WireRecord)
  | engine (a : Act F)
  | again
  | checkpoint
  | saveMetadata
  /-- A frame from the primary: `log_append` and `db_replica_apply`. -/
  | stream (n : F.Nonce) (p : Bytes)
  | reset
  /-- The process ends with `k` bytes of the log on disk, and `db_open`. -/
  | restart (k : ℕ)

def Act.isBackground {F : Framing} : Act F → Bool
  | .write .. | .writeFail _ => false
  | _ => true

/-- What a checkpoint is taken from belongs together: the index to the log, and the size to both. -/
def Engine.consistent (s : Engine) : Bool := s.phase.indexed && s.db.log.isOpen

/-- `db_replica_apply` on the hash index and the next id. -/
def dbReplicaApply (off : ℕ) (p : Bytes) (h : HashIndex) (nextId : UInt64) : HashIndex × UInt64 :=
  match recordDecode p with
  | none => (h, nextId)
  | some r =>
    (hashIndexPut h r.id (entryOf r off p.length), if nextId < r.id + 1 then r.id + 1 else nextId)

/-- `db_open` on what is left of the log and the files beside it. -/
def dbOpen (F : Framing) (s : Store) (k : ℕ) : Store :=
  let rec' := recoveryRun F (s.engine.db.log.file.take k) s.index
  { s with
    engine :=
      { db :=
          { log :=
              { bytes := rec'.log
                junk := []
                synced := if rec'.log.length < k then rec'.log.length else s.engine.db.log.synced
                sinceFsync := 0
                isOpen := true }
            hash := rec'.hash
            generation := 0 }
        phase := .idle }
    nextId := if rec'.nextId < s.floor then s.floor else rec'.nextId
    pending := []
    stale := s.stale || s.index.any fun c => decide (k < c.covered) }

/-- What a background step of the engine changes beside it. -/
def Store.afterEngine {F : Framing} (s : Store) (a : Act F) (engine : Engine) : Store :=
  match a with
  | .rename true => { s with engine, stale := true }
  | .unlink => { s with engine, index := none }
  | _ => { s with engine }

/-- The store with one more frame from the primary. -/
def Store.streamed (s : Store) (log : LogFile) (p : Bytes) : Store :=
  let applied := dbReplicaApply s.engine.db.log.bytes.length p s.engine.db.hash s.nextId
  { s with
    engine := { s.engine with db := { s.engine.db with log, hash := applied.1 } }
    nextId := applied.2 }

def Store.emptied (s : Store) : Store :=
  { s with
    engine :=
      { s.engine with
        db :=
          { s.engine.db with
            log := { s.engine.db.log with bytes := [], junk := [], synced := 0 }
            hash := hashIndexCreate } }
    nextId := 1
    stale := true }

def Store.checkpointed (s : Store) : Store :=
  { s with
    index := some (hashIndexSave s.engine.db.hash s.engine.db.log.size s.nextId)
    stale := !s.engine.consistent }

def storeStep (F : Framing) (batch : ℕ) (s : Store) : StoreAct F → Option Store
  | .insert n r =>
    (engineStep F batch s.engine (.write n (r.withId s.nextId))).map fun engine =>
      { s with engine, nextId := s.nextId + 1, pending := s.nextId :: s.pending }
  | .ack id ok =>
    if id ∈ s.pending then
      (engineStep F batch s.engine (.flush ok)).map fun engine =>
        { s with
          engine
          pending := s.pending.erase id
          acked :=
            if (s.engine.db.log.logFsyncIfBatched batch ok).2 then id :: s.acked else s.acked }
    else none
  | .rewrite n r =>
    if (hashIndexGet s.engine.db.hash r.1.id).isSome then
      (engineStep F batch s.engine (.write n r)).map fun engine => { s with engine }
    else none
  | .engine a =>
    if a.isBackground then (engineStep F batch s.engine a).map (s.afterEngine a) else none
  | .again =>
    if s.engine.phase.resting then some { s with engine := { s.engine with phase := .idle } } else none
  | .checkpoint => if s.engine.phase.indexFree then some s.checkpointed else none
  | .saveMetadata => some { s with floor := s.nextId }
  | .stream n p =>
    if s.engine.phase.resting then (s.engine.db.log.append F n p).map (s.streamed · p) else none
  | .reset => if s.engine.phase.resting && s.engine.db.log.isOpen then some s.emptied else none
  | .restart k =>
    if s.engine.db.log.synced ≤ k ∧ k ≤ s.engine.db.log.file.length then some (dbOpen F s k) else none

def Store.fresh : Store where
  engine := ⟨emptyDb, .idle⟩
  index := none
  floor := 0
  nextId := 1
  pending := []
  acked := []
  stale := false

/-! ## What a step can do -/

section

variable {F : Framing}

/-- The steps of the store, one constructor for each act. -/
inductive StoreStep (F : Framing) (batch : ℕ) (s : Store) : StoreAct F → Store → Prop
  | insert {n r engine}
    (step : EngineStep F batch s.engine (.write n (r.withId s.nextId)) engine) :
    StoreStep F batch s (.insert n r)
      { s with engine, nextId := s.nextId + 1, pending := s.nextId :: s.pending }
  | ack {id ok engine} (mem : id ∈ s.pending) (step : EngineStep F batch s.engine (.flush ok) engine) :
    StoreStep F batch s (.ack id ok)
      { s with
        engine
        pending := s.pending.erase id
        acked := if (s.engine.db.log.logFsyncIfBatched batch ok).2 then id :: s.acked else s.acked }
  | rewrite {n r engine} (live : (hashIndexGet s.engine.db.hash r.1.id).isSome = true)
    (step : EngineStep F batch s.engine (.write n r) engine) :
    StoreStep F batch s (.rewrite n r) { s with engine }
  | engine {a engine} (background : a.isBackground = true)
    (step : EngineStep F batch s.engine a engine) :
    StoreStep F batch s (.engine a) (s.afterEngine a engine)
  | again (resting : s.engine.phase.resting = true) :
    StoreStep F batch s .again { s with engine := { s.engine with phase := .idle } }
  | checkpoint (free : s.engine.phase.indexFree = true) :
    StoreStep F batch s .checkpoint s.checkpointed
  | saveMetadata : StoreStep F batch s .saveMetadata { s with floor := s.nextId }
  | stream {n p log} (resting : s.engine.phase.resting = true)
    (append : s.engine.db.log.append F n p = some log) :
    StoreStep F batch s (.stream n p) (s.streamed log p)
  | reset (resting : s.engine.phase.resting = true) (isOpen : s.engine.db.log.isOpen = true) :
    StoreStep F batch s .reset s.emptied
  | restart {k} (synced : s.engine.db.log.synced ≤ k) (le : k ≤ s.engine.db.log.file.length) :
    StoreStep F batch s (.restart k) (dbOpen F s k)

theorem Store.afterEngine_engine (s : Store) (a : Act F) (engine : Engine) :
    (s.afterEngine a engine).engine = engine := by
  unfold afterEngine
  split <;> rfl

theorem Store.afterEngine_ids (s : Store) (a : Act F) (engine : Engine) :
    (s.afterEngine a engine).acked = s.acked ∧ (s.afterEngine a engine).pending = s.pending ∧
      (s.afterEngine a engine).nextId = s.nextId := by
  unfold afterEngine
  split <;> exact ⟨rfl, rfl, rfl⟩

theorem StoreStep.of_eq {batch : ℕ} {s s' : Store} {a : StoreAct F}
    (h : storeStep F batch s a = some s') : StoreStep F batch s a s' := by
  cases a with
  | insert n r =>
    obtain ⟨engine, hstep, rfl⟩ := map_eq_some_iff.1 h
    exact .insert (.of_eq hstep)
  | ack id ok =>
    obtain ⟨mem, h⟩ := ite_none_right_eq_some.1 h
    obtain ⟨engine, hstep, rfl⟩ := map_eq_some_iff.1 h
    exact .ack mem (.of_eq hstep)
  | rewrite n r =>
    obtain ⟨live, h⟩ := ite_none_right_eq_some.1 h
    obtain ⟨engine, hstep, rfl⟩ := map_eq_some_iff.1 h
    exact .rewrite live (.of_eq hstep)
  | engine a =>
    obtain ⟨background, h⟩ := ite_none_right_eq_some.1 h
    obtain ⟨engine, hstep, rfl⟩ := map_eq_some_iff.1 h
    exact .engine background (.of_eq hstep)
  | again =>
    obtain ⟨resting, h⟩ := ite_none_right_eq_some.1 h
    cases h
    exact .again resting
  | checkpoint =>
    obtain ⟨free, h⟩ := ite_none_right_eq_some.1 h
    cases h
    exact .checkpoint free
  | saveMetadata =>
    cases h
    exact .saveMetadata
  | stream n p =>
    obtain ⟨resting, h⟩ := ite_none_right_eq_some.1 h
    obtain ⟨log, append, rfl⟩ := map_eq_some_iff.1 h
    exact .stream resting append
  | reset =>
    obtain ⟨hand, h⟩ := ite_none_right_eq_some.1 h
    obtain ⟨resting, isOpen⟩ := Bool.and_eq_true_iff.1 hand
    cases h
    exact .reset resting isOpen
  | restart k =>
    obtain ⟨⟨synced, le⟩, h⟩ := ite_none_right_eq_some.1 h
    cases h
    exact .restart synced le

end

end AegisDB
