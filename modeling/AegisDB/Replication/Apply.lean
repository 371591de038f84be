import AegisDB.Query.Database
import AegisDB.Storage.Store

/-!
# What a replica does to its database

A replica changes its database for two messages of its primary. A frame goes to the log and then to
the indexes (`Database.stream`): what the indexes list of the version before is dropped, and the new
version is indexed, of its edges those whose target is live at that moment. A reset empties the log
and the indexes (`Database.resetReplica`).
-/

namespace AegisDB

open Bytes

variable {F : Framing}

/-- Drop the version of a record before the one that is applied, with the edges it lists. -/
def unindexPrior (ix : Indexes) (prior : MemoryRecord) : Indexes :=
  { unindexRecord ix prior with
    sem :=
      if prior.embedding.dim ≠ 0 ∧ prior.embedding.vecCount ≠ 0 then
        semanticIndexRemove ix.sem prior.id
      else ix.sem }

namespace Database

/-- `db_replica_apply` of the frame at an offset of the log. -/
def replicaApply (off : ℕ) (p : Bytes) (db : Database F) : Database F :=
  match recordDecode p with
  | none => db
  | some r =>
    let ix := ((loadRecord F db.store r.id).toOption).elim db.ix (unindexPrior db.ix)
    let (hash, nextId) := dbReplicaApply off p db.store.hash db.nextId
    { db with
      store := { db.store with hash }
      nextId
      ix :=
        if r.deleted then ix.dropTarget r.id
        else indexRecord (fun target => (hashIndexGet hash target).isSome) ix r }

/-- A frame of the stream, at the offset the primary has it at. -/
def stream (offset : ℕ) (p : Bytes) (db : Database F) : Database F :=
  if p = [] ∨ maxPayload < p.length ∨ offset ≠ db.store.log.size then db
  else
    match db.store.log.append F (db.nonces 0) p with
    | none => db
    | some log =>
      { db with
        store := { db.store with log }
        nonces := fun i => db.nonces (i + 1) }.replicaApply db.store.log.bytes.length p

/-- `db_reset_replica`, if the file can be truncated. -/
def resetReplica (ok : Bool) (db : Database F) : Database F :=
  if db.store.log.isOpen && ok then
    { db with
      store :=
        { db.store with
          log := { db.store.log with bytes := [], junk := [], synced := 0 }
          hash := hashIndexCreate }
      ix := .create db.ix.sem.dim db.ix.lex.isSome db.ix.edges.isSome db.ix.facts.isSome
      nextId := 1 }
  else db

/-- The database, but for what was fsynced. -/
def unsynced (db : Database F) : Database F :=
  { db with store := { db.store with log := { db.store.log with synced := 0, sinceFsync := 0 } } }

theorem unsynced_logFsync (db : Database F) (ok : Bool) :
    { db with store := { db.store with log := (db.store.log.logFsync ok).1 } }.unsynced =
      db.unsynced := by
  unfold LogFile.logFsync
  split_ifs <;> rfl

theorem unsynced_replicaApply (off : ℕ) (p : Bytes) (db : Database F) :
    (db.replicaApply off p).unsynced = db.unsynced.replicaApply off p := by
  unfold replicaApply
  cases recordDecode p <;> rfl

theorem append_unsynced (db : Database F) (n : F.Nonce) (p : Bytes) :
    db.unsynced.store.log.append F n p =
      (db.store.log.append F n p).map fun l => { l with synced := 0, sinceFsync := 1 } := by
  have hopen : db.unsynced.store.log.isOpen = db.store.log.isOpen := rfl
  unfold LogFile.append
  rw [hopen]
  split_ifs
  · rw [Option.map_map]
    rfl
  · rfl

theorem unsynced_stream (offset : ℕ) (p : Bytes) (db : Database F) :
    (db.stream offset p).unsynced = (db.unsynced.stream offset p).unsynced := by
  have hsize : db.unsynced.store.log.size = db.store.log.size := rfl
  have hnonces : db.unsynced.nonces = db.nonces := rfl
  unfold stream
  rw [hsize, append_unsynced, hnonces]
  split_ifs
  · rfl
  · cases db.store.log.append F (db.nonces 0) p with
    | none => rfl
    | some log =>
      rw [Option.map_some]
      dsimp only
      rw [unsynced_replicaApply, unsynced_replicaApply]
      rfl

theorem unsynced_resetReplica (ok : Bool) (db : Database F) :
    (db.resetReplica ok).unsynced = (db.unsynced.resetReplica ok).unsynced := by
  have hopen : db.unsynced.store.log.isOpen = db.store.log.isOpen := rfl
  unfold resetReplica
  rw [hopen]
  split_ifs <;> rfl

theorem working_stream (offset : ℕ) (p : Bytes) (db : Database F) :
    (db.stream offset p).working = db.working := by
  unfold stream
  split_ifs
  · rfl
  · cases db.store.log.append F (db.nonces 0) p with
    | none => rfl
    | some log =>
      unfold replicaApply
      cases recordDecode p <;> rfl

theorem working_resetReplica (ok : Bool) (db : Database F) :
    (db.resetReplica ok).working = db.working := by
  unfold resetReplica
  split_ifs <;> rfl

end Database

end AegisDB
