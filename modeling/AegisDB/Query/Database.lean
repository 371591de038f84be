import AegisDB.Access.Dispatch
import AegisDB.Index.Indexes
import AegisDB.Inference.Rules
import AegisDB.Query.Working
import AegisDB.Storage.CleanEngine

/-!
# The database of the query engine

The storage engine with the secondary indexes, the working memory, the counter of ids and the usage of
the tenants, and the two functions through which every operation touches the log: `loadRecord` and
`Database.appendAndHash`.

The operations read some things from outside (`Sample`): the clock, whether there are tokens, whether
the sampled size of the indexes has reached its limit, and whether the fsync behind a write succeeds.
The only append that fails is that to a log that was left closed.
-/

namespace AegisDB

open Bytes List Option Function

/-! ## The state -/

/-- The part of the configuration the operations read. -/
structure DbConfig where
  enabledPhase : ℕ
  maxPayloadBytes : ℕ
  embeddingDimensions : ℕ
  fsyncBatch : ℕ
  /-- `query_scan_cap`, zero for none. -/
  queryScanCap : ℕ
  inference : Bool
  /-- `inference_max_subsume`, zero for none. -/
  inferenceMaxSubsume : ℕ
  /-- `tenant_max_records`, zero for none. -/
  tenantMaxRecords : ℕ
  /-- `tenant_max_bytes`, zero for none. -/
  tenantMaxBytes : ℕ
  predicates : Option (List PredicateSpec)

structure Sample where
  now : UInt64
  /-- There are tokens, so that the records of a namespace count for it. -/
  authOn : Bool
  /-- The sampled size of the indexes has reached `max_index_bytes`. -/
  memoryFull : Bool
  fsyncOk : Bool

structure TenantUsage where
  records : ℕ
  bytes : ℕ
  deriving DecidableEq

/-- `AegisDB`: the state behind the operations on memories. -/
structure Database (F : Framing) where
  store : Db
  ix : Indexes
  working : WorkingStore
  nextId : UInt64
  tenants : CString → TenantUsage
  nonces : ℕ → F.Nonce

variable {F : Framing}

def loadRecord (F : Framing) (db : Db) (id : UInt64) : Except Status MemoryRecord :=
  match hashIndexGet db.hash id with
  | none => .error .notFound
  | some e =>
    match (db.log.read F e.offset).bind recordDecode with
    | none => .error .internal
    | some r => .ok r

/-- The record of an id that can be loaded. -/
def currentRecord (F : Framing) (db : Db) (id : UInt64) : Option MemoryRecord :=
  (loadRecord F db id).toOption

variable {r : MemoryRecord}

theorem loadRecord_eq_ok {db : Db} {id : UInt64} :
    loadRecord F db id = .ok r ↔ ∃ e, hashIndexGet db.hash id = some e ∧
      (db.log.read F e.offset).bind recordDecode = some r := by
  unfold loadRecord
  cases hashIndexGet db.hash id with
  | none => simp
  | some e => cases h : (db.log.read F e.offset).bind recordDecode <;> simp [h]

theorem loadRecord_eq_notFound {db : Db} {id : UInt64} :
    loadRecord F db id = .error .notFound ↔ hashIndexGet db.hash id = none := by
  unfold loadRecord
  cases hashIndexGet db.hash id with
  | none => simp
  | some e => cases h : (db.log.read F e.offset).bind recordDecode <;> simp [h]

theorem currentRecord_eq_some {db : Db} {id : UInt64} :
    currentRecord F db id = some r ↔ loadRecord F db id = .ok r := by
  unfold currentRecord
  cases loadRecord F db id <;> simp [Except.toOption]

/-- What is loaded for an id is a version of that record, and its entry is the entry of that version. -/
theorem Sound.entryOf_loadRecord {s : Db} (hs : Sound F s.log.bytes s.hash.lookup) {id : UInt64}
    (h : loadRecord F s id = .ok r) :
    r.id = id ∧ ∃ o n, hashIndexGet s.hash id = some (entryOf r o n) := by
  obtain ⟨e, he, hread⟩ := loadRecord_eq_ok.1 h
  obtain ⟨hlook, hlive⟩ := hashIndexGet_eq_some.1 he
  obtain ⟨p, hp, hdec⟩ := bind_eq_some_iff.1 hread
  obtain ⟨-, hp⟩ := LogFile.read_eq_some.1 hp
  rcases hs id e hlook hlive with ⟨p', hp', r', hr', hid, hentry⟩ | hnone
  · cases hp.symm.trans hp'
    cases hdec.symm.trans hr'
    exact ⟨hid, _, _, hentry ▸ he⟩
  · have := hnone []
    rw [append_nil, hp] at this
    cases this

theorem Sound.of_loadRecord {s : Db} (hs : Sound F s.log.bytes s.hash.lookup) {id : UInt64}
    (h : loadRecord F s id = .ok r) : r.id = id ∧ r.deleted = false := by
  obtain ⟨hid, o, n, he⟩ := hs.entryOf_loadRecord h
  exact ⟨hid, (hashIndexGet_eq_some.1 he).2⟩

/-- The change of a tenant's usage by a version of a record of that many bytes. -/
def usageDelta (h : HashIndex) (r : MemoryRecord) (len : ℕ) : ℤ × ℤ :=
  let prior := hashIndexGet h r.id
  ((if r.deleted then 0 else 1) - (if prior.isSome then 1 else 0),
    (if r.deleted then 0 else (len : ℤ)) - prior.elim 0 fun e => (e.length : ℤ))

/-- `tenant_usage_would_exceed` of the positive changes. -/
def tenantUsageWouldExceed (cfg : DbConfig) (u : TenantUsage) (d : ℤ × ℤ) : Bool :=
  (cfg.tenantMaxRecords ≠ 0 && 0 < d.1 && cfg.tenantMaxRecords < u.records + d.1.toNat) ||
    (cfg.tenantMaxBytes ≠ 0 && 0 < d.2 && cfg.tenantMaxBytes < u.bytes + d.2.toNat)

/-- `tenant_usage_adjust`, saturated at zero. -/
def tenantUsageAdjust (u : TenantUsage) (d : ℤ × ℤ) : TenantUsage :=
  ⟨((u.records : ℤ) + d.1).toNat, ((u.bytes : ℤ) + d.2).toNat⟩

def Sample.tenant (env : Sample) (r : MemoryRecord) : Option CString :=
  if env.authOn then r.agentId else none

namespace Database

/-- `append_and_hash` with the accounts of the tenants. -/
def appendAndHash (cfg : DbConfig) (env : Sample) (db : Database F) (r : MemoryRecord) :
    Except Status (Database F) :=
  match recordEncode r with
  | none => .error .internal
  | some p =>
    let d := usageDelta db.store.hash r p.length
    if (env.tenant r).any fun ns => tenantUsageWouldExceed cfg (db.tenants ns) d then .error .quotaExceeded
    else
      match AegisDB.appendAndHash F db.store (db.nonces 0) r with
      | none => .error .internal
      | some store => .ok
        { db with
          store
          nonces := fun i => db.nonces (i + 1)
          tenants := (env.tenant r).elim db.tenants fun ns =>
            update db.tenants ns (tenantUsageAdjust (db.tenants ns) d) }

def durablyFlush (cfg : DbConfig) (env : Sample) (db : Database F) : Database F × Bool :=
  let (log, ok) := db.store.log.logFsyncIfBatched cfg.fsyncBatch env.fsyncOk
  ({ db with store := { db.store with log } }, ok)

end Database

section

variable (cfg : DbConfig) (env : Sample) (db : Database F)

@[simp] theorem Database.ix_durablyFlush : (db.durablyFlush cfg env).1.ix = db.ix := rfl

end

/-- `require_phase`. -/
def DbConfig.phase (cfg : DbConfig) (needed : ℕ) : Bool := needed ≤ cfg.enabledPhase

theorem wireFormed_of_appendAndHash {db db' : Db} {n : F.Nonce} (hr : r.Formed)
    (h : appendAndHash F db n r = some db') : r.WireFormed := by
  obtain ⟨p, hp, h⟩ := bind_eq_some_iff.1 h
  obtain ⟨log, hlog, -⟩ := map_eq_some_iff.1 h
  obtain ⟨henc, hbytes⟩ := ite_none_right_eq_some.1 hp
  cases hbytes
  refine hr.wireFormed henc ?_
  obtain ⟨-, hlog⟩ := ite_none_right_eq_some.1 hlog
  obtain ⟨b, hb, -⟩ := map_eq_some_iff.1 hlog
  exact (ite_none_right_eq_some.1 hb).1

/-- The log and the hash index with one more version of a record, whatever was fsynced of it. -/
structure Wrote (F : Framing) (s : Db) (r : MemoryRecord) (s' : Db) : Prop where
  wireFormed : r.WireFormed
  wasOpen : s.log.isOpen = true
  length_le : (recordBytes r).length ≤ maxPayload
  isOpen : s'.log.isOpen = true
  bytes : ∃ n, s'.log.bytes = s.log.bytes ++ F.frame n (recordBytes r)
  junk : s.log.junk = [] → s'.log.junk = []
  lookup : s'.hash.lookup = applyFrame s.hash.lookup (s.log.bytes.length, recordBytes r)

theorem Wrote.flush {s s' : Db} (h : Wrote F s r s') (batch : ℕ) (ok : Bool) :
    Wrote F s r { s' with log := (s'.log.logFsyncIfBatched batch ok).1 } :=
  { h with
    isOpen := by simpa using h.isOpen
    bytes := by simpa using h.bytes
    junk := by simpa using h.junk }

/-- What an append of a record changes beside the log and the hash index. -/
theorem Database.of_appendAndHash {cfg : DbConfig} {env : Sample} {db db' : Database F}
    (h : db.appendAndHash cfg env r = .ok db') :
    AegisDB.appendAndHash F db.store (db.nonces 0) r = some db'.store ∧ db'.ix = db.ix ∧
      db'.working = db.working ∧ db'.nextId = db.nextId := by
  unfold Database.appendAndHash at h
  split at h
  · cases h
  · dsimp only at h
    split at h
    · cases h
    · split at h
      · cases h
      · rename_i store hstore
        cases h
        exact ⟨hstore, rfl, rfl, rfl⟩

theorem Database.wrote_of_appendAndHash {cfg : DbConfig} {env : Sample} {db db' : Database F}
    (hr : r.Formed) (h : db.appendAndHash cfg env r = .ok db') (ix : Indexes) :
    Wrote F db.store r ({ db' with ix }.durablyFlush cfg env).1.store := by
  refine Wrote.flush ?_ cfg.fsyncBatch env.fsyncOk
  obtain ⟨hstore, -⟩ := Database.of_appendAndHash h
  have hw := wireFormed_of_appendAndHash hr hstore
  obtain ⟨hopen, hlen, hopen', hbytes, hlookup⟩ := lookup_appendAndHash (r := ⟨r, hw⟩) hstore
  refine ⟨hw, hopen, hlen, hopen', ⟨_, hbytes⟩, fun hjunk => ?_, hlookup⟩
  obtain ⟨-, -, hdb⟩ := (appendAndHash_eq_some (r := ⟨r, hw⟩)).1 hstore
  rw [hdb]
  simp [hjunk]

section

variable {s s' : Db} {r : MemoryRecord}

theorem Wrote.sound (h : Wrote F s r s') (hs : Sound F s.log.bytes s.hash.lookup) :
    Sound F s'.log.bytes s'.hash.lookup := by
  obtain ⟨n, hbytes⟩ := h.bytes
  rw [hbytes, h.lookup]
  exact hs.applyFrame n h.length_le

theorem Wrote.hashIndexGet_eq (h : Wrote F s r s') (id : UInt64) :
    hashIndexGet s'.hash id =
      if id = r.id then
        if r.deleted then none else some (entryOf r s.log.bytes.length (recordBytes r).length)
      else hashIndexGet s.hash id := by
  have hlookup := h.lookup
  rw [applyFrame_of_decode (recordDecode_of_wireFormed h.wireFormed)] at hlookup
  unfold hashIndexGet
  rw [hlookup, update_apply]
  change Option.filter _ (if id = r.id then _ else _) = _
  split
  · rw [filter_some]
    change (if !r.deleted then _ else _) = _
    cases r.deleted <;> rfl
  · rfl

/-- A version of a record changes what is loaded for its id, and for no other. -/
theorem Wrote.loadRecord_eq (h : Wrote F s r s') (hs : Sound F s.log.bytes s.hash.lookup)
    (id : UInt64) : loadRecord F s' id =
      if id = r.id then if r.deleted then .error .notFound else .ok r.clamped
      else loadRecord F s id := by
  obtain ⟨n, hbytes⟩ := h.bytes
  have hget := h.hashIndexGet_eq id
  unfold loadRecord
  split_ifs at hget ⊢ with hid hdel
  · rw [hget]
  · rw [hget]
    have hread : s'.log.read F s.log.bytes.length = some (recordBytes r) := by
      rw [LogFile.read, if_pos h.isOpen, hbytes]
      have := logRead_at (F := F) (b := s.log.bytes) (c := []) (n := n) h.length_le
      rwa [append_nil] at this
    simp only [entryOf, hread, bind_some, recordDecode_of_wireFormed h.wireFormed]
  · rw [hget]
    cases hold : hashIndexGet s.hash id with
    | none => rfl
    | some e =>
      -- the frame of another entry is read as before, or in no longer log
      have hread : s'.log.read F e.offset = s.log.read F e.offset := by
        rw [LogFile.read, LogFile.read, if_pos h.wasOpen, if_pos h.isOpen, hbytes]
        obtain ⟨hlook, hlive⟩ := hashIndexGet_eq_some.1 hold
        rcases hs id e hlook hlive with ⟨p, hp, -⟩ | hnone
        · rw [hp, logRead_extend hp]
        · have := hnone []
          rw [append_nil] at this
          rw [this, hnone]
      simp only [hread]

theorem Wrote.clean (h : Wrote F s r s') {fs : List (F.Nonce × Bytes)} (hs : CleanDb F s fs) :
    ∃ n, CleanDb F s' (fs ++ [(n, recordBytes r)]) := by
  obtain ⟨n, hbytes⟩ := h.bytes
  exact ⟨n, hs.append h.length_le hbytes (h.junk hs.junk) h.lookup⟩

end

end AegisDB
