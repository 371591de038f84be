import AegisDB.Query.Candidates

/-!
# What operations do to the loaded records

To a client, a database is what `loadRecord` returns for each id. A write changes that for the id of
the record it appends; so a delete changes it for one id, and the deletes of a bulk operation for the
ids they are given (`deleteAll_effect`).
-/

namespace AegisDB

open Bytes List Function Database

variable {F : Framing} {cfg : DbConfig} {env : Sample} {db : Database F}
variable {ns : Option CString}

def Database.Sound (db : Database F) : Prop := AegisDB.Sound F db.store.log.bytes db.store.hash.lookup

/-- A record that can be stored in one frame. -/
structure Storable (r : MemoryRecord) : Prop where
  wellFormed : r.WellFormed
  length_le : (recordBytes r).length ≤ maxPayload

/-- The record of an id is gone, and was one that a frame could hold. -/
structure Gone (db db' : Database F) (id : UInt64) : Prop where
  notFound : loadRecord F db'.store id = .error .notFound
  storable : ∀ r, loadRecord F db.store id = .ok r → Storable r

/-! ## Deletes -/

section

variable (cfg env)

theorem Wrote.of_delete {cur : MemoryRecord} {db' : Database F}
    (load : loadRecord F db.store cur.id = .ok cur) {ix : Indexes}
    (append : { db with ix }.appendAndHash cfg env (tombstone cur env.now) = .ok db') :
    Wrote F db.store (tombstone cur env.now) (db'.durablyFlush cfg env).1.store :=
  wrote_of_appendAndHash
    (formed_tombstone (wellFormed_of_loadRecord load).toWireFormed.formed env.now) append db'.ix

theorem length_recordBytes_tombstone (r : MemoryRecord) (now : UInt64) :
    (recordBytes (tombstone r now)).length = (recordBytes r).length := by
  simp [recordBytes, putHead, tombstone]

/-- A delete leaves a log open, and every record as it was, but for one that may be gone. -/
theorem qeDelete_effect (hs : db.Sound) (id : UInt64) (ns : Option CString) :
    (qeDelete cfg env db id ns).1.Sound ∧
      (db.store.log.isOpen = true → (qeDelete cfg env db id ns).1.store.log.isOpen = true) ∧ ∀ id',
      loadRecord F (qeDelete cfg env db id ns).1.store id' = loadRecord F db.store id' ∨
        id' = id ∧ Gone db (qeDelete cfg env db id ns).1 id' := by
  obtain ⟨d, res, heq, hstep⟩ := exists_pair (@qeDelete_step F cfg env db id ns)
  simp only [heq]
  cases hstep with
  | refused | failed => exact ⟨hs, fun h => h, fun _ => .inl rfl⟩
  | @wrote cur _ _ load owner append =>
    obtain ⟨rfl, -⟩ := hs.of_loadRecord load
    have hw := Wrote.of_delete cfg env load append
    refine ⟨hw.sound hs, fun _ => hw.isOpen, fun id' => ?_⟩
    by_cases hid : id' = cur.id
    · refine .inr ⟨hid, ?_, fun r hr => ?_⟩
      · rw [hw.loadRecord_eq hs]
        exact if_pos hid
      · rw [hid, load] at hr
        cases hr
        exact ⟨wellFormed_of_loadRecord load,
          (length_recordBytes_tombstone cur env.now).symm.trans_le hw.length_le⟩
    · refine .inl ?_
      rw [hw.loadRecord_eq hs]
      exact if_neg hid

theorem deleteAll_effect (ids : List UInt64) (ns : Option CString) (hs : db.Sound) :
    (deleteAll cfg env ns ids db).1.Sound ∧ ∀ id,
      loadRecord F (deleteAll cfg env ns ids db).1.store id = loadRecord F db.store id ∨
        id ∈ ids ∧ Gone db (deleteAll cfg env ns ids db).1 id := by
  induction ids generalizing db with
  | nil => exact ⟨hs, fun _ => .inl rfl⟩
  | cons x ids ih =>
    obtain ⟨hs', -, hhead⟩ := qeDelete_effect cfg env hs x ns
    obtain ⟨hs'', hrest⟩ := ih hs'
    refine ⟨hs'', fun id => ?_⟩
    rcases hhead id with hsame | ⟨rfl, hgone⟩
    · rcases hrest id with heq | ⟨hmem, hgone⟩
      · exact .inl (heq.trans hsame)
      · exact .inr ⟨mem_cons_of_mem _ hmem, hgone.1, fun r hr => hgone.2 r (hsame.trans hr)⟩
    · exact .inr ⟨mem_cons_self, (hrest id).elim (·.trans hgone.1) (·.2.1), hgone.2⟩

variable {r : MemoryRecord}

/-- Nothing keeps a record from being appended when the log is open and no quota is reached. -/
theorem Database.appendAndHash_isOk_of_quota (db : Database F) (hopen : db.store.log.isOpen = true)
    (hr : r.WireFormed) (hlen : (recordBytes r).length ≤ maxPayload)
    (hquota : ((env.tenant r).any fun ns => tenantUsageWouldExceed cfg (db.tenants ns)
      (usageDelta db.store.hash r (recordBytes r).length)) = false) :
    ∃ db', db.appendAndHash cfg env r = .ok db' := by
  unfold appendAndHash
  rw [recordEncode_of_wireFormed hr]
  simp only [hquota, Bool.false_eq_true, if_false]
  obtain ⟨store, hstore⟩ : ∃ store, AegisDB.appendAndHash F db.store (db.nonces 0) r = some store :=
    ⟨_, (appendAndHash_eq_some (r := ⟨r, hr⟩)).2 ⟨hopen, hlen, rfl⟩⟩
  rw [hstore]
  exact ⟨_, rfl⟩

/-- Nothing keeps a record from being appended when the log is open and nobody counts. -/
theorem Database.appendAndHash_isOk (db : Database F) (hopen : db.store.log.isOpen = true)
    (hr : r.WireFormed) (hlen : (recordBytes r).length ≤ maxPayload) (hauth : env.authOn = false) :
    ∃ db', db.appendAndHash cfg env r = .ok db' := by
  refine appendAndHash_isOk_of_quota cfg env db hopen hr hlen ?_
  simp only [Sample.tenant, hauth, Bool.false_eq_true, if_false, Option.any_none]

theorem Database.durablyFlush_isOk (db : Database F) (hfsync : env.fsyncOk = true) :
    (db.durablyFlush cfg env).2 = true := by
  unfold durablyFlush LogFile.logFsyncIfBatched
  split_ifs with h
  · simp [LogFile.logFsync, h.1, hfsync]
  · rfl

theorem wireFormed_tombstone (h : r.WireFormed) (now : UInt64) :
    (tombstone r now).WireFormed := { h with }

theorem tenantUsageWouldExceed_tombstone (u : TenantUsage) (h : HashIndex) (r : MemoryRecord)
    (now : UInt64) (len : ℕ) :
    tenantUsageWouldExceed cfg u (usageDelta h (tombstone r now) len) = false := by
  have hid : (tombstone r now).id = r.id := rfl
  have hdel : (tombstone r now).deleted = true := rfl
  simp only [tenantUsageWouldExceed, usageDelta, hid, hdel, if_true]
  cases hashIndexGet h r.id <;> simp

section

variable (hs : db.Sound) (hphase : cfg.phase 1 = true) (hopen : db.store.log.isOpen = true)
  (load : loadRecord F db.store r.id = .ok r) (hlen : (recordBytes r).length ≤ maxPayload)
  (hns : nsDenies ns r = false)

include hs hphase hopen load hlen hns

theorem qeDelete_appends :
    ∃ db', { db with ix := (unindexRecord db.ix r).dropTarget r.id }.appendAndHash cfg env
        (tombstone r env.now) = .ok db' ∧
      (qeDelete cfg env db r.id ns).1 = (db'.durablyFlush cfg env).1 ∧
      (env.fsyncOk = true → (qeDelete cfg env db r.id ns).2 = .ok ()) := by
  have hdel := (hs.of_loadRecord load).2
  obtain ⟨db', append⟩ := appendAndHash_isOk_of_quota cfg env
    { db with ix := (unindexRecord db.ix r).dropTarget r.id } hopen
    (wireFormed_tombstone (wellFormed_of_loadRecord load).toWireFormed env.now)
    ((length_recordBytes_tombstone r env.now).trans_le hlen)
    (by simp [tenantUsageWouldExceed_tombstone])
  refine ⟨db', append, ?_, fun hfsync => ?_⟩
  · simp only [qeDelete, hphase, Bool.not_true, Bool.false_eq_true, if_false, load, hdel, hns,
      Bool.or_self, append]
  · simp only [qeDelete, hphase, Bool.not_true, Bool.false_eq_true, if_false, load, hdel, hns,
      Bool.or_self, append, durablyFlush_isOk cfg env db' hfsync, if_true]

theorem loadRecord_qeDelete :
    loadRecord F (qeDelete cfg env db r.id ns).1.store r.id = .error .notFound := by
  obtain ⟨db', append, heq, -⟩ := qeDelete_appends cfg env hs hphase hopen load hlen hns
  rw [heq, (Wrote.of_delete cfg env load append).loadRecord_eq hs]
  exact if_pos rfl

theorem loadRecord_deleteAll {ids : List UInt64} (hmem : r.id ∈ ids) :
    loadRecord F (deleteAll cfg env ns ids db).1.store r.id = .error .notFound := by
  induction ids generalizing db with
  | nil => cases hmem
  | cons x ids ih =>
    obtain ⟨hs', hopen', hhead⟩ := qeDelete_effect cfg env hs x ns
    by_cases hx : r.id = x
    · subst hx
      have hgone := loadRecord_qeDelete cfg env hs hphase hopen load hlen hns
      exact ((deleteAll_effect cfg env ids ns hs').2 r.id).elim (·.trans hgone) (·.2.notFound)
    · have hload := (hhead r.id).resolve_right fun h => hx h.1
      exact ih hs' (hopen' hopen) (hload.trans load) ((mem_cons.1 hmem).resolve_left hx)

end

end

/-- A database opened on an empty directory. -/
def Database.create (cfg : DbConfig) (nonces : ℕ → F.Nonce) : Database F where
  store := ⟨⟨[], [], 0, 0, true⟩, hashIndexCreate, 0⟩
  ix := .create cfg.embeddingDimensions true true true
  working := workingStoreCreate 0 0
  nextId := 1
  tenants := fun _ => ⟨0, 0⟩
  nonces := nonces

/-- Append and index a record, as an insert does. -/
def Database.put (cfg : DbConfig) (env : Sample) (db : Database F) (r : MemoryRecord) : Database F :=
  match db.appendAndHash cfg env r with
  | .error _ => db
  | .ok db => { db with ix := indexRecord (fun _ => true) db.ix r }

theorem Database.create_sound (cfg : DbConfig) (nonces : ℕ → F.Nonce) :
    (create cfg nonces).Sound := by
  intro id e hid
  cases hid.symm.trans (lookup_hashIndexCreate id)

theorem Database.loadRecord_create (cfg : DbConfig) (nonces : ℕ → F.Nonce) (id : UInt64) :
    loadRecord F (create cfg nonces).store id = .error .notFound := by
  rw [loadRecord_eq_notFound, hashIndexGet]
  rw [show (create cfg nonces).store.hash = hashIndexCreate from rfl,
    lookup_hashIndexCreate]
  rfl

theorem Database.currentRecord_create (cfg : DbConfig) (nonces : ℕ → F.Nonce) :
    currentRecord F (create cfg nonces).store = fun _ => none := by
  funext id
  rw [currentRecord, loadRecord_create]
  rfl

variable {r : MemoryRecord}

variable (cfg env) in
theorem Database.put_spec (hs : db.Sound) (hopen : db.store.log.isOpen = true) (hr : Storable r)
    (hlive : r.deleted = false) (hauth : env.authOn = false) :
    (db.put cfg env r).Sound ∧ (db.put cfg env r).store.log.isOpen = true ∧
      (db.put cfg env r).ix = indexRecord (fun _ => true) db.ix r ∧
      loadRecord F (db.put cfg env r).store =
        update (loadRecord F db.store) r.id (.ok r) := by
  have hwf := hr.wellFormed
  obtain ⟨db', append⟩ : ∃ db', db.appendAndHash cfg env r = .ok db' :=
    appendAndHash_isOk cfg env db hopen hwf.toWireFormed hr.length_le hauth
  have hput : db.put cfg env r = { db' with ix := indexRecord (fun _ => true) db'.ix r } := by
    rw [put, append]
  obtain ⟨hstore, hix, -⟩ := of_appendAndHash append
  obtain ⟨-, -, hopen', hbytes, hlookup⟩ := lookup_appendAndHash (r := ⟨r, hwf.toWireFormed⟩) hstore
  have hw : Wrote F db.store r db'.store := by
    refine ⟨hwf.toWireFormed, hopen, hr.length_le, hopen', ⟨_, hbytes⟩, fun hjunk => ?_, hlookup⟩
    obtain ⟨-, -, hdb⟩ := (appendAndHash_eq_some (r := ⟨r, hwf.toWireFormed⟩)).1 hstore
    rw [hdb]
    simp [hjunk]
  rw [hput]
  refine ⟨hw.sound hs, hw.isOpen, by rw [hix], ?_⟩
  funext id
  rw [hw.loadRecord_eq hs, update_apply, hlive, hwf.clamped_eq]
  rfl

/-- An open database from which those records are loaded. -/
structure Database.Shows (db : Database F) (view : UInt64 → Except Status MemoryRecord) : Prop where
  sound : db.Sound
  isOpen : db.store.log.isOpen = true
  load : loadRecord F db.store = view

theorem Database.shows_create (cfg : DbConfig) (nonces : ℕ → F.Nonce) :
    (create cfg nonces).Shows fun _ => .error .notFound :=
  ⟨create_sound cfg nonces, rfl, funext (loadRecord_create cfg nonces)⟩

variable (cfg env) in
theorem Database.Shows.put {view : UInt64 → Except Status MemoryRecord} (h : db.Shows view)
    (hr : Storable r) (hlive : r.deleted = false) (hauth : env.authOn = false) :
    (db.put cfg env r).Shows (update view r.id (.ok r)) := by
  obtain ⟨hs, hopen, -, hload⟩ := put_spec cfg env h.sound h.isOpen hr hlive hauth
  rw [h.load] at hload
  exact ⟨hs, hopen, hload⟩

/-! ## A database with one record -/

/-- A configuration with every phase and no limits. -/
def DbConfig.unlimited : DbConfig where
  enabledPhase := 4
  maxPayloadBytes := maxPayload
  embeddingDimensions := 0
  fsyncBatch := 0
  queryScanCap := 0
  inference := false
  inferenceMaxSubsume := 0
  tenantMaxRecords := 0
  tenantMaxBytes := 0
  predicates := none

def Ranking.nothing : Ranking where
  semantic _ _ _ := []
  lexical _ _ _ := []
  mul _ _ := .zero
  add _ _ := .zero
  reciprocal _ := .zero
  decay _ _ := .zero
  retained _ _ _ _ _ := true

/-- A server without tokens, at the beginning of time. -/
def Sample.zero : Sample := ⟨0, false, false, true⟩

def Database.single (nonces : ℕ → F.Nonce) (r : MemoryRecord) : Database F :=
  (create .unlimited nonces).put .unlimited .zero r

/-- The hash index belongs to the log, and the indexes list its live records. -/
structure Database.Exact (db : Database F) : Prop where
  sound : db.Sound
  filters : FilterExact (currentRecord F db.store) db.ix

theorem Database.create_exact (cfg : DbConfig) (nonces : ℕ → F.Nonce) :
    (create cfg nonces).Exact := by
  refine ⟨create_sound cfg nonces, ?_⟩
  rw [currentRecord_create]
  exact (indexed_create _ true true true fun _ => True).filterExact

/-- A new record that is put into a database is listed by its indexes. -/
theorem Database.Exact.put (cfg : DbConfig) (env : Sample) {db : Database F} (h : db.Exact)
    (hopen : db.store.log.isOpen = true) (hr : Storable r) (hlive : r.deleted = false)
    (hauth : env.authOn = false) (hnew : loadRecord F db.store r.id = .error .notFound)
    (hroom : ∀ f ∈ db.ix.facts, ∀ t, r.fact.triple = some t →
      (f.preds.intern factMaxPredicates t.predicate).2 ≠ none) : (db.put cfg env r).Exact := by
  obtain ⟨hs, -, hix, hload⟩ := put_spec cfg env h.sound hopen hr hlive hauth
  refine ⟨hs, ?_⟩
  have hcur : currentRecord F (db.put cfg env r).store =
      update (currentRecord F db.store) r.id (some r) := by
    funext id
    rw [currentRecord, hload]
    by_cases hid : id = r.id
    · rw [hid, update_self, update_self]
      rfl
    · rw [update_of_ne hid, update_of_ne hid]
      rfl
  rw [hcur, hix]
  refine h.filters.add _ ?_ hroom
  rw [currentRecord, hnew]
  rfl

theorem Database.single_exact (nonces : ℕ → F.Nonce) (hr : Storable r) (hlive : r.deleted = false) :
    (single nonces r).Exact := by
  refine (create_exact .unlimited nonces).put .unlimited .zero rfl hr hlive rfl
    (loadRecord_create ..) fun f hf t _ hnone => ?_
  -- the table of predicates is empty
  cases hf
  exact absurd (InternTable.intern_eq_none.1 hnone).2 (by decide)

theorem Database.single_spec (nonces : ℕ → F.Nonce) (hr : Storable r) (hlive : r.deleted = false) :
    (single nonces r).store.log.isOpen = true ∧
      loadRecord F (single nonces r).store =
        update (fun _ => .error .notFound) r.id (.ok r) := by
  obtain ⟨-, hopen, -, hload⟩ := put_spec .unlimited .zero
    (create_sound .unlimited nonces) rfl hr hlive rfl
  rw [funext (loadRecord_create DbConfig.unlimited nonces)] at hload
  exact ⟨hopen, hload⟩

theorem Database.loadRecord_single (nonces : ℕ → F.Nonce) (hr : Storable r)
    (hlive : r.deleted = false) : loadRecord F (single nonces r).store r.id = .ok r := by
  rw [(single_spec nonces hr hlive).2, update_self]

theorem wellFormed_recordInit : recordInit.WellFormed where
  importance := F32.zero_inUnit
  confidence := F32.one_inUnit
  agent := nofun
  tags := nofun
  tag_count := Nat.zero_le _
  vec_count := Nat.zero_le _
  dim := Nat.zero_le _
  dim_iff := Iff.rfl
  kinds := nofun
  rel_count := Nat.zero_le _
  fact := .zeroed
  predicate := nofun
  object := nofun
  routes := .nil
  derived := absurd rfl
  data := Nat.zero_le _

/-- A record of a tenant, with nothing in it. -/
def MemoryRecord.note (id created : UInt64) (agent : CString) : MemoryRecord :=
  { recordInit with id, created, agentId := some agent }

theorem storable_note (id created : UInt64) {agent : CString} (h : agent.bytes.length ≤ 255) :
    Storable (.note id created agent) where
  wellFormed :=
    { wellFormed_recordInit with agent := fun s hs => by cases hs; exact h.trans_lt (by decide) }
  length_le := by
    have hlen : (recordBytes (.note id created agent)).length = 63 + agent.bytes.length := by
      simp only [recordBytes, putHead, putLenstr, putTags, putEmbedding, putRelationships, putFact,
        putDerivation, putData, MemoryRecord.note, recordInit, Embedding.absent, Fact.zeroed,
        length_append, length_leBytes, flatMap_nil, length_nil, if_true]
      omega
    rw [hlen, maxPayload]
    omega

end AegisDB
