import AegisDB.Query.Effects

/-!
# Writes that fail

The operations of `query_engine.c` once more, with what the model of `Query/Records` leaves out: a
write of `log_append` may fail when some of the frame is in the file (`io`), and the usage index is
part of the state (`UsageDb`). With no such failure they are the operations there
(`projects_qeInsertIo` and its like).

`refused_write_unchanged` is about `qe_insert` of a persisted record, `qe_update` and `qe_relate`:
they touch no index before the append, so that whatever refuses them leaves the indexes, the usage of
the tenants and the log as they were. `qe_delete` and `qe_promote` do not keep to that order; what
follows is in `Query/FailedDelete` and `Query/FailedPromote`.
-/

namespace AegisDB

open Bytes Option LogFile Function Database

variable {F : Framing}
variable {α : Type} {r : MemoryRecord}

/-! ## The state -/

structure UsageEntry where
  count : ℕ
  lastMs : UInt64

abbrev UsageIndex := UInt64 → Option UsageEntry

/-- `usage_index_track`: counters that are there are kept. -/
def usageIndexTrack (u : UsageIndex) (id : UInt64) : UsageIndex :=
  if (u id).isSome then u else update u id (some ⟨0, 0⟩)

def usageIndexUntrack (u : UsageIndex) (id : UInt64) : UsageIndex := update u id none

/-- The database with the usage index, `NULL` with `--no-usage-feedback`. -/
structure UsageDb (F : Framing) extends Database F where
  usage : Option UsageIndex

/-- `append_and_hash` whose writes may fail when so many bytes of the frame are in the file. -/
def Database.appendAndHashIo (cfg : DbConfig) (env : Sample) (io : Option ℕ) (db : Database F)
    (r : MemoryRecord) : Database F × Except Status Unit :=
  match recordEncode r with
  | none => (db, .error .internal)
  | some p =>
    let d := usageDelta db.store.hash r p.length
    if (env.tenant r).any fun ns => tenantUsageWouldExceed cfg (db.tenants ns) d then
      (db, .error .quotaExceeded)
    else
      match io with
      | some k =>
        -- the last byte of the frame is not among those written
        let w := if db.store.log.isOpen then (F.frame (db.nonces 0) p).dropLast.take k else []
        ({ db with
            store := { db.store with log := db.store.log.failAppend w }
            nonces := fun i => db.nonces (i + 1) }, .error .internal)
      | none =>
        match AegisDB.appendAndHash F db.store (db.nonces 0) r with
        | none => (db, .error .internal)
        | some store =>
          ({ db with
              store
              nonces := fun i => db.nonces (i + 1)
              tenants := (env.tenant r).elim db.tenants fun ns =>
                update db.tenants ns (tenantUsageAdjust (db.tenants ns) d) }, .ok ())

/-- How an operation ends: the append, then what it does to the indexes, then the flush. -/
def UsageDb.commit {α : Type} (cfg : DbConfig) (env : Sample) (io : Option ℕ) (s : UsageDb F)
    (r : MemoryRecord) (index : Indexes → Indexes) (track : UsageIndex → UsageIndex) (reply : α) :
    UsageDb F × Except Status α :=
  match s.appendAndHashIo cfg env io r with
  | (db, .error st) => ({ s with toDatabase := db }, .error st)
  | (db, .ok ()) =>
    let (db, durable) := { db with ix := index db.ix }.durablyFlush cfg env
    (⟨db, s.usage.map track⟩, if durable then .ok reply else .error .internal)

/-- The part of `qe_insert` for persisted records, behind its checks. -/
def insertPersistedIo (cfg : DbConfig) (env : Sample) (io : Option ℕ) (s : UsageDb F)
    (input : MemoryRecord) (ttl : UInt64) : UsageDb F × Except Status MemoryRecord :=
  match recordClone input with
  | none => (s, .error .internal)
  | some copy =>
    let new := stampRecord copy s.nextId env.now ttl
    let s := { s with nextId := s.nextId + 1 }
    s.commit cfg env io new (fun ix => indexRecord (fun _ => true) ix new)
      (fun u => usageIndexTrack u new.id) new

/-- `qe_insert`. -/
def qeInsertIo (cfg : DbConfig) (env : Sample) (io : Option ℕ) (s : UsageDb F)
    (input : MemoryRecord) (session : Option CString) (ttl : UInt64) :
    UsageDb F × Except Status MemoryRecord :=
  match validateCommon cfg input with
  | .error st => (s, .error st)
  | .ok () =>
    if input.data = [] then (s, .error .invalidRequest)
    else if input.fact.kind ≠ .none ∧
        cfg.predicates.any fun registry => !predicateRegistryCheck registry input.fact then
      (s, .error .invalidRequest)
    else
      match input.type with
      | .working =>
        if cfg.phase 4 then
          let (db, res) := insertWorking env s.toDatabase input session ttl
          ({ s with toDatabase := db }, res)
        else (s, .error .notReady)
      | .episodic =>
        if !cfg.phase 1 then (s, .error .notReady)
        else if env.memoryFull then (s, .error .memoryLimit)
        else insertPersistedIo cfg env io s input ttl
      | .semantic =>
        if !cfg.phase 2 then (s, .error .notReady)
        else if env.memoryFull then (s, .error .memoryLimit)
        else insertPersistedIo cfg env io s input ttl

/-- `qe_update`. -/
def qeUpdateIo (cfg : DbConfig) (env : Sample) (io : Option ℕ) (s : UsageDb F)
    (recordId : UInt64) (patch : UpdatePatch) (ns : Option CString) :
    UsageDb F × Except Status MemoryRecord :=
  if !cfg.phase 2 then (s, .error .notReady)
  else
    match loadRecord F s.store recordId with
    | .error st => (s, .error st)
    | .ok cur =>
      if cur.deleted || nsDenies ns cur then (s, .error .notFound)
      else if cur.type ≠ .semantic then (s, .error .immutable)
      else
        match patch.adopt cur.fact with
        | .error st => (s, .error st)
        | .ok fact =>
          let new := patch.apply cur fact env.now
          match validateCommon cfg new with
          | .error st => (s, .error st)
          | .ok () =>
            s.commit cfg env io new (fun ix => reindexRecord ix patch cur new) id new

/-- `qe_relate`. -/
def qeRelateIo (cfg : DbConfig) (env : Sample) (io : Option ℕ) (s : UsageDb F) (fromId toId : UInt64)
    (kind : Option CString) (ns : Option CString) : UsageDb F × Except Status Unit :=
  if !cfg.phase 4 then (s, .error .notReady)
  else if fromId = toId then (s, .error .invalidRequest)
  else if kind.any fun k => maxRelKindLen < k.bytes.length then (s, .error .invalidRequest)
  else
    match loadRecord F s.store fromId with
    | .error st => (s, .error st)
    | .ok r =>
      if r.deleted || nsDenies ns r then (s, .error .notFound)
      else if !targetOk s.toDatabase toId ns then (s, .error .notFound)
      else if r.relationships.any fun e => relSame e toId kind then (s, .ok ())
      else if maxRelationships ≤ r.relationships.length then (s, .error .quotaExceeded)
      else
        s.commit cfg env io (relatedRecord r fromId toId kind env.now)
          (fun ix => { ix with edges := ix.edges.map fun e => edgeIndexAdd e fromId toId kind }) id ()

/-- `qe_delete`. -/
def qeDeleteIo (cfg : DbConfig) (env : Sample) (io : Option ℕ) (s : UsageDb F)
    (recordId : UInt64) (ns : Option CString) : UsageDb F × Except Status Unit :=
  if !cfg.phase 1 then (s, .error .notReady)
  else
    match loadRecord F s.store recordId with
    | .error st => (s, .error st)
    | .ok cur =>
      if cur.deleted || nsDenies ns cur then (s, .error .notFound)
      else
        -- the indexes and the counters go before the append
        let s :=
          { s with
            ix := (unindexRecord s.ix cur).dropTarget cur.id
            usage := s.usage.map fun u => usageIndexUntrack u cur.id }
        s.commit cfg env io (tombstone cur env.now) id id ()

/-- The record `qe_promote` inserts. -/
def promotedRecord (w : MemoryRecord) (toType : MemoryType) (ns : Option CString) : MemoryRecord :=
  { w with type := toType, expiresAt := 0, agentId := ns.elim w.agentId some }

/-- `qe_promote`. -/
def qePromoteIo (cfg : DbConfig) (env : Sample) (io : Option ℕ) (s : UsageDb F)
    (session : Option CString) (workingId : UInt64) (toType : MemoryType) (ns : Option CString) :
    UsageDb F × Except Status MemoryRecord :=
  if !cfg.phase 4 then (s, .error .notReady)
  else
    match session with
    | none => (s, .error .invalidRequest)
    | some sid =>
      if toType = .working then (s, .error .invalidRequest)
      else
        match workingStoreTake s.working sid workingId env.now ns with
        | (ws, none) => ({ s with working := ws }, .error .notFound)
        | (ws, some w) =>
          qeInsertIo cfg env io { s with working := ws } (promotedRecord w toType ns) none 0

/-! ## Without a failure -/

section

variable {cfg : DbConfig} {env : Sample} {io : Option ℕ}

theorem Database.appendAndHashIo_none (db : Database F) (r : MemoryRecord) :
    db.appendAndHashIo cfg env none r =
      match db.appendAndHash cfg env r with
      | .error st => (db, .error st)
      | .ok db => (db, .ok ()) := by
  unfold Database.appendAndHashIo appendAndHash
  cases recordEncode r with
  | none => rfl
  | some p =>
    dsimp only
    split
    · rfl
    · cases AegisDB.appendAndHash F db.store (db.nonces 0) r <;> rfl

theorem ite_lift {β : Type} {P : α → β → Prop} {c : Prop} [Decidable c] {x y : α} {x' y' : β}
    (hx : P x x') (hy : P y y') : P (if c then x else y) (if c then x' else y') := by
  split
  · exact hx
  · exact hy

def Projects {α : Type} (x : UsageDb F × Except Status α) (y : Database F × Except Status α) : Prop :=
  x.1.toDatabase = y.1 ∧ x.2 = y.2

variable (s : UsageDb F)

theorem projects_commit (r : MemoryRecord) (index : Indexes → Indexes)
    (track : UsageIndex → UsageIndex) (reply : α) :
    Projects (s.commit cfg env none r index track reply)
      (match s.appendAndHash cfg env r with
        | .error st => (s.toDatabase, .error st)
        | .ok db =>
          let (db, durable) := { db with ix := index db.ix }.durablyFlush cfg env
          (db, if durable then .ok reply else .error .internal)) := by
  rw [UsageDb.commit, appendAndHashIo_none]
  cases s.appendAndHash cfg env r <;> exact ⟨rfl, rfl⟩

theorem projects_insertPersistedIo (input : MemoryRecord) (ttl : UInt64) :
    Projects (insertPersistedIo cfg env none s input ttl)
      (insertPersisted cfg env s.toDatabase input ttl) := by
  unfold insertPersistedIo insertPersisted
  cases recordClone input with
  | none => exact ⟨rfl, rfl⟩
  | some copy =>
    exact projects_commit { s with nextId := s.nextId + 1 }
      (stampRecord copy s.nextId env.now ttl)
      (fun ix => indexRecord (fun _ => true) ix (stampRecord copy s.nextId env.now ttl)) _ _

theorem projects_qeInsertIo (input : MemoryRecord) (session : Option CString)
    (ttl : UInt64) : Projects (qeInsertIo cfg env none s input session ttl)
      (qeInsert cfg env s.toDatabase input session ttl) := by
  unfold qeInsertIo qeInsert
  cases validateCommon cfg input with
  | error st => exact ⟨rfl, rfl⟩
  | ok _ =>
    refine ite_lift ⟨rfl, rfl⟩ <| ite_lift ⟨rfl, rfl⟩ ?_
    cases input.type with
    | working => exact ite_lift ⟨rfl, rfl⟩ ⟨rfl, rfl⟩
    | episodic | semantic =>
      exact ite_lift ⟨rfl, rfl⟩ <| ite_lift ⟨rfl, rfl⟩ <|
        projects_insertPersistedIo s input ttl

theorem projects_qeUpdateIo (recordId : UInt64) (patch : UpdatePatch)
    (ns : Option CString) : Projects (qeUpdateIo cfg env none s recordId patch ns)
      (qeUpdate cfg env s.toDatabase recordId patch ns) := by
  refine ite_lift ⟨rfl, rfl⟩ ?_
  cases loadRecord F s.store recordId with
  | error st => exact ⟨rfl, rfl⟩
  | ok cur =>
    refine ite_lift ⟨rfl, rfl⟩ <| ite_lift ⟨rfl, rfl⟩ ?_
    cases patch.adopt cur.fact with
    | error st => exact ⟨rfl, rfl⟩
    | ok fact =>
      dsimp only
      cases validateCommon cfg (patch.apply cur fact env.now) with
      | error st => exact ⟨rfl, rfl⟩
      | ok _ =>
        exact projects_commit s (patch.apply cur fact env.now)
          (fun ix => reindexRecord ix patch cur (patch.apply cur fact env.now)) _ _

theorem projects_qeRelateIo (fromId toId : UInt64) (kind ns : Option CString) :
    Projects (qeRelateIo cfg env none s fromId toId kind ns)
      (qeRelate cfg env s.toDatabase fromId toId kind ns) := by
  refine ite_lift ⟨rfl, rfl⟩ <| ite_lift ⟨rfl, rfl⟩ <| ite_lift ⟨rfl, rfl⟩ ?_
  cases loadRecord F s.store fromId with
  | error st => exact ⟨rfl, rfl⟩
  | ok r =>
    refine ite_lift ⟨rfl, rfl⟩ <| ite_lift ⟨rfl, rfl⟩ <| ite_lift ⟨rfl, rfl⟩ <|
      ite_lift ⟨rfl, rfl⟩ ?_
    exact projects_commit s (relatedRecord r fromId toId kind env.now)
      (fun ix => { ix with edges := ix.edges.map fun e => edgeIndexAdd e fromId toId kind }) _ _

theorem projects_qeDeleteIo (recordId : UInt64) (ns : Option CString) :
    Projects (qeDeleteIo cfg env none s recordId ns) (qeDelete cfg env s.toDatabase recordId ns) := by
  unfold qeDeleteIo qeDelete
  refine ite_lift ⟨rfl, rfl⟩ ?_
  cases loadRecord F s.store recordId with
  | error st => exact ⟨rfl, rfl⟩
  | ok cur =>
    refine ite_lift ⟨rfl, rfl⟩ ?_
    exact projects_commit
      { s with
        ix := (unindexRecord s.ix cur).dropTarget cur.id
        usage := s.usage.map fun u => usageIndexUntrack u cur.id } (tombstone cur env.now) id _ _

theorem projects_qePromoteIo (session : Option CString) (wid : UInt64)
    (toType : MemoryType) (ns : Option CString) :
    Projects (qePromoteIo cfg env none s session wid toType ns)
      (qePromote cfg env s.toDatabase session wid toType ns) := by
  refine ite_lift ⟨rfl, rfl⟩ ?_
  cases session with
  | none => exact ⟨rfl, rfl⟩
  | some sid =>
    refine ite_lift ⟨rfl, rfl⟩ ?_
    rcases workingStoreTake s.working sid wid env.now ns with ⟨ws, _ | w⟩
    · exact ⟨rfl, rfl⟩
    · exact projects_qeInsertIo { s with working := ws } (promotedRecord w toType ns) none 0

/-- What `append_and_hash` requires of a record and of the state. -/
structure Database.Takes (cfg : DbConfig) (env : Sample) (io : Option ℕ) (db : Database F)
    (r : MemoryRecord) : Prop where
  encoded : ∃ p, recordEncode r = some p ∧ p.length ≤ maxPayload ∧ ∀ ns ∈ env.tenant r,
    tenantUsageWouldExceed cfg (db.tenants ns) (usageDelta db.store.hash r p.length) = false
  isOpen : db.store.log.isOpen = true
  written : io = none

theorem LogFile.isSome_append_iff {l : LogFile} {n : F.Nonce} {p : Bytes} :
    (l.append F n p).isSome = true ↔ l.isOpen = true ∧ p.length ≤ maxPayload := by
  unfold LogFile.append logAppend
  split
  · rename_i hopen
    split
    · rename_i hlen
      exact ⟨fun _ => ⟨hopen, hlen⟩, fun _ => rfl⟩
    · rename_i hlen
      exact ⟨fun h => (by cases h), fun h => absurd h.2 hlen⟩
  · rename_i hopen
    exact ⟨fun h => (by cases h), fun h => absurd h.1 hopen⟩

theorem Database.appendAndHashIo_ok_iff {db : Database F} :
    (db.appendAndHashIo cfg env io r).2 = .ok () ↔ db.Takes cfg env io r := by
  unfold Database.appendAndHashIo
  cases hp : recordEncode r with
  | none =>
    refine ⟨fun h => (by cases h), fun h => ?_⟩
    obtain ⟨p, hp', -⟩ := h.encoded
    cases hp.symm.trans hp'
  | some p =>
    dsimp only
    split
    · rename_i hquota
      refine ⟨fun h => (by cases h), fun h => ?_⟩
      obtain ⟨p', hp', -, hroom⟩ := h.encoded
      cases hp.symm.trans hp'
      obtain ⟨ns, hns, hover⟩ := (any_eq_true _ _).1 hquota
      rw [hroom ns hns] at hover
      cases hover
    · rename_i hquota
      have hroom : ∀ ns ∈ env.tenant r, tenantUsageWouldExceed cfg (db.tenants ns)
          (usageDelta db.store.hash r p.length) = false := by
        intro ns hns
        cases hover : tenantUsageWouldExceed cfg (db.tenants ns)
          (usageDelta db.store.hash r p.length) with
        | false => rfl
        | true => exact absurd ((any_eq_true _ _).2 ⟨ns, hns, hover⟩) hquota
      cases io with
      | some k => exact ⟨fun h => (by cases h), fun h => (by cases h.written)⟩
      | none =>
        have happ : (AegisDB.appendAndHash F db.store (db.nonces 0) r).isSome = true ↔
            db.store.log.isOpen = true ∧ p.length ≤ maxPayload := by
          rw [AegisDB.appendAndHash, hp, bind_some, isSome_map,
            isSome_append_iff]
        cases hstore : AegisDB.appendAndHash F db.store (db.nonces 0) r with
        | none =>
          rw [hstore] at happ
          refine ⟨fun h => (by cases h), fun h => ?_⟩
          obtain ⟨p', hp', hlen, -⟩ := h.encoded
          cases hp.symm.trans hp'
          cases happ.2 ⟨h.isOpen, hlen⟩
        | some store =>
          rw [hstore] at happ
          obtain ⟨hopen, hlen⟩ := happ.1 rfl
          exact ⟨fun _ => ⟨⟨p, hp, hlen, hroom⟩, hopen, rfl⟩, fun _ => rfl⟩

/-! ## What a refusal leaves -/

/-- Everything is as it was but the counter of ids, the nonces and what is behind the recorded part of
the log. -/
structure Database.Unchanged (db db' : Database F) : Prop where
  hash : db'.store.hash = db.store.hash
  bytes : db'.store.log.bytes = db.store.log.bytes
  isOpen : db'.store.log.isOpen = db.store.log.isOpen
  ix : db'.ix = db.ix
  tenants : db'.tenants = db.tenants
  working : db'.working = db.working

theorem Database.Unchanged.refl (db : Database F) : db.Unchanged db := ⟨rfl, rfl, rfl, rfl, rfl, rfl⟩

theorem Database.appendAndHashIo_error {db db' : Database F} {st : Status}
    (h : db.appendAndHashIo cfg env io r = (db', .error st)) : db.Unchanged db' := by
  unfold Database.appendAndHashIo at h
  cases hp : recordEncode r with
  | none =>
    rw [hp] at h
    cases h
    exact .refl db
  | some p =>
    rw [hp] at h
    dsimp only at h
    split at h
    · cases h
      exact .refl db
    · cases io with
      | some k =>
        cases h
        exact ⟨rfl, rfl, rfl, rfl, rfl, rfl⟩
      | none =>
        dsimp only at h
        split at h <;> cases h
        exact .refl db

theorem Database.appendAndHashIo_fsync (db : Database F) (r : MemoryRecord) (ok : Bool) :
    db.appendAndHashIo cfg { env with fsyncOk := ok } io r = db.appendAndHashIo cfg env io r := rfl

theorem Database.durablyFlush_fsync (db : Database F) :
    (db.durablyFlush cfg { env with fsyncOk := true }).2 = true := by
  have hsync : (db.store.log.logFsync true).2 = true := by
    unfold logFsync
    split <;> rfl
  unfold Database.durablyFlush logFsyncIfBatched
  dsimp only
  split
  · exact hsync
  · rfl

/-- An operation of the clients that appends to the log and touches no index before. -/
inductive PersistCall
  | insert (input : MemoryRecord) (persisted : input.type ≠ .working) (session : Option CString)
    (ttl : UInt64)
  | update (id : UInt64) (patch : UpdatePatch) (ns : Option CString)
  | relate (fromId toId : UInt64) (kind ns : Option CString)

/-- The call: the state behind it, and its error. -/
def PersistCall.apply (cfg : DbConfig) (env : Sample) (io : Option ℕ) (s : UsageDb F) :
    PersistCall → UsageDb F × Except Status Unit
  | .insert input _ session ttl =>
    let (s, res) := qeInsertIo cfg env io s input session ttl
    (s, res.map fun _ => ())
  | .update id patch ns =>
    let (s, res) := qeUpdateIo cfg env io s id patch ns
    (s, res.map fun _ => ())
  | .relate fromId toId kind ns => qeRelateIo cfg env io s fromId toId kind ns

/-- Everything is as it was, the usage index included. -/
structure UsageDb.Unchanged (s s' : UsageDb F) : Prop
    extends Database.Unchanged s.toDatabase s'.toDatabase where
  usage : s'.usage = s.usage

theorem UsageDb.Unchanged.refl : s.Unchanged s := ⟨.refl _, rfl⟩

/-- If the outcome `x` is an error, the outcome `y` leaves the state unchanged. -/
def Refuses {α : Type} (s : UsageDb F) (x y : UsageDb F × Except Status α) : Prop :=
  ∀ st, x.2 = .error st → s.Unchanged y.1

theorem Refuses.kept (x : UsageDb F × Except Status α)
    (res : Except Status α) : Refuses s x (s, res) := fun _ _ => .refl s

theorem Refuses.map {β : Type} {s : UsageDb F} {x y : UsageDb F × Except Status α}
    (h : Refuses s x y) (f : α → β) (st : Status) (hst : x.2.map f = .error st) :
    s.Unchanged y.1 := by
  cases hx : x.2 with
  | error st => exact h st hx
  | ok a =>
    rw [hx] at hst
    cases hst

/-- With a successful fsync a commit fails only if its append does. -/
theorem refuses_commit (r : MemoryRecord) (index : Indexes → Indexes)
    (track : UsageIndex → UsageIndex) (reply : α) :
    Refuses s (s.commit cfg { env with fsyncOk := true } io r index track reply)
      (s.commit cfg env io r index track reply) := by
  intro st h
  unfold UsageDb.commit at h ⊢
  simp only [appendAndHashIo_fsync, durablyFlush_fsync] at h
  rcases happ : s.appendAndHashIo cfg env io r with ⟨db, _ | _⟩
  · exact ⟨appendAndHashIo_error happ, rfl⟩
  · rw [happ] at h
    cases h

theorem refuses_insertPersistedIo (input : MemoryRecord) (ttl : UInt64) :
    Refuses s (insertPersistedIo cfg { env with fsyncOk := true } io s input ttl)
      (insertPersistedIo cfg env io s input ttl) := by
  unfold insertPersistedIo
  cases recordClone input with
  | none => exact .kept s _ _
  | some copy =>
    intro st h
    have hkept := refuses_commit { s with nextId := s.nextId + 1 } _ _ _ _ st h
    exact { hkept with }

/-- What refuses a persisted insert before it is given an id. -/
def insertRefusal (cfg : DbConfig) (env : Sample) (r : MemoryRecord) : Option Status :=
  match validateCommon cfg r with
  | .error st => some st
  | .ok () =>
    if r.data = [] then some .invalidRequest
    else if r.fact.kind ≠ .none ∧
        cfg.predicates.any fun registry => !predicateRegistryCheck registry r.fact then
      some .invalidRequest
    else if !cfg.phase (if r.type = .episodic then 1 else 2) then some .notReady
    else if env.memoryFull then some .memoryLimit
    else none

theorem qeInsertIo_eq (htype : r.type ≠ .working)
    (session : Option CString) (ttl : UInt64) : qeInsertIo cfg env io s r session ttl =
      match insertRefusal cfg env r with
      | some st => (s, .error st)
      | none => insertPersistedIo cfg env io s r ttl := by
  unfold qeInsertIo insertRefusal
  cases validateCommon cfg r with
  | error st => rfl
  | ok _ =>
    dsimp only
    by_cases hdata : r.data = []
    · rw [if_pos hdata, if_pos hdata]
    rw [if_neg hdata, if_neg hdata]
    split
    · rfl
    · cases hty : r.type with
      | working => exact absurd hty htype
      | episodic =>
        simp only [if_true]
        cases cfg.phase 1 <;> cases env.memoryFull <;> rfl
      | semantic =>
        simp only [reduceCtorEq, if_false]
        cases cfg.phase 2 <;> cases env.memoryFull <;> rfl

theorem refuses_qeInsertIo {input : MemoryRecord} (htype : input.type ≠ .working)
    (session : Option CString) (ttl : UInt64) :
    Refuses s (qeInsertIo cfg { env with fsyncOk := true } io s input session ttl)
      (qeInsertIo cfg env io s input session ttl) := by
  have hsame : insertRefusal cfg { env with fsyncOk := true } input = insertRefusal cfg env input := rfl
  rw [qeInsertIo_eq s htype, qeInsertIo_eq s htype, hsame]
  cases insertRefusal cfg env input with
  | some st => exact .kept s _ _
  | none => exact refuses_insertPersistedIo s input ttl

theorem refuses_qeUpdateIo (recordId : UInt64) (patch : UpdatePatch)
    (ns : Option CString) :
    Refuses s (qeUpdateIo cfg { env with fsyncOk := true } io s recordId patch ns)
      (qeUpdateIo cfg env io s recordId patch ns) := by
  refine ite_lift (.kept s _ _) ?_
  cases loadRecord F s.store recordId with
  | error st => exact .kept s _ _
  | ok cur =>
    refine ite_lift (.kept s _ _) <| ite_lift (.kept s _ _) ?_
    cases patch.adopt cur.fact with
    | error st => exact .kept s _ _
    | ok fact =>
      dsimp only
      cases validateCommon cfg (patch.apply cur fact env.now) with
      | error st => exact .kept s _ _
      | ok _ => exact refuses_commit s _ _ _ _

theorem refuses_qeRelateIo (fromId toId : UInt64) (kind ns : Option CString) :
    Refuses s (qeRelateIo cfg { env with fsyncOk := true } io s fromId toId kind ns)
      (qeRelateIo cfg env io s fromId toId kind ns) := by
  refine ite_lift (.kept s _ _) <| ite_lift (.kept s _ _) <| ite_lift (.kept s _ _) ?_
  cases loadRecord F s.store fromId with
  | error st => exact .kept s _ _
  | ok r =>
    exact ite_lift (.kept s _ _) <| ite_lift (.kept s _ _) <| ite_lift (.kept s _ _) <|
      ite_lift (.kept s _ _) <| refuses_commit s _ _ _ _

/-- A write of a persisted record that is refused changes no index, no usage of a tenant and no
frame of the log. Refused is what fails also if the fsync behind the write succeeds. -/
theorem refused_write_unchanged (cfg : DbConfig) (env : Sample) (io : Option ℕ) (s : UsageDb F)
    (c : PersistCall) (st : Status)
    (h : (c.apply cfg { env with fsyncOk := true } io s).2 = .error st) :
    s.Unchanged (c.apply cfg env io s).1 := by
  cases c with
  | insert input persisted session ttl => exact (refuses_qeInsertIo s persisted session ttl).map _ st h
  | update recordId patch ns => exact (refuses_qeUpdateIo s recordId patch ns).map _ st h
  | relate fromId toId kind ns => exact refuses_qeRelateIo s fromId toId kind ns st h

end

def plainNote : MemoryRecord := { recordInit with type := .episodic, data := [97] }

theorem plainNote_persisted : plainNote.type ≠ .working := by decide

/-- The database opened on an empty directory. -/
def UsageDb.fresh : UsageDb plainFraming := ⟨.create .unlimited fun _ => (), some fun _ => none⟩

/-- The disk is full when an insert has written three bytes of its frame. -/
theorem fullDisk_insert_unchanged :
    ((PersistCall.insert plainNote plainNote_persisted none 0).apply .unlimited
      { Sample.zero with fsyncOk := true } (some 3) .fresh).2 = .error .internal ∧
    UsageDb.fresh.Unchanged ((PersistCall.insert plainNote plainNote_persisted none 0).apply
      .unlimited .zero (some 3) .fresh).1 := by
  have hfail : ((PersistCall.insert plainNote plainNote_persisted none 0).apply .unlimited
      { Sample.zero with fsyncOk := true } (some 3) .fresh).2 = .error .internal := by
    decide +kernel
  exact ⟨hfail, refused_write_unchanged .unlimited .zero (some 3) .fresh _ _ hfail⟩

end AegisDB
