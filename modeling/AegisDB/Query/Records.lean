import AegisDB.Query.Database

/-!
# The operations on single records

`query_engine.c`: `qe_insert`, `qe_get`, `qe_update`, `qe_delete`, `qe_promote` and `qe_relate`. Each
of them returns the database behind it, also when it fails: an insert that fails has used up an id, a
delete has unindexed the record before it appends the tombstone, and a promotion has taken the record
out of the working memory.

The last section says once what each operation can do to the log: append nothing, or one version of
a record that the operation says (`qeInsert_step` and its like); what holds of every operation is
then derived from that.
-/

namespace AegisDB

open Bytes

variable {F : Framing}

/-! ## Validation -/

def isAlnum (c : UInt8) : Bool :=
  (48 ≤ c.toNat && c.toNat ≤ 57) || (65 ≤ c.toNat && c.toNat ≤ 90) ||
    (97 ≤ c.toNat && c.toNat ≤ 122)

def validTag (t : CString) : Bool :=
  1 ≤ t.bytes.length && t.bytes.length ≤ 64 &&
    -- `_` and `-`
    t.bytes.all fun c => isAlnum c || c = 0x5f || c = 0x2d

def validAgentId (a : CString) : Bool :=
  1 ≤ a.bytes.length && a.bytes.length ≤ maxAgentId &&
    a.bytes.all fun c => !(c.toNat < 0x20 || c = 0x7f)

def maxTags : ℕ := 32

def validateCommon (cfg : DbConfig) (r : MemoryRecord) : Except Status Unit :=
  if cfg.maxPayloadBytes < r.data.length then .error .payloadTooLarge
  else if r.importance.Lt .zero ∨ F32.one.Lt r.importance then .error .invalidRequest
  else if r.confidence.Lt .zero ∨ F32.one.Lt r.confidence then .error .invalidRequest
  else if maxTags < r.tags.length then .error .invalidRequest
  else if !r.tags.all validTag then .error .invalidRequest
  else if r.agentId.any fun a => !validAgentId a then .error .invalidRequest
  else if r.embedding.dim ≠ 0 ∧ r.embedding.dim ≠ cfg.embeddingDimensions then
    .error .invalidRequest
  else .ok ()

def predicateRegistryCheck (registry : List PredicateSpec) (f : Fact) : Bool :=
  match f.predicate.bind fun p => registry.find? fun spec => spec.name = p with
  | none => false
  | some spec => spec.objectIsId == decide (f.kind = .objId)

def nsDenies (ns : Option CString) (r : MemoryRecord) : Bool := ns.isSome && r.agentId ≠ ns

variable {r : MemoryRecord}

theorem nsDenies_eq_false {ns : CString} : nsDenies (some ns) r = false ↔ r.agentId = some ns := by
  simp [nsDenies]

/-- The record `qe_insert` appends: under a new id, created now. -/
def stampRecord (rec : MemoryRecord) (id now ttl : UInt64) : MemoryRecord :=
  { rec with
    id
    created := now
    updated := now
    deleted := false
    expiresAt := if ttl ≠ 0 then saturatingAdd now ttl else 0 }

/-- The part of `qe_insert` for persisted records, behind its checks. -/
def insertPersisted (cfg : DbConfig) (env : Sample) (db : Database F) (input : MemoryRecord)
    (ttl : UInt64) : Database F × Except Status MemoryRecord :=
  match recordClone input with
  | none => (db, .error .internal)
  | some copy =>
    let new := stampRecord copy db.nextId env.now ttl
    let db := { db with nextId := db.nextId + 1 }
    match db.appendAndHash cfg env new with
    | .error st => (db, .error st)
    | .ok db =>
      let (db, durable) := { db with ix := indexRecord (fun _ => true) db.ix new }.durablyFlush cfg env
      (db, if durable then .ok new else .error .internal)

/-- The part of `qe_insert` for working memory. -/
def insertWorking (env : Sample) (db : Database F) (input : MemoryRecord) (session : Option CString)
    (ttl : UInt64) : Database F × Except Status MemoryRecord :=
  match session with
  | none => (db, .error .invalidRequest)
  | some sid =>
    match workingStoreAdd db.working sid input env.now ttl with
    | none => (db, .error .internal)
    | some (ws, wid) =>
      let (ws, got) := workingStoreGet ws sid wid env.now
      ({ db with working := ws }, got.elim (.error .internal) .ok)

def qeInsert (cfg : DbConfig) (env : Sample) (db : Database F) (input : MemoryRecord)
    (session : Option CString) (ttl : UInt64) : Database F × Except Status MemoryRecord :=
  match validateCommon cfg input with
  | .error st => (db, .error st)
  | .ok () =>
    if input.data = [] then (db, .error .invalidRequest)
    -- an undeclared predicate is refused for every type of memory
    else if input.fact.kind ≠ .none ∧
        cfg.predicates.any fun registry => !predicateRegistryCheck registry input.fact then
      (db, .error .invalidRequest)
    else
      match input.type with
      | .working =>
        if cfg.phase 4 then insertWorking env db input session ttl else (db, .error .notReady)
      | .episodic =>
        if !cfg.phase 1 then (db, .error .notReady)
        else if env.memoryFull then (db, .error .memoryLimit)
        else insertPersisted cfg env db input ttl
      | .semantic =>
        if !cfg.phase 2 then (db, .error .notReady)
        else if env.memoryFull then (db, .error .memoryLimit)
        else insertPersisted cfg env db input ttl

def qeGet (env : Sample) (db : Database F) (id : UInt64) (agent : Option CString) :
    Except Status MemoryRecord :=
  match loadRecord F db.store id with
  | .error st => .error st
  | .ok r =>
    if r.deleted || recordExpired r env.now then .error .notFound
    else if nsDenies agent r then .error .notFound
    else .ok r

theorem qeGet_eq_ok {env : Sample} {db : Database F} {id : UInt64} {agent : Option CString} :
    qeGet env db id agent = .ok r ↔ loadRecord F db.store id = .ok r ∧
      r.deleted = false ∧ recordExpired r env.now = false ∧ nsDenies agent r = false := by
  unfold qeGet
  cases loadRecord F db.store id with
  | error st => simp
  | ok r' =>
    dsimp only
    constructor
    · intro h
      split_ifs at h with hdead hns
      cases h
      simp_all
    · rintro ⟨h, hdead, hexp, hns⟩
      cases h
      simp [hdead, hexp, hns]

/-- `UpdatePatch`: the fields to change. An embedding without floats clears. -/
structure UpdatePatch where
  data : Option Bytes
  importance : Option F32
  confidence : Option F32
  embedding : Option Embedding
  tags : Option (List CString)
  fact : Option Fact

/-- The record with the patch applied, and a fact. -/
def UpdatePatch.apply (patch : UpdatePatch) (cur : MemoryRecord) (fact : Fact) (now : UInt64) :
    MemoryRecord :=
  { cur with
    fact
    data := patch.data.getD cur.data
    importance := patch.importance.getD cur.importance
    confidence := patch.confidence.getD cur.confidence
    embedding := patch.embedding.elim cur.embedding fun e =>
      if e.vecCount * e.dim ≠ 0 then e else .absent
    tags := patch.tags.getD cur.tags
    updated := now }

/-- What an update changes in the indexes behind its append: the tags, the payload and the vectors
of the patch, and a fact where there was none. -/
def reindexRecord (ix : Indexes) (patch : UpdatePatch) (old new : MemoryRecord) : Indexes :=
  { ix with
    tags :=
      if patch.tags.isSome then
        new.tags.foldl (fun t tag => tagIndexAdd t tag new.id)
          (old.tags.foldl (fun t tag => tagIndexRemove t tag new.id) ix.tags)
      else ix.tags
    facts := if patch.fact.isSome then dbFactIndexApply ix.facts new true else ix.facts
    lex :=
      if patch.data.isSome then
        ix.lex.map fun lx => lexicalIndexAdd (lexicalIndexRemove lx new.id old.data) new.id new.data
      else ix.lex
    sem :=
      if patch.embedding.isSome then
        if new.embedding.dim ≠ 0 ∧ new.embedding.vecCount ≠ 0 then
          semanticIndexAdd ix.sem new.id new.embedding
        else if old.embedding.vecCount ≠ 0 then semanticIndexRemove ix.sem new.id
        else ix.sem
      else ix.sem }

/-- The fact of an update: an adopted one is refused over another. -/
def UpdatePatch.adopt (patch : UpdatePatch) (cur : Fact) : Except Status Fact :=
  match patch.fact with
  | none => .ok cur
  | some f =>
    if cur.kind ≠ .none then .error .invalidRequest
    else (recordSetFact f.kind f.subject f.predicate f.objectId f.objectStr).elim
      (.error .internal) .ok

def qeUpdate (cfg : DbConfig) (env : Sample) (db : Database F) (id : UInt64) (patch : UpdatePatch)
    (ns : Option CString) : Database F × Except Status MemoryRecord :=
  if !cfg.phase 2 then (db, .error .notReady)
  else
    match loadRecord F db.store id with
    | .error st => (db, .error st)
    | .ok cur =>
      if cur.deleted || nsDenies ns cur then (db, .error .notFound)
      else if cur.type ≠ .semantic then (db, .error .immutable)
      else
        match patch.adopt cur.fact with
        | .error st => (db, .error st)
        | .ok fact =>
          let new := patch.apply cur fact env.now
          match validateCommon cfg new with
          | .error st => (db, .error st)
          | .ok () =>
            match db.appendAndHash cfg env new with
            | .error st => (db, .error st)
            | .ok db =>
              let (db, durable) :=
                { db with ix := reindexRecord db.ix patch cur new }.durablyFlush cfg env
              (db, if durable then .ok new else .error .internal)

def tombstone (cur : MemoryRecord) (now : UInt64) : MemoryRecord :=
  { cur with deleted := true, updated := now }

def qeDelete (cfg : DbConfig) (env : Sample) (db : Database F) (id : UInt64) (ns : Option CString) :
    Database F × Except Status Unit :=
  if !cfg.phase 1 then (db, .error .notReady)
  else
    match loadRecord F db.store id with
    | .error st => (db, .error st)
    | .ok cur =>
      if cur.deleted || nsDenies ns cur then (db, .error .notFound)
      else
        let db := { db with ix := (unindexRecord db.ix cur).dropTarget cur.id }
        match db.appendAndHash cfg env (tombstone cur env.now) with
        | .error st => (db, .error st)
        | .ok db =>
          let (db, durable) := db.durablyFlush cfg env
          (db, if durable then .ok () else .error .internal)

def qePromote (cfg : DbConfig) (env : Sample) (db : Database F) (session : Option CString)
    (workingId : UInt64) (toType : MemoryType) (ns : Option CString) :
    Database F × Except Status MemoryRecord :=
  if !cfg.phase 4 then (db, .error .notReady)
  else
    match session with
    | none => (db, .error .invalidRequest)
    | some sid =>
      if toType = .working then (db, .error .invalidRequest)
      else
        match workingStoreTake db.working sid workingId env.now ns with
        | (ws, none) => ({ db with working := ws }, .error .notFound)
        | (ws, some w) =>
          qeInsert cfg env { db with working := ws }
            { w with type := toType, expiresAt := 0, agentId := ns.elim w.agentId some } none 0

def maxRelKindLen : ℕ := 64

def maxRelationships : ℕ := 4096

def relSame (e : Relationship) (toId : UInt64) (kind : Option CString) : Bool :=
  e.toId = toId && e.kind = kind

/-- The target of an edge exists, and belongs to a namespaced caller. -/
def targetOk (db : Database F) (toId : UInt64) (ns : Option CString) : Bool :=
  match ns with
  | some _ =>
    match loadRecord F db.store toId with
    | .error _ => false
    | .ok r => !(r.deleted || nsDenies ns r)
  | none => (hashIndexGet db.store.hash toId).isSome

def relatedRecord (r : MemoryRecord) (fromId toId : UInt64) (kind : Option CString) (now : UInt64) :
    MemoryRecord :=
  { r with relationships := r.relationships ++ [⟨fromId, toId, kind⟩], updated := now }

def qeRelate (cfg : DbConfig) (env : Sample) (db : Database F) (fromId toId : UInt64)
    (kind : Option CString) (ns : Option CString) : Database F × Except Status Unit :=
  if !cfg.phase 4 then (db, .error .notReady)
  else if fromId = toId then (db, .error .invalidRequest)
  else if kind.any fun k => maxRelKindLen < k.bytes.length then (db, .error .invalidRequest)
  else
    match loadRecord F db.store fromId with
    | .error st => (db, .error st)
    | .ok r =>
      if r.deleted || nsDenies ns r then (db, .error .notFound)
      else if !targetOk db toId ns then (db, .error .notFound)
      -- the same edge again changes nothing
      else if r.relationships.any fun e => relSame e toId kind then (db, .ok ())
      else if maxRelationships ≤ r.relationships.length then (db, .error .quotaExceeded)
      else
        match db.appendAndHash cfg env (relatedRecord r fromId toId kind env.now) with
        | .error st => (db, .error st)
        | .ok db =>
          let (db, durable) :=
            { db with
              ix :=
                { db.ix with edges := db.ix.edges.map fun e => edgeIndexAdd e fromId toId kind }
            }.durablyFlush cfg env
          (db, if durable then .ok () else .error .internal)

/-! ## What an operation can do -/

section

variable {cfg : DbConfig} {env : Sample} {db : Database F}

/-- What `qe_insert` can do: nothing, use up an id, add to the working memory, or append and index a
record. -/
inductive InsertStep (cfg : DbConfig) (env : Sample) (db : Database F) (input : MemoryRecord)
    (ttl : UInt64) : Database F → Except Status MemoryRecord → Prop
  | refused {st} : InsertStep cfg env db input ttl db (.error st)
  | failed {st} : InsertStep cfg env db input ttl { db with nextId := db.nextId + 1 } (.error st)
  | working {sid ws wid} (add : workingStoreAdd db.working sid input env.now ttl = some (ws, wid)) :
    InsertStep cfg env db input ttl { db with working := (workingStoreGet ws sid wid env.now).1 }
      ((workingStoreGet ws sid wid env.now).2.elim (.error .internal) .ok)
  | wrote {copy db' res} (valid : validateCommon cfg input = .ok ()) (data : input.data ≠ [])
    (clone : recordClone input = some copy)
    (append : { db with nextId := db.nextId + 1 }.appendAndHash cfg env
      (stampRecord copy db.nextId env.now ttl) = .ok db')
    (reply : ∀ r, res = .ok r → r = stampRecord copy db.nextId env.now ttl) :
    InsertStep cfg env db input ttl
      ({ db' with
          ix := indexRecord (fun _ => true) db'.ix (stampRecord copy db.nextId env.now ttl)
        }.durablyFlush cfg env).1 res

theorem insertPersisted_step {input : MemoryRecord} (ttl : UInt64)
    (valid : validateCommon cfg input = .ok ()) (data : input.data ≠ []) :
    InsertStep cfg env db input ttl (insertPersisted cfg env db input ttl).1
      (insertPersisted cfg env db input ttl).2 := by
  unfold insertPersisted
  split
  · exact .refused
  · rename_i copy clone
    dsimp only
    split
    · exact .failed
    · rename_i db' append
      refine .wrote valid data clone append fun r hr => ?_
      split at hr
      · exact (Except.ok.inj hr).symm
      · cases hr

theorem exists_pair {α β : Type} {R : α → β → Prop} {x : α × β} (h : R x.1 x.2) :
    ∃ a b, x = (a, b) ∧ R a b := ⟨x.1, x.2, rfl, h⟩

theorem qeInsert_step (input : MemoryRecord) (session : Option CString) (ttl : UInt64) :
    InsertStep cfg env db input ttl (qeInsert cfg env db input session ttl).1
      (qeInsert cfg env db input session ttl).2 := by
  unfold qeInsert
  split
  · exact .refused
  · rename_i valid
    split
    · exact .refused
    · rename_i data
      split
      · exact .refused
      · split
        · split
          · unfold insertWorking
            split
            · exact .refused
            · split
              · exact .refused
              · rename_i add
                exact .working add
          · exact .refused
        · split
          · exact .refused
          · split
            · exact .refused
            · exact insertPersisted_step ttl valid data
        · split
          · exact .refused
          · split
            · exact .refused
            · exact insertPersisted_step ttl valid data

/-- What `qe_update` can do. -/
inductive UpdateStep (cfg : DbConfig) (env : Sample) (db : Database F) (id : UInt64)
    (patch : UpdatePatch) (ns : Option CString) : Database F → Except Status MemoryRecord → Prop
  | refused {st} : UpdateStep cfg env db id patch ns db (.error st)
  | wrote {cur fact db' res} (load : loadRecord F db.store id = .ok cur) (owner : nsDenies ns cur = false)
    (type : cur.type = .semantic) (adopt : patch.adopt cur.fact = .ok fact)
    (valid : validateCommon cfg (patch.apply cur fact env.now) = .ok ())
    (append : db.appendAndHash cfg env (patch.apply cur fact env.now) = .ok db')
    (reply : ∀ r, res = .ok r → r = patch.apply cur fact env.now) :
    UpdateStep cfg env db id patch ns
      ({ db' with ix := reindexRecord db'.ix patch cur (patch.apply cur fact env.now) }.durablyFlush
        cfg env).1 res

theorem qeUpdate_step (id : UInt64) (patch : UpdatePatch) (ns : Option CString) :
    UpdateStep cfg env db id patch ns (qeUpdate cfg env db id patch ns).1
      (qeUpdate cfg env db id patch ns).2 := by
  unfold qeUpdate
  split
  · exact .refused
  · split
    · exact .refused
    · rename_i cur load
      split
      · exact .refused
      · rename_i hdenied
        split
        · exact .refused
        · rename_i type
          split
          · exact .refused
          · rename_i fact adopt
            dsimp only
            split
            · exact .refused
            · rename_i valid
              split
              · exact .refused
              · rename_i db' append
                simp only [Bool.or_eq_true, not_or, Bool.not_eq_true] at hdenied
                refine .wrote load hdenied.2 (not_not.1 type) adopt valid append fun r hr => ?_
                split at hr
                · exact (Except.ok.inj hr).symm
                · cases hr

/-- What `qe_delete` can do; when the append of the tombstone fails, the record is not indexed any
more. -/
inductive DeleteStep (cfg : DbConfig) (env : Sample) (db : Database F) (id : UInt64)
    (ns : Option CString) : Database F → Except Status Unit → Prop
  | refused {st} : DeleteStep cfg env db id ns db (.error st)
  | failed {cur st} (load : loadRecord F db.store id = .ok cur) (owner : nsDenies ns cur = false)
    (append : { db with ix := (unindexRecord db.ix cur).dropTarget cur.id }.appendAndHash cfg env
      (tombstone cur env.now) = .error st) :
    DeleteStep cfg env db id ns { db with ix := (unindexRecord db.ix cur).dropTarget cur.id }
      (.error st)
  | wrote {cur db' res} (load : loadRecord F db.store id = .ok cur) (owner : nsDenies ns cur = false)
    (append : { db with ix := (unindexRecord db.ix cur).dropTarget cur.id }.appendAndHash cfg env
      (tombstone cur env.now) = .ok db') :
    DeleteStep cfg env db id ns (db'.durablyFlush cfg env).1 res

theorem qeDelete_step (id : UInt64) (ns : Option CString) :
    DeleteStep cfg env db id ns (qeDelete cfg env db id ns).1 (qeDelete cfg env db id ns).2 := by
  unfold qeDelete
  split
  · exact .refused
  · split
    · exact .refused
    · rename_i cur load
      split
      · exact .refused
      · rename_i hdenied
        simp only [Bool.or_eq_true, not_or, Bool.not_eq_true] at hdenied
        dsimp only
        split
        · rename_i append
          exact .failed load hdenied.2 append
        · rename_i append
          exact .wrote load hdenied.2 append

/-- What `qe_relate` can do. -/
inductive RelateStep (cfg : DbConfig) (env : Sample) (db : Database F) (fromId toId : UInt64)
    (kind ns : Option CString) : Database F → Except Status Unit → Prop
  | kept {res} : RelateStep cfg env db fromId toId kind ns db res
  | wrote {cur db' res} (load : loadRecord F db.store fromId = .ok cur)
    (owner : nsDenies ns cur = false) (target : targetOk db toId ns = true) (ne : fromId ≠ toId)
    (short : ∀ k ∈ kind, k.bytes.length ≤ maxRelKindLen)
    (fresh : (cur.relationships.any fun e => relSame e toId kind) = false)
    (append : db.appendAndHash cfg env (relatedRecord cur fromId toId kind env.now) = .ok db') :
    RelateStep cfg env db fromId toId kind ns
      ({ db' with
          ix := { db'.ix with edges := db'.ix.edges.map fun e => edgeIndexAdd e fromId toId kind }
        }.durablyFlush cfg env).1 res

theorem qeRelate_step (fromId toId : UInt64) (kind ns : Option CString) :
    RelateStep cfg env db fromId toId kind ns (qeRelate cfg env db fromId toId kind ns).1
      (qeRelate cfg env db fromId toId kind ns).2 := by
  unfold qeRelate
  split
  · exact .kept
  split
  · exact .kept
  rename_i ne
  split
  · exact .kept
  rename_i short
  split
  · exact .kept
  rename_i cur load
  split
  · exact .kept
  rename_i hdenied
  split
  · exact .kept
  rename_i target
  split
  · exact .kept
  rename_i fresh
  split
  · exact .kept
  split
  · exact .kept
  rename_i append
  simp only [Bool.or_eq_true, not_or, Bool.not_eq_true] at hdenied
  refine .wrote load hdenied.2 (by simpa using target) ne (fun k hk => ?_)
    (Bool.not_eq_true _ ▸ fresh) append
  cases hk
  simpa using short

end

theorem wellFormed_of_loadRecord {s : Db} {id : UInt64} (h : loadRecord F s id = .ok r) :
    r.WellFormed := by
  obtain ⟨e, -, h⟩ := loadRecord_eq_ok.1 h
  obtain ⟨p, -, hp⟩ := Option.bind_eq_some_iff.1 h
  exact wellFormed_of_recordDecode hp

theorem formed_stampRecord {input copy : MemoryRecord} (h : recordClone input = some copy)
    (id now ttl : UInt64) : (stampRecord copy id now ttl).Formed :=
  { formed_of_recordClone h with }

theorem formed_tombstone (h : r.Formed) (now : UInt64) : (tombstone r now).Formed := { h with }

theorem formed_relatedRecord (h : r.Formed) (fromId toId : UInt64) (kind : Option CString)
    (now : UInt64) : (relatedRecord r fromId toId kind now).Formed :=
  { h with }

theorem UpdatePatch.shaped_of_adopt {patch : UpdatePatch} {cur fact : Fact} (h : cur.Shaped)
    (hadopt : patch.adopt cur = .ok fact) : fact.Shaped := by
  unfold UpdatePatch.adopt at hadopt
  split at hadopt
  · cases hadopt
    exact h
  · split at hadopt
    · cases hadopt
    · rename_i f _ _
      cases hset : recordSetFact f.kind f.subject f.predicate f.objectId f.objectStr with
      | none =>
        rw [hset] at hadopt
        cases hadopt
      | some fact' =>
        rw [hset] at hadopt
        cases hadopt
        exact recordSetFact_shaped hset

theorem UpdatePatch.formed_apply {patch : UpdatePatch} {cur : MemoryRecord} {fact : Fact}
    (h : cur.Formed) (hadopt : patch.adopt cur.fact = .ok fact) (now : UInt64) :
    (patch.apply cur fact now).Formed where
  dim_iff := by
    unfold UpdatePatch.apply
    cases patch.embedding with
    | none => exact h.dim_iff
    | some e =>
      simp only [Option.elim_some]
      split
      · rename_i hne
        exact iff_of_false (right_ne_zero_of_mul hne) (left_ne_zero_of_mul hne)
      · rfl
  fact := UpdatePatch.shaped_of_adopt h.fact hadopt
  routes := h.routes

end AegisDB
