import AegisDB.Query.Search

/-!
# Maintenance

`qe_maint.c` and the entry of the compaction: export, purge, the versions of a record, the sweep of
expired records, consolidation and forgetting. The bulk operations take the live ids in the order of
the buckets, and run an operation on a single record for each of them; what holds of one step of such a
loop therefore has to be kept by the steps.
-/

namespace AegisDB

open Bytes

variable {F : Framing}

/-- `collect_ids`: the ids of the live entries that are kept, in bucket order. -/
def collectIds (h : HashIndex) (keep : UInt64 → HashEntry → Bool) : List UInt64 :=
  ((liveEntries h).filter fun x => keep x.1 x.2).map Prod.fst

theorem mem_collectIds {h : HashIndex} {keep : UInt64 → HashEntry → Bool} {id : UInt64} :
    id ∈ collectIds h keep ↔ ∃ e, hashIndexGet h id = some e ∧ keep id e = true := by
  simp only [collectIds, liveEntries, List.mem_map, List.mem_filter, HashIndex.mem_entries,
    hashIndexGet_eq_some, Prod.exists, Bool.not_eq_true']
  constructor
  · rintro ⟨id, e, he, rfl⟩
    exact ⟨e, he⟩
  · rintro ⟨e, he⟩
    exact ⟨id, e, he, rfl⟩

theorem Sound.exists_entry {s : Db} (hs : Sound F s.log.bytes s.hash.lookup) {id : UInt64}
    {r : MemoryRecord} (h : loadRecord F s id = .ok r) :
    ∃ e, hashIndexGet s.hash id = some e ∧ e.type = r.type ∧ e.expiresAt = r.expiresAt := by
  obtain ⟨-, o, n, he⟩ := hs.entryOf_loadRecord h
  exact ⟨_, he, rfl, rfl⟩

def snapshotLiveIds (h : HashIndex) (afterId : UInt64) : List UInt64 :=
  collectIds h fun id _ => afterId < id

/-! ## Export -/

/-- The loop of `qe_export`: at most so many records of the caller, and whether ids are left. -/
def exportLoop (env : Sample) (db : Database F) (ns : Option CString) :
    ℕ → List UInt64 → List MemoryRecord × Bool
  | _, [] => ([], false)
  | 0, _ :: _ => ([], true)
  | left + 1, id :: ids =>
    match qeGet env db id ns with
    | .error _ => exportLoop env db ns (left + 1) ids
    | .ok r =>
      let (rs, more) := exportLoop env db ns left ids
      (r :: rs, more)

def qeExport (cfg : DbConfig) (env : Sample) (db : Database F) (ns : Option CString)
    (afterId : UInt64) (limit : ℕ) : Except Status (List MemoryRecord × Bool) :=
  if !cfg.phase 1 then .error .notReady
  else
    .ok (exportLoop env db ns (if limit = 0 then 100 else limit)
      (sortBy UInt64.toNat (snapshotLiveIds db.store.hash afterId)))

def qePurgeNamespace (cfg : DbConfig) (env : Sample) (db : Database F) (ns : Option CString)
    (dryRun : Bool) : Database F × Except Status ℕ :=
  if !cfg.phase 1 then (db, .error .notReady)
  else if !(ns.any fun n => n.bytes ≠ []) then (db, .error .invalidRequest)
  else
    let ids := snapshotLiveIds db.store.hash 0
    if dryRun then (db, .ok (ids.countP fun id => (qeGet env db id ns).isOk))
    else
      let (db, purged) := deleteAll cfg env ns ids db
      (db, .ok purged)

/-- The step is one of the compaction itself. -/
def Act.compacts : Act F → Bool
  | .write .. | .writeFail _ | .flush _ | .sync _ => false
  | _ => true

/-- `compaction_run_once` without another writer: the run of its steps, and whether it returned
zero. It returns at once during another compaction. -/
def compactionRunOnce (batch : ℕ) (acts : List (Act F)) (s : Db) : Db × Bool :=
  match run (engineStep F batch) ⟨s, .idle⟩ (acts.filter Act.compacts) with
  | some ⟨s', .returned outcome⟩ => (s', outcome = .done)
  | _ => (s, false)

/-- The records a scan of the log delivers. -/
def logRecords (F : Framing) (l : LogFile) : List MemoryRecord :=
  (logScan F (always fun _ p acc => acc ++ (recordDecode p).toList) l.bytes 0 l.size []).1

/-- `qe_history`: one check of the last version suffices where all versions have the same owner. -/
def qeHistory (cfg : DbConfig) (db : Database F) (id : UInt64) (ns : Option CString) :
    Except Status (List MemoryRecord) :=
  if !cfg.phase 1 then .error .notReady
  else
    let versions := (logRecords F db.store.log).filter fun r => r.id = id
    match versions.getLast? with
    | none => .error .notFound
    | some last => if nsDenies ns last then .error .notFound else .ok versions

/-- `qe_get_as_of`: the last version that is not younger than the time. -/
def qeGetAsOf (cfg : DbConfig) (db : Database F) (id : UInt64) (ns : Option CString)
    (asOf : UInt64) : Except Status MemoryRecord :=
  if !cfg.phase 1 then .error .notReady
  else
    let versions := (logRecords F db.store.log).filter fun r => r.id = id && r.updated ≤ asOf
    match versions.getLast? with
    | none => .error .notFound
    | some best => if best.deleted || nsDenies ns best then .error .notFound else .ok best

def qeSweepExpired (cfg : DbConfig) (env : Sample) (db : Database F) : Database F × ℕ :=
  deleteAll cfg env none
    (collectIds db.store.hash fun _ e => e.expiresAt ≠ 0 && e.expiresAt ≤ env.now) db

/-! ## Consolidation -/

def factsEqual (a b : Fact) : Bool :=
  a.kind = b.kind && a.subject = b.subject &&
    (a.predicate.isSome && a.predicate = b.predicate) &&
    if a.kind = .objId then a.objectId = b.objectId
    else a.objectStr.isSome && a.objectStr = b.objectStr

/-- The first record is the better survivor: later updated, or of a greater id. -/
def survives (a b : MemoryRecord) : Bool :=
  b.updated < a.updated || (a.updated = b.updated && b.id < a.id)

/-- The place of the survivor among the records behind a first one, of which the best is given. -/
def survivorPlace : MemoryRecord × ℕ → List (MemoryRecord × ℕ) → MemoryRecord × ℕ
  | best, [] => best
  | best, x :: xs => survivorPlace (if survives x.1 best.1 then x else best) xs

/-- The fact a survivor without one adopts: that of most of the other members. -/
def adoptedFact (others : List MemoryRecord) : Option Fact :=
  (others.foldl (fun best r =>
    let votes := others.countP fun o => o.fact.kind ≠ .none && factsEqual o.fact r.fact
    if r.fact.kind ≠ .none ∧ best.1 < votes then (votes, some r.fact) else best) (0, none)).2

/-- The larger one of two floats, the first one when they do not compare. -/
def floatMax (a b : F32) : F32 := if a.Lt b then b else a

/-- The tags of some records, each of them once. -/
def unionTags (rs : List MemoryRecord) : List CString :=
  (rs.flatMap fun r => r.tags).foldl (fun acc t => if acc.contains t then acc else acc ++ [t]) []

/-- The patch that folds some records into the survivor. -/
def mergePatch (members : List MemoryRecord) (adopt : Option Fact) : UpdatePatch where
  data := none
  importance := some ((members.map fun r => r.importance).foldl floatMax .zero)
  confidence := some ((members.map fun r => r.confidence).foldl floatMax .zero)
  embedding := none
  tags := some (unionTags members)
  fact := adopt

/-- The kind of the edges from a conclusion to its premises. -/
def derivedFrom : CString := .ofString "derived_from"

/-- The kind of the edge from the survivor of a merge to what it absorbed. -/
def supersedes : CString := .ofString "supersedes"

section

variable (cfg : DbConfig) (env : Sample) (ns : Option CString)

/-- Relate a record to several targets, whatever comes of it. -/
def relateAll (fromId : UInt64) (rels : List Relationship) (db : Database F) : Database F :=
  rels.foldl (fun db rel => (qeRelate cfg env db fromId rel.toId rel.kind ns).1) db

def repointDependents (oldId heir : UInt64) (db : Database F) : Database F :=
  match db.ix.edges with
  | none => db
  | some e =>
    (edgeIndexSources e oldId [derivedFrom]).foldl
      (fun db src => (qeRelate cfg env db src.fromId heir (some derivedFrom) ns).1) db

/-- The tombstones of the losers of a merge, with the lineage. -/
def absorbAll (survivor : UInt64) : List MemoryRecord → Database F → Database F × ℕ
  | [], db => (db, 0)
  | r :: losers, db =>
    let db := (qeRelate cfg env db survivor r.id (some supersedes) ns).1
    let db := repointDependents cfg env ns r.id survivor db
    let (db, res) := qeDelete cfg env db r.id ns
    let (db, n) := absorbAll survivor losers db
    (db, if res.isOk then n + 1 else n)

/-- `merge_cluster`: how many records were merged away. -/
def mergeCluster (recs : List MemoryRecord) (db : Database F) : Database F × ℕ :=
  match recs.zipIdx with
  | [] => (db, 0)
  | x :: xs =>
    let (sv, place) := survivorPlace x xs
    let adopt := if sv.fact.kind = .none then adoptedFact (recs.eraseIdx place) else none
    let svFact := adopt.getD sv.fact
    let members := (recs.zipIdx.filter fun x =>
      x.2 = place || x.1.fact.kind = .none || factsEqual x.1.fact svFact).map Prod.fst
    -- the survivor is the only member: nothing to fold
    if members.length ≤ 1 then (db, 0)
    else
      match qeUpdate cfg env db sv.id (mergePatch members adopt) ns with
      | (db, .error _) => (db, 0)
      | (db, .ok _) =>
        let losers := members.filter fun r => r.id ≠ sv.id
        let db := losers.foldl (fun db r => relateAll cfg env ns sv.id r.relationships db) db
        absorbAll cfg env ns sv.id losers db

end

def consolidateCap : ℕ := 256

/-- The query for the near-duplicates of a record. -/
def duplicatesOf (ns : Option CString) (minSimilarity : F32) (r : MemoryRecord) : SearchParams :=
  { embedding := r.embedding.floats.take r.embedding.dim
    agentId := ns
    type := some .semantic
    minScore := some minSimilarity
    topK := consolidateCap }

/-- The loop of `qe_consolidate`: the clusters that were looked at, and the records merged away. -/
def consolidateLoop (R : Ranking) (cfg : DbConfig) (env : Sample) (ns : Option CString)
    (minSimilarity : F32) : List UInt64 → Database F → Database F × ℕ × ℕ
  | [], db => (db, 0, 0)
  | id :: ids, db =>
    match qeGet env db id ns with
    -- merged away by an earlier turn, or not the caller's
    | .error _ => consolidateLoop R cfg env ns minSimilarity ids db
    | .ok r =>
      if r.embedding.dim = 0 then consolidateLoop R cfg env ns minSimilarity ids db
      else
        match qeSearch R cfg env db (duplicatesOf ns minSimilarity r) with
        | .error _ => consolidateLoop R cfg env ns minSimilarity ids db
        | .ok (hits, _) =>
          if hits.length < 2 then consolidateLoop R cfg env ns minSimilarity ids db
          else
            let (db, merged) := mergeCluster cfg env ns (hits.map fun c => c.record) db
            let (db, clusters, more) := consolidateLoop R cfg env ns minSimilarity ids db
            (db, clusters + 1, merged + more)

def qeConsolidate (R : Ranking) (cfg : DbConfig) (env : Sample) (db : Database F)
    (ns : Option CString) (minSimilarity : F32) : Database F × Except Status (ℕ × ℕ) :=
  if !cfg.phase 3 then (db, .error .notReady)
  else
    let (db, counts) := consolidateLoop R cfg env ns minSimilarity
      (collectIds db.store.hash fun _ e => e.type = .semantic) db
    (db, .ok counts)

def minHalfLifeMs : UInt64 := 1000

/-- What `qe_forget` is asked for. -/
structure ForgetParams where
  type : MemoryType
  halfLifeMs : UInt64
  minRetention : F32
  usageWeight : F32
  dryRun : Bool
  maxForget : ℕ

/-- The loop of `qe_forget`: the records that were looked at, and those that were forgotten. -/
def forgetLoop (R : Ranking) (cfg : DbConfig) (env : Sample) (ns : Option CString)
    (p : ForgetParams) : List UInt64 → ℕ → Database F → Database F × ℕ × ℕ
  | [], forgotten, db => (db, 0, forgotten)
  | id :: ids, forgotten, db =>
    if p.maxForget ≠ 0 ∧ p.maxForget ≤ forgotten then (db, 0, forgotten)
    else
      match qeGet env db id ns with
      | .error _ => forgetLoop R cfg env ns p ids forgotten db
      | .ok r =>
        if R.retained (max p.halfLifeMs minHalfLifeMs) p.usageWeight p.minRetention env.now r then
          let (db, scanned, forgotten) := forgetLoop R cfg env ns p ids forgotten db
          (db, scanned + 1, forgotten)
        else if p.dryRun then
          let (db, scanned, forgotten) := forgetLoop R cfg env ns p ids (forgotten + 1) db
          (db, scanned + 1, forgotten)
        else
          let (db, res) := qeDelete cfg env db id ns
          let (db, scanned, forgotten) :=
            forgetLoop R cfg env ns p ids (if res.isOk then forgotten + 1 else forgotten) db
          (db, scanned + 1, forgotten)

def qeForget (R : Ranking) (cfg : DbConfig) (env : Sample) (db : Database F) (ns : Option CString)
    (p : ForgetParams) : Database F × Except Status (ℕ × ℕ) :=
  if !cfg.phase 1 then (db, .error .notReady)
  else
    let (db, counts) := forgetLoop R cfg env ns p
      (collectIds db.store.hash fun _ e => e.type = p.type) 0 db
    (db, .ok counts)

end AegisDB
