import AegisDB.Query.Maintain
import AegisDB.Query.Traverse

/-!
# The handlers of requests

The handlers of `qe_dispatch.c` for the operations on memories. A handler reads the fields of the
request, refuses what it cannot read, and calls the query engine under the namespace of the caller:
`handlers` is the family of them, as the dispatcher takes it.

An answer (`Answer`) is what the response is made of. How the response is written, which of its parts
the client asked to leave out, and the counters of usage are left out. The operations that show no
memories (`ping`, `stats`, `conflicts`, `predicates`, `snapshot`) answer `info`.
-/

namespace AegisDB

open Bytes

variable {F : Framing}

/-! ## Reading a request -/

def memoryTypeFromString (s : CString) : Option MemoryType :=
  if s = .ofString "working" then some .working
  else if s = .ofString "episodic" then some .episodic
  else if s = .ofString "semantic" then some .semantic
  else none

def buildFact (req : Json) : Except Status Fact :=
  match req.item "fact" with
  | none | some .null => .ok .zeroed
  | some (.object fields) =>
    let f := Json.object fields
    match jrU64 f "s", jrStr f "p" with
    | some subject, some pred =>
      if pred.bytes = [] ∨ factMaxPredicateLen < pred.bytes.length then .error .invalidRequest
      else
        match f.item "o" with
        | some (.string o) =>
          (recordSetFact .objString subject (some pred) 0 (some o)).elim (.error .internal) .ok
        | some (.object ofields) =>
          match jrU64 (.object ofields) "id" with
          | none => .error .invalidRequest
          | some oid =>
            (recordSetFact .objId subject (some pred) oid none).elim (.error .internal) .ok
        | _ => .error .invalidRequest
    | _, _ => .error .invalidRequest
  | some _ => .error .invalidRequest

def maxVecsPerRecord : ℕ := 64

/-- Some vectors of one dimension, one after the other. -/
def Embedding.ofVectors {dim : ℕ} (vs : List {v : List F32 // v.length = dim}) : Embedding where
  dim := dim
  vecCount := vs.length
  floats := vs.flatMap Subtype.val
  size_eq := by
    induction vs with
    | nil => simp
    | cons v vs ih => rw [List.flatMap_cons, List.length_append, ih, v.2, List.length_cons]; ring

theorem length_eq_one_mul (v : List F32) : v.length = 1 * v.length := (Nat.one_mul _).symm

def Embedding.single (v : List F32) : Embedding := ⟨v.length, 1, v, length_eq_one_mul v⟩

/-- The float of a number, which may be infinite here. -/
def Json.asFloat : Json → Option F32
  | .number d => some d.1.toF32
  | _ => none

/-- One vector of `embeddings`. -/
def parseVector (dim : ℕ) : Json → Option {v : List F32 // v.length = dim}
  | .array xs => (xs.mapM Json.asFloat).bind fun v => if h : v.length = dim then some ⟨v, h⟩ else none
  | _ => none

def parseVectors (cfg : DbConfig) (req : Json) : Except Status Embedding :=
  match req.item "embeddings" with
  | some (.array xs) =>
    if xs.isEmpty ∨ maxVecsPerRecord < xs.length then .error .invalidRequest
    else
      ((xs.mapM (parseVector cfg.embeddingDimensions)).map Embedding.ofVectors).elim
        (.error .invalidRequest) .ok
  | _ =>
    match jrFloatArray req "embedding" cfg.embeddingDimensions with
    | none => .error .invalidRequest
    | some [] => .ok .absent
    | some v => .ok (.single v)

def buildInputRecord (cfg : DbConfig) (req : Json) : Except Status MemoryRecord :=
  match (jrStr req "type").bind memoryTypeFromString, jrStr req "data" with
  | some type, some data =>
    -- a client that could supply a derivation could manufacture provenance
    if req.present "derivation" then .error .invalidRequest
    else
      match buildFact req with
      | .error st => .error st
      | .ok fact =>
        match jrStrArray req "tags" maxTags with
        | none => .error .invalidRequest
        | some tags =>
          match parseVectors cfg req with
          | .error st => .error st
          | .ok embedding => .ok
            { recordInit with
              type
              data := data.bytes
              importance := (jrF64 req "importance").elim recordInit.importance F64.toF32
              confidence := (jrF64 req "confidence").elim recordInit.confidence F64.toF32
              agentId := jrStr req "agent_id"
              fact
              tags
              embedding }
  | _, _ => .error .invalidRequest

/-- `build_pinned`: a namespaced caller writes into its own namespace. -/
def buildPinned (cfg : DbConfig) (req : Json) (ns : Option CString) : Except Status MemoryRecord :=
  (buildInputRecord cfg req).map fun r => { r with agentId := ns.elim r.agentId some }

/-- The position `s` of a pattern: a value, or a wildcard. -/
def patternSubject (pat : Json) : Except Status (Option UInt64) :=
  match pat.item "s" with
  | none | some .null => .ok none
  | some (.number _) => (jrU64 pat "s").elim (.error .invalidRequest) fun s => .ok (some s)
  | some (.string s) => if s = .ofString "*" then .ok none else .error .invalidRequest
  | some _ => .error .invalidRequest

/-- The position `p` of a pattern. -/
def patternPredicate (pat : Json) : Except Status (Option CString) :=
  match pat.item "p" with
  | none | some .null => .ok none
  | some (.string p) =>
    if p.bytes = [] then .error .invalidRequest
    else .ok (if p = .ofString "*" then none else some p)
  | some _ => .error .invalidRequest

/-- The position `o` of a pattern. -/
def patternObject (pat : Json) : Except Status (Option ObjectKey) :=
  match pat.item "o" with
  | none | some .null => .ok none
  | some (.string o) => .ok (if o = .ofString "*" then none else some (.str o))
  | some (.object fields) =>
    (jrU64 (.object fields) "id").elim (.error .invalidRequest) fun oid => .ok (some (.id oid))
  | some _ => .error .invalidRequest

/-- `parse_pattern`; at least one position is bound. -/
def parsePattern (ix : Indexes) (req : Json) : Except Status (Option Pattern) :=
  match req.item "pattern" with
  | none | some .null => .ok none
  | some (.object fields) =>
    if ix.facts.isNone then .error .notReady
    else do
      let pat := Json.object fields
      let subject ← patternSubject pat
      let predicate ← patternPredicate pat
      let object ← patternObject pat
      if subject.isNone ∧ predicate.isNone ∧ object.isNone then throw .invalidRequest
      return some ⟨subject, jrBool req "subsume" false, predicate, object⟩
  | some _ => .error .invalidRequest

/-- The time range of a request: it takes both bounds. -/
def parseTime (req : Json) : Option (UInt64 × UInt64) :=
  (jrU64 req "start_time").bind fun start => (jrU64 req "end_time").map fun stop => (start, stop)

/-- `parse_filters`; `none` is its error. -/
def parseFilters (req : Json) (ns : Option CString) : Option SearchParams :=
  (jrStrArray req "tags" maxTags).map fun tags =>
    { time := parseTime req
      type := (jrStr req "type").bind memoryTypeFromString
      maxImportance := (jrF64 req "max_importance").map F64.toF32
      agentId := ns.or (jrStr req "agent_id")
      matchAll := (jrStr req "match").getD (.ofString "all") ≠ .ofString "any"
      tags }

inductive Answer
  | error (e : WireError)
  | record (r : MemoryRecord)
  | batch (rs : List MemoryRecord)
  | versions (id : UInt64) (vs : List MemoryRecord)
  | deleted (id : UInt64)
  | deletedCount (n : ℕ)
  | exported (ns : CString) (rs : List MemoryRecord) (cursor : UInt64) (hasMore : Bool)
  | purged (ns : CString) (n : ℕ) (dryRun compacted : Bool)
  | counted (n : ℕ) (capped : Bool)
  | consolidated (clusters merged : ℕ)
  | forgotten (scanned forgotten : ℕ) (dryRun : Bool) (usageWeight : F32)
  | hits (cands : List Cand) (subsumeTruncated : Bool)
  | related (fromId toId : UInt64) (kind : Option CString)
  | walked (nodes : List TravNode) (capped : Bool)
  | info

def Answer.records : Answer → List MemoryRecord
  | record r => [r]
  | batch rs | versions _ rs | exported _ rs _ _ => rs
  | hits cands _ => cands.map Cand.record
  | walked nodes _ => nodes.map TravNode.record
  | _ => []

/-- `json_error_status`. -/
def Answer.status (st : Status) : Answer := .error st.error

/-- The answer of an operation, an error if it fails. -/
def Answer.ofResult {α : Type} (f : α → Answer) : Except Status α → Answer
  | .error st => .status st
  | .ok a => f a

/-! ## Handlers -/

section

variable (R : Ranking) (cfg : DbConfig) (env : Sample) (ns : Option CString) (req : Json)

def maxBatch : ℕ := 1000

def insertTtl (req : Json) : UInt64 := (jrU64 req "ttl_ms").getD 0

/-- The loop of `handle_insert_batch`: the records that could be inserted. -/
def insertAll : List (Json × MemoryRecord) → Database F → Database F × List MemoryRecord
  | [], db => (db, [])
  | (spec, r) :: rest, db =>
    let (db, res) := qeInsert cfg env db r (jrStr spec "session_id") (insertTtl spec)
    let (db, rs) := insertAll rest db
    (db, match res with
      | .ok r => r :: rs
      | .error _ => rs)

/-- `handle_insert_batch`: every element is built before the first one is inserted. -/
def handleInsertBatch (specs : List Json) (db : Database F) : Database F × Answer :=
  if specs.isEmpty ∨ maxBatch < specs.length then (db, .status .invalidRequest)
  else
    match specs.mapM fun spec => (buildPinned cfg spec ns).map fun r => (spec, r) with
    | .error st => (db, .status st)
    | .ok inputs =>
      let (db, rs) := insertAll cfg env inputs db
      (db, .batch rs)

def handleInsert (db : Database F) : Database F × Answer :=
  match req.item "records" with
  | some (.array specs) => handleInsertBatch cfg env ns specs db
  | _ =>
    match buildPinned cfg req ns with
    | .error st => (db, .status st)
    | .ok r =>
      let (db, res) := qeInsert cfg env db r (jrStr req "session_id") (insertTtl req)
      (db, .ofResult .record res)

/-- Whose records a read is about: the caller's own, or those of the agent it names. -/
def subjectOf : Option CString := ns.or (jrStr req "agent_id")

def handleGet (db : Database F) : Answer :=
  match jrU64 req "id" with
  | none => .status .invalidRequest
  | some id =>
    .ofResult .record <|
      match jrU64 req "as_of" with
      | some asOf => qeGetAsOf cfg db id (subjectOf ns req) asOf
      | none => qeGet env db id (subjectOf ns req)

def handleHistory (db : Database F) : Answer :=
  match jrU64 req "id" with
  | none => .status .invalidRequest
  | some id => .ofResult (.versions id) (qeHistory cfg db id (subjectOf ns req))

/-- A field that is neither an array nor `null`. -/
def notVectors (key : String) : Bool :=
  match req.item key with
  | none | some .null | some (.array _) => false
  | some _ => true

/-- A field that is an array with elements. -/
def hasVectors (key : String) : Bool :=
  match req.item key with
  | some (.array xs) => !xs.isEmpty
  | _ => false

/-- The vectors of an update: absent, cleared by `null` or by an empty array, or replaced. -/
def updateVectors : Except Status (Option Embedding) :=
  if (req.item "embedding").isNone ∧ (req.item "embeddings").isNone then .ok none
  else if notVectors req "embedding" || notVectors req "embeddings" then .error .invalidRequest
  else if hasVectors req "embedding" || hasVectors req "embeddings" then
    (parseVectors cfg req).map some
  else .ok (some .absent)

/-- The patch of `handle_update`. -/
def buildPatch : Except Status UpdatePatch :=
  if req.present "fact" || req.present "derivation" then .error .invalidRequest
  else
    match jrStrArray req "tags" maxTags with
    | none => .error .invalidRequest
    | some tags => (updateVectors cfg req).map fun embedding =>
      { data := (jrStr req "data").map CString.bytes
        importance := (jrF64 req "importance").map F64.toF32
        confidence := (jrF64 req "confidence").map F64.toF32
        embedding
        -- any value of the field sets the tags, also one that is no array
        tags := (req.item "tags").map fun _ => tags
        fact := none }

def handleUpdate (db : Database F) : Database F × Answer :=
  match jrU64 req "id" with
  | none => (db, .status .invalidRequest)
  | some id =>
    match buildPatch cfg req with
    | .error st => (db, .status st)
    | .ok patch =>
      let (db, res) := qeUpdate cfg env db id patch ns
      (db, .ofResult .record res)

/-- `handle_delete`: by id, or by the filters of the request. -/
def handleDelete (db : Database F) : Database F × Answer :=
  match jrU64 req "id" with
  | some id =>
    let (db, res) := qeDelete cfg env db id ns
    (db, .ofResult (fun _ => .deleted id) res)
  | none =>
    if req.present "pattern" then (db, .status .invalidRequest)
    else
      match parseFilters req ns with
      | none => (db, .status .invalidRequest)
      | some p =>
        let (db, res) := qeDeleteByQuery R cfg env db p ns
        (db, .ofResult .deletedCount res)

def exportAnswer (target : CString) (after : UInt64) (page : List MemoryRecord × Bool) : Answer :=
  .exported target page.1 (page.1.getLast?.elim after fun r => r.id) page.2

def handleExport (db : Database F) : Answer :=
  match (subjectOf ns req).filter fun t => t.bytes ≠ [] with
  | none => .status .invalidRequest
  | some target =>
    let after := (jrU64 req "after_id").getD 0
    let limit := (jrU64 req "limit").elim 100 fun v => min v.toNat 1000
    .ofResult (exportAnswer target after) (qeExport cfg env db (some target) after limit)

/-- `handle_purge`; `acts` are the steps of its compaction. -/
def handlePurge (acts : List (Act F)) (db : Database F) : Database F × Answer :=
  match (subjectOf ns req).filter fun t => t.bytes ≠ [] with
  | none => (db, .status .invalidRequest)
  | some target =>
    let dryRun := jrBool req "dry_run" false
    match qePurgeNamespace cfg env db (some target) dryRun with
    | (db, .error st) => (db, .status st)
    | (db, .ok purged) =>
      if !dryRun && jrBool req "compact" true && 0 < purged then
        let (store, compacted) := compactionRunOnce cfg.fsyncBatch acts db.store
        ({ db with store }, .purged target purged dryRun compacted)
      else (db, .purged target purged dryRun false)

def handleCount (db : Database F) : Answer :=
  match parseFilters req ns with
  | none => .status .invalidRequest
  | some p =>
    match parsePattern db.ix req with
    | .error st => .status st
    | .ok pattern => .ofResult (fun c => .counted c.1 c.2) (qeCount R cfg env db { p with pattern })

/-- `CONSOLIDATE_DEFAULT_MIN`: `0.95` as a float. -/
def consolidateDefaultMin : F32 := ⟨0x3F733333⟩

def handleConsolidate (db : Database F) : Database F × Answer :=
  let minSimilarity := (jrF64 req "min_similarity").elim consolidateDefaultMin F64.toF32
  let (db, res) := qeConsolidate R cfg env db ns minSimilarity
  (db, .ofResult (fun c => .consolidated c.1 c.2) res)

/-- `FORGET_DEFAULT_HALF_LIFE_MS`: seven days. -/
def forgetDefaultHalfLifeMs : UInt64 := 604800000

/-- `FORGET_DEFAULT_MIN_RETENTION`: `0.05f`. -/
def forgetDefaultMinRetention : F32 := ⟨0x3D4CCCCD⟩

/-- `handle_forget`; an unknown type is refused. -/
def handleForget (db : Database F) : Database F × Answer :=
  match (jrStr req "type").elim (some .episodic) memoryTypeFromString with
  | none => (db, .status .invalidRequest)
  | some type =>
    let usageWeight := (jrF64 req "usage_weight").elim .one F64.toF32
    if usageWeight.Lt .zero then (db, .status .invalidRequest)
    else
      let halfLife := (jrU64 req "half_life_ms").getD 0
      let dryRun := jrBool req "dry_run" false
      let (db, res) := qeForget R cfg env db ns
        { type
          halfLifeMs := if halfLife ≠ 0 then halfLife else forgetDefaultHalfLifeMs
          minRetention := (jrF64 req "min_retention").elim forgetDefaultMinRetention F64.toF32
          usageWeight
          dryRun
          maxForget := ((jrU64 req "max_forget").getD 0).toNat }
      (db, .ofResult (fun c => .forgotten c.1 c.2 dryRun usageWeight) res)

def maxTopK : ℕ := 1000

/-- The parameters of `handle_search`. -/
def parseSearch (ix : Indexes) : Except Status SearchParams :=
  match parseFilters req ns, jrFloatArray req "embedding" cfg.embeddingDimensions with
  | some p, some embedding => (parsePattern ix req).map fun pattern =>
    let halfLife := (jrU64 req "half_life_ms").getD 0
    { p with
      topK := (jrU64 req "top_k").elim 0 fun v => min v.toNat maxTopK
      offset := (jrU64 req "offset").elim 0 fun v => min v.toNat maxOffset
      minScore := (jrF64 req "min_score").map F64.toF32
      halfLifeMs := if halfLife ≠ 0 then max halfLife minHalfLifeMs else 0
      oldestFirst := (jrStr req "order").getD .empty = .ofString "oldest"
      query := jrStr req "query"
      embedding
      pattern }
  | _, _ => .error .invalidRequest

def handleSearch (db : Database F) : Answer :=
  if (jrStr req "query").any (fun q => q.bytes ≠ []) ∧ db.ix.lex.isNone then
    .error ⟨"NOT_READY",
      "lexical index is disabled (--no-lexical-index), so `query` cannot be served"⟩
  else
    match parseSearch cfg ns req db.ix with
    | .error st => .status st
    | .ok p => .ofResult (fun c => .hits c.1 c.2) (qeSearch R cfg env db p)

def handlePromote (db : Database F) : Database F × Answer :=
  match jrU64 req "working_id",
    memoryTypeFromString ((jrStr req "to_type").getD (.ofString "episodic")) with
  | some wid, some toType =>
    let (db, res) := qePromote cfg env db (jrStr req "session_id") wid toType ns
    (db, .ofResult .record res)
  | _, _ => (db, .status .invalidRequest)

def handleRelate (db : Database F) : Database F × Answer :=
  match jrU64 req "from_id", jrU64 req "to_id" with
  | some fromId, some toId =>
    let kind := jrStr req "kind"
    let (db, res) := qeRelate cfg env db fromId toId kind ns
    (db, .ofResult (fun _ => .related fromId toId kind) res)
  | _, _ => (db, .status .invalidRequest)

def maxTraverseDepth : ℕ := 64

def maxTraverseKinds : ℕ := 16

def parseDirection : Option TraverseDirection :=
  let dir := (jrStr req "direction").getD (.ofString "out")
  if dir = .ofString "out" then some .out
  else if dir = .ofString "in" then some .in
  else if dir = .ofString "both" then some .both
  else none

/-- The kinds of a traversal: an array that parses whole, or nothing. -/
def parseKinds : Option (List CString) :=
  (jrStrArray req "kinds" maxTraverseKinds).bind fun kinds =>
    match req.item "kinds" with
    | none | some .null => some kinds
    | some (.array xs) => if xs.length = kinds.length then some kinds else none
    | some _ => none

def handleTraverse (db : Database F) : Answer :=
  match jrU64 req "id", parseDirection req, parseKinds req with
  | some id, some direction, some kinds =>
    .ofResult (fun c => .walked c.1 c.2) <| qeTraverse cfg env db
      { startId := id
        depth := min ((jrU64 req "depth").getD 1).toNat maxTraverseDepth
        agentFilter := subjectOf ns req
        direction
        kinds }
  | _, _, _ => .status .invalidRequest

end

/-- What the outside does to an operation, beside the clock. -/
structure Outcomes (F : Framing) where
  authOn : Bool
  memoryFull : Bool
  fsyncOk : Bool
  compaction : List (Act F)

def Outcomes.sample (o : Outcomes F) (env : Env) : Sample := ⟨env.now, o.authOn, o.memoryFull, o.fsyncOk⟩

/-- The handlers of `OPS`. -/
def handlers (R : Ranking) (cfg : DbConfig) (o : Outcomes F) : Handlers (Database F) Answer :=
  fun op ctx req env db =>
    let ns := ctx.bind AuthCtx.ns
    let sample := o.sample env
    match op with
    | .insert => handleInsert cfg sample ns req db
    | .get => (db, handleGet cfg sample ns req db)
    | .history => (db, handleHistory cfg ns req db)
    | .update => handleUpdate cfg sample ns req db
    | .delete => handleDelete R cfg sample ns req db
    | .export => (db, handleExport cfg sample ns req db)
    | .purge => handlePurge cfg sample ns req o.compaction db
    | .search => (db, handleSearch R cfg sample ns req db)
    | .count => (db, handleCount R cfg sample ns req db)
    | .consolidate => handleConsolidate R cfg sample ns req db
    | .forget => handleForget R cfg sample ns req db
    | .promote => handlePromote cfg sample ns req db
    | .relate => handleRelate cfg sample ns req db
    | .traverse => (db, handleTraverse cfg sample ns req db)
    -- the log is fsynced before it is copied
    | .snapshot =>
      ({ db with store := { db.store with log := (db.store.log.logFsync o.fsyncOk).1 } }, .info)
    | .ping | .stats | .conflicts | .predicates => (db, .info)
    -- answered by the dispatcher
    | .tokenList | .tokenAdd | .tokenRevoke => (db, .info)

end AegisDB
