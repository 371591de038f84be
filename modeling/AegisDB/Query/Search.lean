import AegisDB.Foundations.BoundedHeap
import AegisDB.Query.Records

/-!
# Search, count and delete by query

`qe_search.c`. A query draws the ids of its candidates from one of the indexes, which are those of all
tenants; it then loads each of them, and keeps the records that meet its filters. So what is returned
meets the filters wherever the candidates came from (`passes_of_mem_gather`), and what is not a
candidate is not returned.

The two ranked sources (the nearest vectors, BM25) and the arithmetic of the scores are parameters
(`Ranking`). Scores are compared by their order keys, so that a score is taken not to be a NaN.
-/

namespace AegisDB

open List Function Option

variable {F : Framing}

/-! ## Parameters -/

/-- A pattern of facts; a position that is missing is a wildcard. -/
structure Pattern where
  subject : Option UInt64
  /-- `subsume`: members of the subject answer too. -/
  subsume : Bool
  predicate : Option CString
  object : Option ObjectKey

structure SearchParams where
  time : Option (UInt64 × UInt64) := none
  tags : List CString := []
  matchAll : Bool := false
  embedding : List F32 := []
  query : Option CString := none
  type : Option MemoryType := none
  agentId : Option CString := none
  topK : ℕ := 0
  offset : ℕ := 0
  minScore : Option F32 := none
  halfLifeMs : UInt64 := 0
  maxImportance : Option F32 := none
  pattern : Option Pattern := none
  oldestFirst : Bool := false

def maxOffset : ℕ := 100000

def searchFetchCap : ℕ := 8192

/-- The object of a fact is that of the pattern. -/
def matchesObject (f : Fact) : ObjectKey → Bool
  | .id n => f.kind = .objId && f.objectId = n
  | .str s => f.kind = .objString && f.objectStr = some s

/-- `matches_pattern`; `sub` are the members that answer for the subject. -/
def matchesPattern (sub : List UInt64) (pat : Pattern) (r : MemoryRecord) : Bool :=
  r.fact.kind ≠ .none && r.fact.predicate.isSome &&
    (pat.subject.all fun s => r.fact.subject = s || sub.contains r.fact.subject) &&
    (pat.predicate.all fun p => r.fact.predicate = some p) &&
    pat.object.all fun o => matchesObject r.fact o

/-- The tags of a record under the match mode. -/
def matchesTags (p : SearchParams) (r : MemoryRecord) : Bool :=
  if p.matchAll then p.tags.all r.tags.contains else p.tags.any r.tags.contains

def passesFilters (sub : List UInt64) (p : SearchParams) (r : MemoryRecord) : Bool :=
  !r.deleted && (p.type.all fun t => r.type = t) &&
    (p.maxImportance.all fun m => !decide (m.Lt r.importance)) &&
    (p.agentId.all fun a => r.agentId = some a) &&
    (p.time.all fun t => t.1 ≤ r.created && r.created ≤ t.2) &&
    (p.pattern.all fun pat => matchesPattern sub pat r) &&
    (p.tags.isEmpty || matchesTags p r)

/-! ## Candidates -/

inductive CandSource
  | filter
  | semantic
  | lexical
  | hybrid
  deriving DecidableEq

/-- `ScoredId`: an id with what the ranked sources say of it. A rank of zero is a missing one. -/
structure ScoredId where
  id : UInt64
  score : F32 := .zero
  sim : F32 := .zero
  bm25 : F32 := .zero
  rrf : F32 := .zero
  srank : ℕ := 0
  lrank : ℕ := 0

/-- `Cand`: a record with what it is ranked by. -/
structure Cand where
  record : MemoryRecord
  score : F32
  sim : F32
  bm25 : F32
  rrf : F32
  srank : ℕ
  lrank : ℕ
  weight : F32
  recency : F32

/-- The ranked sources, and the arithmetic of scores. -/
structure Ranking where
  /-- `semantic_index_search`: at most so many records and their similarities, best first. -/
  semantic : SemanticIndex → List F32 → ℕ → List (UInt64 × F32)
  /-- `lexical_index_search`: at most so many records and their scores, best first. -/
  lexical : LexicalIndex → CString → ℕ → List (UInt64 × F32)
  mul : F32 → F32 → F32
  add : F32 → F32 → F32
  /-- `1.0F / (RRF_K + rank)`. -/
  reciprocal : ℕ → F32
  /-- `0.5 ^ (age / half_life)`. -/
  decay : UInt64 → UInt64 → F32
  /-- With a half-life and a weight of its use, the retention of a record is at least the minimum. -/
  retained : (halfLifeMs : UInt64) → (usageWeight minRetention : F32) → (now : UInt64) →
    MemoryRecord → Bool

namespace Ranking

variable (R : Ranking)

/-- What one run of entries with the same id adds up to. -/
def mergeRun (x y : ScoredId) : ScoredId :=
  { x with
    srank := if y.srank ≠ 0 then y.srank else x.srank
    sim := if y.srank ≠ 0 then y.sim else x.sim
    lrank := if y.lrank ≠ 0 then y.lrank else x.lrank
    bm25 := if y.lrank ≠ 0 then y.bm25 else x.bm25 }

/-- Each run of entries with the same id as one entry. -/
def foldRuns : List ScoredId → List ScoredId
  | [] => []
  | x :: xs =>
    match foldRuns xs with
    | [] => [x]
    | y :: ys => if x.id = y.id then mergeRun x y :: ys else x :: y :: ys

def fused (x : ScoredId) : ScoredId :=
  let rrf := if x.srank ≠ 0 then R.add .zero (R.reciprocal x.srank) else .zero
  let rrf := if x.lrank ≠ 0 then R.add rrf (R.reciprocal x.lrank) else rrf
  { x with rrf, score := rrf }

def semanticIds (hits : List (UInt64 × F32)) : List ScoredId :=
  hits.mapIdx fun i x => { id := x.1, score := x.2, sim := x.2, srank := i + 1 }

def lexicalIds (hits : List (UInt64 × F32)) : List ScoredId :=
  hits.mapIdx fun i x => { id := x.1, score := x.2, bm25 := x.2, lrank := i + 1 }

def rrfFuse (shits lhits : List (UInt64 × F32)) : List ScoredId :=
  (foldRuns (sortBy (fun x => x.id.toNat) (semanticIds shits ++ lexicalIds lhits))).map R.fused

/-- The semantic hits of a query, and whether there are no more of them. -/
def semanticHits (ix : Indexes) (p : SearchParams) (fetch : ℕ) : List (UInt64 × F32) × Bool :=
  let hits := R.semantic ix.sem p.embedding fetch
  (hits.filter fun x => p.minScore.all fun m => decide (m.Le x.2),
    hits.length < fetch)

/-- The lexical hits of a query, and whether there are no more of them. -/
def lexicalHits (ix : Indexes) (p : SearchParams) (fetch : ℕ) : List (UInt64 × F32) × Bool :=
  let hits := (ix.lex.map fun lx => R.lexical lx (p.query.getD .empty) fetch).getD []
  (hits, hits.length < fetch)

/-- The record of a candidate with its score; a query of both sources is not weighted. -/
def scored (src : CandSource) (p : SearchParams) (now : UInt64) (x : ScoredId) (r : MemoryRecord) :
    Cand :=
  let w := R.mul r.importance r.confidence
  let weight := if src = .hybrid ∨ w.Le .zero then F32.one else w
  let age := if r.updated < now then now - r.updated else 0
  let recency := if p.halfLifeMs ≠ 0 ∧ src ≠ .hybrid then R.decay age p.halfLifeMs else F32.one
  { record := r, score := R.mul (R.mul weight x.score) recency, sim := x.sim, bm25 := x.bm25
    rrf := x.rrf, srank := x.srank, lrank := x.lrank, weight, recency }

/-- The record of a candidate that is not ranked. -/
def unscored (R : Ranking) (r : MemoryRecord) : Cand :=
  { record := r, score := .zero, sim := .zero, bm25 := .zero, rrf := .zero, srank := 0, lrank := 0
    weight := R.mul r.importance r.confidence, recency := .one }

end Ranking

/-- `fact_index_by_object` at the object of a pattern, where it does not fail. -/
def factIndexByKey (f : FactIndex) (o : ObjectKey) (predicate : Option CString) : List UInt64 :=
  match o with
  | .id n => (factIndexByObject f .objId n none predicate).getD []
  | .str s => (factIndexByObject f .objString 0 (some s) predicate).getD []

/-- The lookup of a pattern, by the narrowest position the index answers. -/
def patternIds (facts : Option FactIndex) (pat : Pattern) (sub : List UInt64) : List UInt64 :=
  match facts, pat.subject, pat.object with
  | none, _, _ => []
  -- one lookup for the subject, and one for each of its members
  | some f, some s, _ => (s :: sub).flatMap fun s => factIndexBySubject f s pat.predicate
  | some f, none, some o => factIndexByKey f o pat.predicate
  | some f, none, none => factIndexByPredicate f pat.predicate

/-- The ids of a query that is not ranked, and whether there are no more of them. -/
def filterIds (ix : Indexes) (p : SearchParams) (sub : List UInt64) (loadCap : ℕ) :
    List UInt64 × Bool :=
  match p.time, p.pattern with
  | some (start, stop), _ =>
    if p.oldestFirst then
      let ids := timeIndexRange ix.time start stop loadCap
      (ids, loadCap = 0 || ids.length < loadCap)
    else
      let (ids, trunc) := timeIndexRangeRecent ix.time start stop loadCap
      (ids, !trunc)
  | none, some pat => (patternIds ix.facts pat sub, true)
  | none, none =>
    if p.tags ≠ [] then (tagIndexQuery ix.tags p.tags p.matchAll, true)
    else
      let (ids, trunc) := timeIndexRangeRecent ix.time 0 0xFFFFFFFFFFFFFFFF loadCap
      (ids, !trunc)

def candidateIds (R : Ranking) (ix : Indexes) (p : SearchParams) (sub : List UInt64) (fetch : ℕ)
    (src : CandSource) (loadCap : ℕ) : List ScoredId × Bool :=
  match src with
  | .filter =>
    let (ids, exhausted) := filterIds ix p sub loadCap
    (ids.map fun id => { id }, exhausted)
  | .semantic =>
    let (hits, exhausted) := R.semanticHits ix p fetch
    (Ranking.semanticIds hits, exhausted)
  | .lexical =>
    let (hits, exhausted) := R.lexicalHits ix p fetch
    (Ranking.lexicalIds hits, exhausted)
  | .hybrid =>
    let (shits, sexhausted) := R.semanticHits ix p fetch
    let (lhits, lexhausted) := R.lexicalHits ix p fetch
    (R.rrfFuse shits lhits, sexhausted && lexhausted)

/-- The record of a candidate, if it is live, has not expired and meets the filters. -/
def loadCandidate (env : Sample) (db : Database F) (p : SearchParams) (sub : List UInt64)
    (id : UInt64) : Option MemoryRecord :=
  (currentRecord F db.store id).filter fun r => !recordExpired r env.now && passesFilters sub p r

def gatherCandidates (R : Ranking) (env : Sample) (db : Database F) (p : SearchParams)
    (sub : List UInt64) (fetch : ℕ) (src : CandSource) (loadCap : ℕ) : List Cand × Bool :=
  let (ids, exhausted) := candidateIds R db.ix p sub fetch src loadCap
  (ids.filterMap fun x => (loadCandidate env db p sub x.id).map
    (if src = .filter then R.unscored else R.scored src p env.now x), exhausted)

/-! ## Search -/

def isA : CString := .ofString "is_a"

/-- The subject of a record that says that it is a member of another one. -/
def memberOf (env : Sample) (db : Database F) (agent : Option CString) (s id : UInt64) :
    Option UInt64 :=
  match qeGet env db id agent with
  | .error _ => none
  | .ok r => if r.fact.kind = .objId ∧ r.fact.subject ≠ s then some r.fact.subject else none

/-- `resolve_subsume`: the members of the subject, and whether the limit has cut them. -/
def resolveSubsume (cfg : DbConfig) (env : Sample) (db : Database F) (p : SearchParams) :
    Except Status (List UInt64 × Bool) :=
  match p.pattern.bind fun pat => if pat.subsume then pat.subject else none, db.ix.facts with
  | some s, some f =>
    if !cfg.inference then .error .notReady
    else
      let ids := factIndexByKey f (.id s) (some isA)
      let truncated := decide (cfg.inferenceMaxSubsume ≠ 0 ∧ cfg.inferenceMaxSubsume < ids.length)
      let kept := if truncated then ids.take cfg.inferenceMaxSubsume else ids
      .ok ((sortBy UInt64.toNat (kept.filterMap (memberOf env db p.agentId s))).eraseReps, truncated)
  | _, _ => .ok ([], false)

/-- `cmp_score_desc` as a key. -/
def Cand.scoreKey (c : Cand) : ℤ ×ₗ ℕ := toLex (-c.score.key, c.record.id.toNat)

/-- `cmp_created_asc` as a key. -/
def Cand.createdKey (c : Cand) : ℕ ×ₗ ℕ := toLex (c.record.created.toNat, c.record.id.toNat)

def SearchParams.source (p : SearchParams) : CandSource :=
  match p.embedding, p.query.any fun q => q.bytes ≠ [] with
  | _ :: _, true => .hybrid
  | _ :: _, false => .semantic
  | [], true => .lexical
  | [], false => .filter

/-- The widening of a ranked query: fetch more until enough of it meets the filters. -/
def widen (R : Ranking) (env : Sample) (db : Database F) (p : SearchParams) (sub : List UInt64)
    (want : ℕ) : ℕ → ℕ → List Cand
  | 0, _ => []
  | fuel + 1, fetch =>
    let (cands, exhausted) := gatherCandidates R env db p sub fetch p.source 0
    if want ≤ cands.length ∨ exhausted ∨ searchFetchCap ≤ fetch then cands
    else widen R env db p sub want fuel (min (fetch * 4) searchFetchCap)

/-- The page of the search: the candidates, ranked, between the offset and the last that is wanted. -/
def rankedPage (R : Ranking) (cfg : DbConfig) (env : Sample) (db : Database F) (p : SearchParams)
    (sub : List UInt64) : List Cand :=
  let topK := if p.topK ≠ 0 then p.topK else 10
  let offset := min p.offset maxOffset
  let want := offset + topK
  let ranked :=
    if p.source = .filter then
      selectTop Cand.createdKey (gatherCandidates R env db p sub 0 .filter cfg.queryScanCap).1 want
    else
      -- a fetch of 32 at least is at its limit after four times
      selectTop Cand.scoreKey (widen R env db p sub want 5 (min (want * 4 + 32) searchFetchCap)) want
  ranked.drop offset

/-- `qe_search_ex`: the hits, and whether the members of the subject were cut. -/
def qeSearch (R : Ranking) (cfg : DbConfig) (env : Sample) (db : Database F) (p : SearchParams) :
    Except Status (List Cand × Bool) :=
  match resolveSubsume cfg env db p with
  | .error st => .error st
  | .ok (sub, truncated) =>
    if !cfg.phase (if p.embedding ≠ [] then 3 else 2) then .error .notReady
    else if p.embedding ≠ [] ∧ p.embedding.length ≠ cfg.embeddingDimensions then
      .error .invalidRequest
    else if (p.query.any fun q => q.bytes ≠ []) ∧ db.ix.lex.isNone then .error .notReady
    else .ok (rankedPage R cfg env db p sub, truncated)

/-- `qe_count`: the count, and whether it is over a bounded view. -/
def qeCount (R : Ranking) (cfg : DbConfig) (env : Sample) (db : Database F) (p : SearchParams) :
    Except Status (ℕ × Bool) :=
  if !cfg.phase 2 then .error .notReady
  else
    match resolveSubsume cfg env db p with
    | .error st => .error st
    | .ok (sub, truncated) =>
      let (cands, exhausted) := gatherCandidates R env db p sub 0 .filter cfg.queryScanCap
      .ok (cands.length, !exhausted || truncated)

/-- Delete the records of some ids, and count them. -/
def deleteAll (cfg : DbConfig) (env : Sample) (ns : Option CString) :
    List UInt64 → Database F → Database F × ℕ
  | [], db => (db, 0)
  | id :: ids, db =>
    let (db, res) := qeDelete cfg env db id ns
    let (db, n) := deleteAll cfg env ns ids db
    (db, if res.isOk then n + 1 else n)

def qeDeleteByQuery (R : Ranking) (cfg : DbConfig) (env : Sample) (db : Database F)
    (p : SearchParams) (ns : Option CString) : Database F × Except Status ℕ :=
  if !cfg.phase 1 then (db, .error .notReady)
  else if p.type.isNone ∧ p.tags = [] ∧ p.time.isNone then (db, .error .invalidRequest)
  else
    let (cands, _) := gatherCandidates R env db p [] 0 .filter 0
    let (db, deleted) := deleteAll cfg env ns (cands.map fun c => c.record.id) db
    (db, .ok deleted)

theorem exists_of_mem_semanticIds {hits : List (UInt64 × F32)} {x : ScoredId}
    (h : x ∈ Ranking.semanticIds hits) : ∃ y ∈ hits, y.1 = x.id := by
  obtain ⟨i, hi, rfl⟩ := mem_mapIdx.1 h
  exact ⟨_, getElem_mem hi, rfl⟩

theorem map_id_semanticIds (hits : List (UInt64 × F32)) :
    (Ranking.semanticIds hits).map ScoredId.id = hits.map Prod.fst := by
  ext i : 1
  simp [Ranking.semanticIds, comp_def]

theorem map_id_lexicalIds (hits : List (UInt64 × F32)) :
    (Ranking.lexicalIds hits).map ScoredId.id = hits.map Prod.fst := by
  ext i : 1
  simp [Ranking.lexicalIds, comp_def]

section

variable {R : Ranking} {env : Sample} {db : Database F} {p : SearchParams} {sub : List UInt64}

theorem loadCandidate_eq_some {id : UInt64} {r : MemoryRecord} :
    loadCandidate env db p sub id = some r ↔ loadRecord F db.store id = .ok r ∧
      recordExpired r env.now = false ∧ passesFilters sub p r = true := by
  simp [loadCandidate, filter_eq_some_iff, currentRecord_eq_some]

/-- A candidate is the record that is loaded for an id, and meets the filters. -/
theorem passes_of_mem_gather {fetch loadCap : ℕ} {src : CandSource} {c : Cand}
    (h : c ∈ (gatherCandidates R env db p sub fetch src loadCap).1) :
    ∃ id, loadRecord F db.store id = .ok c.record ∧ recordExpired c.record env.now = false ∧
      passesFilters sub p c.record = true := by
  obtain ⟨x, -, hx⟩ := mem_filterMap.1 h
  obtain ⟨r, hr, rfl⟩ := map_eq_some_iff.1 hx
  refine ⟨x.id, ?_⟩
  split <;> exact loadCandidate_eq_some.1 hr

theorem mem_of_mem_widen {want fuel fetch : ℕ} {c : Cand}
    (h : c ∈ widen R env db p sub want fuel fetch) :
    ∃ fetch, c ∈ (gatherCandidates R env db p sub fetch p.source 0).1 := by
  induction fuel generalizing fetch with
  | zero => cases h
  | succ fuel ih =>
    unfold widen at h
    dsimp only at h
    split at h
    · exact ⟨fetch, h⟩
    · exact ih h

/-- A hit is the record that is loaded for an id, and meets the filters. -/
theorem passes_of_mem_rankedPage {cfg : DbConfig} {c : Cand}
    (h : c ∈ rankedPage R cfg env db p sub) :
    ∃ id, loadRecord F db.store id = .ok c.record ∧ recordExpired c.record env.now = false ∧
      passesFilters sub p c.record = true := by
  have hsel := mem_of_mem_drop h
  split at hsel
  · exact passes_of_mem_gather (mem_of_mem_selectTop hsel)
  · obtain ⟨fetch, hc⟩ := mem_of_mem_widen (mem_of_mem_selectTop hsel)
    exact passes_of_mem_gather hc

theorem agentId_of_passesFilters {r : MemoryRecord} {ns : CString}
    (h : passesFilters sub p r = true) (hns : p.agentId = some ns) : r.agentId = some ns := by
  simp only [passesFilters, Bool.and_eq_true, hns, all_some, decide_eq_true_eq] at h
  exact h.1.1.1.2

end

end AegisDB
