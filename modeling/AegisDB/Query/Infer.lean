import AegisDB.Inference.Run
import AegisDB.Query.Consolidation
import Mathlib.Data.List.SplitBy

/-!
# The inference job

`qe_infer.c`: one step reads the facts of all records, groups them by namespace, notes the
contradictions of each group and writes the conclusions of `infer_run` as records. Behind it is
truth maintenance: `qe_delete` queues the records that were derived from what it deletes, and
`db_retract_step` deletes those of which no derivation stands any more.

Left out: the gauges and the list of contradictions for `conflicts`, and the cache of names, which
only holds what a lookup returns.
-/

namespace AegisDB

open Bytes

variable {F : Framing}

structure InferConfig where
  maxDepth : UInt16
  maxDerived : ℕ
  maxCandidates : ℕ
  confidenceFloor : F32
  readOnly : Bool

/-- The database with the state of the job. -/
structure Reasoner (F : Framing) where
  db : Database F
  cursor : UInt64
  nsCursor : UInt64
  retract : List UInt64
  superseded : List (UInt64 × UInt64)

/-! ## The facts -/

/-- `LoadedFact.ns`: the empty string without a namespace. -/
def factNs (r : MemoryRecord) : Bytes := r.agentId.elim [] CString.bytes

/-- `ns && *ns ? ns : NULL`. -/
def factScope (r : MemoryRecord) : Option CString := r.agentId.filter fun a => a.bytes ≠ []

/-- `fact_index_all_records`, without the check of its counter. -/
def factIndexAllRecords (f : FactIndex) : List UInt64 :=
  sortBy UInt64.toNat ((List.range factMaxPredicates).flatMap f.predRecs.under)

/-- What `cmp_by_ns` compares by. -/
def nsKey (r : MemoryRecord) : List ℕ ×ₗ ℕ := toLex ((factNs r).map UInt8.toNat, r.id.toNat)

/-- `load_facts`: every record with a fact, by namespace. -/
def loadFacts (env : Sample) (db : Database F) (f : FactIndex) : List MemoryRecord :=
  sortBy nsKey ((factIndexAllRecords f).filterMap fun id =>
    match qeGet env db id none with
    | .error _ => none
    | .ok r => if r.fact.kind = .none then none else some r)

def namespaceGroups (facts : List MemoryRecord) : List (List MemoryRecord) :=
  facts.splitBy fun a b => factNs a = factNs b

/-! ## The text of a conclusion -/

/-- The cut of `copy_utf8_bounded`, walked back from a continuation byte. -/
def utf8Cut (src : Bytes) : ℕ → ℕ
  | 0 => 0
  | n + 1 => if (src[n + 1]?.getD 0) &&& 0xC0 = 0x80 then utf8Cut src n else n + 1

def copyUtf8Bounded (cap : ℕ) (src : Bytes) : Bytes :=
  let n := min src.length (cap - 1)
  src.take (if n < src.length then utf8Cut src n else n)

def conclusionNameMax : ℕ := 160

/-- `entity_name`, as it is printed. -/
def entityName (env : Sample) (db : Database F) (id : UInt64) : Option Bytes :=
  match qeGet env db id none with
  | .error _ => none
  | .ok r =>
    if r.data = [] then none
    else some ((copyUtf8Bounded (conclusionNameMax + 1) r.data).takeWhile (· ≠ 0))

def ascii (s : List Char) : Bytes := s.map fun c => UInt8.ofNat c.toNat

def entityText (env : Sample) (db : Database F) (id : UInt64) : Bytes :=
  (entityName env db id).getD (ascii ('#' :: Nat.toDigits 10 id.toNat))

def ruleText : DerivRule → Bytes
  | .transitive => ascii ['t', 'r', 'a', 'n', 's', 'i', 't', 'i', 'v', 'e']
  | .symmetric => ascii ['s', 'y', 'm', 'm', 'e', 't', 'r', 'i', 'c']
  | .inverse => ascii ['i', 'n', 'v', 'e', 'r', 's', 'e']
  | .none => ascii ['?']

/-- `conclusion_text`, in a buffer of 512 bytes. -/
def conclusionText (env : Sample) (db : Database F) (t : FactTriple) (rule : DerivRule) : Bytes :=
  let object := match t.object with
    | .id o => entityText env db o
    | .str s => [0x22] ++ copyUtf8Bounded (conclusionNameMax + 1) s.bytes ++ [0x22]
  (entityText env db t.subject ++ ascii [' '] ++ t.predicate.bytes ++ ascii [' '] ++ object ++
    ascii [' ', '(', 'd', 'e', 'r', 'i', 'v', 'e', 'd', ':', ' '] ++ ruleText rule ++
    ascii [')']).take 511

def factOf (t : FactTriple) : Option Fact :=
  match t.object with
  | .id o => recordSetFact .objId t.subject (some t.predicate) o none
  | .str s => recordSetFact .objString t.subject (some t.predicate) 0 (some s)

/-- The record `write_conclusion` inserts. -/
def conclusionRecord (env : Sample) (db : Database F) (c : InferConclusion) (ns : Option CString) :
    Option MemoryRecord := do
  let rule ← c.routes.head?.map fun rt => rt.rule
  let fact ← factOf c.triple
  let routes ← addRoutes [] (c.routes.map InferRoute.toDerivRoute)
  pure { recordInit with
    type := .semantic
    confidence := c.confidence
    data := conclusionText env db c.triple rule
    agentId := ns
    fact
    routes }

section

variable (cfg : DbConfig) (env : Sample)

/-- The edges to the premises; a premise that is gone queues the conclusion. -/
def linkPremises (ns : Option CString) (id : UInt64) (premises : List UInt64) (s : Reasoner F) :
    Reasoner F :=
  premises.foldl (fun s p =>
    match qeRelate cfg env s.db id p (some derivedFrom) ns with
    | (db, .error .notFound) => { s with db, retract := s.retract ++ [id] }
    | (db, _) => { s with db }) s

/-- `write_conclusion`, and whether it has written. -/
def writeConclusion (ns : Option CString) (c : InferConclusion) (s : Reasoner F) :
    Reasoner F × Bool :=
  match conclusionRecord env s.db c ns with
  | none => (s, false)
  | some input =>
    match qeInsert cfg env s.db input none 0 with
    | (db, .error _) => ({ s with db }, false)
    | (db, .ok written) =>
      (linkPremises cfg env ns written.id (c.routes.flatMap fun rt => rt.premises) { s with db }, true)

/-! ## Contradictions -/

def alreadyConflicting (r : MemoryRecord) (peer : UInt64) : Bool :=
  r.relationships.any fun e => e.toId = peer && e.kind = some (.ofString "conflicts_with")

def noteConflict (ns : Option CString) (a b : MemoryRecord) (db : Database F) : Database F :=
  if alreadyConflicting a b.id && alreadyConflicting b a.id then db
  else
    let db := (qeRelate cfg env db a.id b.id (some (.ofString "conflicts_with")) ns).1
    (qeRelate cfg env db b.id a.id (some (.ofString "conflicts_with")) ns).1

end

def objectsDiffer (a b : Fact) : Bool :=
  if a.kind ≠ b.kind then true
  else if a.kind = .objId then a.objectId ≠ b.objectId
  else a.objectStr.isNone || b.objectStr.isNone || a.objectStr ≠ b.objectStr

def mutuallyExclusive (a b : PredicateSpec) : Bool :=
  a.mutexWith.contains b.name || b.mutexWith.contains a.name

def conflictMaxPerSubject : ℕ := 256

/-- The pairs of one value of a single-valued predicate, each with the first of its run. -/
def cardinalityPairs (registry : List PredicateSpec) (run : List MemoryRecord) :
    List (MemoryRecord × MemoryRecord) :=
  (run.splitBy fun a b => a.fact.predicate = b.fact.predicate).flatMap fun values =>
    match values with
    | [] => []
    | a :: rest =>
      if (a.fact.predicate.bind (predicateRegistryGet registry)).any fun spec => spec.singleValued then
        (rest.filter fun b => objectsDiffer a.fact b.fact).map fun b => (a, b)
      else []

/-- The pairs of two predicates that exclude each other. -/
def mutexPairs (registry : List PredicateSpec) : List MemoryRecord → List (MemoryRecord × MemoryRecord)
  | [] => []
  | a :: rest =>
    (match a.fact.predicate.bind (predicateRegistryGet registry) with
    | none => []
    | some sa => (rest.filter fun b =>
        (b.fact.predicate.bind (predicateRegistryGet registry)).any (mutuallyExclusive sa)).map
          fun b => (a, b)) ++ mutexPairs registry rest

/-- What `cmp_subject_pred` compares by. -/
def subjectKey (r : MemoryRecord) : ℕ ×ₗ List ℕ ×ₗ ℕ :=
  toLex (r.fact.subject.toNat,
    toLex ((r.fact.predicate.elim [] CString.bytes).map UInt8.toNat, r.id.toNat))

/-- The contradictions of one namespace, in the order in which they are found. -/
def conflictPairs (registry : List PredicateSpec) (facts : List MemoryRecord) :
    List (MemoryRecord × MemoryRecord) :=
  let bySubject := sortBy subjectKey (facts.filter fun r =>
    r.fact.kind ≠ .none && r.fact.predicate.isSome)
  (bySubject.splitBy fun a b => a.fact.subject = b.fact.subject).flatMap fun run =>
    if conflictMaxPerSubject < run.length then []
    else cardinalityPairs registry run ++ mutexPairs registry run

def conflictSetMax : ℕ := 1024

/-- `conflict_set_add` of a pair of ids, and whether it is there already. -/
def conflictSetAdd (cs : List (UInt64 × UInt64)) (a b : UInt64) : List (UInt64 × UInt64) × Bool :=
  if a = 0 ∨ b = 0 ∨ a = b then (cs, false)
  else
    let pair := if b < a then (b, a) else (a, b)
    if cs.contains pair then (cs, true)
    else if conflictSetMax ≤ cs.length then (cs, false)
    else (cs ++ [pair], false)

def findConflicts (cfg : DbConfig) (env : Sample) (registry : List PredicateSpec)
    (ns : Option CString) (facts : List MemoryRecord)
    (s : Database F × List (UInt64 × UInt64)) : Database F × List (UInt64 × UInt64) :=
  (conflictPairs registry facts).foldl (fun (db, cs) (a, b) =>
    let (cs, known) := conflictSetAdd cs a.id b.id
    (if known then db else noteConflict cfg env ns a b db, cs)) s

section

variable (mul : F32 → F32 → F32) (icfg : InferConfig) (cfg : DbConfig) (env : Sample)

/-- The fact of a record, as the pass sees it. -/
def inferFact (r : MemoryRecord) : Option InferFact :=
  r.fact.triple.map fun triple => ⟨r.id, triple, derivationDepth r.routes, r.confidence⟩

/-- The locals of `db_inference_step` that its loop over the namespaces changes. -/
structure StepState (F : Framing) where
  reasoner : Reasoner F
  derivedBudget : ℕ
  candBudget : ℕ
  deferred : Bool
  advanced : ℕ

/-- The conclusions of one pass, written one by one, and how many were. -/
def writeConclusions (ns : Option CString) : List InferConclusion → Reasoner F → Reasoner F × ℕ
  | [], s => (s, 0)
  | c :: cs, s =>
    let (s, ok) := writeConclusion cfg env ns c s
    let (s, n) := writeConclusions ns cs s
    (s, if ok then n + 1 else n)

/-- The caps of the pass over one namespace. -/
def passOpts (s : StepState F) : InferOpts where
  maxDepth := icfg.maxDepth
  maxConclusions := s.derivedBudget
  maxCandidates := s.candBudget
  startIndex := s.reasoner.cursor.toNat
  confidenceFloor := icfg.confidenceFloor

/-- `run_namespace`, with the budgets behind it. -/
def runNamespace (group : List MemoryRecord) (s : StepState F) : StepState F :=
  let res := inferRun mul cfg.predicates (group.filterMap inferFact) (passOpts icfg s)
  let (r, written) := writeConclusions cfg env (group.head?.bind factScope) res.items s.reasoner
  { reasoner :=
      if res.truncated then { r with cursor := r.cursor + UInt64.ofNat res.factsScanned } else r
    derivedBudget := s.derivedBudget - written
    candBudget := s.candBudget - res.candidatesExamined
    deferred := s.deferred || res.truncated
    advanced := s.advanced + 1 }

/-- The namespaces in turn, until a budget is spent. -/
def runNamespaces : List (List MemoryRecord) → StepState F → StepState F
  | [], s => s
  | group :: groups, s =>
    if s.derivedBudget = 0 ∨ s.candBudget = 0 then { s with deferred := true }
    else runNamespaces groups (runNamespace mul icfg cfg env group s)

/-- The contradictions of the namespaces in turn. -/
def noteConflicts (registry : List PredicateSpec) (groups : List (List MemoryRecord))
    (db : Database F) : Database F :=
  (groups.foldl (fun s group => findConflicts cfg env registry (group.head?.bind factScope) group s)
    (db, [])).1

def dbInferenceStep (s : Reasoner F) : Reasoner F :=
  match cfg.inference, cfg.predicates, s.db.ix.facts with
  | true, some registry, some f =>
    -- a follower applies what its primary decided
    if icfg.readOnly then s
    else
      let groups := namespaceGroups (loadFacts env s.db f)
      let start := if groups.length = 0 then 0 else s.nsCursor.toNat % groups.length
      let db := noteConflicts cfg env registry (groups.rotate start) s.db
      let t := runNamespaces mul icfg cfg env (groups.rotate start)
        ⟨{ s with db }, icfg.maxDerived, icfg.maxCandidates, false, 0⟩
      if t.deferred then
        { t.reasoner with nsCursor := UInt64.ofNat ((start + t.advanced) % groups.length) }
      else t.reasoner
  | _, _, _ => s

theorem dbInferenceStep_of_readOnly (h : icfg.readOnly = true) (s : Reasoner F) :
    dbInferenceStep mul icfg cfg env s = s := by
  unfold dbInferenceStep
  split
  · rw [if_pos h]
  · rfl

/-! ## Truth maintenance -/

/-- `db_retract_enqueue`, before the edges to the record go. -/
def retractEnqueue (db : Database F) (id : UInt64) (queue : List UInt64) : List UInt64 :=
  match cfg.inference, db.ix.edges with
  | true, some e => queue ++ (edgeIndexSources e id [derivedFrom]).map EdgeSource.fromId
  | _, _ => queue

/-- `qe_delete` with the queue: it is fed once the record may be deleted. -/
def Reasoner.delete (s : Reasoner F) (id : UInt64) (ns : Option CString) :
    Reasoner F × Except Status Unit :=
  let (db, res) := qeDelete cfg env s.db id ns
  match cfg.phase 1, loadRecord F s.db.store id with
  | true, .ok r =>
    if r.deleted || nsDenies ns r then ({ s with db }, res)
    else ({ s with db, retract := retractEnqueue cfg s.db id s.retract }, res)
  | _, _ => ({ s with db }, res)

@[simp] theorem Reasoner.delete_db (s : Reasoner F) (id : UInt64) (ns : Option CString) :
    (s.delete cfg env id ns).1.db = (qeDelete cfg env s.db id ns).1 := by
  unfold Reasoner.delete
  dsimp only
  split
  · split <;> rfl
  · rfl

def supersedeMaxHops : ℕ := 8

def supersedeMax : ℕ := 65536

/-- `db_supersede_note`. -/
def supersedeNote (oldId newId : UInt64) (s : Reasoner F) : Reasoner F :=
  if !cfg.inference || oldId = newId || supersedeMax ≤ s.superseded.length then s
  else { s with superseded := s.superseded ++ [(oldId, newId)] }

/-- `supersede_lookup`: the newest entry; zero without one. -/
def supersedeLookup (superseded : List (UInt64 × UInt64)) (id : UInt64) : UInt64 :=
  ((superseded.reverse.find? fun x => x.1 = id).map Prod.snd).getD 0

/-- The hops of `db_supersede_resolve` that are left. -/
def supersedeFrom (superseded : List (UInt64 × UInt64)) : ℕ → UInt64 → UInt64
  | 0, cur => cur
  | hops + 1, cur =>
    let next := supersedeLookup superseded cur
    if next = 0 ∨ next = cur then cur else supersedeFrom superseded hops next

/-- `db_supersede_resolve`: zero when there is no heir. -/
def supersedeResolve (superseded : List (UInt64 × UInt64)) (id : UInt64) : UInt64 :=
  let next := supersedeLookup superseded id
  if next = 0 ∨ next = id then 0 else supersedeFrom superseded (supersedeMaxHops - 1) next

/-- A live entry of the hash index that has not expired. -/
def entryLive (db : Database F) (now id : UInt64) : Bool :=
  (hashIndexGet db.store.hash id).any fun e => !(e.expiresAt ≠ 0 && e.expiresAt ≤ now)

/-- `db_id_is_live`: the record, or the one it was merged into. -/
def dbIdIsLive (s : Reasoner F) (now id : UInt64) : Bool :=
  entryLive s.db now id ||
    (supersedeResolve s.superseded id ≠ 0 && entryLive s.db now (supersedeResolve s.superseded id))

def dbDerivationStands (s : Reasoner F) (now : UInt64) (r : MemoryRecord) : Bool :=
  r.routes.isEmpty || r.routes.any fun rt => rt.premises.all (dbIdIsLive s now)

/-- One record of the batch of `db_retract_step`. -/
def retractOne (s : Reasoner F) (id : UInt64) : Reasoner F :=
  match qeGet env s.db id none with
  | .error _ => s
  | .ok r =>
    if !cfg.inference || dbDerivationStands s env.now r then s
    else (s.delete cfg env r.id none).1

def dbRetractStep (s : Reasoner F) : Reasoner F :=
  if icfg.readOnly then s
  else
    let batch := s.retract.take icfg.maxDerived
    batch.foldl (retractOne cfg env) { s with retract := s.retract.drop icfg.maxDerived }

/-- `qe_sweep_expired` with the queue. -/
def Reasoner.sweepExpired (s : Reasoner F) : Reasoner F :=
  (collectIds s.db.store.hash fun _ e => e.expiresAt ≠ 0 && e.expiresAt ≤ env.now).foldl
    (fun s id => (s.delete cfg env id none).1) s

theorem Reasoner.sweepExpired_db (s : Reasoner F) :
    (s.sweepExpired cfg env).db = (qeSweepExpired cfg env s.db).1 := by
  unfold Reasoner.sweepExpired qeSweepExpired
  generalize collectIds s.db.store.hash _ = ids
  induction ids generalizing s with
  | nil => rfl
  | cons id ids ih => rw [List.foldl_cons, ih, Reasoner.delete_db, deleteAll]

variable (ns : Option CString)

/-- The tombstones of the losers of a merge: what was merged is noted before. -/
def Reasoner.absorbAll (survivor : UInt64) : List MemoryRecord → Reasoner F → Reasoner F
  | [], s => s
  | r :: losers, s =>
    let s := { s with db := (qeRelate cfg env s.db survivor r.id (some supersedes) ns).1 }
    let s := supersedeNote cfg r.id survivor s
    let s := { s with db := repointDependents cfg env ns r.id survivor s.db }
    absorbAll survivor losers (s.delete cfg env r.id ns).1

def Reasoner.mergeCluster (recs : List MemoryRecord) (s : Reasoner F) : Reasoner F :=
  match mergePlan recs with
  | none => s
  | some m =>
    match qeUpdate cfg env s.db m.survivor.id (mergePatch m.members m.adopt) ns with
    | (db, .error _) => { s with db }
    | (db, .ok _) =>
      Reasoner.absorbAll cfg env ns m.survivor.id m.losers { s with db := m.migrate cfg env ns db }

/-- The loop of `qe_consolidate`. -/
def Reasoner.consolidateLoop (R : Ranking) (minSimilarity : F32) :
    List UInt64 → Reasoner F → Reasoner F
  | [], s => s
  | id :: ids, s =>
    match qeGet env s.db id ns with
    | .error _ => consolidateLoop R minSimilarity ids s
    | .ok r =>
      if r.embedding.dim = 0 then consolidateLoop R minSimilarity ids s
      else
        match qeSearch R cfg env s.db (duplicatesOf ns minSimilarity r) with
        | .error _ => consolidateLoop R minSimilarity ids s
        | .ok (hits, _) =>
          if hits.length < 2 then consolidateLoop R minSimilarity ids s
          else consolidateLoop R minSimilarity ids
            (Reasoner.mergeCluster cfg env ns (hits.map fun c => c.record) s)

/-- `qe_consolidate` with the queue. -/
def Reasoner.consolidate (R : Ranking) (minSimilarity : F32) (s : Reasoner F) : Reasoner F :=
  if !cfg.phase 3 then s
  else s.consolidateLoop cfg env ns R minSimilarity
    (collectIds s.db.store.hash fun _ e => e.type = .semantic)

theorem supersedeNote_db (oldId newId : UInt64) (s : Reasoner F) :
    (supersedeNote cfg oldId newId s).db = s.db := by
  unfold supersedeNote
  split <;> rfl

theorem Reasoner.absorbAll_db (survivor : UInt64) (losers : List MemoryRecord) (s : Reasoner F) :
    (Reasoner.absorbAll cfg env ns survivor losers s).db =
      (AegisDB.absorbAll cfg env ns survivor losers s.db).1 := by
  induction losers generalizing s with
  | nil => rfl
  | cons r losers ih =>
    rw [Reasoner.absorbAll, ih, Reasoner.delete_db, supersedeNote_db]
    rfl

theorem Reasoner.mergeCluster_db (recs : List MemoryRecord) (s : Reasoner F) :
    (Reasoner.mergeCluster cfg env ns recs s).db = (AegisDB.mergeCluster cfg env ns recs s.db).1 := by
  rw [mergeCluster_eq, Reasoner.mergeCluster]
  cases mergePlan recs with
  | none => rfl
  | some m =>
    dsimp only
    generalize qeUpdate cfg env s.db m.survivor.id (mergePatch m.members m.adopt) ns = x
    obtain ⟨db, _ | _⟩ := x
    · rfl
    · exact Reasoner.absorbAll_db cfg env ns _ _ _

theorem Reasoner.consolidateLoop_db (R : Ranking) (minSimilarity : F32) (ids : List UInt64)
    (s : Reasoner F) : (s.consolidateLoop cfg env ns R minSimilarity ids).db =
      (AegisDB.consolidateLoop R cfg env ns minSimilarity ids s.db).1 := by
  induction ids generalizing s with
  | nil => rfl
  | cons id ids ih =>
    unfold Reasoner.consolidateLoop AegisDB.consolidateLoop
    cases qeGet env s.db id ns with
    | error st => exact ih s
    | ok r =>
      dsimp only
      split_ifs
      · exact ih s
      · cases qeSearch R cfg env s.db (duplicatesOf ns minSimilarity r) with
        | error st => exact ih s
        | ok x =>
          dsimp only
          split_ifs
          · exact ih s
          · rw [ih, Reasoner.mergeCluster_db]

/-- The queue does not change what consolidation does to the records. -/
theorem Reasoner.consolidate_db (R : Ranking) (minSimilarity : F32) (s : Reasoner F) :
    (s.consolidate cfg env ns R minSimilarity).db =
      (qeConsolidate R cfg env s.db ns minSimilarity).1 := by
  unfold Reasoner.consolidate qeConsolidate
  split_ifs
  · rfl
  · exact Reasoner.consolidateLoop_db cfg env ns R minSimilarity _ s

end

end AegisDB
