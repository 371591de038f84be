import AegisDB.Query.Consolidation

/-!
# The clusters of a run

Each turn of the loop of `qe_consolidate` merges the records a search returns for one id
(`turnCluster`); a turn that is passed over is one whose cluster has no two records. So a run is a
fold over the ids (`consolidateLoop_eq_foldl`), and what it deletes are the losers of its turns
(`mem_loopMerges`).
-/

namespace AegisDB

open Bytes List Function Option Cand

variable {F : Framing} {cfg : DbConfig} {env : Sample} {db db' : Database F} {ns : Option CString}

/-! ## Turns -/

theorem mergePlan_of_short {recs : List MemoryRecord} (h : recs.length < 2) :
    mergePlan recs = none := by
  unfold mergePlan
  cases hrecs : recs.zipIdx with
  | nil => rfl
  | cons x xs =>
    refine if_pos ?_
    rw [length_map]
    refine (length_filter_le _ _).trans ?_
    rw [← hrecs, length_zipIdx]
    omega

/-- The cluster that the loop of `qe_consolidate` merges for an id. -/
def turnCluster (R : Ranking) (cfg : DbConfig) (env : Sample) (ns : Option CString)
    (minSimilarity : F32) (db : Database F) (id : UInt64) : List MemoryRecord :=
  match qeGet env db id ns with
  | .error _ => []
  | .ok r =>
    if r.embedding.dim = 0 then []
    else
      match qeSearch R cfg env db (duplicatesOf ns minSimilarity r) with
      | .error _ => []
      | .ok (hits, _) => hits.map fun c => c.record

section

variable (R : Ranking) (cfg : DbConfig) (env : Sample) (ns : Option CString) (minSimilarity : F32)

/-- One turn of the loop of `qe_consolidate`. -/
def turn (db : Database F) (id : UInt64) : Database F :=
  (mergeCluster cfg env ns (turnCluster R cfg env ns minSimilarity db id) db).1

theorem mergeCluster_of_none (recs : List MemoryRecord) (h : mergePlan recs = none)
    (db : Database F) :
    mergeCluster cfg env ns recs db = (db, 0) ∧ clusterMerges cfg env ns recs db = [] := by
  rw [mergeCluster_eq, clusterMerges, h]
  exact ⟨rfl, rfl⟩

theorem mergeCluster_of_short (recs : List MemoryRecord) (h : recs.length < 2) (db : Database F) :
    mergeCluster cfg env ns recs db = (db, 0) ∧ clusterMerges cfg env ns recs db = [] :=
  mergeCluster_of_none cfg env ns recs (mergePlan_of_short h) db

theorem consolidateLoop_cons (id : UInt64) (ids : List UInt64) (db : Database F) :
    (consolidateLoop R cfg env ns minSimilarity (id :: ids) db).1 =
        (consolidateLoop R cfg env ns minSimilarity ids (turn R cfg env ns minSimilarity db id)).1 ∧
      loopMerges cfg env ns R minSimilarity (id :: ids) db =
        clusterMerges cfg env ns (turnCluster R cfg env ns minSimilarity db id) db ++
          loopMerges cfg env ns R minSimilarity ids (turn R cfg env ns minSimilarity db id) := by
  have hshort := mergeCluster_of_short cfg env ns [] Nat.two_pos db
  unfold turn turnCluster
  rw [consolidateLoop, loopMerges]
  cases qeGet env db id ns with
  | error st => simp [hshort]
  | ok r =>
    dsimp only
    split_ifs with hdim
    · simp [hshort]
    · cases qeSearch R cfg env db (duplicatesOf ns minSimilarity r) with
      | error st => simp [hshort]
      | ok x =>
        obtain ⟨hits, cut⟩ := x
        dsimp only
        split_ifs with hlen
        · have hpass := mergeCluster_of_short cfg env ns (hits.map fun c => c.record)
            (by rwa [length_map]) db
          simp [hpass]
        · exact ⟨rfl, rfl⟩

theorem consolidateLoop_eq_foldl (ids : List UInt64) (db : Database F) :
    (consolidateLoop R cfg env ns minSimilarity ids db).1 =
      ids.foldl (turn R cfg env ns minSimilarity) db := by
  induction ids generalizing db with
  | nil => rfl
  | cons id ids ih => rw [(consolidateLoop_cons ..).1, ih, foldl_cons]

theorem mem_loopMerges {ids : List UInt64} {x : UInt64 × UInt64}
    (h : x ∈ loopMerges cfg env ns R minSimilarity ids db) :
    ∃ before id, id ∈ ids ∧ before <+: ids ∧
      x ∈ clusterMerges cfg env ns (turnCluster R cfg env ns minSimilarity
        (before.foldl (turn R cfg env ns minSimilarity) db) id)
          (before.foldl (turn R cfg env ns minSimilarity) db) := by
  induction ids generalizing db with
  | nil => cases h
  | cons id ids ih =>
    rw [(consolidateLoop_cons ..).2, mem_append] at h
    rcases h with h | h
    · exact ⟨[], id, mem_cons_self, nil_prefix, h⟩
    · obtain ⟨before, id', hid, hpre, hx⟩ := ih h
      exact ⟨id :: before, id', mem_cons_of_mem id hid, (prefix_cons_inj id).2 hpre, hx⟩

end

/-! ## The records of a cluster -/

theorem source_duplicatesOf {minSimilarity : F32} {seed : MemoryRecord}
    (hne : (duplicatesOf ns minSimilarity seed).embedding ≠ []) :
    (duplicatesOf ns minSimilarity seed).source = .semantic := by
  unfold SearchParams.source
  generalize (duplicatesOf ns minSimilarity seed).embedding = q at hne
  cases q with
  | nil => exact absurd rfl hne
  | cons => rfl

theorem length_duplicatesOf {seed : MemoryRecord} (hwf : seed.WellFormed)
    (hdim : seed.embedding.dim ≠ 0) (ns : Option CString) (minSimilarity : F32) :
    (duplicatesOf ns minSimilarity seed).embedding.length = seed.embedding.dim := by
  have hcount : seed.embedding.vecCount ≠ 0 := fun h => hdim (hwf.dim_iff.2 h)
  have hle := Nat.le_mul_of_pos_left seed.embedding.dim (Nat.pos_of_ne_zero hcount)
  rw [← seed.embedding.size_eq] at hle
  exact length_take_of_le hle

theorem hit_of_mem_gather {R : Ranking} {p : SearchParams} {sub : List UInt64} {fetch loadCap : ℕ}
    {c : Cand} (h : c ∈ (gatherCandidates R env db p sub fetch .semantic loadCap).1) :
    ∃ x ∈ R.semantic db.ix.sem p.embedding fetch, (∀ m ∈ p.minScore, m.Le x.2) ∧
      loadCandidate env db p sub x.1 = some c.record := by
  obtain ⟨x, hx, hload⟩ := mem_filterMap.1 h
  obtain ⟨r, hr, rfl⟩ := map_eq_some_iff.1 hload
  obtain ⟨y, hy, hid⟩ := exists_of_mem_semanticIds hx
  obtain ⟨hmem, hscore⟩ := mem_filter.1 hy
  refine ⟨y, hmem, fun m hm => ?_, hid ▸ hr⟩
  rw [hm] at hscore
  simpa using hscore

/-- What is merged for an id: records that are as similar to its vector as the search reports. -/
structure ClusterHit (R : Ranking) (env : Sample) (ns : Option CString) (minSimilarity : F32)
    (db : Database F) (seed r : MemoryRecord) : Prop where
  hit : ∃ fetch, ∃ x ∈ R.semantic db.ix.sem (seed.embedding.floats.take seed.embedding.dim) fetch,
    minSimilarity.Le x.2 ∧ loadRecord F db.store x.1 = .ok r
  scope : InScope ns r
  fresh : recordExpired r env.now = false

theorem mem_turnCluster {R : Ranking} {minSimilarity : F32} {id : UInt64} {r : MemoryRecord}
    (h : r ∈ turnCluster R cfg env ns minSimilarity db id) :
    ∃ seed, qeGet env db id ns = .ok seed ∧ seed.embedding.dim ≠ 0 ∧
      ClusterHit R env ns minSimilarity db seed r := by
  unfold turnCluster at h
  cases hget : qeGet env db id ns with
  | error st => rw [hget] at h; cases h
  | ok seed =>
    rw [hget] at h
    dsimp only at h
    split_ifs at h with hdim
    · cases h
    cases hsearch : qeSearch R cfg env db (duplicatesOf ns minSimilarity seed) with
    | error st => rw [hsearch] at h; cases h
    | ok x =>
      obtain ⟨hits, cut⟩ := x
      rw [hsearch] at h
      obtain ⟨c, hc, rfl⟩ := List.mem_map.1 h
      obtain ⟨sub, rfl⟩ := qeSearch_eq_ok hsearch
      have hwf := wellFormed_of_loadRecord (qeGet_eq_ok.1 hget).1
      have hlen := length_duplicatesOf hwf hdim ns minSimilarity
      have hsource := source_duplicatesOf fun hnil => hdim (by rw [← hlen, hnil]; rfl)
      refine ⟨seed, rfl, hdim, ?_⟩
      have hsel := mem_of_mem_drop hc
      rw [hsource, if_neg (by decide)] at hsel
      obtain ⟨fetch, hgather⟩ := mem_of_mem_widen (mem_of_mem_selectTop hsel)
      rw [hsource] at hgather
      obtain ⟨x, hx, hscore, hload⟩ := hit_of_mem_gather hgather
      obtain ⟨hload, hfresh, hpass⟩ := loadCandidate_eq_some.1 hload
      exact ⟨⟨fetch, x, hx, hscore _ rfl, hload⟩, inScope_of_passesFilters hpass, hfresh⟩

theorem duplicates_turnCluster (R : Ranking) (cfg : DbConfig) (env : Sample) (ns : Option CString)
    (minSimilarity : F32) (hs : db.Sound) (id : UInt64) :
    Duplicates ns db (turnCluster R cfg env ns minSimilarity db id) := by
  intro r hr
  obtain ⟨-, -, -, ⟨-, x, -, -, hload⟩, hscope, -⟩ := mem_turnCluster hr
  rw [(hs.of_loadRecord hload).1]
  exact ⟨hload, hscope⟩

/-- A ranking that scores all records alike, so that hits are returned by their ids. -/
def Ranking.Unweighted (R : Ranking) : Prop := ∀ a b, R.mul a b = .one

/-- The records a query returns from the given hits, in their order. -/
def hitRecords (env : Sample) (db : Database F) (p : SearchParams) (hits : List (UInt64 × F32)) :
    List MemoryRecord :=
  (hits.filter fun x => p.minScore.all fun m => decide (m.Le x.2)).filterMap
    fun x => loadCandidate env db p [] x.1

section

variable {R : Ranking} {hits : List (UInt64 × F32)}

variable (env) in
theorem gather_unweighted (hR : R.Unweighted) {p : SearchParams} {fetch : ℕ}
    (hits_eq : R.semantic db.ix.sem p.embedding fetch = hits) :
    (gatherCandidates R env db p [] fetch .semantic 0).1.map record = hitRecords env db p hits ∧
      ∀ c ∈ (gatherCandidates R env db p [] fetch .semantic 0).1, c.score = .one := by
  simp only [gatherCandidates, candidateIds, Ranking.semanticHits, hits_eq]
  constructor
  · rw [map_filterMap, hitRecords]
    generalize hits.filter _ = l
    have hrec : ∀ x : ScoredId, ((loadCandidate env db p [] x.id).map
        (if CandSource.semantic = .filter then R.unscored else R.scored .semantic p env.now x)).map
          record = loadCandidate env db p [] x.id := by
      intro x
      cases loadCandidate env db p [] x.id <;> rfl
    simp only [hrec]
    have hmap := congrArg (filterMap (loadCandidate env db p [])) (map_id_semanticIds l)
    rwa [filterMap_map, filterMap_map] at hmap
  · intro c hc
    obtain ⟨x, -, hx⟩ := mem_filterMap.1 hc
    obtain ⟨r, -, rfl⟩ := map_eq_some_iff.1 hx
    exact hR _ _

variable (env) in
theorem pairwise_hitRecords (hs : db.Sound) (p : SearchParams)
    (hsorted : hits.Pairwise fun x y => x.1.toNat < y.1.toNat) :
    (hitRecords env db p hits).Pairwise fun a b => a.id.toNat < b.id.toNat := by
  refine List.Pairwise.filterMap _ (fun x y hxy a ha b hb => ?_) (hsorted.filter _)
  rw [(hs.of_loadRecord (loadCandidate_eq_some.1 ha).1).1,
    (hs.of_loadRecord (loadCandidate_eq_some.1 hb).1).1]
  exact hxy

variable (cfg env ns) in
/-- The search for duplicates returns the records of the hits that are similar enough. -/
theorem qeSearch_unweighted (minSimilarity : F32) (seed : MemoryRecord) (hR : R.Unweighted)
    (hs : db.Sound) (hphase : cfg.phase 3 = true)
    (hne : (duplicatesOf ns minSimilarity seed).embedding ≠ [])
    (hdim : (duplicatesOf ns minSimilarity seed).embedding.length = cfg.embeddingDimensions)
    (hits_eq : R.semantic db.ix.sem (duplicatesOf ns minSimilarity seed).embedding 1056 = hits)
    (hlen : hits.length ≤ 256) (hsorted : hits.Pairwise fun x y => x.1.toNat < y.1.toNat) :
    ∃ cands, qeSearch R cfg env db (duplicatesOf ns minSimilarity seed) = .ok (cands, false) ∧
      cands.map record = hitRecords env db (duplicatesOf ns minSimilarity seed) hits := by
  have hsource := source_duplicatesOf hne
  have htop : (duplicatesOf ns minSimilarity seed).topK = 256 := rfl
  have hoffset : (duplicatesOf ns minSimilarity seed).offset = 0 := rfl
  have hquery : (duplicatesOf ns minSimilarity seed).query = none := rfl
  have hsub : resolveSubsume cfg env db (duplicatesOf ns minSimilarity seed) = .ok ([], false) := rfl
  generalize duplicatesOf ns minSimilarity seed = p at *
  obtain ⟨hrecords, hscore⟩ := gather_unweighted env hR hits_eq
  have hend : (gatherCandidates R env db p [] 1056 .semantic 0).2 = true := by
    simp only [gatherCandidates, candidateIds, Ranking.semanticHits, hits_eq, decide_eq_true_eq]
    omega
  have hpair := pairwise_hitRecords env hs p hsorted
  rw [← hrecords, pairwise_map] at hpair
  generalize hcands : (gatherCandidates R env db p [] 1056 .semantic 0).1 = cands
    at hrecords hscore hpair
  have hcount : cands.length ≤ 256 := by
    rw [← length_map (f := record), hrecords]
    exact ((length_filterMap_le _ _).trans (length_filter_le _ _)).trans hlen
  -- equal scores leave the order of the ids
  have hkey : cands.Pairwise fun a b => a.scoreKey < b.scoreKey := by
    refine hpair.imp_of_mem fun {a b} ha hb hab => ?_
    rw [scoreKey, scoreKey, hscore a ha, hscore b hb, Prod.Lex.toLex_lt_toLex]
    exact .inr ⟨rfl, hab⟩
  have hwiden : widen R env db p [] 256 5 1056 = cands := by
    unfold widen
    simp only [hsource, hend, true_or, or_true, if_true, hcands]
  have hsel : selectTop scoreKey cands 256 = cands := by
    rw [selectTop, if_pos hcount]
    refine sortBy_eq_of_perm ?_ .rfl .rfl (hkey.imp fun h => h.le)
    exact (pairwise_map.2 hkey).imp fun h => h.ne
  have hpage : rankedPage R cfg env db p [] =
      selectTop scoreKey (widen R env db p [] 256 5 1056) 256 := by
    simp only [rankedPage, htop, hoffset, hsource, reduceCtorEq, if_false]
    rfl
  refine ⟨cands, ?_, hrecords⟩
  rw [qeSearch, hsub]
  simp only [hne, hphase, hdim, hquery, hpage, hwiden, hsel, ne_eq, not_false_eq_true, if_true,
    Bool.not_true, Bool.false_eq_true, if_false, not_true_eq_false, and_false, false_and,
    any_none]

end

/-- A server with semantic search, without tokens and failures. -/
structure Plain (cfg : DbConfig) (env : Sample) : Prop where
  phase : cfg.phase 3 = true
  authOff : env.authOn = false
  fsyncOk : env.fsyncOk = true

theorem DbConfig.phase_mono {n k : ℕ} (h : cfg.phase k = true) (hle : n ≤ k) :
    cfg.phase n = true := by
  simp only [DbConfig.phase, decide_eq_true_eq] at h ⊢
  omega

section

variable {view : UInt64 → Except Status MemoryRecord}

theorem Database.Shows.update (h : db.Shows view) (hcfg : Plain cfg env) {patch : UpdatePatch}
    {cur : MemoryRecord} {fact : Fact} (hcur : view cur.id = .ok cur) (hns : nsDenies ns cur = false)
    (htype : cur.type = .semantic) (hadopt : patch.adopt cur.fact = .ok fact)
    (hvalid : validateCommon cfg (patch.apply cur fact env.now) = .ok ())
    (hnew : Storable (patch.apply cur fact env.now)) :
    (qeUpdate cfg env db cur.id patch ns).2.isOk = true ∧
      (qeUpdate cfg env db cur.id patch ns).1.Shows
        (update view cur.id (.ok (patch.apply cur fact env.now))) := by
  have hload : loadRecord F db.store cur.id = .ok cur := by rw [h.load, hcur]
  have hlive := (h.sound.of_loadRecord hload).2
  obtain ⟨db', append⟩ := Database.appendAndHash_isOk cfg env db h.isOpen
    hnew.wellFormed.toWireFormed hnew.length_le hcfg.authOff
  have hok : (qeUpdate cfg env db cur.id patch ns).2.isOk = true := by
    unfold qeUpdate
    simp only [DbConfig.phase_mono hcfg.phase (by decide : 2 ≤ 3), hload, hlive, hns, htype, hadopt,
      hvalid, append, Database.durablyFlush_isOk cfg env _ hcfg.fsyncOk]
    rfl
  obtain ⟨hs, hopen, hview⟩ := qeUpdate_effect cfg env h.sound cur.id patch ns
  refine ⟨hok, hs, hopen h.isOpen, ?_⟩
  rcases hview with ⟨hfail, -⟩ | ⟨cur', new, hcur', ⟨-, -, -, fact', hadopt', rfl⟩, hview⟩
  · rw [hok] at hfail
    cases hfail
  · cases hload.symm.trans hcur'
    cases hadopt.symm.trans hadopt'
    rw [hview, h.load, hnew.wellFormed.clamped_eq]

theorem Database.Shows.delete (h : db.Shows view) (hcfg : Plain cfg env) {r : MemoryRecord}
    (hr : view r.id = .ok r) (hstore : Storable r) (hns : nsDenies ns r = false) :
    (qeDelete cfg env db r.id ns).1.Shows (Function.update view r.id (.error .notFound)) := by
  have hload : loadRecord F db.store r.id = .ok r := by rw [h.load, hr]
  have hgone := loadRecord_qeDelete cfg env h.sound (DbConfig.phase_mono hcfg.phase (by decide))
    h.isOpen hload hstore.length_le hns
  obtain ⟨hs, hopen, hview⟩ := qeDelete_effect cfg env h.sound r.id ns
  refine ⟨hs, hopen h.isOpen, ?_⟩
  funext id
  rw [← h.load, update_apply]
  split_ifs with heq
  · rw [heq]
    exact hgone
  · exact (hview id).resolve_right fun hne => heq hne.1

end

theorem qeRelate_off (hoff : cfg.phase 4 = false) (db : Database F) (fromId toId : UInt64)
    (kind ns : Option CString) : (qeRelate cfg env db fromId toId kind ns).1 = db := by
  simp [qeRelate, hoff]

theorem migrate_off (hoff : cfg.phase 4 = false) (m : MergePlan) (db : Database F) :
    m.migrate cfg env ns db = db := by
  have hrel : ∀ (rels : List Relationship) (db : Database F),
      relateAll cfg env ns m.survivor.id rels db = db := by
    intro rels db
    induction rels with
    | nil => rfl
    | cons rel rels ih =>
      rw [relateAll, foldl_cons, qeRelate_off hoff]
      exact ih
  rw [MergePlan.migrate]
  induction m.losers with
  | nil => rfl
  | cons r losers ih => rw [foldl_cons, hrel, ih]

theorem beforeDelete_off (hoff : cfg.phase 4 = false) (survivor loser : UInt64) (db : Database F) :
    beforeDelete cfg env ns survivor loser db = db := by
  rw [beforeDelete, qeRelate_off hoff, repointDependents]
  cases db.ix.edges with
  | none => rfl
  | some e =>
    dsimp only
    induction edgeIndexSources e loser [derivedFrom] with
    | nil => rfl
    | cons src srcs ih => rw [foldl_cons, qeRelate_off hoff, ih]

structure PairMerge (cfg : DbConfig) (env : Sample) (ns : Option CString) (recs : List MemoryRecord)
    (l s merged : MemoryRecord) : Prop where
  plan : ∃ members, mergePlan recs = some ⟨s, none, members⟩ ∧
    members.filter (fun r => r.id ≠ s.id) = [l] ∧
    (mergePatch members none).apply s s.fact env.now = merged
  loser : Storable l
  loserOwner : nsDenies ns l = false
  owner : nsDenies ns s = false
  type : s.type = .semantic
  valid : validateCommon cfg merged = .ok ()
  storable : Storable merged

theorem mergeCluster_pair {view : UInt64 → Except Status MemoryRecord} (h : db.Shows view)
    (hcfg : Plain cfg env) (hoff : cfg.phase 4 = false) {recs : List MemoryRecord}
    {l s merged : MemoryRecord} (hpair : PairMerge cfg env ns recs l s merged)
    (hl : view l.id = .ok l) (hs : view s.id = .ok s) :
    (mergeCluster cfg env ns recs db).1.Shows
        (update (update view s.id (.ok merged)) l.id (.error .notFound)) ∧
      (l.id, s.id) ∈ clusterMerges cfg env ns recs db := by
  obtain ⟨members, hplan, hlosers, rfl⟩ := hpair.plan
  have hne : l.id ≠ s.id := by
    have hmem : l ∈ members.filter fun r => r.id ≠ s.id := by
      rw [hlosers]
      exact mem_singleton.2 rfl
    simpa using (mem_filter.1 hmem).2
  obtain ⟨hok, hupd⟩ := h.update hcfg hs hpair.owner hpair.type rfl hpair.valid hpair.storable
  rw [mergeCluster_eq, clusterMerges, hplan]
  dsimp only
  generalize qeUpdate cfg env db s.id (mergePatch members none) ns = x at hok hupd
  obtain ⟨d, _ | new⟩ := x
  · cases hok
  replace hupd : d.Shows _ := hupd
  have hlosers' : (MergePlan.mk s none members).losers = [l] := hlosers
  have hload : update view s.id (.ok ((mergePatch members none).apply s s.fact env.now))
      l.id = .ok l := by rw [update_of_ne hne, hl]
  have hgone := hupd.delete hcfg hload hpair.loser hpair.loserOwner
  simp only [migrate_off hoff, hlosers']
  rw [absorbAll_cons, beforeDelete_off hoff, mem_absorbMerges_cons, beforeDelete_off hoff]
  refine ⟨hgone, .inl ⟨rfl, fun hlost => hlost l ?_, fun r hr => ?_⟩⟩
  · rw [hupd.load, hload]
  · rw [hgone.load, update_self] at hr
    cases hr

end AegisDB
