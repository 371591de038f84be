import AegisDB.Query.Clusters

/-!
# Similarity of what is merged

The records of a cluster are similar to the record it was collected around, while the survivor is the
one that was updated last. So a loser and its survivor need only have a third record in common they
are similar to, and consolidation merges only records that are similar to each other exactly when the
relation "at least `min_similarity`" carries over in such a triangle (`merges_near_iff`).
-/

namespace AegisDB

open Bytes Function Option List MemoryRecord Database

variable {F : Framing} {cfg : DbConfig} {env : Sample} {db db' : Database F} {ns : Option CString}
variable {v : List F32}
variable {r : MemoryRecord}

/-! ## What the search reports -/

/-- Every hit is the record of a vector of the index, with its similarity to the query. -/
def Ranking.Measures (R : Ranking) (sim : List F32 → List F32 → F32) : Prop :=
  ∀ ix q fetch, ∀ x ∈ R.semantic ix q fetch,
    ∃ syn v, mvRec syn = x.1 ∧ ix.vecs syn = some v ∧ x.2 = sim q v

/-- The vectors of the index belong to the records they stand for, where these are there. -/
def Database.VectorsTrue (db : Database F) : Prop :=
  ∀ syn v, db.ix.sem.vecs syn = some v → ∀ r, loadRecord F db.store (mvRec syn) = .ok r →
    v ∈ r.embedding.vectors

/-- The records the caller can consolidate have no vectors, or one of `V`. -/
def OneVector (V : Set (List F32)) (ns : Option CString) (db : Database F) : Prop :=
  ∀ id r, loadRecord F db.store id = .ok r → InScope ns r → r.embedding.vectors ≠ [] →
    ∃ v ∈ V, r.embedding.vectors = [v]

/-! ## Vectors during a run -/

theorem vecs_of_unindexRecord {ix : Indexes} {syn : UInt64}
    (h : (unindexRecord ix r).sem.vecs syn = some v) : ix.sem.vecs syn = some v := by
  simp only [unindexRecord] at h
  split at h
  · rw [semanticIndexRemove, dropVectors, vecs_foldl_vecRemove] at h
    exact (ite_none_left_eq_some.1 h).2
  · exact h

/-- Each record that is there was there before with the same vectors, and so were the vectors of the
index. -/
structure KeepsVectors (db db' : Database F) : Prop where
  sound : db'.Sound
  back : ∀ id r', loadRecord F db'.store id = .ok r' →
    ∃ r, loadRecord F db.store id = .ok r ∧ r'.embedding = r.embedding ∧ Rewritten r r'
  vecs : ∀ syn v, db'.ix.sem.vecs syn = some v → db.ix.sem.vecs syn = some v

theorem KeepsVectors.refl (hs : db.Sound) : KeepsVectors db db :=
  ⟨hs, fun _ r h => ⟨r, h, rfl, .refl r⟩, fun _ _ h => h⟩

theorem KeepsVectors.trans {db'' : Database F} (h : KeepsVectors db db') (h' : KeepsVectors db' db'') :
    KeepsVectors db db'' where
  sound := h'.sound
  back id r'' hid := by
    obtain ⟨r', hid', hemb', hrew'⟩ := h'.back id r'' hid
    obtain ⟨r, hid, hemb, hrew⟩ := h.back id r' hid'
    exact ⟨r, hid, hemb'.trans hemb, hrew.trans hrew'⟩
  vecs syn v hv := h.vecs syn v (h'.vecs syn v hv)

theorem KeepsVectors.vectorsTrue (h : KeepsVectors db db') (hdb : db.VectorsTrue) :
    db'.VectorsTrue := by
  intro syn v hv r' hr'
  obtain ⟨r, hr, hemb, -⟩ := h.back _ r' hr'
  rw [hemb]
  exact hdb syn v (h.vecs syn v hv) r hr

theorem KeepsVectors.oneVector (h : KeepsVectors db db') {V : Set (List F32)}
    (hdb : OneVector V ns db) : OneVector V ns db' := by
  intro id r' hr' hscope hne
  obtain ⟨r, hr, hemb, hrew⟩ := h.back id r' hr'
  rw [hemb] at hne ⊢
  exact hdb id r hr ((InScope.rewritten hrew).1 hscope) hne

section

variable (cfg env)

theorem sem_qeRelate (db : Database F) (fromId toId : UInt64) (kind ns : Option CString) :
    (qeRelate cfg env db fromId toId kind ns).1.ix.sem = db.ix.sem := by
  obtain ⟨d, res, heq, hstep⟩ := exists_pair (@qeRelate_step F cfg env db fromId toId kind ns)
  simp only [heq]
  cases hstep with
  | kept => rfl
  | wrote _ _ _ _ _ _ append =>
    obtain ⟨-, hix, -⟩ := of_appendAndHash append
    simp [hix]

theorem keepsVectors_qeRelate (hs : db.Sound) (fromId toId : UInt64) (kind ns : Option CString) :
    KeepsVectors db (qeRelate cfg env db fromId toId kind ns).1 := by
  have hlink := relinks_qeRelate cfg env hs fromId toId kind ns
  refine ⟨hlink.sound, fun id r' hr' => ?_, fun syn v hv => ?_⟩
  · obtain ⟨r, hold, hrel⟩ := hlink.back hr'
    refine ⟨r, hold, ?_, hrel.rewritten⟩
    obtain ⟨more, updated, rfl⟩ := hrel
    rfl
  · rwa [sem_qeRelate] at hv

theorem sem_qeUpdate (db : Database F) (id : UInt64) {patch : UpdatePatch}
    (hpatch : patch.embedding = none) (ns : Option CString) :
    (qeUpdate cfg env db id patch ns).1.ix.sem = db.ix.sem := by
  obtain ⟨d, res, heq, hstep⟩ := exists_pair (@qeUpdate_step F cfg env db id patch ns)
  simp only [heq]
  cases hstep with
  | refused => rfl
  | wrote _ _ _ _ _ append =>
    obtain ⟨-, hix, -⟩ := of_appendAndHash append
    simp [hix, reindexRecord, hpatch]

theorem keepsVectors_qeUpdate (hs : db.Sound) (id : UInt64) {patch : UpdatePatch}
    (hpatch : patch.embedding = none) (ns : Option CString) :
    KeepsVectors db (qeUpdate cfg env db id patch ns).1 := by
  obtain ⟨hs', -, hview⟩ := qeUpdate_effect cfg env hs id patch ns
  refine ⟨hs', fun id' r' hr' => ?_, fun syn v hv => ?_⟩
  · rcases hview with ⟨-, hsame⟩ | ⟨cur, new, hcur, hnew, hview⟩
    · exact ⟨r', hsame ▸ hr', rfl, .refl r'⟩
    · rw [hview, update_apply] at hr'
      split_ifs at hr' with hid
      · cases hr'
        refine ⟨cur, hid ▸ hcur, ?_, hnew.rewritten⟩
        obtain ⟨fact, -, rfl⟩ := hnew.new
        simp [MemoryRecord.clamped, UpdatePatch.apply, hpatch]
      · exact ⟨r', hr', rfl, .refl r'⟩
  · rwa [sem_qeUpdate cfg env db id hpatch] at hv

theorem keepsVectors_qeDelete (hs : db.Sound) (id : UInt64) (ns : Option CString) :
    KeepsVectors db (qeDelete cfg env db id ns).1 := by
  obtain ⟨hs', -, hview⟩ := qeDelete_effect cfg env hs id ns
  refine ⟨hs', fun id' r' hr' => ?_, fun syn v hv => ?_⟩
  · rcases hview id' with hsame | ⟨-, hgone⟩
    · exact ⟨r', hsame ▸ hr', rfl, .refl r'⟩
    · cases hgone.notFound.symm.trans hr'
  · obtain ⟨d, res, heq, hstep⟩ := exists_pair (@qeDelete_step F cfg env db id ns)
    simp only [heq] at hv
    cases hstep with
    | refused => exact hv
    | failed => exact vecs_of_unindexRecord hv
    | wrote _ _ append =>
      obtain ⟨-, hix, -⟩ := of_appendAndHash append
      rw [ix_durablyFlush, hix] at hv
      exact vecs_of_unindexRecord hv

theorem keepsVectors_preserved (ns : Option CString) (db : Database F) :
    Preserved cfg env ns (KeepsVectors db) where
  relate _ fromId toId kind h := h.trans (keepsVectors_qeRelate cfg env h.sound fromId toId kind ns)
  update _ id _ _ h := h.trans (keepsVectors_qeUpdate cfg env h.sound id rfl ns)
  delete _ id h := h.trans (keepsVectors_qeDelete cfg env h.sound id ns)

end

/-- The two records have one vector each, as similar as asked for. -/
def NearPair (sim : List F32 → List F32 → F32) (minSimilarity : F32) (db : Database F)
    (x : UInt64 × UInt64) : Prop :=
  ∃ l s v w, loadRecord F db.store x.1 = .ok l ∧ loadRecord F db.store x.2 = .ok s ∧
    l.embedding.vectors = [v] ∧ s.embedding.vectors = [w] ∧ minSimilarity.Le (sim v w)

theorem Embedding.take_of_vectors {e : Embedding} (h : e.vectors = [v]) :
    e.floats.take e.dim = v := by
  have hcount : e.vecCount = 1 := by rw [← e.length_vectors, h, length_singleton]
  simpa [Embedding.vectors, hcount] using h

section

variable {R : Ranking} {sim : List F32 → List F32 → F32} {V : Set (List F32)} {minSimilarity : F32}

variable (cfg env minSimilarity) in
theorem turnCluster_near (hR : R.Measures sim) (hdb : db.VectorsTrue) (hone : OneVector V ns db)
    {id : UInt64} (htype : ∀ r, loadRecord F db.store id = .ok r → r.type = .semantic) :
    ∃ u, ∀ r ∈ turnCluster R cfg env ns minSimilarity db id,
      u ∈ V ∧ ∃ v ∈ V, r.embedding.vectors = [v] ∧ minSimilarity.Le (sim u v) := by
  by_cases hnil : turnCluster R cfg env ns minSimilarity db id = []
  · exact ⟨[], by simp [hnil]⟩
  obtain ⟨r₀, hr₀⟩ := exists_mem_of_ne_nil _ hnil
  obtain ⟨seed, hget, hdim, -⟩ := mem_turnCluster hr₀
  obtain ⟨hload, -, -, hown⟩ := qeGet_eq_ok.1 hget
  have hcount : seed.embedding.vecCount ≠ 0 := fun h =>
    hdim ((wellFormed_of_loadRecord hload).dim_iff.2 h)
  have hne : seed.embedding.vectors ≠ [] := fun h =>
    hcount (by rw [← Embedding.length_vectors, h, length_nil])
  obtain ⟨u, hu, hvec⟩ := hone id seed hload ⟨htype seed hload, hown⟩ hne
  refine ⟨u, fun r hr => ⟨hu, ?_⟩⟩
  obtain ⟨seed', hget', -, ⟨fetch, x, hx, hscore, hr⟩, hscope, -⟩ := mem_turnCluster hr
  cases hget.symm.trans hget'
  obtain ⟨syn, v, hsyn, hv, hsim⟩ := hR _ _ _ x hx
  have hmem := hdb syn v hv r (hsyn ▸ hr)
  obtain ⟨v', hv', hone'⟩ := hone x.1 r hr hscope (ne_nil_of_mem hmem)
  rw [hone', mem_singleton] at hmem
  subst hmem
  rw [hsim, Embedding.take_of_vectors hvec] at hscore
  exact ⟨v, hv', hone', hscore⟩

theorem nearPair_of_mem (hR : R.Measures sim) (hs : db.Sound) (hdb : db.VectorsTrue)
    (hone : OneVector V ns db)
    (htri : ∀ u ∈ V, ∀ v ∈ V, ∀ w ∈ V, minSimilarity.Le (sim u v) → minSimilarity.Le (sim u w) →
      minSimilarity.Le (sim v w))
    {x : UInt64 × UInt64} (hx : x ∈ consolidateMerges cfg env ns R db minSimilarity) :
    NearPair sim minSimilarity db x := by
  unfold consolidateMerges at hx
  split_ifs at hx
  · cases hx
  obtain ⟨before, id, hid, -, hx⟩ := mem_loopMerges R cfg env ns minSimilarity hx
  have hkeep := foldlRecOn before (turn R cfg env ns minSimilarity) (motive := KeepsVectors db)
    (.refl hs) fun _ h _ _ => (keepsVectors_preserved cfg env ns db).mergeCluster _ h
  generalize before.foldl (turn R cfg env ns minSimilarity) db = d at hkeep hx
  have htype : ∀ r, loadRecord F d.store id = .ok r → r.type = .semantic := by
    intro r' hr'
    obtain ⟨r, hr, -, hrew⟩ := hkeep.back id r' hr'
    obtain ⟨e, he, htype, -⟩ := hs.exists_entry hr
    obtain ⟨e', he', hsem⟩ := mem_collectIds.1 hid
    cases he.symm.trans he'
    rw [hrew.type, ← htype]
    exact of_decide_eq_true hsem
  obtain ⟨u, hnear⟩ := turnCluster_near cfg env minSimilarity hR (hkeep.vectorsTrue hdb)
    (hkeep.oneVector hone) htype
  have hdup := duplicates_turnCluster R cfg env ns minSimilarity hkeep.sound id
  obtain ⟨m, hplan, hsv, r, hr, hloser⟩ := of_mem_clusterMerges hx
  have hfits := mergePlan_fits hplan
  have hmem := hfits.members r (MergePlan.mem_losers.1 hr).1
  obtain ⟨hu, v, hv, hvec, hsim⟩ := hnear r hmem
  obtain ⟨-, w, hw, hvec', hsim'⟩ := hnear m.survivor hfits.survivor
  -- the vectors are those the records had before the run
  obtain ⟨l, hl, hemb, -⟩ := hkeep.back r.id r (hdup r hmem).1
  obtain ⟨s, hs, hemb', -⟩ := hkeep.back m.survivor.id m.survivor (hdup _ hfits.survivor).1
  refine ⟨l, s, v, w, hloser ▸ hl, hsv ▸ hs, ?_, ?_, htri u hu v hv w hw hsim hsim'⟩
  · rw [← hemb, hvec]
  · rw [← hemb', hvec']

end

/-- The semantic index holds the vectors of the records. -/
structure Database.SemInStep (dim : ℕ) (db : Database F) : Prop where
  exact : SemExact (fun id => (currentRecord F db.store id).elim [] (semVectors dim))
    db.ix.sem
  dim_eq : db.ix.sem.dim = dim

section

variable {dim : ℕ}

theorem Database.SemInStep.vectorsTrue (h : db.SemInStep dim) : db.VectorsTrue := by
  intro syn v hv r hr
  rw [h.exact.vecs, currentRecord_eq_some.2 hr] at hv
  have hmem : v ∈ r.semVectors dim := mem_of_getElem? hv
  unfold semVectors at hmem
  split_ifs at hmem
  · exact hmem
  · cases hmem

theorem Database.semInStep_create (cfg : DbConfig) (nonces : ℕ → F.Nonce) :
    (create cfg nonces).SemInStep cfg.embeddingDimensions := by
  refine ⟨?_, rfl⟩
  rw [currentRecord_create]
  exact semExact_create _

theorem currentRecord_of_load {id : UInt64} {o : Except Status MemoryRecord}
    (h : loadRecord F db'.store = update (loadRecord F db.store) id o) :
    currentRecord F db'.store = update (currentRecord F db.store) id o.toOption := by
  funext id'
  simp only [currentRecord, h, update_apply]
  split_ifs <;> rfl

/-- A new record is put into a database, and its vectors into the index. -/
theorem Database.SemInStep.put (h : db.SemInStep dim) (cfg : DbConfig) (env : Sample)
    (hs : db.Sound) (hopen : db.store.log.isOpen = true) (hr : Storable r)
    (hlive : r.deleted = false) (hauth : env.authOn = false)
    (hnew : loadRecord F db.store r.id = .error .notFound) (hroom : r.id.toNat < mvRoom) :
    (db.put cfg env r).SemInStep dim := by
  obtain ⟨-, -, hix, hload⟩ := put_spec cfg env hs hopen hr hlive hauth
  refine ⟨?_, ?_⟩
  · rw [currentRecord_of_load hload, hix]
    refine semExact_index h.exact h.dim_eq ?_ fun _ => hroom
    rw [currentRecord, hnew]
    rfl
  · rw [hix]
    simp only [indexRecord]
    split
    · rw [dim_semanticIndexAdd, h.dim_eq]
    · exact h.dim_eq

end

/-- A search of the first vectors of some records, all scored alike. -/
def directRanking (sim : List F32 → List F32 → F32) (ids : List UInt64) : Ranking :=
  { Ranking.nothing with
    semantic := fun ix q fetch =>
      (ids.filterMap fun id => (ix.vecs (mvSyn id 0)).map fun v => (id, sim q v)).take fetch
    mul := fun _ _ => .one }

section

variable {sim : List F32 → List F32 → F32} {ids : List UInt64}

theorem measures_directRanking (hids : ∀ id ∈ ids, id.toNat < mvRoom) :
    (directRanking sim ids).Measures sim := by
  intro ix q fetch x hx
  obtain ⟨id, hid, hx⟩ := mem_filterMap.1 (mem_of_mem_take hx)
  obtain ⟨v, hv, rfl⟩ := map_eq_some_iff.1 hx
  exact ⟨mvSyn id 0, v, (mvRec_mvSyn_iff (by decide)).2 (hids id hid), hv, rfl⟩

/-- The record has a vector that is similar to the query. -/
def similar (sim : List F32 → List F32 → F32) (minSimilarity : F32) (dim : ℕ) (q : List F32)
    (r : MemoryRecord) : Bool :=
  (r.semVectors dim).head?.any fun v => decide (minSimilarity.Le (sim q v))

theorem bind_hit (load : UInt64 → Option MemoryRecord) (keep : UInt64 × F32 → Bool) (id : UInt64)
    (f : List F32 → F32) (o : Option (List F32)) :
    ((o.map fun v => (id, f v)).bind fun x => (Option.guard keep x).bind fun x => load x.1) =
      if o.any fun v => keep (id, f v) then load id else none := by
  cases o with
  | none => rfl
  | some v =>
    simp only [map_some, bind_some, any_some, Option.guard]
    split <;> rfl

theorem turnCluster_direct (hs : db.Sound) (hstep : db.SemInStep cfg.embeddingDimensions)
    (hphase : cfg.phase 3 = true) (hids : ∀ id ∈ ids, id.toNat < mvRoom) (hlen : ids.length ≤ 256)
    (hsorted : ids.Pairwise fun a b => a.toNat < b.toNat) {minSimilarity : F32} {id : UInt64}
    {seed : MemoryRecord} (hget : qeGet env db id ns = .ok seed) (hdim : seed.embedding.dim ≠ 0)
    (hdim_eq : seed.embedding.dim = cfg.embeddingDimensions) :
    turnCluster (directRanking sim ids) cfg env ns minSimilarity db id =
      ids.filterMap fun id => (loadCandidate env db (duplicatesOf ns minSimilarity seed) [] id).filter
        (similar sim minSimilarity cfg.embeddingDimensions
          (seed.embedding.floats.take seed.embedding.dim)) := by
  have hqlen := length_duplicatesOf (wellFormed_of_loadRecord (qeGet_eq_ok.1 hget).1) hdim ns
    minSimilarity
  set q := seed.embedding.floats.take seed.embedding.dim with hq
  set hits := ids.filterMap fun id => (db.ix.sem.vecs (mvSyn id 0)).map fun v => (id, sim q v)
    with hhits
  have hcount : hits.length ≤ ids.length := length_filterMap_le _ _
  have hsem : (directRanking sim ids).semantic db.ix.sem
      (duplicatesOf ns minSimilarity seed).embedding 1056 = hits := by
    change hits.take 1056 = hits
    exact take_of_length_le (by omega)
  have hpair : hits.Pairwise fun x y => x.1.toNat < y.1.toNat := by
    refine List.Pairwise.filterMap _ (fun a b hab x hx y hy => ?_) hsorted
    obtain ⟨v, -, rfl⟩ := map_eq_some_iff.1 hx
    obtain ⟨w, -, rfl⟩ := map_eq_some_iff.1 hy
    exact hab
  obtain ⟨cands, hsearch, hrecords⟩ := qeSearch_unweighted cfg env ns minSimilarity seed
    (fun _ _ => rfl) hs hphase (fun hnil => hdim (by rw [← hqlen, hnil]; rfl))
    (hqlen.trans hdim_eq) hsem (by omega) hpair
  have hmap : (cands.map fun c => c.record) = _ := hrecords
  simp only [turnCluster, hget, hdim, if_false, hsearch, hmap]
  rw [hitRecords, hhits, ← filterMap_eq_filter, filterMap_filterMap, filterMap_filterMap]
  refine filterMap_congr fun id hid => ?_
  rw [hstep.exact.vecs_mvSyn (hids id hid) (by decide), ← head?_eq_getElem?, bind_hit]
  cases hload : loadCandidate env db (duplicatesOf ns minSimilarity seed) [] id with
  | none => rw [ite_self, filter_none]
  | some r =>
    rw [currentRecord_eq_some.2 (loadCandidate_eq_some.1 hload).1, filter_some]
    rfl

end

/-! ## A triangle that is not closed -/

/-- Vectors of that dimension, without edges. -/
def chainConfig (dim : ℕ) : DbConfig :=
  { DbConfig.unlimited with
    enabledPhase := 3
    embeddingDimensions := dim }

theorem plain_chainConfig (dim : ℕ) : Plain (chainConfig dim) .zero := ⟨rfl, rfl, rfl⟩

/-- A record with one vector and a fact about the object. -/
def chainRecord (v : List F32) (id updated object : UInt64) : MemoryRecord :=
  { recordInit with
    id
    type := .semantic
    updated
    embedding := ⟨v.length, 1, v, (Nat.one_mul _).symm⟩
    fact := ⟨.objId, 5, some (.ofBytes [112]), object, none⟩ }

theorem storable_chainRecord (hpos : 0 < v.length) (hle : v.length ≤ 0x20000000)
    (id updated object : UInt64) : Storable (chainRecord v id updated object) where
  wellFormed :=
    { wellFormed_recordInit with
      vec_count := by change 1 ≤ _; decide
      dim := hle.trans (by decide)
      dim_iff := by
        change v.length = 0 ↔ 1 = 0
        omega
      fact := .objId _ _ _ (by decide)
      predicate := by
        change Fits (some (CString.ofBytes [112]))
        decide
      object := nofun
      derived := absurd rfl }
  length_le := by
    have hpred : (CString.ofBytes [112]).bytes.length = 1 := by decide
    simp only [recordBytes, putHead, putLenstr, putTags, putEmbedding, putRelationships, putFact,
      putDerivation, putData, chainRecord, recordInit, length_append, length_leBytes,
      flatMap_nil, length_nil, length_putFloats, hpred, if_true, maxPayload]
    omega

theorem vectors_chainRecord (v : List F32) (id updated object : UInt64) :
    (chainRecord v id updated object).embedding.vectors = [v] := by
  simp [chainRecord, Embedding.vectors]

theorem similar_chainRecord {dim : ℕ} (hpos : 0 < dim) (sim : List F32 → List F32 → F32)
    (minSimilarity : F32) (q : List F32) (hv : v.length = dim) (id updated object : UInt64) :
    similar sim minSimilarity dim q (chainRecord v id updated object) =
      decide (minSimilarity.Le (sim q v)) := by
  have hdim : (chainRecord v id updated object).embedding.dim = dim := hv
  have hcount : (chainRecord v id updated object).embedding.vecCount = 1 := rfl
  have hvec : (chainRecord v id updated object).semVectors dim = [v] := by
    rw [semVectors, hdim, hcount, if_pos ⟨hpos.ne', rfl, by decide⟩, vectors_chainRecord]
  rw [similar, hvec]
  rfl

section

variable (a b c : List F32)

/-- The record in the middle, with a fact of its own. -/
def chainCenter : MemoryRecord := chainRecord c 1 0 6

/-- A record that is similar to the one in the middle. -/
def chainFirst : MemoryRecord := chainRecord a 2 0 7

/-- Another one with the same fact, which was updated last. -/
def chainLast : MemoryRecord := chainRecord b 3 1 7

def chainDb (dim : ℕ) : Database plainFraming :=
  (((Database.create (chainConfig dim) fun _ => ()).put (chainConfig dim) .zero
    (chainCenter c)).put (chainConfig dim) .zero (chainFirst a)).put (chainConfig dim) .zero
      (chainLast b)

def chainView : UInt64 → Except Status MemoryRecord :=
  update (update (update (fun _ => .error .notFound) 1
    (.ok (chainCenter c))) 2 (.ok (chainFirst a))) 3 (.ok (chainLast b))

end

/-- Two vectors that are similar to a third one, and not to each other. -/
structure Chain (sim : List F32 → List F32 → F32) (minSimilarity : F32) (dim : ℕ)
    (a b c : List F32) : Prop where
  pos : 0 < dim
  le : dim ≤ 0x20000000
  first : a.length = dim
  last : b.length = dim
  center : c.length = dim
  symm : ∀ v w, sim v w = sim w v
  nearFirst : minSimilarity.Le (sim c a)
  nearLast : minSimilarity.Le (sim c b)
  apart : ¬ minSimilarity.Le (sim a b)

section

variable {sim : List F32 → List F32 → F32} {minSimilarity : F32} {dim : ℕ} {a b c : List F32}
  (hchain : Chain sim minSimilarity dim a b c)

theorem chainView_eq_ok {id : UInt64} (h : chainView a b c id = .ok r) :
    id = 1 ∧ r = chainCenter c ∨ id = 2 ∧ r = chainFirst a ∨ id = 3 ∧ r = chainLast b := by
  unfold chainView at h
  simp only [update_apply] at h
  split_ifs at h with h₃ h₂ h₁ <;> cases h
  · exact .inr (.inr ⟨h₃, rfl⟩)
  · exact .inr (.inl ⟨h₂, rfl⟩)
  · exact .inl ⟨h₁, rfl⟩

include hchain

theorem Chain.storable (hv : v.length = dim) (id updated object : UInt64) :
    Storable (chainRecord v id updated object) :=
  storable_chainRecord (hv ▸ hchain.pos) (hv ▸ hchain.le) id updated object

theorem Chain.chainDb_spec : (chainDb a b c dim).Shows (chainView a b c) ∧
    (chainDb a b c dim).SemInStep dim := by
  have hc : Storable (chainCenter c) := hchain.storable hchain.center 1 0 6
  have ha : Storable (chainFirst a) := hchain.storable hchain.first 2 0 7
  have hb : Storable (chainLast b) := hchain.storable hchain.last 3 1 7
  have h₀ := Database.shows_create (F := plainFraming) (chainConfig dim) fun _ => ()
  have h₁ := h₀.put (chainConfig dim) .zero hc rfl rfl
  have h₂ := h₁.put (chainConfig dim) .zero ha rfl rfl
  have s₀ := Database.semInStep_create (F := plainFraming) (chainConfig dim) fun _ => ()
  have s₁ := s₀.put (chainConfig dim) .zero h₀.sound h₀.isOpen hc rfl rfl
    (by rw [h₀.load]) (by change 1 < mvRoom; decide)
  have s₂ := s₁.put (chainConfig dim) .zero h₁.sound h₁.isOpen ha rfl rfl
    (by rw [h₁.load]; rfl) (by change 2 < mvRoom; decide)
  refine ⟨h₂.put (chainConfig dim) .zero hb rfl rfl, ?_⟩
  exact s₂.put (chainConfig dim) .zero h₂.sound h₂.isOpen hb rfl rfl
    (by rw [h₂.load]; rfl) (by change 3 < mvRoom; decide)

omit hchain in
theorem chainIds_lt : ∀ id ∈ ([1, 2, 3] : List UInt64), id.toNat < mvRoom := by
  simp [mvRoom]

theorem Chain.turnCluster_eq (h : db.Shows (chainView a b c)) (hstep : db.SemInStep dim)
    {id updated object : UInt64} (hid : chainView a b c id = .ok (chainRecord v id updated object))
    (hv : v.length = dim) :
    turnCluster (directRanking sim [1, 2, 3]) (chainConfig dim) .zero none minSimilarity db id =
      (if minSimilarity.Le (sim v c) then [chainCenter c] else []) ++
        ((if minSimilarity.Le (sim v a) then [chainFirst a] else []) ++
          if minSimilarity.Le (sim v b) then [chainLast b] else []) := by
  have hget : qeGet .zero db id none = .ok (chainRecord v id updated object) := by
    rw [qeGet_eq_ok, h.load]
    exact ⟨hid, rfl, rfl, rfl⟩
  have hdim : (chainRecord v id updated object).embedding.dim = dim := hv
  rw [turnCluster_direct h.sound hstep (plain_chainConfig dim).phase chainIds_lt (by decide)
    (by decide) hget (hdim ▸ hchain.pos.ne') hdim]
  have hload : ∀ x (r : MemoryRecord), chainView a b c x = .ok r → r.deleted = false →
      r.type = .semantic → r.expiresAt = 0 → loadCandidate .zero db
        (duplicatesOf none minSimilarity (chainRecord v id updated object)) [] x = some r := by
    intro x r hx hlive htype hexp
    rw [loadCandidate_eq_some, h.load]
    refine ⟨hx, by simp [recordExpired, hexp], ?_⟩
    simp [passesFilters, duplicatesOf, hlive, htype]
  have hq : (chainRecord v id updated object).embedding.floats.take
      (chainRecord v id updated object).embedding.dim = v := take_length
  have hd : (chainConfig dim).embeddingDimensions = dim := rfl
  have h₁ : similar sim minSimilarity dim v (chainCenter c) = _ :=
    similar_chainRecord hchain.pos sim minSimilarity v hchain.center 1 0 6
  have h₂ : similar sim minSimilarity dim v (chainFirst a) = _ :=
    similar_chainRecord hchain.pos sim minSimilarity v hchain.first 2 0 7
  have h₃ : similar sim minSimilarity dim v (chainLast b) = _ :=
    similar_chainRecord hchain.pos sim minSimilarity v hchain.last 3 1 7
  simp only [filterMap_cons, filterMap_nil, hload 1 (chainCenter c) rfl rfl rfl rfl,
    hload 2 (chainFirst a) rfl rfl rfl rfl, hload 3 (chainLast b) rfl rfl rfl rfl, hq, hd,
    filter_some, h₁, h₂, h₃, decide_eq_true_eq]
  split_ifs <;> rfl

omit hchain in
theorem apply_mergePatch_chain (a b : List F32) :
    (mergePatch [chainFirst a, chainLast b] none).apply (chainLast b) (chainLast b).fact 0 =
      chainRecord b 3 0 7 := by
  have himp : floatMax (floatMax .zero .zero) .zero = .zero := by decide
  have hconf : floatMax (floatMax .zero .one) .one = .one := by decide
  simp only [UpdatePatch.apply, mergePatch, chainFirst, chainLast, chainRecord, recordInit,
    map_cons, map_nil, foldl_cons, foldl_nil, himp, hconf, getD_some,
    getD_none, elim_none]
  rfl

/-- The cluster of the record in the middle is merged into the last record. -/
theorem Chain.mem_clusterMerges (h : db.Shows (chainView a b c)) (hstep : db.SemInStep dim) :
    (2, 3) ∈ clusterMerges (chainConfig dim) .zero none
      (turnCluster (directRanking sim [1, 2, 3]) (chainConfig dim) .zero none minSimilarity db 1)
        db := by
  have hvalid : validateCommon (chainConfig dim) (chainRecord b 3 0 7) = .ok () := by
    have himp : ¬ (F32.zero.Lt .zero ∨ F32.one.Lt .zero) := by decide
    have hconf : ¬ (F32.one.Lt .zero ∨ F32.one.Lt .one) := by decide
    simp [validateCommon, chainRecord, chainConfig, recordInit, himp, hconf, hchain.last]
  have hpair : ∀ recs, mergePlan recs = some ⟨chainLast b, none, [chainFirst a, chainLast b]⟩ →
      PairMerge (chainConfig dim) .zero none recs (chainFirst a) (chainLast b)
        (chainRecord b 3 0 7) := fun recs hplan =>
    { plan := ⟨_, hplan, rfl, apply_mergePatch_chain a b⟩
      loser := hchain.storable hchain.first 2 0 7
      loserOwner := rfl
      owner := rfl
      type := rfl
      valid := hvalid
      storable := hchain.storable hchain.last 3 0 7 }
  rw [hchain.turnCluster_eq h hstep rfl hchain.center, if_pos hchain.nearFirst,
    if_pos hchain.nearLast]
  refine (mergeCluster_pair h (plain_chainConfig dim) rfl (hpair _ ?_) rfl rfl).2
  split_ifs <;> rfl

theorem Chain.mergePlan_eq_none (h : db.Shows (chainView a b c)) (hstep : db.SemInStep dim)
    {id : UInt64} (hid : id ≠ 1) :
    mergePlan (turnCluster (directRanking sim [1, 2, 3]) (chainConfig dim) .zero none minSimilarity
      db id) = none := by
  have hba := hchain.symm a b ▸ hchain.apart
  by_cases h₂ : id = 2
  · subst h₂
    rw [hchain.turnCluster_eq h hstep rfl hchain.first, if_neg hchain.apart]
    split_ifs <;> rfl
  by_cases h₃ : id = 3
  · subst h₃
    rw [hchain.turnCluster_eq h hstep rfl hchain.last, if_neg hba]
    split_ifs <;> rfl
  · have hnone : turnCluster (directRanking sim [1, 2, 3]) (chainConfig dim) .zero none
        minSimilarity db id = [] := by
      unfold turnCluster
      cases hget : qeGet .zero db id none with
      | error st => rfl
      | ok r =>
        have hview := (qeGet_eq_ok.1 hget).1
        rw [h.load] at hview
        rcases chainView_eq_ok hview with ⟨heq, -⟩ | ⟨heq, -⟩ | ⟨heq, -⟩ <;> contradiction
    rw [hnone]
    rfl

/-- The first record is merged into the last one, to which it is not similar. -/
theorem Chain.mem_consolidateMerges (h : db.Shows (chainView a b c)) (hstep : db.SemInStep dim) :
    (2, 3) ∈ consolidateMerges (chainConfig dim) .zero none (directRanking sim [1, 2, 3]) db
      minSimilarity := by
  have hload : loadRecord F db.store 1 = .ok (chainCenter c) := by
    rw [h.load]
    rfl
  obtain ⟨e, he, htype, -⟩ := h.sound.exists_entry hload
  have hids : 1 ∈ collectIds db.store.hash fun _ e => e.type = .semantic :=
    mem_collectIds.2 ⟨e, he, decide_eq_true htype⟩
  change (2, 3) ∈ loopMerges _ _ _ _ _ _ _
  -- whatever the order of the ids is, nothing changes before the record in the middle
  generalize collectIds db.store.hash (fun _ e => e.type = .semantic) = ids at hids
  induction ids with
  | nil => cases hids
  | cons id ids ih =>
    rw [(consolidateLoop_cons ..).2, mem_append]
    by_cases hid : id = 1
    · subst hid
      exact .inl (hchain.mem_clusterMerges h hstep)
    · have hnone := hchain.mergePlan_eq_none h hstep hid
      rw [turn, (mergeCluster_of_none _ _ _ _ hnone db).1]
      exact .inr (ih ((mem_cons.1 hids).resolve_left (Ne.symm hid)))

end

theorem Chain.oneVector {sim : List F32 → List F32 → F32} {minSimilarity : F32} {dim : ℕ}
    {a b c : List F32} {V : Set (List F32)} (ha : a ∈ V) (hb : b ∈ V) (hc : c ∈ V)
    (hchain : Chain sim minSimilarity dim a b c) (ns : Option CString) :
    OneVector V ns (chainDb a b c dim) := by
  intro id r hr _ _
  rw [hchain.chainDb_spec.1.load] at hr
  rcases chainView_eq_ok hr with ⟨-, rfl⟩ | ⟨-, rfl⟩ | ⟨-, rfl⟩
  · exact ⟨c, hc, vectors_chainRecord c 1 0 6⟩
  · exact ⟨a, ha, vectors_chainRecord a 2 0 7⟩
  · exact ⟨b, hb, vectors_chainRecord b 3 1 7⟩

theorem Chain.not_nearPair {sim : List F32 → List F32 → F32} {minSimilarity : F32} {dim : ℕ}
    {a b c : List F32} (hchain : Chain sim minSimilarity dim a b c) :
    ¬ NearPair sim minSimilarity (chainDb a b c dim) (2, 3) := by
  rintro ⟨l, s, v, w, hl, hs, hv, hw, hsim⟩
  rw [hchain.chainDb_spec.1.load] at hl hs
  cases hl
  cases hs
  cases (vectors_chainRecord a 2 0 7).symm.trans hv
  cases (vectors_chainRecord b 3 1 7).symm.trans hw
  exact hchain.apart hsim

/-- **Consolidation merges only near-duplicates**, for all records with vectors of `V`, exactly when
two vectors of `V` similar enough to a third one are so to each other. -/
theorem merges_near_iff {sim : List F32 → List F32 → F32} (hsymm : ∀ v w, sim v w = sim w v)
    (minSimilarity : F32) {dim : ℕ} (hpos : 0 < dim) (hle : dim ≤ 0x20000000) {V : Set (List F32)}
    (hV : ∀ v ∈ V, v.length = dim) :
    (∀ (F : Framing) (R : Ranking) (cfg : DbConfig) (env : Sample) (ns : Option CString)
        (db : Database F), R.Measures sim → db.Sound → db.VectorsTrue → OneVector V ns db →
      ∀ x ∈ consolidateMerges cfg env ns R db minSimilarity, NearPair sim minSimilarity db x) ↔
      ∀ u ∈ V, ∀ v ∈ V, ∀ w ∈ V, minSimilarity.Le (sim u v) → minSimilarity.Le (sim u w) →
        minSimilarity.Le (sim v w) := by
  constructor
  · intro hall u hu v hv w hw huv huw
    by_contra hvw
    have hchain : Chain sim minSimilarity dim v w u :=
      ⟨hpos, hle, hV v hv, hV w hw, hV u hu, hsymm, huv, huw, hvw⟩
    obtain ⟨hshows, hstep⟩ := hchain.chainDb_spec
    refine hchain.not_nearPair (hall plainFraming (directRanking sim [1, 2, 3]) (chainConfig dim)
      .zero none (chainDb v w u dim) (measures_directRanking chainIds_lt) hshows.sound
      hstep.vectorsTrue (hchain.oneVector hv hw hu none) (2, 3) ?_)
    exact hchain.mem_consolidateMerges hshows hstep
  · intro htri F R cfg env ns db hR hs hdb hone x hx
    exact nearPair_of_mem hR hs hdb hone htri hx

/-- A similarity under which the vector zero is similar to every vector, and no other two are. -/
def hubSimilarity (v w : List F32) : F32 :=
  if v = w ∨ v = [.zero] ∨ w = [.zero] then .one else .zero

theorem hubSimilarity_symm (v w : List F32) : hubSimilarity v w = hubSimilarity w v := by
  unfold hubSimilarity
  congr 1
  rw [eq_iff_iff]
  constructor <;> rintro (rfl | h | h) <;> simp_all

/-- `2.0F`. -/
def F32.two : F32 := ⟨0x40000000⟩

theorem chain_hub : Chain hubSimilarity .one 1 [.one] [.two] [.zero] where
  pos := by decide
  le := by decide
  first := rfl
  last := rfl
  center := rfl
  symm := hubSimilarity_symm
  nearFirst := by decide
  nearLast := by decide
  apart := by decide

/-- The records 2 and 3 are similar to the record 1 and not to each other; one is merged into the
other. -/
theorem merged_apart :
    (directRanking hubSimilarity [1, 2, 3]).Measures hubSimilarity ∧
      (∀ v w, hubSimilarity v w = hubSimilarity w v) ∧
      (chainDb [.one] [.two] [.zero] 1).Sound ∧ (chainDb [.one] [.two] [.zero] 1).VectorsTrue ∧
      OneVector {[.one], [.two], [.zero]} none (chainDb [.one] [.two] [.zero] 1) ∧
      (2, 3) ∈ consolidateMerges (chainConfig 1) .zero none (directRanking hubSimilarity [1, 2, 3])
        (chainDb [.one] [.two] [.zero] 1) .one ∧
      loadRecord plainFraming (chainDb [.one] [.two] [.zero] 1).store 2 = .ok (chainFirst [.one]) ∧
      loadRecord plainFraming (chainDb [.one] [.two] [.zero] 1).store 3 = .ok (chainLast [.two]) ∧
      ¬ F32.one.Le (hubSimilarity [.one] [.two]) := by
  obtain ⟨hshows, hstep⟩ := chain_hub.chainDb_spec
  rw [hshows.load]
  exact ⟨measures_directRanking chainIds_lt, hubSimilarity_symm, hshows.sound, hstep.vectorsTrue,
    chain_hub.oneVector (by simp) (by simp) (by simp) none,
    chain_hub.mem_consolidateMerges hshows hstep, rfl, rfl, chain_hub.apart⟩

/-- Among records with equal vectors only near-duplicates are merged. -/
theorem merges_near_of_equal :
    (∀ v w, hubSimilarity v w = hubSimilarity w v) ∧
      (∀ v ∈ ({[.one]} : Set (List F32)), v.length = 1) ∧
      ∀ (F : Framing) (R : Ranking) (cfg : DbConfig) (env : Sample) (ns : Option CString)
        (db : Database F), R.Measures hubSimilarity → db.Sound → db.VectorsTrue →
        OneVector {[.one]} ns db →
        ∀ x ∈ consolidateMerges cfg env ns R db .one, NearPair hubSimilarity .one db x := by
  have hV : ∀ v ∈ ({[.one]} : Set (List F32)), v.length = 1 := by
    rintro v rfl
    rfl
  refine ⟨hubSimilarity_symm, hV, ?_⟩
  refine (merges_near_iff hubSimilarity_symm .one Nat.one_pos (by decide) hV).2 ?_
  rintro u rfl v rfl w rfl huv -
  exact huv

end AegisDB
