import AegisDB.Foundations.HeapBuild
import AegisDB.Foundations.Machine
import AegisDB.Index.VectorStore

/-!
# The build of the graph in the background

`db_semantic_build_step` builds the graph of a semantic index while records come and go: it takes a
snapshot of the dense array, builds the shards from it without a lock, catches up with the journal in
rounds, and replaces the dense array by the shards. A replica that is reset clears the index, whatever
the build does.
-/

namespace AegisDB

open List Function OpenTable VectorStore

/-! ## The build -/

structure SemBuildJob where
  /-- `synids` and `vecs`: the entries of the dense array. -/
  snapshot : DenseArray UInt64 (List F32)
  nshards : ℕ
  nshards_pos : 0 < nshards
  shards : List Graph
  /-- The journal that was taken and has not been replayed. -/
  pending : List SemDelta

/-- A turn of `build_shard_worker`: the vectors of other shards are passed over. -/
def shardStep (nshards shard : ℕ) (g : Graph) (x : UInt64 × List F32) : Graph :=
  if shardIndex x.1 nshards = shard then update g x.1 (some x.2) else g

/-- `build_shard_worker`: the graph of the vectors that belong to a shard. -/
def buildShard (entries : List (UInt64 × List F32)) (nshards shard : ℕ) : Graph :=
  entries.foldl (shardStep nshards shard) fun _ => none

/-- `semantic_index_build_run`. -/
def SemBuildJob.buildRun (job : SemBuildJob) : SemBuildJob :=
  { job with
    shards := (List.range job.nshards).map (buildShard job.snapshot.entries job.nshards) }

/-- `semantic_index_build_apply`. -/
def SemBuildJob.apply (job : SemBuildJob) : SemBuildJob :=
  { job with
    shards := job.pending.foldl (fun shards d => graphSet shards d.1 d.2) job.shards
    pending := [] }

/-- Where `db_semantic_build_step` is: it has no job, or one that builds, may take the journal, or
has taken it. -/
inductive BuildPhase
  | idle
  | begun (job : SemBuildJob)
  | built (job : SemBuildJob)
  | taken (job : SemBuildJob)

/-- A semantic index and the build beside it. -/
structure Builder where
  store : VectorStore
  phase : BuildPhase

/-- What is done to the index, and the phases of the build. -/
inductive BuilderAct
  | add (id : UInt64) (e : Embedding)
  | remove (id : UInt64)
  | clear
  | buildBegin
  | buildRun
  | takeDeltas
  | apply
  | commit
  | abort

/-- `semantic_index_needs_build`. -/
def VectorStore.needsBuild (s : VectorStore) : Bool :=
  s.shards.isEmpty && !s.building && decide (s.annThreshold ≤ s.dense.entries.length)

/-- `semantic_index_build_abort`. -/
def VectorStore.abort (s : VectorStore) : VectorStore := { s with building := false, deltas := [] }

/-- `semantic_index_build_commit`, behind the replay of the rest of the journal. -/
def VectorStore.install (s : VectorStore) (shards : List Graph) : VectorStore :=
  { s with dense := .empty, shards, building := false, deltas := [] }

def builderStep (target cpus : ℕ) (b : Builder) : BuilderAct → Option Builder
  | .add id e => some { b with store := b.store.add id e }
  | .remove id => some { b with store := b.store.remove id }
  | .clear => some { b with store := b.store.clear }
  | .buildBegin =>
    match b.phase with
    | .idle =>
      if b.store.needsBuild then
        some
          { store := { b.store with building := true }
            phase := .begun
              { snapshot := b.store.dense
                nshards := pickNshards target cpus b.store.dense.entries.length
                nshards_pos := pickNshards_pos ..
                shards := []
                pending := [] } }
      else none
    | _ => none
  | .buildRun =>
    match b.phase with
    | .begun job => some { b with phase := .built job.buildRun }
    | _ => none
  | .takeDeltas =>
    match b.phase with
    | .built job =>
      some
        { store := { b.store with deltas := [] }
          phase := .taken { job with pending := b.store.deltas } }
    | _ => none
  | .apply =>
    match b.phase with
    | .taken job => some { b with phase := .built job.apply }
    | _ => none
  | .commit =>
    match b.phase with
    | .built job =>
      let job := { job with pending := b.store.deltas }.apply
      some { store := b.store.install job.shards, phase := .idle }
    | _ => none
  | .abort =>
    match b.phase with
    | .idle => none
    | _ => some { store := b.store.abort, phase := .idle }

theorem foldl_shardStep {syn : UInt64} {nshards shard : ℕ} (h : shardIndex syn nshards = shard)
    (entries : List (UInt64 × List F32)) {g g' : Graph} (hg : g syn = g' syn) :
    entries.foldl (shardStep nshards shard) g syn = updateAll g' entries syn := by
  induction entries generalizing g g' with
  | nil => exact hg
  | cons x entries ih =>
    rw [foldl_cons, updateAll, foldl_cons, ← updateAll]
    apply ih
    unfold shardStep
    by_cases hx : syn = x.1
    · subst hx
      rw [if_pos h, update_self, if_pos rfl]
    · rw [if_neg hx, ← hg]
      split
      · exact update_of_ne hx _ _
      · rfl

theorem graphAt_buildRun (job : SemBuildJob) : graphAt job.buildRun.shards = job.snapshot.get? := by
  funext syn
  have hlt := shardIndex_lt syn job.nshards_pos
  have hshard : graphAt job.buildRun.shards syn =
      updateAll (fun _ => none) job.snapshot.entries syn := by
    rw [← foldl_shardStep rfl job.snapshot.entries rfl]
    unfold graphAt SemBuildJob.buildRun
    rw [length_map, length_range, getElem?_map, getElem?_range hlt]
    rfl
  rw [hshard]
  cases hget : job.snapshot.get? syn with
  | none => exact updateAll_of_not_mem (DenseArray.get?_eq_none.1 hget)
  | some v => exact updateAll_eq_some job.snapshot.nodup (DenseArray.get?_eq_some.1 hget)

theorem buildRun_shards_ne_nil (job : SemBuildJob) : job.buildRun.shards ≠ [] := by
  rw [← length_pos_iff]
  simpa [SemBuildJob.buildRun] using job.nshards_pos

/-! ## The journal -/

/-- A graph behind some changes of the journal. -/
def replayDeltas (g : Graph) (ds : List SemDelta) : Graph :=
  ds.foldl (fun g d => update g d.1 d.2) g

theorem replayDeltas_concat (g : Graph) (ds : List SemDelta) (d : SemDelta) :
    replayDeltas g (ds ++ [d]) = update (replayDeltas g ds) d.1 d.2 := by
  simp [replayDeltas]

theorem graphAt_foldl_graphSet {shards : List Graph} (h : shards ≠ []) (ds : List SemDelta) :
    ds.foldl (fun shards d => graphSet shards d.1 d.2) shards ≠ [] ∧
      graphAt (ds.foldl (fun shards d => graphSet shards d.1 d.2) shards) =
        replayDeltas (graphAt shards) ds := by
  induction ds generalizing shards with
  | nil => exact ⟨h, rfl⟩
  | cons d ds ih =>
    have := ih (graphSet_ne_nil h d.1 d.2)
    rw [graphAt_graphSet h] at this
    exact this

namespace VectorStore

/-- The dense array of a store for which a graph is built is that graph behind the journal. -/
structure Lags (s : VectorStore) (g : Graph) : Prop where
  building : s.building = true
  shards : s.shards = []
  replay : replayDeltas g s.deltas = s.dense.get?

/-- No graph is built, and there is no journal. -/
structure Quiet (s : VectorStore) : Prop where
  building : s.building = false
  deltas : s.deltas = []

variable {s : VectorStore} {g : Graph}

theorem Lags.vecAdd (h : s.Lags g) (syn : UInt64) (v : List F32) : (s.vecAdd syn v).Lags g := by
  unfold VectorStore.vecAdd
  rw [if_pos h.shards]
  refine ⟨h.building, h.shards, ?_⟩
  rw [journal, if_pos h.building, replayDeltas_concat, h.replay, DenseArray.get?_put]

theorem Lags.vecRemove (h : s.Lags g) (syn : UInt64) : (s.vecRemove syn).Lags g := by
  unfold VectorStore.vecRemove
  rw [if_pos h.shards]
  refine ⟨h.building, h.shards, ?_⟩
  rw [journal, if_pos h.building, replayDeltas_concat, h.replay, DenseArray.get?_remove]

theorem Quiet.journal_eq (h : s.Quiet) (d : SemDelta) : s.journal d = [] := by
  rw [journal, h.building, if_neg Bool.false_ne_true, h.deltas]

theorem Quiet.vecAdd (h : s.Quiet) (syn : UInt64) (v : List F32) : (s.vecAdd syn v).Quiet := by
  unfold VectorStore.vecAdd
  split
  · exact ⟨h.building, h.journal_eq _⟩
  · exact ⟨h.building, h.deltas⟩

theorem Quiet.vecRemove (h : s.Quiet) (syn : UInt64) : (s.vecRemove syn).Quiet := by
  unfold VectorStore.vecRemove
  split
  · exact ⟨h.building, h.journal_eq _⟩
  · exact ⟨h.building, h.deltas⟩

section

variable {P : VectorStore → Prop} (hadd : ∀ s syn v, P s → P (s.vecAdd syn v))
  (hremove : ∀ s syn, P s → P (s.vecRemove syn)) (hcounts : ∀ s c, P s → P { s with counts := c })

include hremove

theorem dropVectors_induction (h : P s) (id : UInt64) : P (s.dropVectors id) := by
  unfold dropVectors
  generalize range (s.counts id) = slots
  induction slots generalizing s with
  | nil => exact h
  | cons slot slots ih => exact ih (hremove s _ h)

include hcounts

/-- What every change of a vector keeps, the removal of a record keeps. -/
theorem remove_induction (h : P s) (id : UInt64) : P (s.remove id) :=
  hcounts _ _ (dropVectors_induction hremove h id)

include hadd

/-- What every change of a vector keeps, the vectors of a record keep. -/
theorem add_induction (h : P s) (id : UInt64) (e : Embedding) : P (s.add id e) := by
  have hstore : ∀ vs s slot, P s → P (storeVectors s id slot vs) := by
    intro vs
    induction vs with
    | nil => exact fun s slot h => h
    | cons v vs ih => exact fun s slot h => ih _ _ (hadd s _ v h)
  unfold add
  split
  · exact h
  · exact hcounts _ _ (hstore _ _ _ (dropVectors_induction hremove h id))

end

theorem Lags.add (h : s.Lags g) (id : UInt64) (e : Embedding) : (s.add id e).Lags g :=
  add_induction (P := fun s => s.Lags g) (fun _ syn v h => h.vecAdd syn v) (fun _ syn h => h.vecRemove syn)
    (fun _ _ h => ⟨h.building, h.shards, h.replay⟩) h id e

theorem Lags.remove (h : s.Lags g) (id : UInt64) : (s.remove id).Lags g :=
  remove_induction (P := fun s => s.Lags g) (fun _ syn h => h.vecRemove syn)
    (fun _ _ h => ⟨h.building, h.shards, h.replay⟩) h id

theorem Quiet.add (h : s.Quiet) (id : UInt64) (e : Embedding) : (s.add id e).Quiet :=
  add_induction (fun _ syn v h => h.vecAdd syn v) (fun _ syn h => h.vecRemove syn)
    (fun _ _ h => ⟨h.building, h.deltas⟩) h id e

theorem Quiet.remove (h : s.Quiet) (id : UInt64) : (s.remove id).Quiet :=
  remove_induction (fun _ syn h => h.vecRemove syn) (fun _ _ h => ⟨h.building, h.deltas⟩) h id

end VectorStore

/-! ## Behind every step -/

/-- The graph of a job, and what of the journal it has taken. -/
inductive BuildPhase.Holds : BuildPhase → Graph → List SemDelta → Prop
  | begun (job : SemBuildJob) : Holds (.begun job) job.snapshot.get? []
  | built {job : SemBuildJob} (h : job.shards ≠ []) : Holds (.built job) (graphAt job.shards) []
  | taken {job : SemBuildJob} (h : job.shards ≠ []) :
    Holds (.taken job) (graphAt job.shards) job.pending

/-- The store holds the vectors of the records; a build will have them too, unless the index was
cleared. -/
structure Builder.Inv (dim : ℕ) (vectors : UInt64 → List (List F32)) (b : Builder) : Prop where
  dim_eq : b.store.dim = dim
  exact : SemExact vectors b.store.toIndex
  room : ∀ id, vectors id ≠ [] → id.toNat < mvRoom
  job : b.store.Quiet ∨
    ∃ g ds, b.phase.Holds g ds ∧ b.store.Lags (replayDeltas g ds)

/-- What a step does to a plain map from ids to lists of vectors. -/
def plainStep (dim : ℕ) (vectors : UInt64 → List (List F32)) :
    BuilderAct → UInt64 → List (List F32)
  | .add id e =>
    if e.dim ≠ dim ∨ e.vecCount = 0 ∨ mvSlots < e.vecCount then vectors
    else update vectors id e.vectors
  | .remove id => update vectors id []
  | .clear => fun _ => []
  | _ => vectors

/-- The ids leave room for a place, and no build is committed that was begun before the index was
cleared. -/
def Unharmed (b : Builder) : BuilderAct → Prop
  | .add id _ => id.toNat < mvRoom
  | .commit => b.store.building = true
  | _ => True

instance (b : Builder) : DecidablePred (Unharmed b)
  | .add id _ => inferInstanceAs (Decidable (id.toNat < mvRoom))
  | .commit => inferInstanceAs (Decidable (b.store.building = true))
  | .remove _ | .clear | .buildBegin | .buildRun | .takeDeltas | .apply | .abort => .isTrue trivial

section

variable {dim : ℕ} {vectors : UInt64 → List (List F32)} {b b' : Builder}

theorem Builder.Inv.add (h : b.Inv dim vectors) {id : UInt64} (hid : id.toNat < mvRoom)
    (e : Embedding) :
    Builder.Inv dim (plainStep dim vectors (.add id e)) { b with store := b.store.add id e } := by
  have hdim : (b.store.add id e).dim = b.store.dim := by
    have hindex := congrArg SemanticIndex.dim (b.store.toIndex_add id e)
    rwa [dim_semanticIndexAdd] at hindex
  have hjob : (b.store.add id e).Quiet ∨
      ∃ g ds, b.phase.Holds g ds ∧ (b.store.add id e).Lags (replayDeltas g ds) := by
    rcases h.job with hquiet | ⟨g, ds, hphase, hlags⟩
    · exact .inl (hquiet.add id e)
    · exact .inr ⟨g, ds, hphase, hlags.add id e⟩
  rw [plainStep]
  split
  · next hbad =>
    -- the vectors are refused
    rw [← h.dim_eq] at hbad
    have hsame : b.store.add id e = b.store := if_pos hbad
    rw [hsame]
    exact ⟨h.dim_eq, h.exact, h.room, h.job⟩
  · next hok =>
    rw [not_or, not_or, not_not, not_lt] at hok
    obtain ⟨hedim, hcount, hslots⟩ := hok
    refine ⟨hdim.trans h.dim_eq, ?_, ?_, hjob⟩
    · change SemExact _ (b.store.add id e).toIndex
      rw [toIndex_add]
      exact h.exact.add hid (hedim.trans h.dim_eq.symm) hcount hslots
    · intro id' hne
      by_cases heq : id' = id
      · exact heq ▸ hid
      · rw [update_of_ne heq] at hne
        exact h.room id' hne

theorem Builder.Inv.remove (h : b.Inv dim vectors) (id : UInt64) :
    Builder.Inv dim (plainStep dim vectors (.remove id)) { b with store := b.store.remove id } := by
  have hdim : (b.store.remove id).dim = b.store.dim := by
    have hindex := congrArg SemanticIndex.dim (b.store.toIndex_remove id)
    rwa [dim_semanticIndexRemove] at hindex
  refine ⟨hdim.trans h.dim_eq, ?_, ?_, ?_⟩
  · change SemExact _ (b.store.remove id).toIndex
    rw [toIndex_remove]
    exact h.exact.remove (h.room id)
  · intro id' hne
    by_cases heq : id' = id
    · subst heq
      exact absurd (update_self ..) hne
    · exact h.room id' (by rwa [plainStep, update_of_ne heq] at hne)
  · rcases h.job with hquiet | ⟨g, ds, hphase, hlags⟩
    · exact .inl (hquiet.remove id)
    · exact .inr ⟨g, ds, hphase, hlags.remove id⟩

theorem Builder.Inv.clear (h : b.Inv dim vectors) :
    Builder.Inv dim (fun _ => []) { b with store := b.store.clear } :=
  ⟨h.dim_eq, semExact_create b.store.dim, fun _ hne => absurd rfl hne, .inl ⟨rfl, rfl⟩⟩

/-- The dense array is replaced by the graph that has caught up with it. -/
theorem toIndex_install {s : VectorStore} {shards : List Graph} (hne : shards ≠ [])
    (hs : s.Lags (graphAt shards)) :
    (s.install (s.deltas.foldl (fun shards d => graphSet shards d.1 d.2) shards)).toIndex =
      s.toIndex := by
  obtain ⟨hne', hgraph⟩ := graphAt_foldl_graphSet hne s.deltas
  unfold install toIndex vecs
  rw [if_neg hne', if_pos hs.shards, hgraph, hs.replay]

theorem Builder.Inv.step {target cpus : ℕ} {a : BuilderAct} (h : b.Inv dim vectors)
    (ha : Unharmed b a) (hstep : builderStep target cpus b a = some b') :
    b'.Inv dim (plainStep dim vectors a) := by
  obtain ⟨s, phase⟩ := b
  cases a with
  | add id e =>
    cases hstep
    exact h.add ha e
  | remove id =>
    cases hstep
    exact h.remove id
  | clear =>
    cases hstep
    exact h.clear
  | buildBegin =>
    cases phase with
    | idle =>
      obtain ⟨hneeds, hstep⟩ := Option.ite_none_right_eq_some.1 hstep
      cases hstep
      refine ⟨h.dim_eq, h.exact, h.room, .inr ⟨_, _, .begun _, ?_⟩⟩
      rcases h.job with hquiet | ⟨g, ds, hphase, -⟩
      · have hshards : s.shards = [] := by
          simp only [needsBuild, Bool.and_eq_true, List.isEmpty_iff] at hneeds
          exact hneeds.1.1
        exact ⟨rfl, hshards, congrArg (replayDeltas s.dense.get?) hquiet.deltas⟩
      · cases hphase
    | _ => cases hstep
  | buildRun =>
    cases phase with
    | begun job =>
      cases hstep
      refine ⟨h.dim_eq, h.exact, h.room, h.job.imp_right ?_⟩
      rintro ⟨g, ds, hphase, hlags⟩
      cases hphase
      refine ⟨_, _, .built (buildRun_shards_ne_nil job), ?_⟩
      rwa [graphAt_buildRun]
    | _ => cases hstep
  | takeDeltas =>
    cases phase with
    | built job =>
      cases hstep
      refine ⟨h.dim_eq, h.exact, h.room, ?_⟩
      rcases h.job with hquiet | ⟨g, ds, hphase, hlags⟩
      · exact .inl ⟨hquiet.building, rfl⟩
      · cases hphase with
        | built hne => exact .inr ⟨_, _, .taken hne, hlags.building, hlags.shards, hlags.replay⟩
    | _ => cases hstep
  | apply =>
    cases phase with
    | taken job =>
      cases hstep
      refine ⟨h.dim_eq, h.exact, h.room, h.job.imp_right ?_⟩
      rintro ⟨g, ds, hphase, hlags⟩
      cases hphase with
      | taken hne =>
        obtain ⟨hne', hgraph⟩ := graphAt_foldl_graphSet hne job.pending
        refine ⟨_, _, .built hne', ?_⟩
        rwa [← hgraph] at hlags
    | _ => cases hstep
  | commit =>
    cases phase with
    | built job =>
      cases hstep
      rcases h.job with hquiet | ⟨g, ds, hphase, hlags⟩
      · cases hquiet.building.symm.trans ha
      · cases hphase with
        | built hne =>
          refine ⟨h.dim_eq, ?_, h.room, .inl ⟨rfl, rfl⟩⟩
          exact (toIndex_install hne hlags).symm ▸ h.exact
    | _ => cases hstep
  | abort =>
    cases phase with
    | idle => cases hstep
    | _ =>
      cases hstep
      exact ⟨h.dim_eq, h.exact, h.room, .inl ⟨rfl, rfl⟩⟩

theorem Builder.Inv.run {target cpus : ℕ} {as : List BuilderAct} (h : b.Inv dim vectors)
    (has : Along (builderStep target cpus) Unharmed b as)
    (hrun : run (builderStep target cpus) b as = some b') :
    b'.Inv dim (as.foldl (plainStep dim) vectors) := by
  induction as generalizing b vectors with
  | nil =>
    cases hrun
    exact h
  | cons a as ih =>
    obtain ⟨c, hc, hrun⟩ := run_cons_eq_some.1 hrun
    exact ih (h.step has.1 hc) (has.2 c hc) hrun

end

/-- The vectors of a record: those in its places whose synthetic ids lead back to it. -/
def VectorStore.vectorsOf (s : VectorStore) (id : UInt64) : List (List F32) :=
  (List.range mvSlots).filterMap fun slot =>
    if mvRec (mvSyn id slot) = id then s.vecs (mvSyn id slot) else none

theorem vectorsOf_eq {s : VectorStore} {vectors : UInt64 → List (List F32)}
    (h : SemExact vectors s.toIndex) (hroom : ∀ id, vectors id ≠ [] → id.toNat < mvRoom) :
    s.vectorsOf = vectors := by
  funext id
  unfold vectorsOf
  by_cases hid : id.toNat < mvRoom
  · have hslots : ∀ slot ∈ range mvSlots,
        (if mvRec (mvSyn id slot) = id then s.vecs (mvSyn id slot) else none) =
          (vectors id)[slot]? := by
      intro slot hslot
      rw [mem_range] at hslot
      rw [if_pos ((mvRec_mvSyn_iff hslot).2 hid)]
      exact h.vecs_mvSyn hid hslot
    rw [filterMap_congr hslots, filterMap_range_getElem?, take_of_length_le (h.slots id)]
  · have hnil : vectors id = [] := not_not.1 fun hne => hid (hroom id hne)
    rw [hnil, filterMap_eq_nil_iff]
    intro slot hslot
    exact if_neg fun hrec => hid ((mvRec_mvSyn_iff (mem_range.1 hslot)).1 hrec)

/-- **The deferred build loses nothing.** In every run whose ids leave room for the place of a
vector, and that commits no build during which the index was cleared, the store represents what a
plain map has. -/
theorem build_loses_nothing {target cpus dim annThreshold : ℕ} {as : List BuilderAct} {b : Builder}
    (hrun : run (builderStep target cpus) ⟨.create dim annThreshold, .idle⟩ as = some b)
    (has : Along (builderStep target cpus) Unharmed ⟨.create dim annThreshold, .idle⟩ as) :
    b.store.vectorsOf = as.foldl (plainStep dim) fun _ => [] := by
  have hfresh : Builder.Inv dim (fun _ => []) ⟨.create dim annThreshold, .idle⟩ :=
    ⟨rfl, semExact_create dim, fun _ hne => absurd rfl hne, .inl ⟨rfl, rfl⟩⟩
  have h := hfresh.run has hrun
  exact vectorsOf_eq h.exact h.room

def unitVector (x : F32) : Embedding := ⟨1, 1, [x], rfl⟩

/-- A record comes and another goes while the graph is built. -/
def racedBuild : List BuilderAct :=
  [.add 1 (unitVector ⟨0⟩), .add 2 (unitVector ⟨0⟩), .buildBegin, .remove 1, .buildRun,
    .add 3 (unitVector ⟨0⟩), .takeDeltas, .add 2 (unitVector ⟨1⟩), .apply, .commit]

theorem racedBuild_loses_nothing :
    ∃ b, run (builderStep 1 2) ⟨.create 1 2, .idle⟩ racedBuild = some b ∧
      b.store.vectorsOf = racedBuild.foldl (plainStep 1) fun _ => [] := by
  have hsome : (run (builderStep 1 2) ⟨.create 1 2, .idle⟩ racedBuild).isSome = true := by
    decide +kernel
  obtain ⟨b, hb⟩ := Option.isSome_iff_exists.1 hsome
  exact ⟨b, hb, build_loses_nothing hb (by decide +kernel)⟩

/-- The index is cleared while the graph of a record is built. -/
def clearedBuild : List BuilderAct :=
  [.add 1 (unitVector ⟨0⟩), .buildBegin, .buildRun, .clear, .takeDeltas, .apply, .commit]

/-- The graph is installed, and the record is there again. -/
theorem clearedBuild_resurrects :
    (run (builderStep 1 2) ⟨.create 1 1, .idle⟩ clearedBuild).map (fun b => b.store.vectorsOf 1) =
        some [[⟨0⟩]] ∧
      clearedBuild.foldl (plainStep 1) (fun _ => []) 1 = [] := by
  decide +kernel

end AegisDB
