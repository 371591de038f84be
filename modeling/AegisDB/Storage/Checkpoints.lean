import AegisDB.Storage.Store

/-!
# Recovery from a checkpoint

Recovery trusts a checkpoint when it covers no more than the log holds. That is right as long as the
log starts with the bytes the checkpoint was taken from (`Checkpoint.Covers`), and nothing else ties
the two files together: a compaction unlinks the checkpoint after it has renamed the new log, a
replica reset does not unlink it, and the log is not fsynced before the checkpoint is written.

`recovered_lookup_eq` is about the runs in which that suffices.
-/

namespace AegisDB

open Bytes List Option

variable {F : Framing}

/-- The log of the store holds the frames `fs`, and its checkpoint, unless stale, covers the first of
them. -/
structure StoreInv (F : Framing) (s : Store) (fs : List (F.Nonce × Bytes)) : Prop where
  clean : CleanAt F s.engine fs
  index : ∀ c ∈ s.index, s.stale = false → c.Covers F fs

/-- A restart does not find a stale checkpoint that covers no more than is left of the log. -/
def FreshRestart (s : Store) (a : StoreAct F) : Prop :=
  match a with
  | .restart k => s.stale = true → ∀ c ∈ s.index, k < c.covered
  | _ => True

instance (s : Store) (a : StoreAct F) : Decidable (FreshRestart s a) := by
  unfold FreshRestart
  split
  · exact inferInstance
  · exact .isTrue trivial

variable {fs : List (F.Nonce × Bytes)}

/-- The whole frames of a cut log hold every covered frame that is left. -/
theorem Checkpoint.Covers.wholeFrames {c : Checkpoint} (h : c.Covers F fs) {k : ℕ}
    (hk : c.covered ≤ k) : c.Covers F (wholeFrames F k fs) := by
  obtain ⟨gs, ⟨hs, rfl⟩, hcov, hmap⟩ := h
  rw [wholeFrames_append hs (hcov ▸ hk)]
  exact ⟨gs, prefix_append _ _, hcov, hmap⟩

variable {s : Store}

theorem StoreInv.file_eq (h : StoreInv F s fs) : s.engine.db.log.file = framesBytes F fs := by
  rw [LogFile.file, h.clean.junk, append_nil, h.clean.bytes]

theorem StoreInv.recovered (h : StoreInv F s fs) {k : ℕ} (hk : k ≤ s.engine.db.log.file.length)
    (hfresh : s.stale = true → ∀ c ∈ s.index, k < c.covered) :
    (recoveryRun F (s.engine.db.log.file.take k) s.index).log =
        framesBytes F (wholeFrames F k fs) ∧
      (recoveryRun F (s.engine.db.log.file.take k) s.index).hash.lookup =
        replay (placed F 0 ((wholeFrames F k fs).map Prod.snd)) := by
  rw [h.file_eq] at hk ⊢
  refine recoveryRun_cut h.clean.appendable hk fun c hc hcov => h.index c hc ?_
  rw [← Bool.not_eq_true]
  intro hstale
  have := hfresh hstale c hc
  omega

theorem StoreInv.restart (h : StoreInv F s fs) {k : ℕ} (hk : k ≤ s.engine.db.log.file.length)
    (hfresh : s.stale = true → ∀ c ∈ s.index, k < c.covered) :
    StoreInv F (dbOpen F s k) (wholeFrames F k fs) := by
  obtain ⟨hlog, hlookup⟩ := h.recovered hk hfresh
  have hdb : CleanDb F (dbOpen F s k).engine.db (wholeFrames F k fs) :=
    ⟨h.clean.appendable.wholeFrames k, hlog, rfl, hlookup⟩
  refine ⟨hdb.cleanAt rfl, fun c hc hstale => ?_⟩
  obtain ⟨hs, hany⟩ := Bool.or_eq_false_iff.1 hstale
  have hc : c ∈ s.index := hc
  refine (h.index c hc hs).wholeFrames ?_
  rw [mem_def.1 hc] at hany
  simpa using hany

theorem CleanAt.covers {s : Engine} (h : CleanAt F s fs) (hcons : s.consistent = true)
    (nextId : UInt64) :
    (hashIndexSave s.db.hash s.db.log.size nextId).Covers F fs := by
  obtain ⟨hindexed, hopen⟩ := Bool.and_eq_true_iff.1 hcons
  refine ⟨fs, prefix_rfl, ?_, ?_⟩
  · show s.db.log.size = _
    rw [LogFile.size, if_pos hopen, h.bytes, length_framesBytes]
  · show (hashIndexLoad hashIndexCreate s.db.hash.entries).lookup = _
    rw [lookup_hashIndexLoad, h.lookup hindexed]

theorem StoreInv.checkpointed (h : StoreInv F s fs) : StoreInv F s.checkpointed fs := by
  refine ⟨h.clean, fun c hc hstale => ?_⟩
  cases hc
  exact h.clean.covers (by simpa [Store.checkpointed] using hstale) s.nextId

theorem lookup_dbReplicaApply (off : ℕ) (p : Bytes) (h : HashIndex) (nextId : UInt64) :
    (dbReplicaApply off p h nextId).1.lookup = applyFrame h.lookup (off, p) := by
  unfold dbReplicaApply applyFrame
  cases recordDecode p with
  | none => rfl
  | some r =>
    funext id
    simp only [lookup_hashIndexPut, Function.update_apply]

theorem CleanAt.streamed (h : CleanAt F s.engine fs) (hphase : s.engine.phase.resting = true)
    {n : F.Nonce} {p : Bytes} {log : LogFile} (happend : s.engine.db.log.append F n p = some log) :
    CleanAt F (s.streamed log p).engine (fs ++ [(n, p)]) := by
  obtain ⟨-, hlog⟩ := ite_none_right_eq_some.1 happend
  obtain ⟨b, hb, rfl⟩ := map_eq_some_iff.1 hlog
  obtain ⟨hlen, hb⟩ := ite_none_right_eq_some.1 hb
  cases hb
  refine ((h.cleanDb (Phase.indexed_of_resting hphase)).append hlen rfl ?_
    (lookup_dbReplicaApply ..)).cleanAt hphase
  show s.engine.db.log.junk.drop _ = []
  rw [h.junk, drop_nil]

theorem cleanAt_emptied (hphase : s.engine.phase.resting = true) :
    CleanAt F s.emptied.engine [] := by
  have hdb : CleanDb F s.emptied.engine.db [] :=
    ⟨by simp [Appendable], rfl, rfl, lookup_hashIndexCreate_eq⟩
  exact hdb.cleanAt hphase

theorem Act.frames_of_isBackground {a : Act F} (h : a.isBackground = true) :
    a.frames = [] ∧ a.isTorn = false := by
  cases a with
  | write | writeFail => cases h
  | _ => exact ⟨rfl, rfl⟩

theorem StoreInv.grow {t : Store} {gs : List (F.Nonce × Bytes)} (h : StoreInv F s fs)
    (hclean : CleanAt F t.engine (fs ++ gs)) (hindex : t.index = s.index)
    (hstale : t.stale = s.stale) : StoreInv F t (fs ++ gs) := by
  refine ⟨hclean, fun c hc hs => ?_⟩
  exact (h.index c (hindex ▸ hc) (hstale ▸ hs)).mono (prefix_append _ _)

theorem StoreInv.write {batch : ℕ} {t : Store} {n : F.Nonce} {r : WireRecord} (h : StoreInv F s fs)
    (hstep : EngineStep F batch s.engine (.write n r) t.engine) (hindex : t.index = s.index)
    (hstale : t.stale = s.stale) :
    StoreInv F t (fs ++ [(n, recordBytes r.1)]) := by
  obtain ⟨gs, hgs, -, -, heq⟩ := h.clean.step hstep rfl
  obtain rfl := heq (by simp)
  exact h.grow hgs hindex hstale

theorem StoreInv.flush {batch : ℕ} {t : Store} {ok : Bool} (h : StoreInv F s fs)
    (hstep : EngineStep F batch s.engine (.flush ok) t.engine) (hindex : t.index = s.index)
    (hstale : t.stale = s.stale) : StoreInv F t fs := by
  obtain ⟨gs, hgs, -, -, heq⟩ := h.clean.step hstep rfl
  obtain rfl := heq (by simp)
  have hgrow : StoreInv F t (fs ++ []) := h.grow hgs hindex hstale
  rwa [append_nil] at hgrow

/-- A background step of the engine. It may swap the frames for others with the same live payloads;
then the checkpoint is stale or gone. -/
theorem StoreInv.engine {batch : ℕ} {a : Act F} {engine : Engine} (h : StoreInv F s fs)
    (hback : a.isBackground = true) (hstep : EngineStep F batch s.engine a engine) :
    ∃ gs, StoreInv F (s.afterEngine a engine) gs ∧ (a ≠ .rename true → gs = fs) ∧
      payloadMap (gs.map Prod.snd) = payloadMap (fs.map Prod.snd) ∧ idsOf gs ⊆ idsOf fs ∧
        ∀ c ∈ (s.afterEngine a engine).index, c ∈ s.index ∧
        ((s.afterEngine a engine).stale = false → s.stale = false ∧ gs = fs) := by
  obtain ⟨hframes, htorn⟩ := Act.frames_of_isBackground hback
  obtain ⟨gs, hgs, hlive, hids, heq⟩ := h.clean.step hstep htorn
  rw [hframes] at hlive
  rw [hframes, append_nil] at heq hids
  refine ⟨gs, ?_⟩
  unfold Store.afterEngine
  split
  · exact ⟨⟨hgs, fun c _ hstale => by cases hstale⟩, heq, hlive, hids,
      fun c hc => ⟨hc, fun hs => by cases hs⟩⟩
  · exact ⟨⟨hgs, fun c hc => by cases hc⟩, heq, hlive, hids, fun c hc => by cases hc⟩
  · rename_i hren _
    obtain rfl := heq hren
    exact ⟨⟨hgs, h.index⟩, heq, hlive, hids, fun c hc => ⟨hc, fun hs => ⟨hs, rfl⟩⟩⟩

/-- The frames behind a step; those of a swapped log are any. -/
def StoreAct.Leaves (a : StoreAct F) (fs gs : List (F.Nonce × Bytes)) : Prop :=
  match a with
  | .insert .. | .rewrite .. => fs <+: gs
  | .stream n p => gs = fs ++ [(n, p)]
  | .engine (.rename true) => True
  | .reset => gs = []
  | .restart k => gs = wholeFrames F k fs
  | _ => gs = fs

theorem StoreAct.leaves_engine {a : Act F} {gs : List (F.Nonce × Bytes)}
    (h : a ≠ .rename true → gs = fs) : (StoreAct.engine a).Leaves fs gs := by
  cases a with
  | rename ok =>
    cases ok with
    | false => exact h (by simp)
    | true => trivial
  | _ => exact h (by simp)

theorem StoreInv.step {batch : ℕ} {s' : Store} {a : StoreAct F} (h : StoreInv F s fs)
    (ha : FreshRestart s a) (hstep : StoreStep F batch s a s') :
    ∃ gs, StoreInv F s' gs ∧ a.Leaves fs gs := by
  cases hstep with
  | insert step | rewrite live step => exact ⟨_, h.write step rfl rfl, prefix_append _ _⟩
  | ack mem step => exact ⟨fs, h.flush step rfl rfl, rfl⟩
  | engine background step =>
    obtain ⟨gs, hgs, heq, -⟩ := h.engine background step
    exact ⟨gs, hgs, StoreAct.leaves_engine heq⟩
  | again resting =>
    exact ⟨fs, ⟨(h.clean.cleanDb (Phase.indexed_of_resting resting)).cleanAt rfl, h.index⟩, rfl⟩
  | checkpoint free => exact ⟨fs, h.checkpointed, rfl⟩
  | saveMetadata => exact ⟨fs, ⟨h.clean, h.index⟩, rfl⟩
  | stream resting append => exact ⟨_, h.grow (h.clean.streamed resting append) rfl rfl, rfl⟩
  | reset resting isOpen =>
    exact ⟨[], ⟨cleanAt_emptied resting, fun c _ hstale => by cases hstale⟩, rfl⟩
  | restart synced le => exact ⟨_, h.restart le ha, rfl⟩

theorem storeInv_fresh : StoreInv F .fresh [] :=
  ⟨emptyDb_clean.cleanAt rfl, fun c hc => by cases hc⟩

theorem storeInv_of_run {batch : ℕ} {as : List (StoreAct F)}
    (hrun : run (storeStep F batch) .fresh as = some s)
    (has : Along (storeStep F batch) FreshRestart .fresh as) : ∃ fs, StoreInv F s fs :=
  run_invariant (I := fun s => ∃ fs, StoreInv F s fs)
    (fun _ _ _ ⟨_, h⟩ ha hstep => (h.step ha (.of_eq hstep)).imp fun _ => And.left)
    ⟨[], storeInv_fresh⟩ has hrun

/-- **Recovery from a checkpoint is recovery by a scan.** In every run whose restarts find no stale
checkpoint that covers no more than is left of the log, a restart recovers the same map with the
checkpoint and without. -/
theorem recovered_lookup_eq {batch : ℕ} {as : List (StoreAct F)} {s s' : Store} {k : ℕ}
    (hrun : run (storeStep F batch) .fresh as = some s)
    (has : Along (storeStep F batch) FreshRestart .fresh (as ++ [.restart k]))
    (hrestart : storeStep F batch s (.restart k) = some s') :
    (recoveryRun F (s.engine.db.log.file.take k) s.index).hash.lookup =
      (recoveryRun F (s.engine.db.log.file.take k) none).hash.lookup := by
  obtain ⟨has, hfresh⟩ := along_concat.1 has
  obtain ⟨fs, h⟩ := storeInv_of_run hrun has
  cases StoreStep.of_eq hrestart with
  | restart synced le =>
    have hscan : StoreInv F { s with index := none } fs := ⟨h.clean, fun c hc => by cases hc⟩
    rw [(h.recovered le (hfresh s hrun)).2]
    exact (hscan.recovered le fun _ c hc => by cases hc).2.symm

/-- A checkpoint between two inserts, of which a crash tears the second. -/
def tornStore : List (StoreAct plainFraming) :=
  [.insert () (.bare 0 false), .checkpoint, .insert () (.bare 0 false)]

set_option maxRecDepth 20000 in
theorem tornStore_recovered_lookup_eq :
    ∃ s s', run (storeStep plainFraming 1) .fresh tornStore = some s ∧
      storeStep plainFraming 1 s (.restart 100) = some s' ∧
      (recoveryRun plainFraming (s.engine.db.log.file.take 100) s.index).hash.lookup =
        (recoveryRun plainFraming (s.engine.db.log.file.take 100) none).hash.lookup := by
  have hsome : ((run (storeStep plainFraming 1) .fresh tornStore).bind fun s =>
      storeStep plainFraming 1 s (.restart 100)).isSome = true := by decide +kernel
  obtain ⟨s', h⟩ := isSome_iff_exists.1 hsome
  obtain ⟨s, hs, hs'⟩ := bind_eq_some_iff.1 h
  exact ⟨s, s', hs, hs', recovered_lookup_eq hs (by decide +kernel) hs'⟩

/-- What a restart that loses nothing recovers for an id from the checkpoint, and by a scan. -/
def recoveredBothWays (as : List (StoreAct plainFraming)) (id : UInt64) :
    Option (Option HashEntry × Option HashEntry) :=
  (run (storeStep plainFraming 1) .fresh as).bind fun s =>
    let b := s.engine.db.log.file
    (storeStep plainFraming 1 s (.restart b.length)).map fun _ =>
      ((recoveryRun plainFraming (b.take b.length) s.index).hash.lookup id,
        (recoveryRun plainFraming (b.take b.length) none).hash.lookup id)

/-- A checkpoint of one record, which is deleted; another record, and a compaction that ends before
its unlink. -/
def swappedStore : List (StoreAct plainFraming) :=
  [.insert () (.bare 0 false), .checkpoint, .rewrite () (.bare 1 true), .insert () (.bare 0 false),
    .engine (.snapshot true), .engine (.copy () true), .engine .lock, .engine (.fsyncNew true),
    .engine (.close true), .engine (.rename true)]

set_option maxRecDepth 20000 in
/-- The checkpoint covers no more than the new log: it brings the deleted record back and loses the
other one. -/
theorem swappedStore_recovers_deleted :
    recoveredBothWays swappedStore 1 = some (some ⟨0, 63, .working, false, 0⟩, none) ∧
      recoveredBothWays swappedStore 2 = some (none, some ⟨0, 63, .working, false, 0⟩) := by
  decide +kernel

end AegisDB
