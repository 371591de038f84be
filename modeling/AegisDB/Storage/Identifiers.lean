import AegisDB.Storage.Checkpoints
import AegisDB.Storage.Reopen

/-!
# Issued ids

`db_next_id` counts upwards while the process runs. A restart continues the count behind the largest
id of three sources: the frames that are left of the log, the next id of a checkpoint that is used,
and the floor of `metadata.db`. Each of them may be gone: a compaction drops the tombstones and
unlinks the checkpoint, `metadata.db` is written by a clean shutdown only, and a crash loses frames
that were acknowledged and not fsynced.

`Evidenced` says that one of the three still knows every acknowledged id. In every run where it holds
at each restart no acknowledged id is issued again (`nextId_not_mem_acked`), and without it one is
(`compactedStore_reissues`).
-/

namespace AegisDB

open Bytes List
open Prod (fst snd)

variable {F : Framing}
variable {x : UInt64}

/-! ## The count behind a restart -/

theorem lt_succ_of_le_of_lt {m y : UInt64} (hx : x ≤ m) (hm : m < y) : x < m + 1 := by
  rw [UInt64.le_iff_toNat_le] at hx
  rw [UInt64.lt_iff_toNat_lt] at hm ⊢
  have := y.toNat_lt
  rw [UInt64.toNat_add, UInt64.toNat_one, Nat.mod_eq_of_lt (by omega)]
  omega

theorem lt_succ_of_ne (h : x ≠ 0xFFFFFFFFFFFFFFFF) : x < x + 1 := by
  refine lt_succ_of_le_of_lt (y := 0xFFFFFFFFFFFFFFFF) (UInt64.le_refl x) ?_
  have hne : x.toNat ≠ 18446744073709551615 := fun hx => h (UInt64.toNat_inj.1 hx)
  have := x.toNat_lt
  rw [UInt64.lt_iff_toNat_lt]
  show x.toNat < 18446744073709551615
  omega

theorem succ_ne_zero {m y : UInt64} (h : m < y) : m + 1 ≠ 0 := by
  intro hzero
  have := lt_succ_of_le_of_lt (UInt64.le_refl m) h
  rw [hzero, UInt64.lt_iff_toNat_lt] at this
  exact absurd this (Nat.not_lt_zero _)

theorem le_pred_of_lt {y : UInt64} (h : x < y) : x ≤ y - 1 := by
  rw [UInt64.lt_iff_toNat_lt] at h
  have hone : (1 : UInt64) ≤ y := by
    rw [UInt64.le_iff_toNat_le, UInt64.toNat_one]
    omega
  rw [UInt64.le_iff_toNat_le, UInt64.toNat_sub_of_le _ _ hone, UInt64.toNat_one]
  omega

theorem pred_lt {y : UInt64} (h : y ≠ 0) : y - 1 < y := by
  have hone : (1 : UInt64) ≤ y := by
    rw [UInt64.le_iff_toNat_le, UInt64.toNat_one]
    have : y.toNat ≠ 0 := fun hy => h (UInt64.toNat_inj.1 hy)
    omega
  rw [UInt64.lt_iff_toNat_lt, UInt64.toNat_sub_of_le _ _ hone, UInt64.toNat_one]
  rw [UInt64.le_iff_toNat_le, UInt64.toNat_one] at hone
  omega

/-- The next id of a checkpoint is behind the ids of the frames that it covers. -/
def Checkpoint.Bounds (F : Framing) (c : Checkpoint) (fs : List (F.Nonce × Bytes)) : Prop :=
  ∃ gs, gs <+: fs ∧ c.covered = framesSize F (gs.map snd) ∧ ∀ x ∈ idsOf gs, x < c.nextId

variable {fs : List (F.Nonce × Bytes)}

theorem Checkpoint.Bounds.mono {c : Checkpoint} {gs : List (F.Nonce × Bytes)} (h : c.Bounds F fs)
    (hp : fs <+: gs) : c.Bounds F gs := by
  obtain ⟨ws, hw, h⟩ := h
  exact ⟨ws, hw.trans hp, h⟩

theorem Checkpoint.Bounds.wholeFrames {c : Checkpoint} (h : c.Bounds F fs) {k : ℕ}
    (hk : c.covered ≤ k) : c.Bounds F (wholeFrames F k fs) := by
  obtain ⟨gs, ⟨hs, rfl⟩, hcov, hids⟩ := h
  rw [wholeFrames_append hs (hcov ▸ hk)]
  exact ⟨gs, prefix_append _ _, hcov, hids⟩

theorem idsOf_append (fs gs : List (F.Nonce × Bytes)) : idsOf (fs ++ gs) = idsOf fs ∪ idsOf gs := by
  ext x
  simp only [idsOf, mem_append, or_and_right, exists_or]
  rfl

theorem idsOf_mono {gs : List (F.Nonce × Bytes)} (h : fs <+: gs) : idsOf fs ⊆ idsOf gs := by
  rintro x ⟨y, hy, hr⟩
  exact ⟨y, h.subset hy, hr⟩

/-- Where the count of a scan starts: behind the ids of the frames in front of it and of a used
checkpoint. -/
theorem scanStart_maxId {b : Bytes} {index : Option Checkpoint}
    (hidx : ∀ c ∈ index, c.covered ≤ b.length → c.Bounds F fs) (hpos : ∀ c ∈ index, c.nextId ≠ 0) :
    ∃ gs, gs <+: fs ∧ (scanStart b index).2 = framesSize F (gs.map snd) ∧
      framesSize F (gs.map snd) ≤ b.length ∧
      (∃ m, (scanStart b index).1.maxId < m) ∧
      (∀ x ∈ idsOf gs, x ≤ (scanStart b index).1.maxId) ∧
      ∀ c ∈ index, c.covered ≤ b.length → ∀ x < c.nextId, x ≤ (scanStart b index).1.maxId := by
  have hnil : ∀ x ∈ idsOf ([] : List (F.Nonce × Bytes)), x ≤ 0 := by
    rintro x ⟨y, hy, -⟩
    cases hy
  have hone : (0 : UInt64) < 1 := by decide
  unfold scanStart
  cases index with
  | none =>
    exact ⟨[], nil_prefix, rfl, Nat.zero_le _, ⟨1, hone⟩, hnil, fun c hc => by cases hc⟩
  | some c =>
    dsimp only
    split
    · rename_i hc
      obtain ⟨gs, hp, hcov, hids⟩ := hidx c rfl hc
      rw [if_pos (hpos c rfl)]
      refine ⟨gs, hp, hcov, hcov ▸ hc, ⟨c.nextId, pred_lt (hpos c rfl)⟩,
        fun x hx => le_pred_of_lt (hids x hx), ?_⟩
      rintro c' hc' - x hx
      cases hc'
      exact le_pred_of_lt hx
    · rename_i hc
      refine ⟨[], nil_prefix, rfl, Nat.zero_le _, ⟨1, hone⟩, hnil, fun c' hc' hle => ?_⟩
      cases hc'
      exact absurd hle hc

theorem exists_of_mem_idsOf_placed (h : x ∈ idsOf fs) (o : ℕ) :
    ∃ d ∈ placed F o (fs.map snd), ∃ r, recordDecode d.2 = some r ∧ r.id = x := by
  obtain ⟨y, hy, r, hr, hid⟩ := h
  obtain ⟨i, hi⟩ := exists_mem_placed (mem_map_of_mem hy) o
  exact ⟨_, hi, r, hr, hid⟩

theorem mem_idsOf_of_placed {o : ℕ} {d : ℕ × Bytes} (h : d ∈ placed F o (fs.map snd))
    {r : MemoryRecord} (hr : recordDecode d.2 = some r) :
    r.id ∈ idsOf fs := by
  obtain ⟨y, hy, hd⟩ := mem_map.1 (mem_of_mem_placed h)
  exact ⟨y, hy, r, by rwa [hd], rfl⟩

/-- **The count behind a restart** is behind the ids of all frames that are left and of a used
checkpoint. -/
theorem lt_nextId_recoveryRun (hfs : Appendable fs) {k : ℕ} (hk : k ≤ (framesBytes F fs).length)
    {index : Option Checkpoint} (hidx : ∀ c ∈ index, c.covered ≤ k → c.Bounds F fs)
    (hpos : ∀ c ∈ index, c.nextId ≠ 0) {m : UInt64} (hids : ∀ x ∈ idsOf fs, x < m) {next : UInt64}
    (hnext : (recoveryRun F ((framesBytes F fs).take k) index).nextId = next) :
    next ≠ 0 ∧ (∀ x ∈ idsOf (wholeFrames F k fs), x < next) ∧
      ∀ c ∈ index, c.covered ≤ k → ∀ x < c.nextId, x < next := by
  have hlen : ((framesBytes F fs).take k).length = k := length_take_of_le hk
  rw [← hlen] at hidx
  obtain ⟨gs, ⟨hs, rfl⟩, hstart, hle, htop, hbelow, hseed⟩ := scanStart_maxId hidx hpos
  rw [hlen] at hle hseed
  generalize hctx₀ : scanStart ((framesBytes F (gs ++ hs)).take k) index = start at *
  obtain ⟨hctx, -⟩ := logScan_cut scanCb hfs hle hk start.1
  simp only [recoveryRun, hlen, hctx₀, hstart] at hnext
  rw [hctx] at hnext
  -- the scan goes on over the whole frames behind its start
  generalize hws : wholeFrames F (k - framesSize F (gs.map snd)) hs = ws at hctx hnext
  have hwhole : wholeFrames F k (gs ++ hs) = gs ++ ws := by rw [wholeFrames_append hs hle, hws]
  obtain ⟨hmono, hframes⟩ :=
    le_maxId_foldl (placed F (framesSize F (gs.map snd)) (ws.map snd)) start.1
  obtain ⟨y, hy⟩ : ∃ y, (List.foldl (fun c d => scanCb d.1 d.2 c) start.1
      (placed F (framesSize F (gs.map snd)) (ws.map snd))).maxId < y := by
    refine maxId_foldl_of_forall (P := fun x => ∃ y, x < y) _ _ htop fun d hd r hr => ⟨m, hids _ ?_⟩
    have hpre := hwhole ▸ wholeFrames_initial k (gs ++ hs)
    exact idsOf_mono hpre (idsOf_append gs ws ▸ .inr (mem_idsOf_of_placed hd hr))
  rw [← hnext]
  refine ⟨succ_ne_zero hy, fun x hx => lt_succ_of_le_of_lt ?_ hy, fun c hc hcov x hx => ?_⟩
  · rw [hwhole, idsOf_append] at hx
    rcases hx with hx | hx
    · exact UInt64.le_trans (hbelow x hx) hmono
    · obtain ⟨d, hd, r, hr, rfl⟩ := exists_of_mem_idsOf_placed hx (framesSize F (gs.map snd))
      exact hframes d hd r hr
  · exact lt_succ_of_le_of_lt (UInt64.le_trans (hseed c hc hcov x hx) hmono) hy

/-! ## Runs -/

/-- What the disk knows of the acknowledged ids when a process starts on `k` bytes of the log: each
is below the floor of `metadata.db` or the next id of a used checkpoint, or not above the id of a
frame that is left. -/
def Evidenced (F : Framing) (s : Store) (k : ℕ) : Prop :=
  ∀ x ∈ s.acked, x < s.floor ∨ (∃ c ∈ s.index, c.covered ≤ k ∧ x < c.nextId) ∨
    ∃ p ∈ scanPayloads F (s.engine.db.log.file.take k), ∃ r ∈ recordDecode p, x ≤ r.id

instance (s : Store) (k : ℕ) : Decidable (Evidenced F s k) :=
  List.decidableBAll (fun x => x < s.floor ∨ (∃ c ∈ s.index, c.covered ≤ k ∧ x < c.nextId) ∨
    ∃ p ∈ scanPayloads F (s.engine.db.log.file.take k), ∃ r ∈ recordDecode p, x ≤ r.id) s.acked

/-- A step of a primary whose restart finds evidence of the acknowledged ids, and no foreign
checkpoint. -/
def EvidencedStep (s : Store) (a : StoreAct F) : Prop :=
  match a with
  | .insert _ _ => s.nextId ≠ 0xFFFFFFFFFFFFFFFF
  | .stream _ _ | .reset => False
  | .restart k => FreshRestart s a ∧ Evidenced F s k
  | _ => True

instance (s : Store) : (a : StoreAct F) → Decidable (EvidencedStep s a)
  | .insert _ _ => @instDecidableNot _ (instDecidableEqUInt64 _ _)
  | .stream _ _ | .reset => .isFalse id
  | .restart k => inferInstanceAs (Decidable (FreshRestart s (.restart k) ∧ Evidenced F s k))
  | .ack _ _ | .rewrite _ _ | .engine _ | .again | .checkpoint | .saveMetadata => .isTrue trivial

/-- The count is behind every id in the store and every id that was acknowledged. -/
structure IdInv (F : Framing) (s : Store) (fs : List (F.Nonce × Bytes)) : Prop where
  store : StoreInv F s fs
  acked : ∀ x ∈ s.acked, x < s.nextId
  pending : ∀ x ∈ s.pending, x < s.nextId
  frames : ∀ x ∈ idsOf fs, x < s.nextId
  nextId : s.nextId ≠ 0
  checkpoint : ∀ c ∈ s.index, c.nextId ≠ 0
  bounds : ∀ c ∈ s.index, s.stale = false → c.Bounds F fs

theorem scanPayloads_cut (hfs : Appendable fs) {k : ℕ} (hk : k ≤ (framesBytes F fs).length) :
    scanPayloads F ((framesBytes F fs).take k) = (wholeFrames F k fs).map snd := by
  have hfs' : Appendable ([] ++ fs) := hfs
  have hcut := (logScan_cut collect hfs' (Nat.zero_le k) hk []).1
  rw [scanPayloads, length_take_of_le hk]
  refine hcut.trans ?_
  rw [foldl_collect, nil_append, map_snd_placed]
  rfl

theorem IdInv.restart {s : Store} (h : IdInv F s fs) {k : ℕ} (hk : k ≤ s.engine.db.log.file.length)
    (hfresh : s.stale = true → ∀ c ∈ s.index, k < c.covered) (hev : Evidenced F s k) :
    IdInv F (dbOpen F s k) (wholeFrames F k fs) := by
  have hfile := h.store.file_eq
  have happ := h.store.clean.appendable
  have hbounds : ∀ c ∈ s.index, c.covered ≤ k → c.Bounds F fs := by
    intro c hc hcov
    refine h.bounds c hc ?_
    rw [← Bool.not_eq_true]
    intro hstale
    have := hfresh hstale c hc
    omega
  obtain ⟨hne, hframes, hused⟩ := lt_nextId_recoveryRun happ (hfile ▸ hk) hbounds h.checkpoint
    h.frames rfl
  rw [← hfile] at hne hframes hused
  -- the floor can only raise the count
  have hraise : ∀ x, x < (recoveryRun F (s.engine.db.log.file.take k) s.index).nextId →
      x < (dbOpen F s k).nextId := by
    intro x hx
    show x < if _ then _ else _
    split
    · exact UInt64.lt_trans hx ‹_›
    · exact hx
  refine ⟨h.store.restart hk hfresh, fun x hx => ?_, fun x hx => (by cases hx),
    fun x hx => hraise x (hframes x hx), ?_, h.checkpoint, fun c hc hstale => ?_⟩
  · rcases hev x hx with hfloor | ⟨c, hc, hcov, hlt⟩ | ⟨p, hp, r, hr, hle⟩
    · show x < if _ then _ else _
      split
      · exact hfloor
      · exact UInt64.lt_of_lt_of_le hfloor (UInt64.not_lt.1 ‹_›)
    · exact hraise x (hused c hc hcov x hlt)
    · rw [hfile, scanPayloads_cut happ (hfile ▸ hk)] at hp
      obtain ⟨y, hy, rfl⟩ := mem_map.1 hp
      exact hraise x (UInt64.lt_of_le_of_lt hle (hframes r.id ⟨y, hy, r, hr, rfl⟩))
  · intro hzero
    have := hraise 0 (UInt64.pos_iff_ne_zero.2 hne)
    rw [hzero] at this
    exact absurd this (by decide)
  · obtain ⟨hs, hany⟩ := Bool.or_eq_false_iff.1 hstale
    have hc : c ∈ s.index := hc
    refine (h.bounds c hc hs).wholeFrames ?_
    rw [Option.mem_def.1 hc] at hany
    simpa using hany

theorem mem_idsOf_single {n : F.Nonce} {r : WireRecord}
    (h : x ∈ idsOf [(n, recordBytes r.1)]) : x = r.1.id := by
  obtain ⟨y, hy, r', hr, rfl⟩ := h
  obtain rfl := mem_singleton.1 hy
  rw [recordDecode_of_wireFormed r.2] at hr
  cases hr
  rfl

theorem CleanAt.mem_idsOf_of_live {batch : ℕ} {s s' : Engine} (h : CleanAt F s fs) {n : F.Nonce}
    {r : WireRecord} (hstep : EngineStep F batch s (.write n r) s')
    (hlive : (hashIndexGet s.db.hash r.1.id).isSome = true) : r.1.id ∈ idsOf fs := by
  obtain ⟨e, he⟩ := Option.isSome_iff_exists.1 hlive
  refine mem_idsOf_of_replay ?_
  rw [← h.lookup ?_, (hashIndexGet_eq_some.1 he).1]
  · rfl
  · -- a write needs an open log, and the index belongs to every open log
    rw [← Bool.not_eq_false]
    intro hind
    cases hstep with
    | write free app =>
      obtain ⟨hopen, -⟩ := lookup_appendAndHash app
      exact absurd (hopen.symm.trans (h.closed hind)) (by simp)

theorem IdInv.write {batch : ℕ} {s t : Store} {n : F.Nonce} {r : WireRecord} (h : IdInv F s fs)
    (hstep : EngineStep F batch s.engine (.write n r) t.engine) (hindex : t.index = s.index)
    (hstale : t.stale = s.stale) (hacked : t.acked = s.acked)
    (hmono : ∀ x, x < s.nextId → x < t.nextId) (hpending : ∀ x ∈ t.pending, x < t.nextId)
    (hid : r.1.id < t.nextId) : IdInv F t (fs ++ [(n, recordBytes r.1)]) where
  store := h.store.write hstep hindex hstale
  acked x hx := hmono x (h.acked x (hacked ▸ hx))
  pending := hpending
  frames x hx := by
    rw [idsOf_append] at hx
    rcases hx with hx | hx
    · exact hmono x (h.frames x hx)
    · rwa [mem_idsOf_single hx]
  nextId hzero := by
    have := hmono 0 (UInt64.pos_iff_ne_zero.2 h.nextId)
    rw [hzero] at this
    exact absurd this (by decide)
  checkpoint c hc := h.checkpoint c (hindex ▸ hc)
  bounds c hc hs := (h.bounds c (hindex ▸ hc) (hstale ▸ hs)).mono (prefix_append _ _)

/-- The step writes no record and restarts nothing. -/
def StoreAct.isUpkeep : StoreAct F → Bool
  | .engine _ | .again | .checkpoint | .saveMetadata => true
  | _ => false

/-- Every step keeps the count behind the ids, if a restart finds evidence of them, and the live
payloads between the writes. -/
theorem IdInv.step {batch : ℕ} {s s' : Store} {a : StoreAct F} (h : IdInv F s fs)
    (ha : EvidencedStep s a) (hstep : StoreStep F batch s a s') :
    ∃ gs, IdInv F s' gs ∧
      (a.isUpkeep = true → payloadMap (gs.map snd) = payloadMap (fs.map snd)) := by
  -- a step that is no upkeep may change the live payloads
  have hno {P : Prop} (hup : false = true) : P := absurd hup Bool.false_ne_true
  cases hstep with
  | insert step =>
    have hnext : s.nextId < s.nextId + 1 := lt_succ_of_ne ha
    have hmono : ∀ x, x < s.nextId → x < s.nextId + 1 := fun x hx => UInt64.lt_trans hx hnext
    refine ⟨_, h.write step rfl rfl rfl hmono (fun x hx => ?_) hnext, hno⟩
    rcases mem_cons.1 hx with rfl | hx
    · exact hnext
    · exact hmono x (h.pending x hx)
  | ack mem step =>
    refine ⟨fs, ⟨h.store.flush step rfl rfl, fun x hx => ?_, fun x hx => ?_, h.frames, h.nextId,
      h.checkpoint, h.bounds⟩, hno⟩
    · dsimp only at hx
      split at hx
      · rcases mem_cons.1 hx with rfl | hx
        · exact h.pending _ mem
        · exact h.acked x hx
      · exact h.acked x hx
    · exact h.pending x (mem_of_mem_erase hx)
  | rewrite live step =>
    have hid := h.frames _ (h.store.clean.mem_idsOf_of_live step live)
    exact ⟨_, h.write step rfl rfl rfl (fun _ => id) h.pending hid, hno⟩
  | @engine a engine background step =>
    obtain ⟨gs, hgs, -, hlive, hids, hindex⟩ := h.store.engine background step
    obtain ⟨hacked, hpending, hnext⟩ := s.afterEngine_ids a engine
    refine ⟨gs, ⟨hgs, ?_, ?_, ?_, ?_, fun c hc => h.checkpoint c (hindex c hc).1, ?_⟩,
      fun _ => hlive⟩
    · rw [hacked, hnext]
      exact h.acked
    · rw [hpending, hnext]
      exact h.pending
    · rw [hnext]
      exact fun x hx => h.frames x (hids hx)
    · rw [hnext]
      exact h.nextId
    · intro c hc hs
      obtain ⟨hstale, rfl⟩ := (hindex c hc).2 hs
      exact h.bounds c (hindex c hc).1 hstale
  | again resting =>
    have hclean : CleanAt F ⟨s.engine.db, .idle⟩ fs :=
      (h.store.clean.cleanDb (Phase.indexed_of_resting resting)).cleanAt rfl
    exact ⟨fs, ⟨⟨hclean, h.store.index⟩, h.acked, h.pending, h.frames, h.nextId, h.checkpoint,
      h.bounds⟩, fun _ => rfl⟩
  | checkpoint free =>
    refine ⟨fs, ⟨h.store.checkpointed, h.acked, h.pending, h.frames, h.nextId, fun c hc => ?_,
      fun c hc hstale => ?_⟩, fun _ => rfl⟩
    · cases hc
      exact h.nextId
    · cases hc
      have hcons : s.engine.consistent = true := by simpa [Store.checkpointed] using hstale
      obtain ⟨-, hopen⟩ := Bool.and_eq_true_iff.1 hcons
      refine ⟨fs, prefix_rfl, ?_, h.frames⟩
      show s.engine.db.log.size = _
      rw [LogFile.size, if_pos hopen, h.store.clean.bytes, length_framesBytes]
  | saveMetadata =>
    exact ⟨fs, ⟨⟨h.store.clean, h.store.index⟩, h.acked, h.pending, h.frames, h.nextId,
      h.checkpoint, h.bounds⟩, fun _ => rfl⟩
  | stream | reset => exact ha.elim
  | restart synced le => exact ⟨_, h.restart le ha.1 ha.2, hno⟩

theorem idInv_fresh : IdInv F .fresh [] where
  store := storeInv_fresh
  acked x hx := by cases hx
  pending x hx := by cases hx
  frames x hx := by
    obtain ⟨y, hy, -⟩ := hx
    cases hy
  nextId := by decide
  checkpoint c hc := by cases hc
  bounds c hc := by cases hc

/-- **No acknowledged id is issued again** in a run of a primary whose restarts find evidence of the
acknowledged ids, and a checkpoint only if it belongs to the log. -/
theorem nextId_not_mem_acked {batch : ℕ} {as : List (StoreAct F)} {s : Store}
    (hrun : run (storeStep F batch) .fresh as = some s)
    (has : Along (storeStep F batch) EvidencedStep .fresh as) : s.nextId ∉ s.acked := by
  obtain ⟨fs, h⟩ := run_invariant (I := fun s => ∃ fs, IdInv F s fs)
    (fun _ _ _ ⟨_, h⟩ ha hstep => (h.step ha (.of_eq hstep)).imp fun _ => And.left)
    ⟨[], idInv_fresh⟩ has hrun
  exact fun hmem => absurd (h.acked _ hmem) (UInt64.lt_irrefl _)

/-- An insert that is acknowledged, and a clean shutdown. -/
def shutdownStore : List (StoreAct plainFraming) :=
  [.insert () (.bare 0 false), .ack 1 true, .engine (.sync true), .checkpoint, .saveMetadata,
    .restart 79]

set_option maxRecDepth 20000 in
theorem shutdownStore_nextId_not_mem_acked :
    ∃ s, run (storeStep plainFraming 1) .fresh shutdownStore = some s ∧ s.acked = [1] ∧
      s.nextId ∉ s.acked := by
  have hacked : (run (storeStep plainFraming 1) .fresh shutdownStore).map Store.acked = some [1] := by
    decide +kernel
  obtain ⟨s, hs, hacked⟩ := Option.map_eq_some_iff.1 hacked
  exact ⟨s, hs, hacked, nextId_not_mem_acked hs (by decide +kernel)⟩

/-- An insert that is acknowledged and a delete, a compaction, and a crash. -/
def compactedStore : List (StoreAct plainFraming) :=
  [.insert () (.bare 0 false), .ack 1 true, .rewrite () (.bare 1 true), .engine (.flush true),
    .engine (.snapshot true), .engine .lock, .engine (.fsyncNew true), .engine (.close true),
    .engine (.rename true), .engine (.reopen true), .engine .unlink, .restart 0]

set_option maxRecDepth 20000 in
/-- The compaction has dropped the tombstone and the checkpoint, and `metadata.db` was never
written: the next insert gets the id of the deleted record. -/
theorem compactedStore_reissues :
    (run (storeStep plainFraming 1) .fresh compactedStore).map (fun s => (s.nextId, s.acked)) =
      some (1, [1]) := by
  decide +kernel

end AegisDB
