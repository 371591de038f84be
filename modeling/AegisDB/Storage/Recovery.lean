import AegisDB.Memory.RoundTrip
import AegisDB.Storage.CleanLog
import AegisDB.Storage.HashIndex

/-!
# Recovery of the hash index

The first pass of `recovery_run`: load the checkpoint unless it covers more than the log holds, scan
the rest of the log into the hash index, cut a torn tail off, and continue the ids behind the largest
one seen.

`replay` is the map from ids to their latest frame that the frames of a log stand for; a scan
computes it (`lookup_foldl_scanCb`). For a log that appends have written and a crash has cut, the
frames that a scan delivers are the whole ones (`logScan_cut`), from whichever frame it starts.
-/

namespace AegisDB

open Bytes List Function
open Prod (fst snd)

variable {F : Framing}
variable {p : Bytes} {k : ℕ}

/-! ## The map of a log -/

/-- What the hash index keeps of a record whose frame is at `off`. -/
def entryOf (r : MemoryRecord) (off len : ℕ) : HashEntry :=
  ⟨off, len, r.type, r.deleted, r.expiresAt⟩

/-- A frame replaces the entry of its record; one that does not decode is passed over. -/
def applyFrame (m : UInt64 → Option HashEntry) (d : ℕ × Bytes) : UInt64 → Option HashEntry :=
  match recordDecode d.2 with
  | none => m
  | some r => update m r.id (some (entryOf r d.1 d.2.length))

/-- The latest frame of every id, tombstones included. -/
def replay (ds : List (ℕ × Bytes)) : UInt64 → Option HashEntry := ds.foldl applyFrame fun _ => none

theorem replay_append (ds es : List (ℕ × Bytes)) :
    replay (ds ++ es) = es.foldl applyFrame (replay ds) := foldl_append

variable {m : UInt64 → Option HashEntry}

theorem applyFrame_of_decode {o : ℕ} {r : MemoryRecord} (h : recordDecode p = some r) :
    applyFrame m (o, p) = update m r.id (some (entryOf r o p.length)) := by
  simp [applyFrame, h]

theorem foldl_applyFrame_eq_some {ds : List (ℕ × Bytes)} {id : UInt64} {e : HashEntry}
    (h : ds.foldl applyFrame m id = some e) :
    m id = some e ∨
      ∃ o p r, (o, p) ∈ ds ∧ recordDecode p = some r ∧ r.id = id ∧ e = entryOf r o p.length := by
  induction ds generalizing m with
  | nil => exact .inl h
  | cons d ds ih =>
    rcases ih h with h | ⟨o, p, r, hd, hr⟩
    · cases hd : recordDecode d.2 with
      | none => exact .inl (by simpa [applyFrame, hd] using h)
      | some r =>
        rw [applyFrame_of_decode hd] at h
        by_cases hid : id = r.id
        · subst hid
          rw [update_self] at h
          exact .inr ⟨d.1, d.2, r, mem_cons_self .., hd, rfl, (Option.some.inj h).symm⟩
        · rw [update_of_ne hid] at h
          exact .inl h
    · exact .inr ⟨o, p, r, mem_cons_of_mem _ hd, hr⟩

def idsOf (fs : List (F.Nonce × Bytes)) : Set UInt64 :=
  {id | ∃ y ∈ fs, ∃ r, recordDecode y.2 = some r ∧ r.id = id}

theorem isSome_applyFrame {id : UInt64} (h : (m id).isSome = true) (d : ℕ × Bytes) :
    (applyFrame m d id).isSome = true := by
  unfold applyFrame
  cases recordDecode d.2 with
  | none => exact h
  | some r =>
    by_cases hid : id = r.id
    · subst hid
      simp
    · simpa [update_of_ne hid] using h

theorem isSome_foldl_applyFrame {ds : List (ℕ × Bytes)} {id : UInt64}
    (h : (m id).isSome = true ∨ ∃ d ∈ ds, ∃ r, recordDecode d.2 = some r ∧ r.id = id) :
    (ds.foldl applyFrame m id).isSome = true := by
  induction ds generalizing m with
  | nil => simpa using h
  | cons d ds ih =>
    refine ih ?_
    rcases h with h | ⟨x, hx, r, hr, hid⟩
    · exact .inl (isSome_applyFrame h d)
    · rcases mem_cons.1 hx with rfl | hx
      · left
        rw [applyFrame_of_decode hr, hid, update_self]
        rfl
      · exact .inr ⟨x, hx, r, hr, hid⟩

theorem exists_mem_placed {ps : List Bytes} (h : p ∈ ps) (o : ℕ) : ∃ i, (i, p) ∈ placed F o ps := by
  rw [← map_snd_placed (F := F) o ps] at h
  obtain ⟨⟨i, q⟩, hmem, rfl⟩ := mem_map.1 h
  exact ⟨i, hmem⟩

theorem mem_of_mem_placed {o i : ℕ} {ps : List Bytes} (h : (i, p) ∈ placed F o ps) : p ∈ ps := by
  rw [← map_snd_placed o ps]
  exact mem_map_of_mem h

variable {fs : List (F.Nonce × Bytes)}

/-- The replay of a log has entries for the ids of its frames only. -/
theorem mem_idsOf_of_replay {id : UInt64}
    (h : (replay (placed F 0 (fs.map snd)) id).isSome = true) : id ∈ idsOf fs := by
  obtain ⟨e, he⟩ := Option.isSome_iff_exists.1 h
  rcases foldl_applyFrame_eq_some he with h | ⟨o, p, r, hmem, hr, hid, -⟩
  · cases h
  · obtain ⟨y, hy, rfl⟩ := mem_map.1 (mem_of_mem_placed hmem)
    exact ⟨y, hy, r, hr, hid⟩

/-! ## The first pass -/

structure ScanCtx where
  hash : HashIndex
  maxId : UInt64

def scanCb (off : ℕ) (p : Bytes) (c : ScanCtx) : ScanCtx :=
  match recordDecode p with
  | none => c
  | some r =>
    { hash := hashIndexPut c.hash r.id (entryOf r off p.length)
      maxId := if c.maxId < r.id then r.id else c.maxId }

/-- The content of `memory.index`. -/
structure Checkpoint where
  covered : ℕ
  nextId : UInt64
  entries : List (UInt64 × HashEntry)
  deriving DecidableEq

/-- What `hash_index_save` writes. -/
def hashIndexSave (h : HashIndex) (covered : ℕ) (nextId : UInt64) : Checkpoint :=
  ⟨covered, nextId, h.entries⟩

/-- What the first pass of `recovery_run` leaves. -/
structure Recovered where
  log : Bytes
  hash : HashIndex
  nextId : UInt64

/-- The context in which `recovery_run` starts the scan, and where: a missing checkpoint, or one
that covers more than the log holds, is ignored. -/
def scanStart (b : Bytes) : Option Checkpoint → ScanCtx × ℕ
  | none => (⟨hashIndexCreate, 0⟩, 0)
  | some c =>
    if c.covered ≤ b.length then
      (⟨hashIndexLoad hashIndexCreate c.entries, if c.nextId ≠ 0 then c.nextId - 1 else 0⟩, c.covered)
    else (⟨hashIndexCreate, 0⟩, 0)

/-- The first pass of `recovery_run` on the bytes of `memory.log` and the content of
`memory.index`. -/
def recoveryRun (F : Framing) (b : Bytes) (index : Option Checkpoint) : Recovered :=
  let start := scanStart b index
  let res := logScan F (always scanCb) b start.2 b.length start.1
  { log := if res.2.truncateTo < b.length then b.take res.2.truncateTo else b
    hash := res.1.hash
    nextId := res.1.maxId + 1 }

theorem lookup_scanCb (o : ℕ) (p : Bytes) (c : ScanCtx) :
    (scanCb o p c).hash.lookup = applyFrame c.hash.lookup (o, p) := by
  unfold scanCb applyFrame
  cases recordDecode p with
  | none => rfl
  | some r =>
    funext id
    simp only [lookup_hashIndexPut, update_apply]

theorem lookup_foldl_scanCb (ds : List (ℕ × Bytes)) (c : ScanCtx) :
    (ds.foldl (fun c d => scanCb d.1 d.2 c) c).hash.lookup = ds.foldl applyFrame c.hash.lookup := by
  induction ds generalizing c with
  | nil => rfl
  | cons d ds ih => rw [foldl_cons, ih, lookup_scanCb, foldl_cons]

theorem maxId_scanCb_of_decode {o : ℕ} {c : ScanCtx} {r : MemoryRecord}
    (h : recordDecode p = some r) :
    (scanCb o p c).maxId = if c.maxId < r.id then r.id else c.maxId := by
  simp [scanCb, h]

theorem le_maxId_scanCb (o : ℕ) (p : Bytes) (c : ScanCtx) : c.maxId ≤ (scanCb o p c).maxId := by
  unfold scanCb
  split
  · exact UInt64.le_refl _
  · dsimp only
    split
    · exact UInt64.le_of_lt ‹_›
    · exact UInt64.le_refl _

/-- The largest id of a scan is at least its start and the id of every frame. -/
theorem le_maxId_foldl (ds : List (ℕ × Bytes)) (c : ScanCtx) :
    c.maxId ≤ (ds.foldl (fun c d => scanCb d.1 d.2 c) c).maxId ∧
      ∀ d ∈ ds, ∀ r, recordDecode d.2 = some r →
        r.id ≤ (ds.foldl (fun c d => scanCb d.1 d.2 c) c).maxId := by
  induction ds generalizing c with
  | nil => simp
  | cons d ds ih =>
    obtain ⟨hle, hds⟩ := ih (scanCb d.1 d.2 c)
    rw [foldl_cons]
    refine ⟨UInt64.le_trans (le_maxId_scanCb d.1 d.2 c) hle, ?_⟩
    intro x hx r hr
    rcases mem_cons.1 hx with rfl | hx
    · refine UInt64.le_trans ?_ hle
      rw [maxId_scanCb_of_decode hr]
      split
      · exact UInt64.le_refl _
      · exact UInt64.not_lt.1 ‹_›
    · exact hds x hx r hr

theorem maxId_foldl_of_forall {P : UInt64 → Prop} (ds : List (ℕ × Bytes)) (c : ScanCtx)
    (hc : P c.maxId) (hds : ∀ d ∈ ds, ∀ r, recordDecode d.2 = some r → P r.id) :
    P (ds.foldl (fun c d => scanCb d.1 d.2 c) c).maxId := by
  induction ds generalizing c with
  | nil => exact hc
  | cons d ds ih =>
    refine ih _ ?_ fun x hx => hds x (mem_cons_of_mem _ hx)
    cases hd : recordDecode d.2 with
    | none => simpa [scanCb, hd] using hc
    | some r =>
      rw [maxId_scanCb_of_decode hd]
      split
      · exact hds d (mem_cons_self ..) r hd
      · exact hc

/-! ## A log cut by a crash -/

/-- The frames that lie in the first `k` bytes. -/
def wholeFrames (F : Framing) : ℕ → List (F.Nonce × Bytes) → List (F.Nonce × Bytes)
  | _, [] => []
  | k, x :: fs =>
    if F.overhead + x.2.length ≤ k then x :: wholeFrames F (k - (F.overhead + x.2.length)) fs else []

theorem wholeFrames_initial (k : ℕ) (fs : List (F.Nonce × Bytes)) : wholeFrames F k fs <+: fs := by
  induction fs generalizing k with
  | nil => exact prefix_rfl
  | cons x fs ih =>
    unfold wholeFrames
    split
    · exact (prefix_cons_inj x).2 (ih _)
    · exact nil_prefix

theorem Appendable.wholeFrames (h : Appendable fs) (k : ℕ) : Appendable (wholeFrames F k fs) :=
  fun x hx => h x ((wholeFrames_initial k fs).subset hx)

theorem wholeFrames_append (gs : List (F.Nonce × Bytes)) (h : framesSize F (fs.map snd) ≤ k) :
    wholeFrames F k (fs ++ gs) = fs ++ wholeFrames F (k - framesSize F (fs.map snd)) gs := by
  induction fs generalizing k with
  | nil => simp
  | cons x fs ih =>
    simp only [map_cons, framesSize_cons] at h ⊢
    rw [cons_append, wholeFrames, if_pos (by omega), ih (by omega), cons_append, Nat.sub_sub]

theorem wholeFrames_eq_self (h : framesSize F (fs.map snd) ≤ k) : wholeFrames F k fs = fs := by
  have := wholeFrames_append [] h
  rwa [append_nil, wholeFrames, append_nil] at this

theorem stops_of_torn {b : Bytes} {n : F.Nonce} {c : Bytes} (hp : p.length ≤ maxPayload)
    (hk : k < b.length + (F.overhead + p.length)) :
    Stops F ((b ++ (F.frame n p ++ c)).take k) k b.length := by
  have hov : F.overhead = F.hdrLen + F.tagLen := rfl
  by_cases hroom : k < b.length + F.hdrLen
  · exact .inr (.short hroom)
  · have hread := logRead_at (b := b) (c := c) (n := n) hp
    have hh := (headerAt_of_logRead F hread).1
    rw [← take_append_drop k (b ++ (F.frame n p ++ c))] at hh
    have hlen : k ≤ (b ++ (F.frame n p ++ c)).length := by
      rw [length_append, length_append, F.length_frame]
      omega
    rw [headerAt_append F _ (by rw [length_take_of_le hlen]; omega)] at hh
    exact .inr (.torn hh (by omega))

/-- What a scan meets that arrives at a run of frames in a file cut at `k`: the whole frames, and
then its end. -/
theorem walk_cut (hfs : Appendable fs) (b : Bytes) (hb : b.length ≤ k)
    (hk : k ≤ b.length + framesSize F (fs.map snd)) :
    ∃ o, o = b.length + framesSize F ((wholeFrames F (k - b.length) fs).map snd) ∧
      Walk F ((b ++ framesBytes F fs).take k) k b.length
        (turnsOf F b.length ((wholeFrames F (k - b.length) fs).map snd)) o ∧
      Stops F ((b ++ framesBytes F fs).take k) k o := by
  induction fs generalizing b with
  | nil =>
    refine ⟨b.length, by simp [wholeFrames], .nil _, .inl ?_⟩
    simpa using hk
  | cons x fs ih =>
    obtain ⟨n, p⟩ := x
    obtain ⟨hp, hrest⟩ := appendable_cons.1 hfs
    have hpos := F.overhead_pos
    have hbytes : b ++ framesBytes F ((n, p) :: fs) = b ++ (F.frame n p ++ framesBytes F fs) := rfl
    simp only [map_cons, framesSize_cons] at hk
    rw [wholeFrames]
    by_cases hfit : F.overhead + p.length ≤ k - b.length
    · rw [if_pos hfit]
      simp only [map_cons, framesSize_cons]
      have hlen := length_append_frame b n p
      obtain ⟨o, ho, hw, hs⟩ := ih hrest (b ++ F.frame n p) (by omega) (by omega)
      rw [hlen] at ho hw
      rw [append_assoc, ← hbytes] at hw hs
      rw [show k - (b.length + F.overhead + p.length) =
        k - b.length - (F.overhead + p.length) by omega] at ho hw
      have hread := logRead_at (F := F) (b := b) (c := framesBytes F fs) (n := n) hp
      rw [← hbytes] at hread
      refine ⟨o, by omega, .deliver (by omega) (.intact (logRead_of_take hread (m := k) (by omega) ?_)
        (by omega)) hw, hs⟩
      rw [take_take, min_self]
    · have hstop := stops_of_torn (n := n) (c := framesBytes F fs) hp
        (show k < b.length + (F.overhead + p.length) by omega)
      rw [if_neg hfit]
      exact ⟨b.length, by simp, .nil _, hbytes ▸ hstop⟩

/-- **A scan of a cut log** delivers the whole frames behind its start and reports the end of the
last one. -/
theorem logScan_cut {σ : Type} (f : ℕ → Bytes → σ → σ) {gs : List (F.Nonce × Bytes)}
    (hfs : Appendable (fs ++ gs)) {k : ℕ} (hk : framesSize F (fs.map snd) ≤ k)
    (hlen : k ≤ (framesBytes F (fs ++ gs)).length) (c : σ) :
    let ws := wholeFrames F (k - framesSize F (fs.map snd)) gs
    let res := logScan F (always f) ((framesBytes F (fs ++ gs)).take k)
      (framesSize F (fs.map snd)) k c
    res.1 = (placed F (framesSize F (fs.map snd)) (ws.map snd)).foldl
        (fun c d => f d.1 d.2 c) c ∧
      res.2.truncateTo = framesSize F ((fs ++ ws).map snd) := by
  intro ws res
  have hgs : Appendable gs := fun x hx => hfs x (mem_append_right _ hx)
  have hb : (framesBytes F fs).length = framesSize F (fs.map snd) := length_framesBytes fs
  rw [framesBytes_append, length_append, length_framesBytes gs] at hlen
  obtain ⟨o, ho, hw, hs⟩ := walk_cut hgs (framesBytes F fs) (k := k) (by omega) (by omega)
  rw [← framesBytes_append, hb] at hw
  rw [← framesBytes_append] at hs
  rw [hb] at ho
  have hle : k ≤ ((framesBytes F (fs ++ gs)).take k).length := by
    rw [length_take, framesBytes_append, length_append, length_framesBytes gs]
    omega
  obtain ⟨h₁, h₂⟩ := logScan_of_walk f hle (allDeliver_turnsOf _ _) hw (.nil o) (.inl rfl) hs c
  rw [append_nil, deliveries_turnsOf] at h₁
  rw [deliveries, if_pos rfl, ho] at h₂
  refine ⟨h₁, h₂.trans ?_⟩
  rw [map_append, framesSize_append]

theorem framesSize_wholeFrames_le (k : ℕ) (fs : List (F.Nonce × Bytes)) :
    framesSize F ((wholeFrames F k fs).map snd) ≤ k := by
  induction fs generalizing k with
  | nil => simp [wholeFrames]
  | cons x fs ih =>
    rw [wholeFrames]
    split
    · have := ih (k - (F.overhead + x.2.length))
      rw [map_cons, framesSize_cons]
      omega
    · simp

theorem take_framesBytes_of_initial {ws : List (F.Nonce × Bytes)} (h : ws <+: fs) :
    (framesBytes F fs).take (framesSize F (ws.map snd)) = framesBytes F ws := by
  obtain ⟨gs, rfl⟩ := h
  rw [framesBytes_append, take_left' (length_framesBytes ws)]

/-- The checkpoint stands for the first frames of a log. -/
def Checkpoint.Covers (F : Framing) (c : Checkpoint) (fs : List (F.Nonce × Bytes)) : Prop :=
  ∃ gs, gs <+: fs ∧ c.covered = framesSize F (gs.map snd) ∧
    (hashIndexLoad hashIndexCreate c.entries).lookup = replay (placed F 0 (gs.map snd))

theorem Checkpoint.Covers.mono {c : Checkpoint} {gs : List (F.Nonce × Bytes)} (h : c.Covers F fs)
    (hp : fs <+: gs) : c.Covers F gs := by
  obtain ⟨ws, hw, h⟩ := h
  exact ⟨ws, hw.trans hp, h⟩

/-- Where a scan starts that a checkpoint allows, or no checkpoint: behind some whole frames, with
their replay. -/
theorem scanStart_spec {b : Bytes} {index : Option Checkpoint}
    (hidx : ∀ c ∈ index, c.covered ≤ b.length → c.Covers F fs) :
    ∃ gs, gs <+: fs ∧ (scanStart b index).2 = framesSize F (gs.map snd) ∧
      framesSize F (gs.map snd) ≤ b.length ∧
      (scanStart b index).1.hash.lookup = replay (placed F 0 (gs.map snd)) := by
  have hnone := lookup_hashIndexCreate_eq
  unfold scanStart
  cases index with
  | none => exact ⟨[], nil_prefix, rfl, Nat.zero_le _, hnone⟩
  | some c =>
    dsimp only
    split
    · rename_i hc
      obtain ⟨gs, hp, hcov, hmap⟩ := hidx c rfl hc
      exact ⟨gs, hp, hcov, hcov ▸ hc, hmap⟩
    · exact ⟨[], nil_prefix, rfl, Nat.zero_le _, hnone⟩

/-- **Recovery of a cut log**, with a checkpoint of its first frames or one that is ignored, leaves
its whole frames and indexes their replay. -/
theorem recoveryRun_cut (hfs : Appendable fs) (hk : k ≤ (framesBytes F fs).length)
    {index : Option Checkpoint} (hidx : ∀ c ∈ index, c.covered ≤ k → c.Covers F fs) :
    (recoveryRun F ((framesBytes F fs).take k) index).log = framesBytes F (wholeFrames F k fs) ∧
      (recoveryRun F ((framesBytes F fs).take k) index).hash.lookup =
        replay (placed F 0 ((wholeFrames F k fs).map snd)) := by
  have hlen := length_take_of_le hk
  have hidx' : ∀ c ∈ index, c.covered ≤ ((framesBytes F fs).take k).length → c.Covers F fs := by
    rwa [hlen]
  obtain ⟨gs, ⟨hs, rfl⟩, hstart, hle, hmap⟩ := scanStart_spec hidx'
  rw [hlen] at hle
  obtain ⟨hctx, htrunc⟩ := logScan_cut scanCb hfs hle hk
    (scanStart ((framesBytes F (gs ++ hs)).take k) index).1
  have hwhole := wholeFrames_append hs hle
  rw [← hwhole] at htrunc
  constructor
  · have hpre := take_framesBytes_of_initial (wholeFrames_initial k (gs ++ hs))
    have hmin := framesSize_wholeFrames_le k (gs ++ hs)
    simp only [recoveryRun, hlen, hstart, htrunc]
    split
    · rw [take_take, min_eq_left hmin, hpre]
    · rw [← hpre]
      congr 1
      omega
  · simp only [recoveryRun, hlen, hstart]
    rw [hctx, lookup_foldl_scanCb, hmap, hwhole, map_append, placed_append, replay_append,
      Nat.zero_add]

theorem recoveryRun_take (hfs : Appendable fs) (hk : k ≤ (framesBytes F fs).length) :
    (recoveryRun F ((framesBytes F fs).take k) none).log = framesBytes F (wholeFrames F k fs) ∧
      (recoveryRun F ((framesBytes F fs).take k) none).hash.lookup =
        replay (placed F 0 ((wholeFrames F k fs).map snd)) :=
  recoveryRun_cut hfs hk (by simp)

theorem recoveryRun_whole (hfs : Appendable fs) :
    (recoveryRun F (framesBytes F fs) none).log = framesBytes F fs ∧
      (recoveryRun F (framesBytes F fs) none).hash.lookup = replay (placed F 0 (fs.map snd)) := by
  have h := recoveryRun_take hfs le_rfl
  rwa [take_length, wholeFrames_eq_self (length_framesBytes fs).ge] at h

end AegisDB
