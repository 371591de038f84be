import AegisDB.Storage.Store

/-!
# Snapshots and restores

`db_snapshot` captures the size of the log, the number of live records and the next id under the
index lock, and then copies the log up to that size, chunk by chunk, under the log lock: appends go
on, and the swap of a compaction waits. `restore_run` copies the log and the metadata of a snapshot
into an empty directory, under their final names.

`snapshot_round_trip_iff` and `interrupted_restore_iff` say what is recovered from a restored
snapshot, and which ones a crash in between does no harm to.
-/

namespace AegisDB

open Bytes List
open Prod (fst snd)

variable {F : Framing}
variable {snap : SnapshotDir}

/-! ## Taking a snapshot -/

structure SnapshotDir where
  log : Bytes
  floor : UInt64
  logSize : ℕ
  recordCount : ℕ
  nextId : UInt64

/-- `db_snapshot` while it copies the log. -/
structure Backup where
  engine : Engine
  covered : ℕ
  copied : Bytes

def Backup.start (s : Engine) : Backup := ⟨s, s.db.log.size, []⟩

/-- What happens while the log is copied: a step of the engine, or a read of up to `n` bytes. -/
inductive BackupAct (F : Framing)
  | engine (a : Act F)
  | chunk (n : ℕ)

/-- The step takes the log lock for writing. -/
def Act.swaps : Act F → Bool
  | .close _ => true
  | _ => false

/-- A step of `copy_log_prefix`, or of the engine beside it. -/
def backupStep (F : Framing) (batch : ℕ) (s : Backup) : BackupAct F → Option Backup
  | .engine a =>
    if a.swaps then none else (engineStep F batch s.engine a).map fun engine => { s with engine }
  | .chunk n =>
    let got := (s.engine.db.log.file.drop s.copied.length).take
      (min n (s.covered - s.copied.length))
    if got = [] then none else some { s with copied := s.copied ++ got }

/-- The snapshot that was captured in a state, with the copy of the log. -/
def snapshotOf (s : Engine) (nextId : UInt64) (b : Backup) : SnapshotDir where
  log := b.copied
  floor := nextId
  logSize := b.covered
  recordCount := (liveEntries s.db.hash).length
  nextId := nextId

/-- A directory with a log and a metadata file. -/
def installed (log : Bytes) (floor : UInt64) : Store :=
  { Store.fresh with
    engine := ⟨⟨⟨log, [], log.length, 0, true⟩, hashIndexCreate, 0⟩, .idle⟩
    floor }

/-- `restore_run` into an empty directory: the log has the size of the manifest. -/
def restoreRun (snap : SnapshotDir) : Option Store :=
  if snap.log.length ≠ snap.logSize then none else some (installed snap.log snap.floor)

def startOn (F : Framing) (s : Store) : Store := dbOpen F s s.engine.db.log.file.length

/-- What is recovered is what was live at the capture. -/
structure Restores (F : Framing) (s : Engine) (snap : SnapshotDir) (t : Store) : Prop where
  live : liveMap F t.engine.db.log.bytes t.engine.db.hash = liveMap F s.db.log.bytes s.db.hash
  count : (liveEntries t.engine.db.hash).length = snap.recordCount
  nextId : snap.nextId ≤ t.nextId

section

variable {batch : ℕ}

theorem append_only_of_step {s s' : Engine} {a : Act F} (h : EngineStep F batch s a s')
    (ha : a.swaps = false) (hs : s.phase.logFree = true) :
    s'.phase.logFree = true ∧ s.db.log.bytes <+: s'.db.log.bytes := by
  cases h with
  | @write db db' _ n r _ app =>
    obtain ⟨-, -, -, hbytes, -⟩ := lookup_appendAndHash app
    exact ⟨hs, hbytes ▸ prefix_append _ _⟩
  | flush | sync => exact ⟨hs, by simp⟩
  | close => cases ha
  | rename | renameFail | restore | restoreFail | rebuild | reopenFail => cases hs
  | writeFail => exact ⟨hs, prefix_rfl⟩
  | _ => exact ⟨rfl, prefix_rfl⟩

/-- What has been copied is the beginning of the log as it was captured. -/
structure Backup.Copies (b : Backup) (log : Bytes) : Prop where
  free : b.engine.phase.logFree = true
  grows : log <+: b.engine.db.log.bytes
  covered : b.covered ≤ log.length
  within : b.copied.length ≤ b.covered
  copied : b.copied = log.take b.copied.length

theorem Backup.Copies.step {b b' : Backup} {log : Bytes} {a : BackupAct F} (h : b.Copies log)
    (hstep : backupStep F batch b a = some b') : b'.Copies log ∧ b'.covered = b.covered := by
  cases a with
  | engine a =>
    obtain ⟨hswap, hstep⟩ := Option.ite_none_left_eq_some.1 hstep
    obtain ⟨engine, hengine, rfl⟩ := Option.map_eq_some_iff.1 hstep
    obtain ⟨hfree, hgrows⟩ := append_only_of_step (.of_eq hengine) (by simpa using hswap) h.free
    exact ⟨{ h with free := hfree, grows := h.grows.trans hgrows }, rfl⟩
  | chunk n =>
    obtain ⟨-, hstep⟩ := Option.ite_none_left_eq_some.1 hstep
    cases hstep
    -- the bytes that are read lie in the log of the capture
    obtain ⟨rest, hrest⟩ := h.grows.trans (prefix_append _ b.engine.db.log.junk)
    set k := min n (b.covered - b.copied.length) with hk
    have hk' : k ≤ b.covered - b.copied.length := hk ▸ min_le_right _ _
    have hcov := h.covered
    have hin := h.within
    have hgot : (b.engine.db.log.file.drop b.copied.length).take k =
        (log.drop b.copied.length).take k := by
      change ((b.engine.db.log.bytes ++ b.engine.db.log.junk).drop b.copied.length).take k = _
      rw [← hrest, drop_append_of_le_length (by omega), take_append_of_le_length]
      rw [length_drop]
      omega
    have hlen : ((log.drop b.copied.length).take k).length = k := by
      rw [length_take, length_drop]
      omega
    refine ⟨{ h with within := ?_, copied := ?_ }, rfl⟩
    · rw [hgot, length_append, hlen]
      change b.copied.length + k ≤ b.covered
      omega
    · rw [hgot, length_append, hlen]
      rw [take_add, ← h.copied]

theorem Backup.Copies.run {b b' : Backup} {log : Bytes} {as : List (BackupAct F)}
    (h : b.Copies log) (hrun : run (backupStep F batch) b as = some b') :
    b'.Copies log ∧ b'.covered = b.covered := by
  refine run_invariant_of_step (I := fun c => c.Copies log ∧ c.covered = b.covered) ?_ ⟨h, rfl⟩ hrun
  rintro c a c' ⟨hc, hcov⟩ hstep
  obtain ⟨hc', hcov'⟩ := hc.step hstep
  exact ⟨hc', hcov'.trans hcov⟩

/-- A finished copy is the log of the capture, or empty if that was closed. -/
theorem copied_eq {s : Engine} {as : List (BackupAct F)} {b : Backup}
    (hfree : s.phase.indexFree = true) (hrun : run (backupStep F batch) (.start s) as = some b)
    (hdone : b.copied.length = b.covered) :
    b.covered = s.db.log.size ∧ b.copied = if s.db.log.isOpen then s.db.log.bytes else [] := by
  have hsize : s.db.log.size ≤ s.db.log.bytes.length := by
    unfold LogFile.size
    split
    · exact le_rfl
    · exact Nat.zero_le _
  have hstart : (Backup.start s).Copies s.db.log.bytes :=
    ⟨Phase.logFree_of_indexFree hfree, prefix_rfl, hsize, Nat.zero_le _, rfl⟩
  obtain ⟨hb, hcov⟩ := hstart.run hrun
  refine ⟨hcov, ?_⟩
  rw [hb.copied, hdone, hcov]
  change s.db.log.bytes.take s.db.log.size = _
  unfold LogFile.size
  split
  · exact take_length
  · rfl

end

/-! ## What is recovered -/

/-- Two lists of the live entries of a map are as long as each other. -/
theorem LiveOf.length_eq {m : UInt64 → Option HashEntry} {xs ys : List (UInt64 × HashEntry)}
    (hx : LiveOf m xs) (hy : LiveOf m ys) : xs.length = ys.length := by
  refine List.Perm.length_eq ?_
  rw [perm_ext_iff_of_nodup (hx.nodup.of_map _) (hy.nodup.of_map _)]
  intro x
  rw [hx.mem_iff, hy.mem_iff]

theorem startOn_installed (log : Bytes) (floor : UInt64) :
    (startOn F (installed log floor)).engine.db.log.bytes = (recoveryRun F log none).log ∧
      (startOn F (installed log floor)).engine.db.hash = (recoveryRun F log none).hash ∧
      (startOn F (installed log floor)).nextId =
        if (recoveryRun F log none).nextId < floor then floor
        else (recoveryRun F log none).nextId := by
  have hfile : (installed log floor).engine.db.log.file.take
      (installed log floor).engine.db.log.file.length = log := by
    rw [take_length]
    exact append_nil log
  unfold startOn dbOpen
  rw [hfile]
  exact ⟨rfl, rfl, rfl⟩

theorem floor_le_startOn (log : Bytes) (floor : UInt64) :
    floor ≤ (startOn F (installed log floor)).nextId := by
  rw [(startOn_installed log floor).2.2]
  split
  · exact UInt64.le_refl _
  · exact UInt64.not_lt.1 ‹_›

variable {fs : List (F.Nonce × Bytes)}

theorem liveMap_of_liveEntries_nil {b : Bytes} {h : HashIndex} (hnil : liveEntries h = []) :
    liveMap F b h = fun _ => none := by
  funext id
  have hnone : (h.lookup id).filter (fun e => !e.deleted) = none := by
    rw [Option.filter_eq_none_iff]
    intro e he hlive
    have hmem := ((liveOf_liveEntries h).mem_iff (id, e)).2 ⟨he, by simpa using hlive⟩
    rw [hnil] at hmem
    cases hmem
  rw [liveMap_eq, liveThrough, hnone]
  rfl

theorem restores_of_open {s : Engine} (hs : CleanAt F s fs) (hopen : s.db.log.isOpen = true)
    (nextId : UInt64)
    (hcount : snap.recordCount = (liveEntries s.db.hash).length) (hnext : snap.nextId = nextId) :
    Restores F s snap (startOn F (installed s.db.log.bytes nextId)) := by
  have hindexed : s.phase.indexed = true := by
    by_contra hnot
    rw [hs.closed (by simpa using hnot)] at hopen
    cases hopen
  obtain ⟨hlog, hhash, -⟩ := startOn_installed s.db.log.bytes nextId
  obtain ⟨hrlog, hrhash⟩ := recoveryRun_whole hs.appendable
  have hlookup : (recoveryRun F s.db.log.bytes none).hash.lookup = s.db.hash.lookup := by
    rw [hs.bytes, hrhash, hs.lookup hindexed]
  refine ⟨?_, ?_, hnext ▸ floor_le_startOn _ _⟩
  · rw [hlog, hhash, liveMap_eq, liveMap_eq, hlookup, hs.bytes, hrlog]
  · rw [hhash, hcount]
    refine LiveOf.length_eq ?_ (liveOf_liveEntries _)
    rw [← hlookup]
    exact liveOf_liveEntries _

theorem liveEntries_startOn_nil (floor : UInt64) :
    liveEntries (startOn F (installed [] floor)).engine.db.hash = [] := by
  obtain ⟨-, hhash, -⟩ := startOn_installed [] floor
  have hlookup : (recoveryRun F (framesBytes F []) none).hash.lookup = replay (placed F 0 []) :=
    (recoveryRun_whole (by simp [Appendable])).2
  rw [hhash, eq_nil_iff_forall_not_mem]
  intro x hx
  obtain ⟨hid, -⟩ := ((liveOf_liveEntries _).mem_iff x).1 hx
  change (recoveryRun F (framesBytes F []) none).hash.lookup x.1 = _ at hid
  rw [hlookup] at hid
  cases hid

/-- A record, and a snapshot beside which another one is written. -/
def besideWrite : List (BackupAct plainFraming) :=
  [.chunk 20, .engine (.write () (.bare 2 false)), .chunk 200]

/-- A record is written; then a compaction can neither rename the new log nor open the old one
again. -/
def leftClosed : List (Act plainFraming) :=
  [.write () (.bare 1 false), .snapshot true, .copy () true, .lock, .fsyncNew true, .close true,
    .rename false, .reopen false]

/-- The record count of a snapshot taken behind some steps, and the number of live records once it
is restored. -/
def restoredCount (as : List (Act plainFraming)) (nextId : UInt64) : Option (ℕ × ℕ) :=
  (run (engineStep plainFraming 1) ⟨emptyDb, .idle⟩ as).bind fun s =>
    (restoreRun (snapshotOf s nextId (.start s))).map fun t =>
      ((snapshotOf s nextId (.start s)).recordCount,
        (liveEntries (startOn plainFraming t).engine.db.hash).length)

/-- Where `restore_run` is interrupted: before it creates `memory.log`, with `k` bytes of the log in
it, or behind it, with `metadata.db` complete or not. -/
inductive RestoreCrash
  | unclaimed
  | log (k : ℕ)
  | metadata (complete : Bool)

/-- What an interrupted restore leaves: `fs_copy_file` writes to the final names. -/
def leftBy (snap : SnapshotDir) : RestoreCrash → Option Store
  | .unclaimed => none
  | .log k => some (installed (snap.log.take k) 0)
  | .metadata complete => some (installed snap.log (if complete then snap.floor else 0))

/-- The files of a snapshot of a log of whole frames. -/
structure SnapshotDir.Holds (F : Framing) (snap : SnapshotDir) (fs : List (F.Nonce × Bytes)) :
    Prop where
  appendable : Appendable fs
  log : snap.log = framesBytes F fs
  floor : snap.floor = snap.nextId

/-- A server finds no database, or the records of the snapshot and no id that they may have. -/
def Unmistaken (F : Framing) (snap : SnapshotDir) (fs : List (F.Nonce × Bytes)) (t : Store) : Prop :=
  t.engine.db.log.bytes = [] ∨
    liveMap F t.engine.db.log.bytes t.engine.db.hash = payloadMap (fs.map snd) ∧
      snap.nextId ≤ t.nextId

/-- The larger of an id and that of a frame. -/
def topId (m : UInt64) (p : Bytes) : UInt64 :=
  match recordDecode p with
  | none => m
  | some r => if m < r.id then r.id else m

theorem maxId_foldl_scanCb (ds : List (ℕ × Bytes)) (c : ScanCtx) :
    (ds.foldl (fun c d => scanCb d.1 d.2 c) c).maxId = (ds.map snd).foldl topId c.maxId := by
  induction ds generalizing c with
  | nil => rfl
  | cons d ds ih =>
    have hd : (scanCb d.1 d.2 c).maxId = topId c.maxId d.2 := by
      unfold scanCb topId
      cases recordDecode d.2 <;> rfl
    rw [foldl_cons, ih, hd]
    rfl

/-- The next id behind frames with some payloads. -/
def nextIdOf (ps : List Bytes) : UInt64 := ps.foldl topId 0 + 1

theorem nextId_recoveryRun_take (hfs : Appendable fs) {k : ℕ} (hk : k ≤ (framesBytes F fs).length) :
    (recoveryRun F ((framesBytes F fs).take k) none).nextId =
      nextIdOf ((wholeFrames F k fs).map snd) := by
  have hctx : (logScan F (always scanCb) ((framesBytes F fs).take k) 0 k ⟨hashIndexCreate, 0⟩).1 =
      (placed F 0 ((wholeFrames F k fs).map snd)).foldl (fun c d => scanCb d.1 d.2 c)
        ⟨hashIndexCreate, 0⟩ :=
    (logScan_cut scanCb (show Appendable ([] ++ fs) from hfs) (Nat.zero_le k) hk _).1
  have hlen := length_take_of_le hk
  unfold recoveryRun
  rw [hlen]
  change (logScan F (always scanCb) _ 0 k ⟨hashIndexCreate, 0⟩).1.maxId + 1 = _
  rw [hctx, maxId_foldl_scanCb, map_snd_placed]
  rfl

theorem framesBytes_eq_nil_iff : framesBytes F fs = [] ↔ fs = [] := by
  constructor
  · intro h
    have hsize := length_framesBytes fs
    rw [h] at hsize
    cases fs with
    | nil => rfl
    | cons f fs =>
      have := F.hdrLen_pos
      simp only [length_nil, map_cons, framesSize_cons, Framing.overhead] at hsize
      omega
  · rintro rfl
    rfl

/-- Some frames at the beginning of a log are those that lie in as many bytes. -/
theorem wholeFrames_of_initial {gs : List (F.Nonce × Bytes)} (h : gs <+: fs) :
    wholeFrames F (framesSize F (gs.map snd)) fs = gs := by
  obtain ⟨hs, rfl⟩ := h
  rw [wholeFrames_append hs le_rfl, Nat.sub_self]
  cases hs with
  | nil => exact append_nil gs
  | cons x hs =>
    have := F.hdrLen_pos
    rw [wholeFrames, if_neg (by simp only [Framing.overhead]; omega), append_nil]

/-- What a server finds in the first bytes of the log without `metadata.db`. -/
theorem unmistaken_take_iff (h : snap.Holds F fs) {k : ℕ} (hk : k ≤ (framesBytes F fs).length) :
    Unmistaken F snap fs (startOn F (installed (snap.log.take k) 0)) ↔
      wholeFrames F k fs = [] ∨
        payloadMap ((wholeFrames F k fs).map snd) = payloadMap (fs.map snd) ∧
          snap.nextId ≤ nextIdOf ((wholeFrames F k fs).map snd) := by
  obtain ⟨hbytes, hhash, hnext⟩ := startOn_installed (snap.log.take k) 0
  obtain ⟨hlog, hlookup⟩ := recoveryRun_take h.appendable hk
  have hlive := (liveMap_framesBytes (h.appendable.wholeFrames k) hlookup).2
  rw [if_neg (UInt64.not_lt.2 (UInt64.zero_le))] at hnext
  unfold Unmistaken
  rw [hbytes, hhash, hnext, h.log, hlog, hlive, nextId_recoveryRun_take h.appendable hk,
    framesBytes_eq_nil_iff]

/-- A fold stops nowhere short of its result if, and only if, no element changes where it starts. -/
theorem foldl_initial_iff {α β : Type} (f : β → α → β) (b : β) (as : List α) :
    (∀ gs, gs <+: as → gs.foldl f b = as.foldl f b) ↔ ∀ a ∈ as, f b a = b := by
  induction as with
  | nil => simp
  | cons a as ih =>
    rw [forall_mem_cons, ← ih]
    constructor
    · intro h
      have hnil : b = as.foldl f (f b a) := h [] List.nil_prefix
      have hone : f b a = as.foldl f (f b a) := h [a] (prefix_append [a] as)
      have ha : f b a = b := hone.trans hnil.symm
      refine ⟨ha, fun gs hgs => ?_⟩
      have hcons := h (a :: gs) ((prefix_cons_inj a).2 hgs)
      rwa [foldl_cons, foldl_cons, ha] at hcons
    · rintro ⟨ha, h⟩ gs hgs
      rw [foldl_cons, ha]
      cases gs with
      | nil => exact h [] List.nil_prefix
      | cons g gs =>
        obtain ⟨rfl, hgs'⟩ := cons_prefix_cons.1 hgs
        rw [foldl_cons, ha]
        exact h gs hgs'

/-- The first frame of a log says all of it: the others change nothing, and no first frames lead to
a smaller next id. -/
def FirstSaysAll (nextId : UInt64) : List Bytes → Prop
  | [] => True
  | p :: ps =>
    (∀ q ∈ ps, applyPayload (payloadMap [p]) q = payloadMap [p]) ∧
      ∀ qs, qs <+: ps → nextId ≤ nextIdOf (p :: qs)

theorem firstSaysAll_iff (nextId : UInt64) (ps : List Bytes) :
    FirstSaysAll nextId ps ↔ ∀ qs, qs <+: ps → qs = [] ∨
      payloadMap qs = payloadMap ps ∧ nextId ≤ nextIdOf qs := by
  cases ps with
  | nil => exact iff_of_true trivial fun qs hqs => .inl (prefix_nil.1 hqs)
  | cons p ps =>
    have hfold := foldl_initial_iff applyPayload (payloadMap [p]) ps
    constructor
    · rintro ⟨hsame, hnext⟩ qs hqs
      cases qs with
      | nil => exact .inl rfl
      | cons q qs =>
        obtain ⟨rfl, hqs'⟩ := cons_prefix_cons.1 hqs
        exact .inr ⟨hfold.2 hsame qs hqs', hnext qs hqs'⟩
    · intro h
      have hcons : ∀ qs, qs <+: ps →
          payloadMap (p :: qs) = payloadMap (p :: ps) ∧ nextId ≤ nextIdOf (p :: qs) := fun qs hqs =>
        (h (p :: qs) ((prefix_cons_inj p).2 hqs)).resolve_left (cons_ne_nil p qs)
      exact ⟨hfold.1 fun qs hqs => (hcons qs hqs).1, fun qs hqs => (hcons qs hqs).2⟩

theorem unmistaken_of_complete (h : snap.Holds F fs) :
    Unmistaken F snap fs (startOn F (installed snap.log snap.floor)) := by
  obtain ⟨hbytes, hhash, -⟩ := startOn_installed snap.log snap.floor
  obtain ⟨hlog, hlookup⟩ := recoveryRun_whole h.appendable
  refine .inr ⟨?_, h.floor ▸ floor_le_startOn _ _⟩
  rw [hbytes, hhash, h.log, hlog, (liveMap_framesBytes h.appendable hlookup).2]

/-- **An interrupted restore.** Wherever `restore_run` is interrupted, a server started on what
is left finds no database or the snapshot if, and only if, the first frame of the log says all of
it. -/
theorem interrupted_restore_iff {snap : SnapshotDir} {fs : List (F.Nonce × Bytes)}
    (h : snap.Holds F fs) :
    (∀ c, ∀ s ∈ leftBy snap c, Unmistaken F snap fs (startOn F s)) ↔
      FirstSaysAll snap.nextId (fs.map snd) := by
  rw [firstSaysAll_iff]
  constructor
  · intro hall qs hqs
    obtain ⟨gs, hgs, rfl⟩ := prefix_map_iff.1 hqs
    have hk : framesSize F (gs.map snd) ≤ (framesBytes F fs).length := by
      obtain ⟨hs, rfl⟩ := hgs
      rw [length_framesBytes, map_append, framesSize_append]
      exact Nat.le_add_right _ _
    have hcut := (unmistaken_take_iff h hk).1 (hall (.log _) _ rfl)
    rw [wholeFrames_of_initial hgs] at hcut
    exact hcut.imp_left fun hnil => by rw [hnil, map_nil]
  · intro hall
    -- a log that is copied in part, or without its `metadata.db`
    have hcut : ∀ k ≤ (framesBytes F fs).length,
        Unmistaken F snap fs (startOn F (installed (snap.log.take k) 0)) := fun k hk =>
      (unmistaken_take_iff h hk).2 <| (hall _ ((wholeFrames_initial k fs).map snd)).imp_left
        map_eq_nil_iff.1
    have hwhole := hcut _ le_rfl
    rw [← h.log, take_length] at hwhole
    intro c s hs
    cases c with
    | unclaimed => cases hs
    | log k =>
      cases hs
      rcases Nat.le_total k snap.log.length with hk | hk
      · exact hcut k (h.log ▸ hk)
      · rwa [take_of_length_le hk]
    | metadata complete =>
      cases hs
      cases complete with
      | true => exact unmistaken_of_complete h
      | false => exact hwhole

/-- The frames of the records with some ids. -/
def bareFrames (ids : List UInt64) : List (plainFraming.Nonce × Bytes) :=
  ids.map fun id => ((), recordBytes (WireRecord.bare id false).1)

/-- The snapshot of a log with those frames. -/
def bareSnapshot (ids : List UInt64) (nextId : UInt64) : SnapshotDir where
  log := framesBytes plainFraming (bareFrames ids)
  floor := nextId
  logSize := (framesBytes plainFraming (bareFrames ids)).length
  recordCount := ids.length
  nextId := nextId

set_option maxRecDepth 20000 in
theorem bareSnapshot_holds : (bareSnapshot [1] 2).Holds plainFraming (bareFrames [1]) :=
  ⟨by unfold Appendable; decide +kernel, rfl, rfl⟩

set_option maxRecDepth 20000 in
theorem oneRecord_unmistaken :
    (∃ s, leftBy (bareSnapshot [1] 2) (.log 20) = some s) ∧
      ∀ c, ∀ s ∈ leftBy (bareSnapshot [1] 2) c,
        Unmistaken plainFraming (bareSnapshot [1] 2) (bareFrames [1]) (startOn plainFraming s) := by
  refine ⟨⟨_, rfl⟩, (interrupted_restore_iff bareSnapshot_holds).2 ⟨nofun, fun qs hqs => ?_⟩⟩
  rw [prefix_nil.1 hqs]
  decide +kernel

set_option maxRecDepth 20000 in
/-- The copy of a log with two records is interrupted behind the first: a server then has one
record, takes it for a database, and would give the other's id again. -/
theorem halfRestored_mistaken :
    (leftBy (bareSnapshot [1, 2] 3)
        (.log (framesBytes plainFraming (bareFrames [1])).length)).map (fun s =>
      ((startOn plainFraming s).engine.db.log.bytes,
        liveMap plainFraming (startOn plainFraming s).engine.db.log.bytes
          (startOn plainFraming s).engine.db.hash 2,
        payloadMap ((bareFrames [1, 2]).map snd) 2, (startOn plainFraming s).nextId)) =
      some (framesBytes plainFraming (bareFrames [1]), none,
        some (recordBytes (WireRecord.bare 2 false).1), 2) := by
  decide +kernel

end AegisDB
