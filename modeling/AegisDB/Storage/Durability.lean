import AegisDB.Storage.CleanEngine

/-!
# Durability of acknowledged writes

With `--durability sync` an operation returns behind `log_fsync_if_batched` with a batch of one. The
counter `since_fsync` is shared: a writer that finds it at zero relies on the fsync of another one,
or on the compaction, which fsyncs the new log before the swap and resets the counter with it.

`AllSynced` is the invariant behind this: a counter at zero, or a closed log, means that all of the
log is on disk. One step breaks it: a compaction that closes the old log with a failing fsync, which
it does not look at, and whose rename fails then, opens the old log again with the counter at zero.
Apart from that an acknowledged write is on disk (`onDisk_of_flush`).
-/

namespace AegisDB

open Bytes List Option LogFile

variable {F : Framing}
variable {batch : ℕ} {as : List (Act F)}

/-- `--durability`. -/
inductive Durability
  | sync
  | batch
  | interval
  deriving DecidableEq

def configEffectiveFsyncBatch (d : Durability) (fsyncBatchSize : ℕ) : ℕ :=
  match d with
  | .sync => 1
  | .interval => 0xFFFFFFFFFFFFFFFF
  | .batch => fsyncBatchSize

def LogFile.OnDisk (l : LogFile) : Prop := l.synced = l.bytes.length

instance (l : LogFile) : Decidable l.OnDisk := inferInstanceAs (Decidable (_ = _))

/-- When the rename of a compaction fails, the fsync with which the old log was closed has
succeeded. -/
def ClosedSynced (s : Engine) (a : Act F) : Prop :=
  match a with
  | .rename false => s.db.log.OnDisk
  | _ => True

instance (s : Engine) (a : Act F) : Decidable (ClosedSynced s a) := by
  unfold ClosedSynced
  split
  · exact inferInstance
  · exact .isTrue trivial

/-- What the counter and the descriptor say about the log once a frame has been written. -/
structure AllSynced (wrote : Prop) (s : Engine) : Prop where
  since : wrote → s.db.log.sinceFsync = 0 → s.db.log.OnDisk
  closed : wrote → s.db.log.isOpen = false → (∀ new, s.phase ≠ .oldClosed new) → s.db.log.OnDisk
  locked : s.phase.logFree = false → s.db.log.isOpen = false

theorem LogFile.onDisk_logFsync {l : LogFile} (h : l.isOpen = true) :
    (l.logFsync true).1.OnDisk := by
  simp [logFsync, h, OnDisk]

theorem LogFile.logFsync_cases (l : LogFile) (ok : Bool) :
    (l.logFsync ok).1 = l ∨ l.isOpen = true ∧ (l.logFsync ok).1.OnDisk := by
  cases hopen : l.isOpen with
  | false => exact .inl (by simp [logFsync, hopen])
  | true =>
    cases ok with
    | false => exact .inl (by simp [logFsync, hopen])
    | true => exact .inr ⟨rfl, onDisk_logFsync hopen⟩

theorem LogFile.logFsyncIfBatched_cases (batch : ℕ) (l : LogFile) (ok : Bool) :
    (l.logFsyncIfBatched batch ok).1 = l ∨
      l.isOpen = true ∧ (l.logFsyncIfBatched batch ok).1.OnDisk := by
  unfold logFsyncIfBatched
  split
  · exact l.logFsync_cases ok
  · exact .inl rfl

theorem AllSynced.fsync {wrote : Prop} {db : Db} {phase : Phase} {l : LogFile}
    (hs : AllSynced wrote ⟨db, phase⟩) (hl : l = db.log ∨ db.log.isOpen = true ∧ l.OnDisk)
    (hopen : l.isOpen = db.log.isOpen) : AllSynced wrote ⟨{ db with log := l }, phase⟩ := by
  rcases hl with rfl | ⟨-, hdisk⟩
  · exact hs
  · exact ⟨fun _ _ => hdisk, fun _ _ _ => hdisk, fun h => hopen.trans (hs.locked h)⟩

/-- A step keeps the invariant, unless the old log is opened again that was closed unsynced. -/
theorem AllSynced.step {batch : ℕ} {wrote : Prop} {s s' : Engine} {a : Act F}
    (hs : AllSynced wrote s) (hjunk : s.db.log.junk = []) (h : EngineStep F batch s a s')
    (ha : ClosedSynced s a) (htorn : a.isTorn = false) :
    AllSynced (wrote ∨ a.frames ≠ []) s' := by
  have hkeep (hframes : a.frames = []) (hs' : AllSynced wrote s') :
      AllSynced (wrote ∨ a.frames ≠ []) s' := by
    have hor (hw : wrote ∨ a.frames ≠ []) : wrote := hw.resolve_right (not_not_intro hframes)
    exact ⟨fun hw => hs'.since (hor hw), fun hw => hs'.closed (hor hw), hs'.locked⟩
  cases h with
  | @write db db' phase n r free app =>
    obtain ⟨hopen, -, rfl⟩ := appendAndHash_eq_some.1 app
    have hfree : phase.logFree = true := Phase.logFree_of_indexFree free
    refine ⟨fun _ h => ?_, fun _ h => ?_, fun h => ?_⟩
    · exact absurd h (Nat.succ_ne_zero _)
    · exact absurd (hopen.symm.trans h) (by simp)
    · exact absurd (hfree.symm.trans h) (by simp)
  | writeFail => cases htorn
  | flush => exact hkeep rfl (hs.fsync (logFsyncIfBatched_cases ..) (by simp))
  | sync => exact hkeep rfl (hs.fsync (logFsync_cases ..) (by simp))
  | @close db ok new =>
    refine hkeep rfl ⟨fun hw h => ?_, fun _ _ h => absurd rfl (h new), fun _ => rfl⟩
    have hdisk : db.log.OnDisk := hs.since hw h
    simp only [OnDisk, logClose] at hdisk ⊢
    split
    · rfl
    · exact hdisk
  | rename => exact hkeep rfl ⟨fun _ _ => rfl, fun _ _ _ => rfl, fun _ => rfl⟩
  | renameFail => exact hkeep rfl ⟨fun _ _ => ha, fun _ _ _ => ha, fun _ => hs.locked rfl⟩
  | restore | rebuild =>
    refine hkeep rfl ⟨fun hw _ => ?_, fun _ h => (by cases h), fun h => (by cases h)⟩
    have hdisk := hs.closed hw (hs.locked rfl) (by simp)
    dsimp only at hjunk hdisk
    simpa [OnDisk, logOpen, file, hjunk] using hdisk
  | _ =>
    refine hkeep rfl ⟨hs.since, fun hw h _ => hs.closed hw h (by simp), fun h => ?_⟩
    cases h

theorem bytes_of_step {s s' : Engine} {a : Act F} (h : EngineStep F batch s a s')
    (ha : a ≠ .rename true) : s.db.log.bytes <+: s'.db.log.bytes := by
  cases h with
  | write _ app =>
    obtain ⟨-, -, rfl⟩ := appendAndHash_eq_some.1 app
    exact prefix_append _ _
  | flush | sync => simp
  | rename => exact absurd rfl ha
  | restore | rebuild => exact prefix_append _ _
  | _ => exact prefix_rfl

theorem bytes_of_run {s s' : Engine}
    (h : run (engineStep F batch) s as = some s') (has : .rename true ∉ as) :
    s.db.log.bytes <+: s'.db.log.bytes := by
  induction as generalizing s with
  | nil =>
    cases h
    exact prefix_rfl
  | cons a as ih =>
    obtain ⟨t, hstep, hrun⟩ := run_cons_eq_some.1 h
    rw [mem_cons, not_or] at has
    exact (bytes_of_step (.of_eq hstep) (Ne.symm has.1)).trans (ih hrun has.2)

/-! ## Acknowledged writes -/

/-- Every failure but an append that is torn, and a rename that fails behind a failed fsync. -/
def Syncing (s : Engine) (a : Act F) : Prop := a.isTorn = false ∧ ClosedSynced s a

instance (s : Engine) (a : Act F) : Decidable (Syncing s a) := inferInstanceAs (Decidable (_ ∧ _))

theorem isTorn_of_along {s s' : Engine}
    (h : Along (engineStep F batch) Syncing s as) (hrun : run (engineStep F batch) s as = some s') :
    ∀ a ∈ as, a.isTorn = false := by
  induction as generalizing s with
  | nil => simp
  | cons a as ih =>
    obtain ⟨t, hstep, hrun⟩ := run_cons_eq_some.1 hrun
    intro b hb
    rcases mem_cons.1 hb with rfl | hb
    · exact h.1.1
    · exact ih (h.2 t hstep) hrun b hb

/-- The invariant behind a run: it speaks of the log as soon as a frame has been written. -/
theorem allSynced_of_run {db : Db} (hdb : db.log.junk = [])
    {s : Engine} (hrun : run (engineStep F batch) ⟨db, .idle⟩ as = some s)
    (has : Along (engineStep F batch) Syncing ⟨db, .idle⟩ as) :
    s.db.log.junk = [] ∧ AllSynced (as.flatMap Act.frames ≠ []) s := by
  induction as using reverseRecOn generalizing s with
  | nil =>
    cases hrun
    exact ⟨hdb, fun h => absurd rfl h, fun h => absurd rfl h, fun h => by cases h⟩
  | append_singleton as a ih =>
    obtain ⟨has, ha⟩ := along_concat.1 has
    obtain ⟨t, hrun, hstep⟩ := run_concat_eq_some.1 hrun
    obtain ⟨htorn, hclosed⟩ := ha t hrun
    obtain ⟨hjunk, hall⟩ := ih hrun has
    refine ⟨junk_of_step (.of_eq hstep) hjunk htorn, ?_⟩
    have := hall.step hjunk (.of_eq hstep) hclosed htorn
    have hiff : (as ++ [a]).flatMap Act.frames ≠ [] ↔
        as.flatMap Act.frames ≠ [] ∨ a.frames ≠ [] := by
      rw [flatMap_append, Ne, append_eq_nil_iff, not_and_or]
      simp
    exact ⟨fun h => this.since (hiff.1 h), fun h => this.closed (hiff.1 h), this.locked⟩

/-- A flush that succeeds with a batch of one leaves all of the log on disk. -/
theorem AllSynced.onDisk_flush {s : Engine} {ok : Bool} (hs : AllSynced True s)
    (hfree : s.phase.logFree = true) (hok : (s.db.log.logFsyncIfBatched 1 ok).2 = true) :
    (s.db.log.logFsyncIfBatched 1 ok).1.OnDisk := by
  cases hopen : s.db.log.isOpen with
  | false =>
    have hdisk := hs.closed trivial hopen (by
      intro new h
      rw [h] at hfree
      cases hfree)
    simpa [logFsyncIfBatched, hopen] using hdisk
  | true =>
    by_cases hsince : 1 ≤ s.db.log.sinceFsync
    · simp only [logFsyncIfBatched, hopen, hsince, or_true, and_self, if_true] at hok ⊢
      cases ok with
      | false => simp [logFsync, hopen] at hok
      | true => exact onDisk_logFsync hopen
    · have hdisk := hs.since trivial (by omega)
      simpa [logFsyncIfBatched, hsince] using hdisk

/-- **Durability of acknowledged writes.** Take any interleaving of writers with compactions under
`--durability sync`, where fsyncs, renames, reads and opens may fail, but no rename behind a failed
closing fsync. Whenever a flush succeeds behind a write, all of `memory.log` is on disk, with the
frame of every write since the last swap; and if it held whole frames at first, a scan of it shows
the effect of every write so far. -/
theorem onDisk_of_flush {fsyncBatchSize : ℕ} {db : Db} (hdb : db.log.junk = [])
    {as : List (Act F)} {s s' : Engine} {ok : Bool}
    (hrun : run (engineStep F (configEffectiveFsyncBatch .sync fsyncBatchSize)) ⟨db, .idle⟩ as =
      some s)
    (has : Along (engineStep F (configEffectiveFsyncBatch .sync fsyncBatchSize)) Syncing
      ⟨db, .idle⟩ as)
    (hwrote : as.flatMap Act.frames ≠ [])
    (hflush : engineStep F (configEffectiveFsyncBatch .sync fsyncBatchSize) s (.flush ok) = some s')
    (hok : (s.db.log.logFsyncIfBatched (configEffectiveFsyncBatch .sync fsyncBatchSize) ok).2 =
      true) :
    s'.db.log.OnDisk ∧
      (∀ as₁ n r as₂, as = as₁ ++ .write n r :: as₂ → .rename true ∉ as₂ →
        ∃ o, logRead F s'.db.log.bytes o = some (recordBytes r.1)) ∧
      ∀ fs, CleanDb F db fs →
        liveMap F s'.db.log.bytes (recoveryRun F s'.db.log.bytes none).hash =
          ((as.flatMap Act.frames).map Prod.snd).foldl applyPayload
            (payloadMap (fs.map Prod.snd)) := by
  have htorn := isTorn_of_along has hrun
  obtain ⟨-, hall⟩ := allSynced_of_run hdb hrun has
  cases EngineStep.of_eq hflush with
  | @flush sdb phase _ free =>
    have hdisk := AllSynced.onDisk_flush
      ⟨fun _ => hall.since hwrote, fun _ => hall.closed hwrote, hall.locked⟩ free hok
    refine ⟨hdisk, ?_, ?_⟩
    · rintro as₁ n r as₂ rfl hnot
      rw [run_append] at hrun
      obtain ⟨t, -, hrun⟩ := bind_eq_some_iff.1 hrun
      obtain ⟨u, hwrite, hrun⟩ := run_cons_eq_some.1 hrun
      obtain ⟨c, hc⟩ := bytes_of_run hrun hnot
      cases EngineStep.of_eq hwrite with
      | @write tdb db' _ _ _ _ app =>
        obtain ⟨-, hlen, -, hbytes, -⟩ := lookup_appendAndHash app
        refine ⟨tdb.log.bytes.length, ?_⟩
        rw [bytes_logFsyncIfBatched, ← show _ = sdb.log.bytes from hc,
          show db'.log.bytes = _ from hbytes, append_assoc]
        exact logRead_at hlen
    · intro fs hclean
      obtain ⟨gs, hgs, hmap, -⟩ := (hclean.cleanAt rfl).run hrun htorn
      rw [← hmap, ← hgs.recovered]
      simp

/-- A write, a compaction whose rename fails, and another write. -/
def failedRename : List (Act plainFraming) :=
  [.write () (.bare 1 false), .snapshot true, .copy () true, .lock, .fsyncNew true, .close true,
    .rename false, .reopen true, .write () (.bare 2 false)]

set_option maxRecDepth 20000 in
theorem failedRename_onDisk_of_flush :
    ∃ s s', run (engineStep plainFraming (configEffectiveFsyncBatch .sync 1)) ⟨emptyDb, .idle⟩
        failedRename = some s ∧
      engineStep plainFraming (configEffectiveFsyncBatch .sync 1) s (.flush true) = some s' ∧
      s'.db.log.OnDisk := by
  have hsome : ((run (engineStep plainFraming (configEffectiveFsyncBatch .sync 1)) ⟨emptyDb, .idle⟩
      failedRename).bind fun s =>
        if (s.db.log.logFsyncIfBatched (configEffectiveFsyncBatch .sync 1) true).2 = true then
          engineStep plainFraming (configEffectiveFsyncBatch .sync 1) s (.flush true)
        else none).isSome = true := by
    decide +kernel
  obtain ⟨s', h⟩ := isSome_iff_exists.1 hsome
  obtain ⟨s, hs, h⟩ := bind_eq_some_iff.1 h
  obtain ⟨hok, hs'⟩ := ite_none_right_eq_some.1 h
  exact ⟨s, s', hs, hs', (onDisk_of_flush rfl hs (by decide +kernel)
    (by simp [failedRename, Act.frames]) hs' hok).1⟩

/-- A flush behind some steps under `--durability sync`: what it returns, and the log then. -/
def flushAfter (as : List (Act plainFraming)) (ok : Bool) : Option (Bool × LogFile) :=
  (run (engineStep plainFraming (configEffectiveFsyncBatch .sync 1)) ⟨emptyDb, .idle⟩ as).bind
    fun s => (engineStep plainFraming (configEffectiveFsyncBatch .sync 1) s (.flush ok)).map
      fun s' => ((s.db.log.logFsyncIfBatched (configEffectiveFsyncBatch .sync 1) ok).2, s'.db.log)

/-- A record is written and deleted; before the delete is flushed, a compaction drops both frames. -/
def compactedTombstone : List (Act plainFraming) :=
  [.write () (.bare 1 false), .flush true, .write () (.bare 1 true), .snapshot true, .lock,
    .fsyncNew true, .close true, .rename true, .reopen true]

/-- A record is written; before the flush, a compaction closes the log with a failing fsync, its
rename fails, and it opens the log again. -/
def closedUnsynced : List (Act plainFraming) :=
  [.write () (.bare 1 false), .snapshot true, .copy () true, .lock, .fsyncNew true, .close false,
    .rename false, .reopen true]

set_option maxRecDepth 20000 in
/-- Both flushes succeed. Behind the first the log is empty, without the tombstone; behind the
second, whose fsync would have failed, nothing of it is on disk. -/
theorem flushAfter_without_frame :
    flushAfter compactedTombstone true = some (true, ⟨[], [], 0, 0, true⟩) ∧
      (flushAfter closedUnsynced false).map (fun x => (x.1, x.2.synced, x.2.bytes)) =
        some (true, 0, plainFraming.frame () (recordBytes (WireRecord.bare 1 false).1)) := by
  decide +kernel

end AegisDB
