import AegisDB.Storage.Compaction

/-!
# The engine on a clean log

As long as no append fails half way, the log of a running engine is a list of intact frames, and the
hash index is their replay. A writer adds its frame; a compaction replaces the frames by others with
the same live payloads, and every other step leaves them alone (`CleanAt.step`). So whatever the
interleaving was, the live payloads of the log are those of all writes in their order (`CleanAt.run`).
-/

namespace AegisDB

open Bytes List LogFile
open Prod (fst snd)

variable {F : Framing}

/-- The hash index belongs to the log; it does not from the rename on until it is rebuilt. -/
def Phase.indexed : Phase → Bool
  | .renamed _ | .returned .broken => false
  | _ => true

def Act.frames : Act F → List (F.Nonce × Bytes)
  | .write n r => [(n, recordBytes r.1)]
  | _ => []

/-- The step is an append that fails half way. -/
def Act.isTorn : Act F → Bool
  | .writeFail _ => true
  | _ => false

@[simp] theorem LogFile.junk_logFsync (l : LogFile) (ok : Bool) :
    (l.logFsync ok).1.junk = l.junk := by
  unfold logFsync
  split <;> (try split) <;> rfl

@[simp] theorem LogFile.junk_logFsyncIfBatched (batch : ℕ) (l : LogFile) (ok : Bool) :
    (l.logFsyncIfBatched batch ok).1.junk = l.junk := by
  unfold logFsyncIfBatched
  split <;> simp

theorem junk_of_step {batch : ℕ} {s s' : Engine} {a : Act F} (h : EngineStep F batch s a s')
    (hjunk : s.db.log.junk = []) (htorn : a.isTorn = false) : s'.db.log.junk = [] := by
  cases h with
  | @write db db' _ n r _ app =>
    obtain ⟨-, -, rfl⟩ := appendAndHash_eq_some.1 app
    show db.log.junk.drop (F.overhead + (recordBytes r.1).length) = []
    rw [show db.log.junk = [] from hjunk, drop_nil]
  | writeFail => cases htorn
  | flush | sync => simpa using hjunk
  | rename | restore | rebuild => rfl
  | _ => exact hjunk

/-- The log holds the frames `fs`, and the hash index is their replay. -/
structure CleanAt (F : Framing) (s : Engine) (fs : List (F.Nonce × Bytes)) : Prop where
  inv : CompactionInv F s
  appendable : Appendable fs
  bytes : s.db.log.bytes = framesBytes F fs
  junk : s.db.log.junk = []
  lookup : s.phase.indexed = true → s.db.hash.lookup = replay (placed F 0 (fs.map snd))
  holds : ∀ new, s.phase = .renamed new → new.Holds F fs
  closed : s.phase.indexed = false → s.db.log.isOpen = false

variable {fs : List (F.Nonce × Bytes)}

theorem CleanAt.keep {s s' : Engine} (hs : CleanAt F s fs) (inv : CompactionInv F s')
    (junk : s'.db.log.junk = []) (hbytes : s'.db.log.bytes = s.db.log.bytes)
    (hhash : s'.db.hash = s.db.hash) (hclosed : s'.phase.indexed = false → s'.db.log.isOpen = false)
    (hindexed : s'.phase.indexed = true → s.phase.indexed = true)
    (hren : ∀ new, s'.phase = .renamed new → s.phase = .renamed new) : CleanAt F s' fs where
  inv := inv
  appendable := hs.appendable
  bytes := hbytes.trans hs.bytes
  junk := junk
  lookup h := by
    rw [hhash]
    exact hs.lookup (hindexed h)
  holds new h := hs.holds new (hren new h)
  closed := hclosed

/-- A compaction replaces the frames by others with the same live payloads. -/
theorem CleanAt.rename {db : Db} {new : Scratch} (hs : CleanAt F ⟨db, .oldClosed new⟩ fs) :
    ∃ gs, CleanAt F ⟨{ db with log := ⟨new.log, [], new.log.length, 0, false⟩ }, .renamed new⟩ gs ∧
      payloadMap (gs.map snd) = payloadMap (fs.map snd) ∧ idsOf gs ⊆ idsOf fs := by
  cases hs.inv with
  | inProgress sound live progress =>
    obtain ⟨-, gs, holds, hlive, hids⟩ := progress.complete live
    refine ⟨gs, ⟨.renamed holds (by simp [file]), holds.appendable, holds.log, rfl, ?_, ?_,
      fun _ => rfl⟩, ?_, ?_⟩
    · intro h
      cases h
    · intro new' h
      cases h
      exact holds
    · have hbytes : db.log.bytes = framesBytes F fs := hs.bytes
      rw [hlive, hbytes, (liveMap_framesBytes hs.appendable (hs.lookup rfl)).2]
    · intro id hid
      refine mem_idsOf_of_replay ?_
      rw [← hs.lookup rfl]
      exact hids id hid

theorem CleanAt.step {batch : ℕ} {s s' : Engine} {a : Act F} (hs : CleanAt F s fs)
    (h : EngineStep F batch s a s') (ha : a.isTorn = false) :
    ∃ gs, CleanAt F s' gs ∧
      payloadMap (gs.map snd) = (a.frames.map snd).foldl applyPayload (payloadMap (fs.map snd)) ∧
      idsOf gs ⊆ idsOf (fs ++ a.frames) ∧ (a ≠ .rename true → gs = fs ++ a.frames) := by
  have inv := hs.inv.step h
  have junk := junk_of_step h hs.junk ha
  have hkeep (hframes : a.frames = []) (hs' : CleanAt F s' fs) : ∃ gs, CleanAt F s' gs ∧
      payloadMap (gs.map snd) = (a.frames.map snd).foldl applyPayload (payloadMap (fs.map snd)) ∧
      idsOf gs ⊆ idsOf (fs ++ a.frames) ∧ (a ≠ .rename true → gs = fs ++ a.frames) := by
    rw [hframes, append_nil]
    exact ⟨fs, hs', rfl, subset_rfl, fun _ => rfl⟩
  cases h with
  | @write db db' phase n r free app =>
    obtain ⟨hopen, hlen, -, hbytes, hlookup⟩ := lookup_appendAndHash app
    refine ⟨fs ++ [(n, recordBytes r.1)], ⟨inv, ?_, ?_, junk, fun hind => ?_, fun new hnew => ?_,
      fun hind => ?_⟩, ?_, subset_rfl, fun _ => rfl⟩
    · exact hs.appendable.concat hlen
    · rw [show db'.log.bytes = _ from hbytes, show db.log.bytes = _ from hs.bytes,
        framesBytes_concat]
    · rw [show db'.hash.lookup = _ from hlookup, show db.hash.lookup = _ from hs.lookup hind,
        show db.log.bytes = _ from hs.bytes, length_framesBytes, map_append, placed_append,
        Nat.zero_add, replay_append]
      rfl
    · cases hnew
      cases free
    · have hclosed : db.log.isOpen = false := hs.closed hind
      cases hclosed.symm.trans hopen
    · rw [map_append, payloadMap_append]
      rfl
  | writeFail => cases ha
  | flush | sync =>
    exact hkeep rfl (hs.keep inv junk (by simp) rfl (by simpa using hs.closed) id fun _ => id)
  | rename =>
    obtain ⟨gs, hgs, hmap, hids⟩ := hs.rename
    exact ⟨gs, hgs, hmap, by simpa [Act.frames] using hids, fun h => absurd rfl h⟩
  | @restore db =>
    have hfile : db.log.file = db.log.bytes := by
      rw [file, show db.log.junk = [] from hs.junk, append_nil]
    exact hkeep rfl (hs.keep inv junk hfile rfl (by simp [Phase.indexed]) (fun _ => rfl) (by simp))
  | @rebuild db new =>
    have hfile : db.log.file = db.log.bytes := by
      rw [file, show db.log.junk = [] from hs.junk, append_nil]
    refine hkeep rfl ⟨inv, hs.appendable, hfile.trans hs.bytes, rfl, fun _ => ?_, by simp,
      by simp [Phase.indexed]⟩
    exact (hs.holds new rfl).lookup
  | reopenFail =>
    exact hkeep rfl (hs.keep inv junk rfl rfl (fun _ => hs.closed rfl) (by simp [Phase.indexed])
      (by simp))
  | _ =>
    exact hkeep rfl (hs.keep inv junk rfl rfl (by simp [Phase.indexed]) (fun _ => rfl) (by simp))

theorem CleanAt.run {batch : ℕ} {s s' : Engine} {as : List (Act F)} (hs : CleanAt F s fs)
    (h : run (engineStep F batch) s as = some s') (has : ∀ a ∈ as, a.isTorn = false) :
    ∃ gs, CleanAt F s' gs ∧
      payloadMap (gs.map snd) =
        ((as.flatMap Act.frames).map snd).foldl applyPayload (payloadMap (fs.map snd)) ∧
      (.rename true ∉ as → gs = fs ++ as.flatMap Act.frames) := by
  induction as generalizing s fs with
  | nil =>
    cases h
    exact ⟨fs, hs, rfl, fun _ => (append_nil fs).symm⟩
  | cons a as ih =>
    obtain ⟨t, hstep, hrun⟩ := run_cons_eq_some.1 h
    obtain ⟨gs, hgs, hmap, -, heq⟩ := hs.step (.of_eq hstep) (has a (mem_cons_self ..))
    obtain ⟨gs', hgs', hmap', heq'⟩ := ih hgs hrun fun b hb => has b (mem_cons_of_mem _ hb)
    refine ⟨gs', hgs', ?_, fun hnot => ?_⟩
    · rw [hmap', hmap, flatMap_cons, map_append, foldl_append]
    · rw [mem_cons, not_or] at hnot
      rw [heq' hnot.2, heq (Ne.symm hnot.1), flatMap_cons, append_assoc]

theorem CleanAt.recovered {s : Engine} (hs : CleanAt F s fs) :
    liveMap F s.db.log.bytes (recoveryRun F s.db.log.bytes none).hash =
      payloadMap (fs.map snd) := by
  rw [hs.bytes]
  exact (liveMap_framesBytes hs.appendable (recoveryRun_whole hs.appendable).2).2

/-! ## Clean databases -/

/-- A database as recovery leaves it: the log is open, and the hash index is the replay of its
frames. -/
structure CleanDb (F : Framing) (db : Db) (fs : List (F.Nonce × Bytes)) : Prop where
  appendable : Appendable fs
  bytes : db.log.bytes = framesBytes F fs
  junk : db.log.junk = []
  lookup : db.hash.lookup = replay (placed F 0 (fs.map snd))

theorem CleanDb.sound {db : Db} (h : CleanDb F db fs) : Sound F db.log.bytes db.hash.lookup := by
  have hnil : Sound F [] fun _ => none := by
    intro id e hid
    cases hid
  have := hnil.frames h.appendable
  rwa [nil_append, ← h.bytes, length_nil, ← replay, ← h.lookup] at this

theorem emptyDb_clean : CleanDb F emptyDb [] :=
  ⟨by simp [Appendable], rfl, rfl, lookup_hashIndexCreate_eq⟩

/-- The compaction is neither running nor has it left the index without its log. -/
def Phase.resting : Phase → Bool
  | .idle | .returned .done | .returned .failed => true
  | _ => false

theorem Phase.indexed_of_resting {phase : Phase} (h : phase.resting = true) :
    phase.indexed = true := by
  cases phase with
  | renamed => cases h
  | returned outcome => cases outcome <;> first | rfl | cases h
  | _ => rfl

theorem CleanDb.cleanAt {db : Db} (h : CleanDb F db fs) {phase : Phase}
    (hphase : phase.resting = true) : CleanAt F ⟨db, phase⟩ fs := by
  have hinv : CompactionInv F ⟨db, phase⟩ := by
    cases phase with
    | idle => exact .idle h.sound
    | returned => exact .returned fun _ => h.sound
    | _ => cases hphase
  refine ⟨hinv, h.appendable, h.bytes, h.junk, fun _ => h.lookup, fun new hnew => ?_, fun hind => ?_⟩
  · rw [show phase = .renamed new from hnew] at hphase
    cases hphase
  · cases hind.symm.trans (Phase.indexed_of_resting hphase)

theorem CleanAt.cleanDb {s : Engine} (h : CleanAt F s fs) (hphase : s.phase.indexed = true) :
    CleanDb F s.db fs :=
  ⟨h.appendable, h.bytes, h.junk, h.lookup hphase⟩

theorem CleanDb.append {db db' : Db} (h : CleanDb F db fs) {n : F.Nonce} {p : Bytes}
    (hlen : p.length ≤ maxPayload) (hbytes : db'.log.bytes = db.log.bytes ++ F.frame n p)
    (hjunk : db'.log.junk = [])
    (hlookup : db'.hash.lookup = applyFrame db.hash.lookup (db.log.bytes.length, p)) :
    CleanDb F db' (fs ++ [(n, p)]) where
  appendable := h.appendable.concat hlen
  bytes := by rw [hbytes, h.bytes, framesBytes_concat]
  junk := hjunk
  lookup := by
    rw [hlookup, h.lookup, h.bytes, length_framesBytes, map_append, placed_append,
      Nat.zero_add, replay_append]
    rfl

/-! ## Reads and crashes -/

/-- What a reader finds through the index. -/
def Engine.live (F : Framing) (s : Engine) : UInt64 → Option Bytes :=
  liveMap F s.db.log.bytes s.db.hash

theorem CleanAt.live_eq {s : Engine} (hs : CleanAt F s fs) (hind : s.phase.indexed = true) :
    s.live F = payloadMap (fs.map snd) := by
  rw [Engine.live, hs.bytes]
  exact (liveMap_framesBytes hs.appendable (hs.lookup hind)).2

end AegisDB
