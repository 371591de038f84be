import AegisDB.Foundations.Machine
import AegisDB.Storage.Recovery

/-!
# The storage engine

Writers and a compaction on one log and one hash index. A writer appends its frame and puts its
entry under the index lock (`appendAndHash`), and fsyncs behind it (`logFsyncIfBatched`). A
compaction runs through its phases next to the writers: it snapshots the live entries, copies their
frames without a lock, takes the index lock, drains what was appended meanwhile, fsyncs the new log,
swaps it in, and rebuilds the hash index.

`engineStep` is one step of either, with every failure of a read, an append, an fsync, a rename or an
open as a flag of the action; it is `none` while a lock keeps the step from running. `EngineStep`
lists what a step can do.
-/

namespace AegisDB

open Bytes Option

/-! ## The open log -/

/-- `LogFile` with the file it is open on. -/
structure LogFile where
  bytes : Bytes
  /-- What failed appends have left in the file behind `size`. -/
  junk : Bytes
  /-- How many of the bytes are known to be on disk. -/
  synced : ℕ
  sinceFsync : ℕ
  isOpen : Bool
  deriving DecidableEq

namespace LogFile

def file (l : LogFile) : Bytes := l.bytes ++ l.junk

/-- `size`, which a failed `log_open` leaves at zero. -/
def size (l : LogFile) : ℕ := if l.isOpen then l.bytes.length else 0

/-- `log_read` through the descriptor. -/
def read (F : Framing) (l : LogFile) (off : ℕ) : Option Bytes :=
  if l.isOpen then logRead F l.bytes off else none

/-- `log_append` through the descriptor: what it writes takes the place of the junk. -/
def append (F : Framing) (l : LogFile) (n : F.Nonce) (p : Bytes) : Option LogFile :=
  if l.isOpen then
    (logAppend F l.bytes n p).map fun b =>
      { l with
        bytes := b
        junk := l.junk.drop (F.overhead + p.length)
        sinceFsync := l.sinceFsync + 1 }
  else none

/-- A `log_append` that fails when it has written `w`. -/
def failAppend (l : LogFile) (w : Bytes) : LogFile := { l with junk := w ++ l.junk.drop w.length }

/-- `log_fsync`, with the outcome of the system call. -/
def logFsync (l : LogFile) (ok : Bool) : LogFile × Bool :=
  if l.isOpen then
    if ok then ({ l with synced := l.bytes.length, sinceFsync := 0 }, true) else (l, false)
  else (l, true)

def logFsyncIfBatched (batch : ℕ) (l : LogFile) (ok : Bool) : LogFile × Bool :=
  if l.isOpen ∧ (batch = 0 ∨ batch ≤ l.sinceFsync) then l.logFsync ok else (l, true)

/-- `log_close`, with the outcome of its fsync, which the compaction does not look at. -/
def logClose (l : LogFile) (ok : Bool) : LogFile :=
  { l with
    synced := if l.isOpen && ok then l.bytes.length else l.synced
    isOpen := false }

/-- `log_open` on the file: the size is where the file ends. -/
def logOpen (l : LogFile) : LogFile :=
  { bytes := l.file, junk := [], synced := l.synced, sinceFsync := 0, isOpen := true }

end LogFile

structure Db where
  log : LogFile
  hash : HashIndex
  generation : ℕ

def appendAndHash (F : Framing) (db : Db) (n : F.Nonce) (r : MemoryRecord) : Option Db :=
  (recordEncode r).bind fun p =>
    (db.log.append F n p).map fun log =>
      { db with log, hash := hashIndexPut db.hash r.id (entryOf r db.log.bytes.length p.length) }

/-- Records as writers append them: the wire can hold them. -/
abbrev WireRecord := {r : MemoryRecord // r.WireFormed}

def WireRecord.bare (id : UInt64) (deleted : Bool) : WireRecord where
  val := { recordInit with id, deleted }
  property := {
    agent := by simp [recordInit, Fits]
    tags := by simp [recordInit]
    tag_count := by simp [recordInit]
    vec_count := by simp [recordInit, Embedding.absent]
    dim := by simp [recordInit, Embedding.absent]
    dim_iff := by simp [recordInit, Embedding.absent]
    kinds := by simp [recordInit]
    rel_count := by simp [recordInit]
    fact := .zeroed
    predicate := by simp [recordInit, Fact.zeroed, Fits]
    object := by simp [recordInit, Fact.zeroed, Fits]
    routes := .nil
    derived := by simp [recordInit]
    data := by simp [recordInit] }

/-! ## The compaction -/

/-- The log a compaction writes, with the locations of its frames. -/
structure Scratch where
  log : Bytes
  locs : List (UInt64 × HashEntry)
  deriving DecidableEq

namespace Scratch

def empty : Scratch := ⟨[], []⟩

/-- Append one frame, and push its location: `e` but for the offset and the length. -/
def push (F : Framing) (s : Scratch) (n : F.Nonce) (p : Bytes) (id : UInt64) (e : HashEntry) :
    Option Scratch :=
  (logAppend F s.log n p).map fun log =>
    ⟨log, s.locs ++ [(id, { e with offset := s.log.length, length := p.length })]⟩

end Scratch

/-- What `compaction_run_once` has returned. -/
inductive Outcome
  | done
  | failed
  | broken
  deriving DecidableEq

inductive Phase
  | idle
  /-- Copying the frames of the snapshot, without a lock. -/
  | copying (todo : List (UInt64 × HashEntry)) (snapEnd : ℕ) (new : Scratch)
  /-- Draining the tail, under the index lock from here on. -/
  | draining (tail : ℕ) (new : Scratch)
  | swapping (new : Scratch)
  | oldClosed (new : Scratch)
  | restoring
  /-- The new log has its name; it is to be opened, and the index to be rebuilt. -/
  | renamed (new : Scratch)
  /-- The hash index is rebuilt, the log lock released; the checkpoints are to be unlinked. -/
  | unlinking
  | returned (outcome : Outcome)

def Phase.indexFree : Phase → Bool
  | .idle | .copying .. | .returned _ => true
  | _ => false

def Phase.logFree : Phase → Bool
  | .oldClosed _ | .restoring | .renamed _ => false
  | _ => true

/-- The database with the state of its compaction. -/
structure Engine where
  db : Db
  phase : Phase

/-- The live entries in bucket order: the loop of `compaction_snapshot`. -/
def liveEntries (h : HashIndex) : List (UInt64 × HashEntry) := h.entries.filter fun x => !x.2.deleted

/-- One turn of the loop of `compaction_copy_live`. -/
def copyStep (F : Framing) (db : Db) (n : F.Nonce) (ok : Bool) (x : UInt64 × HashEntry)
    (new : Scratch) : Option Scratch :=
  if ok then (db.log.read F x.2.offset).bind fun p => new.push F n p x.1 { x.2 with deleted := false }
  else none

/-- One turn of the loop that drains the tail: the scratch log behind it, and the tail. -/
def drainStep (F : Framing) (db : Db) (n : F.Nonce) (ok : Bool) (tail : ℕ) (new : Scratch) :
    Option (ℕ × Scratch) :=
  if ok then
    (db.log.read F tail).bind fun p => (recordDecode p).bind fun r =>
      (new.push F n p r.id (entryOf r 0 0)).map fun new => (tail + F.overhead + p.length, new)
  else none

/-- The steps of writers and of the compaction, with the outcome of their system calls. -/
inductive Act (F : Framing)
  | write (n : F.Nonce) (r : WireRecord)
  | writeFail (w : Bytes)
  | flush (ok : Bool)
  | sync (ok : Bool)
  | snapshot (ok : Bool)
  | copy (n : F.Nonce) (ok : Bool)
  | lock
  | drain (n : F.Nonce) (ok : Bool)
  | fsyncNew (ok : Bool)
  | close (ok : Bool)
  | rename (ok : Bool)
  | reopen (ok : Bool)
  | unlink

/-- One step of the engine; `batch` is `fsync_batch`. -/
def engineStep (F : Framing) (batch : ℕ) (s : Engine) : Act F → Option Engine
  | .write n r =>
    if s.phase.indexFree then (appendAndHash F s.db n r.1).map fun db => { s with db } else none
  | .writeFail w =>
    if s.phase.indexFree && s.db.log.isOpen then
      some { s with db := { s.db with log := s.db.log.failAppend w } }
    else none
  | .flush ok =>
    if s.phase.logFree then
      some { s with db := { s.db with log := (s.db.log.logFsyncIfBatched batch ok).1 } }
    else none
  | .sync ok =>
    if s.phase.logFree then some { s with db := { s.db with log := (s.db.log.logFsync ok).1 } }
    else none
  | .snapshot ok =>
    match s.phase with
    | .idle =>
      if ok then some { s with phase := .copying (liveEntries s.db.hash) s.db.log.size .empty }
      else some { s with phase := .returned .failed }
    | _ => none
  | .copy n ok =>
    match s.phase with
    | .copying (x :: todo) snapEnd new =>
      match copyStep F s.db n ok x new with
      | some new => some { s with phase := .copying todo snapEnd new }
      | none => some { s with phase := .returned .failed }
    | _ => none
  | .lock =>
    match s.phase with
    | .copying [] snapEnd new => some { s with phase := .draining snapEnd new }
    | _ => none
  | .drain n ok =>
    match s.phase with
    | .draining tail new =>
      if tail < s.db.log.size then
        match drainStep F s.db n ok tail new with
        | some (tail, new) => some { s with phase := .draining tail new }
        | none => some { s with phase := .returned .failed }
      else none
    | _ => none
  | .fsyncNew ok =>
    match s.phase with
    | .draining tail new =>
      if tail < s.db.log.size then none
      else some { s with phase := if ok then .swapping new else .returned .failed }
    | _ => none
  | .close ok =>
    match s.phase with
    | .swapping new =>
      some ⟨{ s.db with log := s.db.log.logClose ok }, .oldClosed new⟩
    | _ => none
  | .rename ok =>
    match s.phase with
    | .oldClosed new =>
      if ok then
        -- `memory.log` is the new file now, all of it on disk
        some ⟨{ s.db with log := ⟨new.log, [], new.log.length, 0, false⟩ }, .renamed new⟩
      else some { s with phase := .restoring }
    | _ => none
  | .reopen ok =>
    match s.phase with
    | .restoring =>
      some ⟨if ok then { s.db with log := s.db.log.logOpen } else s.db, .returned .failed⟩
    | .renamed new =>
      if ok then
        some ⟨⟨s.db.log.logOpen, hashIndexLoad hashIndexCreate new.locs, s.db.generation + 1⟩,
          .unlinking⟩
      else some { s with phase := .returned .broken }
    | _ => none
  | .unlink =>
    match s.phase with
    | .unlinking => some { s with phase := .returned .done }
    | _ => none

/-- The steps of the engine, one constructor for each way they end. -/
inductive EngineStep (F : Framing) (batch : ℕ) : Engine → Act F → Engine → Prop
  | write {db db' phase n r} (free : phase.indexFree = true)
    (app : appendAndHash F db n r.1 = some db') :
    EngineStep F batch ⟨db, phase⟩ (.write n r) ⟨db', phase⟩
  | writeFail {db phase w} (free : phase.indexFree = true) (isOpen : db.log.isOpen = true) :
    EngineStep F batch ⟨db, phase⟩ (.writeFail w) ⟨{ db with log := db.log.failAppend w }, phase⟩
  | flush {db phase ok} (free : phase.logFree = true) :
    EngineStep F batch ⟨db, phase⟩ (.flush ok)
      ⟨{ db with log := (db.log.logFsyncIfBatched batch ok).1 }, phase⟩
  | sync {db phase ok} (free : phase.logFree = true) :
    EngineStep F batch ⟨db, phase⟩ (.sync ok) ⟨{ db with log := (db.log.logFsync ok).1 }, phase⟩
  | snapshot {db} :
    EngineStep F batch ⟨db, .idle⟩ (.snapshot true)
      ⟨db, .copying (liveEntries db.hash) db.log.size .empty⟩
  | snapshotFail {db} :
    EngineStep F batch ⟨db, .idle⟩ (.snapshot false) ⟨db, .returned .failed⟩
  | copy {db n ok x todo snapEnd new new'} (copied : copyStep F db n ok x new = some new') :
    EngineStep F batch ⟨db, .copying (x :: todo) snapEnd new⟩ (.copy n ok)
      ⟨db, .copying todo snapEnd new'⟩
  | copyFail {db n ok x todo snapEnd new} (copied : copyStep F db n ok x new = none) :
    EngineStep F batch ⟨db, .copying (x :: todo) snapEnd new⟩ (.copy n ok) ⟨db, .returned .failed⟩
  | lock {db snapEnd new} :
    EngineStep F batch ⟨db, .copying [] snapEnd new⟩ .lock ⟨db, .draining snapEnd new⟩
  | drain {db n ok tail tail' new new'} (lt : tail < db.log.size)
    (drained : drainStep F db n ok tail new = some (tail', new')) :
    EngineStep F batch ⟨db, .draining tail new⟩ (.drain n ok) ⟨db, .draining tail' new'⟩
  | drainFail {db n ok tail new} (lt : tail < db.log.size)
    (drained : drainStep F db n ok tail new = none) :
    EngineStep F batch ⟨db, .draining tail new⟩ (.drain n ok) ⟨db, .returned .failed⟩
  | fsyncNew {db tail new} (ge : db.log.size ≤ tail) :
    EngineStep F batch ⟨db, .draining tail new⟩ (.fsyncNew true) ⟨db, .swapping new⟩
  | fsyncNewFail {db tail new} (ge : db.log.size ≤ tail) :
    EngineStep F batch ⟨db, .draining tail new⟩ (.fsyncNew false) ⟨db, .returned .failed⟩
  | close {db ok new} :
    EngineStep F batch ⟨db, .swapping new⟩ (.close ok)
      ⟨{ db with log := db.log.logClose ok }, .oldClosed new⟩
  | rename {db new} :
    EngineStep F batch ⟨db, .oldClosed new⟩ (.rename true)
      ⟨{ db with log := ⟨new.log, [], new.log.length, 0, false⟩ }, .renamed new⟩
  | renameFail {db new} :
    EngineStep F batch ⟨db, .oldClosed new⟩ (.rename false) ⟨db, .restoring⟩
  | restore {db} :
    EngineStep F batch ⟨db, .restoring⟩ (.reopen true)
      ⟨{ db with log := db.log.logOpen }, .returned .failed⟩
  | restoreFail {db} :
    EngineStep F batch ⟨db, .restoring⟩ (.reopen false) ⟨db, .returned .failed⟩
  | rebuild {db new} :
    EngineStep F batch ⟨db, .renamed new⟩ (.reopen true)
      ⟨⟨db.log.logOpen, hashIndexLoad hashIndexCreate new.locs, db.generation + 1⟩, .unlinking⟩
  | reopenFail {db new} :
    EngineStep F batch ⟨db, .renamed new⟩ (.reopen false) ⟨db, .returned .broken⟩
  | unlink {db} :
    EngineStep F batch ⟨db, .unlinking⟩ .unlink ⟨db, .returned .done⟩

theorem EngineStep.of_eq {F : Framing} {batch : ℕ} {s s' : Engine} {a : Act F}
    (h : engineStep F batch s a = some s') : EngineStep F batch s a s' := by
  obtain ⟨db, phase⟩ := s
  cases a with
  | write n r =>
    simp only [engineStep, ite_none_right_eq_some, map_eq_some_iff] at h
    obtain ⟨free, db', app, rfl⟩ := h
    exact .write free app
  | writeFail w =>
    simp only [engineStep, ite_none_right_eq_some, Bool.and_eq_true, Option.some.injEq] at h
    obtain ⟨⟨free, isOpen⟩, rfl⟩ := h
    exact .writeFail free isOpen
  | flush ok =>
    simp only [engineStep, ite_none_right_eq_some, Option.some.injEq] at h
    obtain ⟨free, rfl⟩ := h
    exact .flush free
  | sync ok =>
    simp only [engineStep, ite_none_right_eq_some, Option.some.injEq] at h
    obtain ⟨free, rfl⟩ := h
    exact .sync free
  | snapshot ok =>
    cases phase <;> simp only [engineStep, reduceCtorEq] at h
    cases ok <;> cases h
    · exact .snapshotFail
    · exact .snapshot
  | copy n ok =>
    cases phase <;> simp only [engineStep, reduceCtorEq] at h
    split at h <;> try cases h
    rename_i heq
    cases heq
    split at h <;> cases h
    · exact .copy ‹_›
    · exact .copyFail ‹_›
  | lock =>
    cases phase <;> simp only [engineStep, reduceCtorEq] at h
    split at h <;> cases h
    rename_i heq
    cases heq
    exact .lock
  | drain n ok =>
    cases phase <;> simp only [engineStep, reduceCtorEq, ite_none_right_eq_some] at h
    obtain ⟨lt, h⟩ := h
    split at h <;> cases h
    · exact .drain lt ‹_›
    · exact .drainFail lt ‹_›
  | fsyncNew ok =>
    cases phase <;> simp only [engineStep, reduceCtorEq, ite_none_left_eq_some] at h
    obtain ⟨ge, h⟩ := h
    cases ok <;> cases h
    · exact .fsyncNewFail (not_lt.1 ge)
    · exact .fsyncNew (not_lt.1 ge)
  | close ok =>
    cases phase <;> simp only [engineStep, reduceCtorEq] at h
    cases h
    exact .close
  | rename ok =>
    cases phase <;> simp only [engineStep, reduceCtorEq] at h
    cases ok <;> cases h
    · exact .renameFail
    · exact .rename
  | reopen ok =>
    cases phase <;> simp only [engineStep, reduceCtorEq] at h
    · cases ok <;> cases h
      · exact .restoreFail
      · exact .restore
    · cases ok <;> cases h
      · exact .reopenFail
      · exact .rebuild
  | unlink =>
    cases phase <;> simp only [engineStep, reduceCtorEq] at h
    cases h
    exact .unlink

section

variable {F : Framing} {db db' : Db} {n : F.Nonce}

theorem appendAndHash_eq_some {r : WireRecord} :
    appendAndHash F db n r.1 = some db' ↔ db.log.isOpen = true ∧
      (recordBytes r.1).length ≤ maxPayload ∧
      db' =
        { db with
          log :=
            { db.log with
              bytes := db.log.bytes ++ F.frame n (recordBytes r.1)
              junk := db.log.junk.drop (F.overhead + (recordBytes r.1).length)
              sinceFsync := db.log.sinceFsync + 1 }
          hash := hashIndexPut db.hash r.1.id
            (entryOf r.1 db.log.bytes.length (recordBytes r.1).length) } := by
  simp only [appendAndHash, recordEncode_of_wireFormed r.2, bind_some, LogFile.append, logAppend]
  by_cases hopen : db.log.isOpen = true <;>
    by_cases hlen : (recordBytes r.1).length ≤ maxPayload <;> simp [hopen, hlen, eq_comm]

theorem LogFile.read_eq_some {l : LogFile} {off : ℕ} {p : Bytes} :
    l.read F off = some p ↔ l.isOpen = true ∧ logRead F l.bytes off = some p := by
  simp [LogFile.read]

theorem Scratch.push_eq_some {s s' : Scratch} {p : Bytes} {id : UInt64} {e : HashEntry} :
    s.push F n p id e = some s' ↔ p.length ≤ maxPayload ∧ s' = ⟨s.log ++ F.frame n p,
        s.locs ++ [(id, { e with offset := s.log.length, length := p.length })]⟩ := by
  by_cases hlen : p.length ≤ maxPayload <;> simp [Scratch.push, logAppend, hlen, eq_comm]

theorem drainStep_eq_some {tail tail' : ℕ} {new new' : Scratch} {ok : Bool} :
    drainStep F db n ok tail new = some (tail', new') ↔ ok = true ∧
      ∃ p, db.log.read F tail = some p ∧ ∃ r, recordDecode p = some r ∧ p.length ≤ maxPayload ∧
        tail' = tail + F.overhead + p.length ∧
        new' = ⟨new.log ++ F.frame n p,
          new.locs ++ [(r.id, entryOf r new.log.length p.length)]⟩ := by
  simp only [drainStep, ite_none_right_eq_some, bind_eq_some_iff,
    map_eq_some_iff, Scratch.push_eq_some, Prod.mk.injEq]
  constructor
  · rintro ⟨hok, p, hp, r, hr, s, ⟨hlen, rfl⟩, rfl, rfl⟩
    exact ⟨hok, p, hp, r, hr, hlen, rfl, rfl⟩
  · rintro ⟨hok, p, hp, r, hr, hlen, rfl, rfl⟩
    exact ⟨hok, p, hp, r, hr, _, ⟨hlen, rfl⟩, rfl, rfl⟩

end

end AegisDB
