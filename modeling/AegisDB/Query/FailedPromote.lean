import AegisDB.Query.Faults
import AegisDB.Query.WorkingRings

/-!
# Promotions that fail

`qe_promote` takes the record out of the working memory and then inserts it as a persisted one. When
the insert is refused, nothing puts the record back: it is in neither store.
`failed_promote_kept_iff` says when an error leaves the working memory as it was: exactly if the
insert meets every condition of `qe_insert` (`Accepts`), whenever there is a record to take.
-/

namespace AegisDB

open Bytes Database

variable {F : Framing} {cfg : DbConfig} {env : Sample} {io : Option ℕ}
variable {s : UsageDb F}

/-! ## What an insert requires -/

/-- The fsync behind an append is not due, or succeeds. -/
def Flushes (cfg : DbConfig) (env : Sample) (l : LogFile) : Prop :=
  cfg.fsyncBatch = 0 ∨ cfg.fsyncBatch ≤ l.sinceFsync + 1 → env.fsyncOk = true

variable {r : MemoryRecord}

theorem sinceFsync_appendAndHashIo {db db' : Database F}
    (h : db.appendAndHashIo cfg env io r = (db', .ok ())) :
    db'.store.log.isOpen = true ∧ db'.store.log.sinceFsync = db.store.log.sinceFsync + 1 := by
  have happends : db.Takes cfg env io r := appendAndHashIo_ok_iff.1 (by rw [h])
  obtain ⟨p, hp, hlen, -⟩ := happends.encoded
  obtain rfl := happends.written
  rw [appendAndHashIo_none] at h
  cases hdb : db.appendAndHash cfg env r with
  | error st =>
    rw [hdb] at h
    cases h
  | ok db'' =>
    rw [hdb] at h
    cases h
    obtain ⟨hstore, -⟩ := of_appendAndHash hdb
    rw [AegisDB.appendAndHash, hp, Option.bind_some, LogFile.append, if_pos happends.isOpen,
      logAppend, if_pos hlen] at hstore
    rw [← Option.some.inj hstore]
    exact ⟨happends.isOpen, rfl⟩

theorem durablyFlush_snd {db : Database F} (hopen : db.store.log.isOpen = true) {n : ℕ}
    (hn : db.store.log.sinceFsync = n + 1) :
    (db.durablyFlush cfg env).2 = true ↔
      (cfg.fsyncBatch = 0 ∨ cfg.fsyncBatch ≤ n + 1 → env.fsyncOk = true) := by
  unfold durablyFlush LogFile.logFsyncIfBatched LogFile.logFsync
  rw [hn]
  simp only [hopen, true_and, if_true]
  by_cases hdue : cfg.fsyncBatch = 0 ∨ cfg.fsyncBatch ≤ n + 1
  · simp only [hdue, if_true, true_imp_iff]
    cases env.fsyncOk <;> simp
  · simp [hdue]

theorem commit_ok_iff {α : Type} {index : Indexes → Indexes}
    {track : UsageIndex → UsageIndex} {reply : α} :
    (∃ out, (s.commit cfg env io r index track reply).2 = .ok out) ↔
      s.Takes cfg env io r ∧ Flushes cfg env s.store.log := by
  unfold UsageDb.commit
  rcases happ : s.appendAndHashIo cfg env io r with ⟨db, st | _⟩
  · refine ⟨fun ⟨_, h⟩ => (by cases h), fun h => ?_⟩
    have hok := appendAndHashIo_ok_iff.2 h.1
    rw [happ] at hok
    cases hok
  · have hok : s.Takes cfg env io r := appendAndHashIo_ok_iff.1 (by rw [happ])
    obtain ⟨hopen, hsince⟩ := sinceFsync_appendAndHashIo happ
    have hflush : ({ db with ix := index db.ix }.durablyFlush cfg env).2 = true ↔
      Flushes cfg env s.store.log := durablyFlush_snd hopen hsince
    dsimp only
    rw [← hflush]
    cases ({ db with ix := index db.ix }.durablyFlush cfg env).2 <;> simp [hok]

/-- What `qe_insert` requires of a persisted record, of the configuration and of the state. -/
structure Accepts (cfg : DbConfig) (env : Sample) (io : Option ℕ) (s : UsageDb F)
    (r : MemoryRecord) : Prop where
  valid : validateCommon cfg r = .ok ()
  data : r.data ≠ []
  declared : r.fact.kind ≠ .none → ∀ registry ∈ cfg.predicates,
    predicateRegistryCheck registry r.fact = true
  phase : cfg.phase (if r.type = .episodic then 1 else 2) = true
  memory : env.memoryFull = false
  appends : ∃ copy, recordClone r = some copy ∧
    s.Takes cfg env io (stampRecord copy s.nextId env.now 0)
  flushes : Flushes cfg env s.store.log

theorem appends_nextId {db : Database F} {n : UInt64} :
    { db with nextId := n }.Takes cfg env io r ↔ db.Takes cfg env io r :=
  ⟨fun h => ⟨h.encoded, h.isOpen, h.written⟩, fun h => ⟨h.encoded, h.isOpen, h.written⟩⟩

theorem insertPersistedIo_ok_iff :
    (∃ out, (insertPersistedIo cfg env io s r 0).2 = .ok out) ↔
      (∃ copy, recordClone r = some copy ∧
        s.Takes cfg env io (stampRecord copy s.nextId env.now 0)) ∧
      Flushes cfg env s.store.log := by
  unfold insertPersistedIo
  cases recordClone r with
  | none => simp
  | some copy =>
    rw [commit_ok_iff]
    simp only [Option.some.injEq, exists_eq_left']
    rw [appends_nextId]

theorem insertRefusal_eq_none : insertRefusal cfg env r = none ↔
    validateCommon cfg r = .ok () ∧ r.data ≠ [] ∧
      (r.fact.kind ≠ .none → ∀ registry ∈ cfg.predicates,
        predicateRegistryCheck registry r.fact = true) ∧
      cfg.phase (if r.type = .episodic then 1 else 2) = true ∧ env.memoryFull = false := by
  unfold insertRefusal
  cases validateCommon cfg r with
  | error st => simp
  | ok _ =>
    have hdeclared : (r.fact.kind ≠ .none → ∀ registry ∈ cfg.predicates,
        predicateRegistryCheck registry r.fact = true) ↔
        ¬ (r.fact.kind ≠ .none ∧
          (cfg.predicates.any fun registry => !predicateRegistryCheck registry r.fact) = true) := by
      rw [not_and]
      refine imp_congr_right fun _ => ?_
      cases cfg.predicates <;> simp
    rw [hdeclared]
    split_ifs <;> simp_all

/-- An insert of a persisted record succeeds exactly if all its conditions are met. -/
theorem qeInsertIo_ok_iff (htype : r.type ≠ .working) {session : Option CString} :
    (∃ out, (qeInsertIo cfg env io s r session 0).2 = .ok out) ↔ Accepts cfg env io s r := by
  rw [qeInsertIo_eq s htype]
  constructor
  · intro h
    cases hrefusal : insertRefusal cfg env r with
    | some st =>
      rw [hrefusal] at h
      obtain ⟨_, h⟩ := h
      cases h
    | none =>
      rw [hrefusal] at h
      obtain ⟨hvalid, hdata, hdeclared, hphase, hmemory⟩ := insertRefusal_eq_none.1 hrefusal
      obtain ⟨happends, hflushes⟩ := insertPersistedIo_ok_iff.1 h
      exact ⟨hvalid, hdata, hdeclared, hphase, hmemory, happends, hflushes⟩
  · intro h
    have hrefusal := insertRefusal_eq_none.2 ⟨h.valid, h.data, h.declared, h.phase, h.memory⟩
    rw [hrefusal]
    exact insertPersistedIo_ok_iff.2 ⟨h.appends, h.flushes⟩

theorem validateCommon_ne_notFound (r : MemoryRecord) :
    validateCommon cfg r ≠ .error .notFound := by
  unfold validateCommon
  split_ifs <;> exact fun h => by cases h

theorem insertRefusal_ne_notFound (r : MemoryRecord) :
    insertRefusal cfg env r ≠ some .notFound := by
  unfold insertRefusal
  cases hvalid : validateCommon cfg r with
  | error st => exact fun h => validateCommon_ne_notFound r (hvalid.trans (by cases h; rfl))
  | ok _ =>
    split_ifs <;> exact fun h => by cases h

theorem commit_ne_notFound {α : Type} (s : UsageDb F) (r : MemoryRecord) (index : Indexes → Indexes)
    (track : UsageIndex → UsageIndex) (reply : α) :
    (s.commit cfg env io r index track reply).2 ≠ .error .notFound := by
  unfold UsageDb.commit
  rcases happ : s.appendAndHashIo cfg env io r with ⟨db, st | _⟩
  · rintro h
    cases h
    unfold appendAndHashIo at happ
    split at happ
    · cases happ
    · dsimp only at happ
      split at happ
      · cases happ
      · split at happ
        · cases happ
        · split at happ <;> cases happ
  · dsimp only
    split <;> exact fun h => by cases h

theorem qeInsertIo_ne_notFound (s : UsageDb F) (htype : r.type ≠ .working)
    (session : Option CString) (ttl : UInt64) :
    (qeInsertIo cfg env io s r session ttl).2 ≠ .error .notFound := by
  rw [qeInsertIo_eq s htype]
  cases hrefusal : insertRefusal cfg env r with
  | some st => exact fun h => insertRefusal_ne_notFound r (hrefusal.trans (by cases h; rfl))
  | none =>
    unfold insertPersistedIo
    cases recordClone r with
    | none => exact fun h => by cases h
    | some copy => exact commit_ne_notFound _ _ _ _ _

theorem working_commit {α : Type} (s : UsageDb F) (r : MemoryRecord) (index : Indexes → Indexes)
    (track : UsageIndex → UsageIndex) (reply : α) :
    (s.commit cfg env io r index track reply).1.working = s.working := by
  unfold UsageDb.commit
  rcases happ : s.appendAndHashIo cfg env io r with ⟨db, st | _⟩
  · exact (appendAndHashIo_error happ).working
  · have hok : s.Takes cfg env io r := appendAndHashIo_ok_iff.1 (by rw [happ])
    obtain rfl := hok.written
    rw [appendAndHashIo_none] at happ
    cases hdb : s.appendAndHash cfg env r with
    | error st =>
      rw [hdb] at happ
      cases happ
    | ok db' =>
      rw [hdb] at happ
      cases happ
      exact (of_appendAndHash hdb).2.2.1

theorem working_qeInsertIo (s : UsageDb F) (htype : r.type ≠ .working) (session : Option CString)
    (ttl : UInt64) :
    (qeInsertIo cfg env io s r session ttl).1.working = s.working := by
  rw [qeInsertIo_eq s htype]
  cases insertRefusal cfg env r with
  | some st => rfl
  | none =>
    unfold insertPersistedIo
    cases recordClone r with
    | none => rfl
    | some copy => exact working_commit { s with nextId := s.nextId + 1 } _ _ _ _

/-- What is taken was in a slot of the session, and is there no more. -/
theorem workingStoreTake_eq_some {ws ws' : WorkingStore} {sid : CString} {wid now : UInt64}
    {ns : Option CString} {w : MemoryRecord}
    (h : workingStoreTake ws sid wid now ns = (ws', some w)) :
    ∃ k : ℕ, (getSession ws sid).slots[k]? = some (some w) ∧ recordExpired w now = false ∧
      (getSession ws' sid).slots[k]? = some none := by
  rcases workingStoreTake_cases ws sid wid now ns with ⟨hnone, -⟩ | ⟨r, hr, -, hlive, -, htaken⟩
  · rw [h] at hnone
    cases hnone
  · rw [h] at hr htaken
    cases hr
    obtain ⟨k, slots, hk, hclean, hset⟩ := htaken.slot
    have hlt : k < slots.length := by
      rw [hclean.length]
      exact (List.getElem?_eq_some_iff.1 hk).1
    exact ⟨k, hk, hlive, by simp [hset, hlt]⟩

/-- The live records of the working memory are where they were, and a later promotion gets the same
reply. -/
structure KeepsWorking (now : UInt64) (s s' : UsageDb F) : Prop where
  slots : ∀ sid (k : ℕ) r, (getSession s.working sid).slots[k]? = some (some r) →
    recordExpired r now = false → (getSession s'.working sid).slots[k]? = some (some r)
  again : ∀ cfg env io session wid toType ns,
    (qePromoteIo cfg env io s' session wid toType ns).2 =
      (qePromoteIo cfg env io s session wid toType ns).2

theorem KeepsWorking.refl (now : UInt64) (s : UsageDb F) : KeepsWorking now s s :=
  ⟨fun _ _ _ h _ => h, fun _ _ _ _ _ _ _ => rfl⟩

theorem accepts_working {ws : WorkingStore} :
    Accepts cfg env io { s with working := ws } r ↔ Accepts cfg env io s r := by
  have happends (r : MemoryRecord) :
      Database.Takes cfg env io { s with working := ws }.toDatabase r ↔ s.Takes cfg env io r :=
    ⟨fun h => ⟨h.encoded, h.isOpen, h.written⟩, fun h => ⟨h.encoded, h.isOpen, h.written⟩⟩
  constructor
  · intro h
    obtain ⟨copy, hcopy, ha⟩ := h.appends
    exact { h with appends := ⟨copy, hcopy, (happends _).1 ha⟩, flushes := h.flushes }
  · intro h
    obtain ⟨copy, hcopy, ha⟩ := h.appends
    exact { h with appends := ⟨copy, hcopy, (happends _).2 ha⟩, flushes := h.flushes }

/-- An error other than `NOT_FOUND` keeps the working memory exactly if a record that is taken meets
every condition of the insert. -/
theorem failed_promote_kept_iff (cfg : DbConfig) (env : Sample) (io : Option ℕ) (s : UsageDb F)
    (session : Option CString) (wid : UInt64) (toType : MemoryType) (ns : Option CString) :
    (∀ st, (qePromoteIo cfg env io s session wid toType ns).2 = .error st → st ≠ .notFound →
      KeepsWorking env.now s (qePromoteIo cfg env io s session wid toType ns).1) ↔
    (cfg.phase 4 = true → ∀ sid ∈ session, toType ≠ .working → ∀ w,
      (workingStoreTake s.working sid wid env.now ns).2 = some w →
      Accepts cfg env io s (promotedRecord w toType ns)) := by
  unfold qePromoteIo
  cases hphase : cfg.phase 4 with
  | false =>
    refine ⟨fun _ h => (by cases h), fun _ _ _ _ => ?_⟩
    exact .refl env.now s
  | true =>
    simp only [Bool.not_true, Bool.false_eq_true, if_false, true_imp_iff]
    cases session with
    | none =>
      refine ⟨fun _ _ h => (by cases h), fun _ _ _ _ => ?_⟩
      exact .refl env.now s
    | some sid =>
      by_cases htype : toType = .working
      · simp only [htype, if_true]
        exact ⟨fun _ _ _ h => absurd rfl h, fun _ _ _ _ => .refl env.now s⟩
      simp only [htype, if_false]
      rcases htake : workingStoreTake s.working sid wid env.now ns with ⟨ws, _ | w⟩
      · refine ⟨fun _ sid' hsid _ w hw => ?_, fun _ st hst hne => ?_⟩
        · cases hsid
          rw [htake] at hw
          cases hw
        · cases hst
          exact absurd rfl hne
      · have hty : (promotedRecord w toType ns).type ≠ .working := htype
        have hok : (∃ out, (qeInsertIo cfg env io { s with working := ws }
            (promotedRecord w toType ns) none 0).2 = .ok out) ↔
            Accepts cfg env io s (promotedRecord w toType ns) :=
          (qeInsertIo_ok_iff hty).trans accepts_working
        obtain ⟨k, hk, hlive, hgone⟩ := workingStoreTake_eq_some htake
        constructor
        · intro h sid' hsid _ w' hw'
          cases hsid
          rw [htake] at hw'
          cases hw'
          refine hok.1 ?_
          cases hres : (qeInsertIo cfg env io { s with working := ws } (promotedRecord w toType ns)
            none 0).2 with
          | ok out => exact ⟨out, rfl⟩
          | error st =>
            have hne : st ≠ .notFound := fun h =>
              qeInsertIo_ne_notFound { s with working := ws } hty none 0 (hres.trans (by rw [h]))
            have hkept := (h st hres hne).slots sid k w hk hlive
            rw [working_qeInsertIo { s with working := ws } hty] at hkept
            cases hgone.symm.trans hkept
        · intro h st hst
          obtain ⟨out, hout⟩ := hok.2 (h sid rfl (fun h => htype h) w (by rw [htake]))
          cases hout.symm.trans hst

def heldDb : UsageDb plainFraming :=
  (qeInsertIo .unlimited .zero none .fresh { plainNote with type := .working } (some .empty) 0).1

def promoteHeld (full : Bool) (s : UsageDb plainFraming) :
    UsageDb plainFraming × Except Status MemoryRecord :=
  qePromoteIo .unlimited { Sample.zero with memoryFull := full } none s (some .empty) 1 .episodic none

/-- The memory limit refuses a promotion that would succeed with room; with room again, the record is
not found. -/
theorem refused_promote_loses_record :
    (promoteHeld true heldDb).2 = .error .memoryLimit ∧
      (promoteHeld false heldDb).2.isOk = true ∧
      (promoteHeld false (promoteHeld true heldDb).1).2 = .error .notFound :=
  ⟨by decide +kernel, by decide +kernel, by decide +kernel⟩

end AegisDB
