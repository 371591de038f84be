import AegisDB.Query.Versions

/-!
# Point-in-time reads

A read with `as_of` scans the log for the last version of a record that is not younger than a time.
Behind a run of writes under a clock that does not go back, that is the version that was current when
every write stamped up to that time was made (`Chronicle.run`). A tombstone and another tenant's
record are not shown, as in a read of that time; the expiry of the record is not looked at.
-/

namespace AegisDB

open List

variable {F : Framing} {cfg : DbConfig}
variable {as : List ClientAct} {T : UInt64}

/-! ## The last version of a record -/

def latest (vs : List MemoryRecord) (id : UInt64) : Option MemoryRecord :=
  (vs.filter fun r => r.id = id).getLast?

/-- What is loaded when that is the last version. -/
def readLatest : Option MemoryRecord → Except Status MemoryRecord
  | none => .error .notFound
  | some r => if r.deleted then .error .notFound else .ok r

theorem latest_concat (vs : List MemoryRecord) (r : MemoryRecord) (id : UInt64) :
    latest (vs ++ [r]) id = if id = r.id then some r else latest vs id := by
  unfold latest
  rw [filter_append]
  split_ifs with hid
  · simp [hid]
  · simp [Ne.symm hid]

/-- The log is open and holds these versions, and the last version of a record is loaded. -/
structure Database.Chronicle (db : Database F) (vs : List MemoryRecord) : Prop where
  clean : ∃ fs, CleanDb F db.store fs ∧ versions fs = vs
  isOpen : db.store.log.isOpen = true
  load : ∀ id, loadRecord F db.store id = readLatest (latest vs id)

namespace Database.Chronicle

variable {db db' : Database F} {vs : List MemoryRecord}

theorem sound (h : db.Chronicle vs) : db.Sound := by
  obtain ⟨fs, hclean, -⟩ := h.clean
  exact hclean.sound

theorem logRecords_eq (h : db.Chronicle vs) : logRecords F db.store.log = vs := by
  obtain ⟨fs, hclean, rfl⟩ := h.clean
  rw [AegisDB.logRecords_eq hclean h.isOpen, fileRecords_eq hclean]

theorem of_store (h : db.Chronicle vs) (hstore : db'.store = db.store) : db'.Chronicle vs := by
  refine ⟨?_, ?_, ?_⟩
  · rw [hstore]
    exact h.clean
  · rw [hstore]
    exact h.isOpen
  · rw [hstore]
    exact h.load

theorem write (h : db.Chronicle vs) {r : MemoryRecord} (hw : Wrote F db.store r db'.store) :
    db'.Chronicle (vs ++ [r.clamped]) where
  clean := hw.versions h.clean
  isOpen := hw.isOpen
  load id := by
    rw [hw.loadRecord_eq h.sound, latest_concat, h.load]
    change _ = readLatest (if id = r.id then _ else _)
    split
    · rfl
    · rfl

end Database.Chronicle

theorem Database.chronicle_create (cfg : DbConfig) (nonces : ℕ → F.Nonce) :
    (Database.create cfg nonces).Chronicle [] where
  clean := (Database.logged_create cfg nonces).clean
  isOpen := rfl
  load id := Database.loadRecord_create cfg nonces id

inductive ClientAct
  | insert (env : Sample) (input : MemoryRecord) (session : Option CString) (ttl : UInt64)
  | update (env : Sample) (id : UInt64) (patch : UpdatePatch) (ns : Option CString)
  | relate (env : Sample) (fromId toId : UInt64) (kind ns : Option CString)
  | delete (env : Sample) (id : UInt64) (ns : Option CString)

def ClientAct.now : ClientAct → UInt64
  | .insert env .. | .update env .. | .relate env .. | .delete env .. => env.now

def clientStep (cfg : DbConfig) (db : Database F) : ClientAct → Option (Database F)
  | .insert env input session ttl => some (qeInsert cfg env db input session ttl).1
  | .update env id patch ns => some (qeUpdate cfg env db id patch ns).1
  | .relate env fromId toId kind ns => some (qeRelate cfg env db fromId toId kind ns).1
  | .delete env id ns => some (qeDelete cfg env db id ns).1

section

variable {db db' : Database F} {vs : List MemoryRecord} {a : ClientAct}

/-- Every version is stamped with the clock of the operation that appends it. -/
theorem appends_clientStep (hs : db.Sound) (h : clientStep cfg db a = some db') :
    Appends (fun r => r.updated = a.now) db db' := by
  have hmono {P : MemoryRecord → Prop} {d : Database F} (happ : Appends P db d)
      (hP : ∀ r, P r → r.updated = a.now) : Appends (fun r => r.updated = a.now) db d :=
    happ.imp id fun ⟨r, hr, hw⟩ => ⟨r, hP r hr, hw⟩
  cases a with
  | insert env input session ttl =>
    cases h
    rcases appends_qeInsert cfg env input session ttl with ⟨hsame, -⟩ | ⟨-, copy, -, -, hw⟩
    · exact .inl hsame
    · exact .inr ⟨_, rfl, hw⟩
  | update env id patch ns =>
    cases h
    refine hmono (appends_qeUpdate cfg env id patch ns).2 ?_
    rintro r ⟨cur, fact, -, -, -, -, rfl⟩
    rfl
  | relate env fromId toId kind ns =>
    cases h
    refine hmono (appends_qeRelate cfg env hs fromId toId kind ns).2 ?_
    rintro r ⟨cur, -, -, rfl⟩
    rfl
  | delete env id ns =>
    cases h
    refine hmono (appends_qeDelete cfg env hs id ns).2 ?_
    rintro r ⟨cur, -, -, rfl⟩
    rfl

theorem Database.Chronicle.step (h : db.Chronicle vs) (hstep : clientStep cfg db a = some db') :
    ∃ ws, db'.Chronicle (vs ++ ws) ∧ ∀ r ∈ ws, r.updated = a.now := by
  rcases appends_clientStep h.sound hstep with hsame | ⟨r, hr, hw⟩
  · refine ⟨[], ?_, nofun⟩
    rw [append_nil]
    exact h.of_store hsame
  · refine ⟨[r.clamped], h.write hw, fun r' hr' => ?_⟩
    rw [mem_singleton.1 hr']
    exact hr

/-- A run of writes adds versions with the stamps of its operations. -/
theorem Database.Chronicle.run (h : db.Chronicle vs)
    (hrun : run (clientStep cfg) db as = some db') :
    ∃ ws, db'.Chronicle (vs ++ ws) ∧ ∀ r ∈ ws, ∃ a ∈ as, r.updated = a.now := by
  induction as generalizing db vs with
  | nil =>
    cases hrun
    exact ⟨[], by rwa [append_nil], nofun⟩
  | cons a as ih =>
    obtain ⟨d, hstep, hrun⟩ := run_cons_eq_some.1 hrun
    obtain ⟨ws, hd, hws⟩ := h.step hstep
    obtain ⟨ws', hdb', hws'⟩ := ih hd hrun
    refine ⟨ws ++ ws', by rwa [← append_assoc], fun r hr => ?_⟩
    rcases mem_append.1 hr with hr | hr
    · exact ⟨a, mem_cons_self, hws r hr⟩
    · obtain ⟨b, hb, hstamp⟩ := hws' r hr
      exact ⟨b, mem_cons_of_mem a hb, hstamp⟩

end

/-- The operations up to a time, when the clock does not go back. -/
def upTo (T : UInt64) (as : List ClientAct) : List ClientAct := as.takeWhile fun a => a.now ≤ T

theorem lt_of_mem_dropWhile (hclock : as.Pairwise fun a b => a.now ≤ b.now) {b : ClientAct}
    (hb : b ∈ as.dropWhile fun a => a.now ≤ T) : T < b.now := by
  induction as with
  | nil => cases hb
  | cons a as ih =>
    obtain ⟨ha, has⟩ := pairwise_cons.1 hclock
    rw [dropWhile_cons] at hb
    split_ifs at hb with hle
    · exact ih has hb
    · have hlt : T < a.now := by simpa [UInt64.not_le] using hle
      rcases mem_cons.1 hb with rfl | hb
      · exact hlt
      · exact UInt64.lt_of_lt_of_le hlt (ha b hb)

/-- The scan up to a time finds the version that was the last one then. -/
theorem qeGetAsOf_eq {nonces : ℕ → F.Nonce} {db dbT : Database F}
    (hphase : cfg.phase 1 = true) (hclock : as.Pairwise fun a b => a.now ≤ b.now)
    (hrun : run (clientStep cfg) (.create cfg nonces) as = some db)
    (hpast : run (clientStep cfg) (.create cfg nonces) (upTo T as) = some dbT) :
    ∃ vs, dbT.Chronicle vs ∧ ∀ id ns, qeGetAsOf cfg db id ns T =
      match latest vs id with
      | none => .error .notFound
      | some best => if best.deleted || nsDenies ns best then .error .notFound else .ok best := by
  obtain ⟨vs, hvs, hold⟩ := (Database.chronicle_create cfg nonces).run hpast
  rw [← takeWhile_append_dropWhile (p := fun a : ClientAct => decide (a.now ≤ T)) (l := as),
    run_append, Option.bind_eq_some_iff] at hrun
  obtain ⟨d, hd, hrun⟩ := hrun
  cases hd.symm.trans hpast
  obtain ⟨ws, hws, hnew⟩ := hvs.run hrun
  refine ⟨_, hvs, fun id ns => ?_⟩
  have hnone : ws.filter (fun r => r.id = id && r.updated ≤ T) = [] := by
    rw [filter_eq_nil_iff]
    intro r hr
    obtain ⟨a, ha, hstamp⟩ := hnew r hr
    have hlt : T < r.updated := by
      rw [hstamp]
      exact lt_of_mem_dropWhile hclock ha
    simp [UInt64.not_le.2 hlt]
  have hall : vs.filter (fun r => r.id = id && r.updated ≤ T) = vs.filter fun r => r.id = id := by
    refine filter_congr fun r hr => ?_
    obtain ⟨a, ha, hstamp⟩ := hold r hr
    have hle : r.updated ≤ T := by
      rw [hstamp]
      simpa using mem_takeWhile_imp ha
    simp [hle]
  unfold qeGetAsOf
  rw [hphase, hws.logRecords_eq, nil_append, filter_append, hnone, append_nil, hall]
  rfl

/-- **A point-in-time read replays the past** if, and only if, the record it finds had not expired by
then. -/
theorem as_of_replays_iff {nonces : ℕ → F.Nonce} {as : List ClientAct} {db dbT : Database F}
    {T : UInt64} {env : Sample} (hphase : cfg.phase 1 = true)
    (hclock : as.Pairwise fun a b => a.now ≤ b.now)
    (hrun : run (clientStep cfg) (.create cfg nonces) as = some db)
    (hpast : run (clientStep cfg) (.create cfg nonces) (upTo T as) = some dbT) (henv : env.now = T)
    (id : UInt64) (ns : Option CString) :
    qeGetAsOf cfg db id ns T = qeGet env dbT id ns ↔
      ∀ r, loadRecord F dbT.store id = .ok r → nsDenies ns r = false →
        recordExpired r T = false := by
  obtain ⟨vs, hvs, hasOf⟩ := qeGetAsOf_eq hphase hclock hrun hpast
  rw [hasOf, qeGet, hvs.load, henv]
  cases latest vs id with
  | none => exact iff_of_true rfl nofun
  | some r =>
    cases hdel : r.deleted with
    | true =>
      refine iff_of_true ?_ ?_
      · simp [readLatest, hdel]
      · simp [readLatest, hdel]
    | false =>
      have hread : readLatest (some r) = .ok r := by simp [readLatest, hdel]
      rw [hread]
      simp only [hdel, Bool.false_or, Except.ok.injEq, forall_eq']
      cases nsDenies ns r <;> cases recordExpired r T <;> simp

def Sample.timed (now : UInt64) : Sample := { Sample.zero with now }

/-- A record that is inserted at the time 1 to live for 5 milliseconds. -/
def shortLived : List ClientAct :=
  [.insert (.timed 1) { recordInit with type := .episodic, data := [120] } none 5]

def shortLivedDb : Database plainFraming :=
  (run (clientStep .unlimited) (.create .unlimited fun _ => ()) shortLived).getD
    (.create .unlimited fun _ => ())

theorem run_shortLived :
    run (clientStep .unlimited) (.create .unlimited fun _ => ()) shortLived = some shortLivedDb := rfl

theorem upTo_shortLived (h : 1 ≤ T) : upTo T shortLived = shortLived := by
  refine takeWhile_eq_self_iff.2 fun a ha => ?_
  rw [mem_singleton.1 ha]
  exact decide_eq_true h

theorem run_upTo_shortLived (h : 1 ≤ T) :
    run (clientStep .unlimited) (.create .unlimited fun _ => ()) (upTo T shortLived) =
      some shortLivedDb := by
  rw [upTo_shortLived h, run_shortLived]

theorem pairwise_shortLived : shortLived.Pairwise fun a b => a.now ≤ b.now := pairwise_singleton _ _

set_option maxRecDepth 20000 in
theorem expiresAt_shortLived :
    (loadRecord plainFraming shortLivedDb.store 1).toOption.map MemoryRecord.expiresAt = some 6 := by
  decide +kernel

/-- Before the record expires, the reads agree. -/
theorem shortLived_replayed :
    qeGetAsOf .unlimited shortLivedDb 1 none 3 = qeGet (.timed 3) shortLivedDb 1 none := by
  have hphase : DbConfig.unlimited.phase 1 = true := by decide
  have hnow : (Sample.timed 3).now = 3 := rfl
  rw [as_of_replays_iff hphase pairwise_shortLived run_shortLived (run_upTo_shortLived (by decide))
    hnow]
  intro r hr _
  have hexpires := expiresAt_shortLived
  rw [hr] at hexpires
  rw [recordExpired, Option.some.inj hexpires]
  rfl

set_option maxRecDepth 20000 in
/-- The record has expired at the time 10, and is shown as of then. -/
theorem shortLived_outlives :
    run (clientStep .unlimited) (.create .unlimited fun _ => ()) (upTo 10 shortLived) =
        some shortLivedDb ∧
      (qeGetAsOf .unlimited shortLivedDb 1 none 10).isOk = true ∧
      (qeGet (.timed 10) shortLivedDb 1 none).isOk = false :=
  ⟨run_upTo_shortLived (by decide), by decide +kernel⟩

end AegisDB
