import AegisDB.Query.InferSteps
import AegisDB.Query.Listing

/-!
# What no write changes

Every write path loads the current version of a record, changes some fields and appends the result.
`Revises` says which fields none of them changes: the type, the time of creation, the owner and the
expiry; a fact, once there is one; and the contents of an episodic record. Since the version that is
loaded revises all versions in front of it, so does the next one, and any two versions of an id agree
(`versions_agree`).
-/

namespace AegisDB

open List

variable {F : Framing} {db db' : Database F} {cfg : DbConfig} {env : Sample}

/-! ## Revisions -/

/-- The second record may follow the first one as a version of it. -/
structure Revises (q r : MemoryRecord) : Prop where
  type : r.type = q.type
  created : r.created = q.created
  agentId : r.agentId = q.agentId
  expiresAt : r.expiresAt = q.expiresAt
  fact : q.fact.kind ≠ .none → r.fact = q.fact
  data : q.type = .episodic → r.data = q.data
  tags : q.type = .episodic → r.tags = q.tags
  embedding : q.type = .episodic → r.embedding = q.embedding
  importance : q.type = .episodic → r.importance = q.importance
  confidence : q.type = .episodic → r.confidence = q.confidence

@[refl]
theorem Revises.refl (q : MemoryRecord) : Revises q q := by
  constructor <;> intros <;> rfl

theorem Revises.trans {q r t : MemoryRecord} (h : Revises q r) (h' : Revises r t) :
    Revises q t where
  type := h'.type.trans h.type
  created := h'.created.trans h.created
  agentId := h'.agentId.trans h.agentId
  expiresAt := h'.expiresAt.trans h.expiresAt
  fact hq := (h'.fact (h.fact hq ▸ hq)).trans (h.fact hq)
  data hq := (h'.data (h.type.trans hq)).trans (h.data hq)
  tags hq := (h'.tags (h.type.trans hq)).trans (h.tags hq)
  embedding hq := (h'.embedding (h.type.trans hq)).trans (h.embedding hq)
  importance hq := (h'.importance (h.type.trans hq)).trans (h.importance hq)
  confidence hq := (h'.confidence (h.type.trans hq)).trans (h.confidence hq)

section

variable {cur : MemoryRecord}

/-- Relationships, the tombstone and the time of the update may change. -/
theorem revises_touched (h : cur.WellFormed) (relationships : List Relationship) (deleted : Bool)
    (updated : UInt64) : Revises cur { cur with relationships, deleted, updated }.clamped where
  type := rfl
  created := rfl
  agentId := rfl
  expiresAt := rfl
  fact _ := rfl
  data _ := rfl
  tags _ := rfl
  embedding _ := rfl
  importance _ := F32.orDefault_of_inUnit h.importance
  confidence _ := F32.orDefault_of_inUnit h.confidence

theorem UpdatePatch.eq_of_adopt {patch : UpdatePatch} {fact fact' : Fact}
    (h : patch.adopt fact = .ok fact') (hfact : fact.kind ≠ .none) : fact' = fact := by
  unfold UpdatePatch.adopt at h
  split at h
  · cases h
    rfl
  · rw [if_pos hfact] at h
    cases h

/-- An update is for semantic records, and adopts a fact where there is none. -/
theorem revises_apply {patch : UpdatePatch} {fact : Fact} (htype : cur.type = .semantic)
    (hadopt : patch.adopt cur.fact = .ok fact) (now : UInt64) :
    Revises cur (patch.apply cur fact now).clamped := by
  have hne : cur.type ≠ .episodic := by
    rw [htype]
    decide
  exact
    { type := rfl
      created := rfl
      agentId := rfl
      expiresAt := rfl
      fact := UpdatePatch.eq_of_adopt hadopt
      data := fun h => absurd h hne
      tags := fun h => absurd h hne
      embedding := fun h => absurd h hne
      importance := fun h => absurd h hne
      confidence := fun h => absurd h hne }

end

/-! ## The invariant -/

/-- The versions in the log revise each other, and what is loaded revises them all. -/
structure Revised (db : Database F) (vs : List MemoryRecord) : Prop where
  logged : db.Logged vs
  below : ∀ q ∈ vs, q.id.toNat < db.nextId.toNat
  versions : vs.Pairwise fun q r => q.id = r.id → Revises q r
  current : ∀ id r, loadRecord F db.store id = .ok r → ∀ q ∈ vs, q.id = id → Revises q r

/-- The versions of every record agree on what is immutable. -/
def Database.Immutable (db : Database F) : Prop := ∃ vs, Revised db vs

theorem Database.immutable_create (cfg : DbConfig) (nonces : ℕ → F.Nonce) :
    (Database.create cfg nonces).Immutable :=
  ⟨[], Database.logged_create cfg nonces, fun _ hq => (not_mem_nil hq).elim, .nil,
    fun _ _ _ _ hq => (not_mem_nil hq).elim⟩

theorem Revised.of_store {vs : List MemoryRecord} (h : Revised db vs)
    (hstore : db'.store = db.store) (hnext : db.nextId.toNat ≤ db'.nextId.toNat) :
    Revised db' vs where
  logged := h.logged.of_store hstore
  below q hq := (h.below q hq).trans_le hnext
  versions := h.versions
  current := by
    rw [hstore]
    exact h.current

theorem Revised.write {vs : List MemoryRecord} (h : Revised db vs) {r : MemoryRecord}
    (hw : Wrote F db.store r db'.store) (hnext : db.nextId.toNat ≤ db'.nextId.toNat)
    (hid : r.id.toNat < db'.nextId.toNat) (hrev : ∀ q ∈ vs, q.id = r.id → Revises q r.clamped) :
    Revised db' (vs ++ [r.clamped]) where
  logged := h.logged.write hw
  below q hq := by
    rcases mem_append.1 hq with hq | hq
    · exact (h.below q hq).trans_le hnext
    · rw [mem_singleton.1 hq]
      exact hid
  versions := by
    refine pairwise_append.2 ⟨h.versions, pairwise_singleton _ _, fun q hq r' hr' heq => ?_⟩
    rw [mem_singleton.1 hr'] at heq ⊢
    exact hrev q hq heq
  current id r' hr' q hq hqid := by
    rw [hw.loadRecord_eq h.logged.sound] at hr'
    rcases mem_append.1 hq with hq | hq
    · split_ifs at hr' with hr
      · cases hr'
        exact hrev q hq (hqid.trans hr)
      · exact h.current id r' hr' q hq hqid
    · rw [mem_singleton.1 hq] at hqid ⊢
      rw [if_pos (show id = r.id from hqid.symm)] at hr'
      split_ifs at hr'
      cases hr'
      rfl

/-! ## What a primary appends -/

/-- At most one version is appended: of a new record under the next id, or one that revises what is
loaded. -/
inductive Grows (db db' : Database F) : Prop
  | kept (store : db'.store = db.store) (next : db.nextId.toNat ≤ db'.nextId.toNat)
  | insert {r : MemoryRecord} (wrote : Wrote F db.store r db'.store) (fresh : r.id = db.nextId)
    (next : db.nextId.toNat < db'.nextId.toNat)
  | revise {r cur : MemoryRecord} (wrote : Wrote F db.store r db'.store)
    (load : loadRecord F db.store r.id = .ok cur) (revises : Revises cur r.clamped)
    (next : db'.nextId = db.nextId)

theorem grows_of_appends {P : MemoryRecord → Prop} (h : db'.nextId = db.nextId ∧ Appends P db db')
    (hP : ∀ r, P r → ∃ cur, loadRecord F db.store r.id = .ok cur ∧ Revises cur r.clamped) :
    Grows db db' := by
  obtain ⟨hnext, hstore | ⟨r, hr, hw⟩⟩ := h
  · exact .kept hstore (by rw [hnext])
  · obtain ⟨cur, load, hrev⟩ := hP r hr
    exact .revise hw load hrev hnext

theorem Inserts.grows {input : MemoryRecord} (h : Inserts input db db')
    (hroom : db.nextId.toNat + 1 < 2 ^ 64) : Grows db db' := by
  have hone := toNat_nextId_succ hroom
  rcases h with ⟨hstore, hnext | hnext⟩ | ⟨r, hw, hid, hnext, -⟩
  · exact .kept hstore (by rw [hnext])
  · exact .kept hstore (by rw [hnext]; omega)
  · exact .insert hw hid (by rw [hnext]; omega)

section

variable (cfg env)

theorem grows_qeRelate (hs : db.Sound) (fromId toId : UInt64) (kind ns : Option CString) :
    Grows db (qeRelate cfg env db fromId toId kind ns).1 := by
  refine grows_of_appends (appends_qeRelate cfg env hs fromId toId kind ns) ?_
  rintro r ⟨cur, load, -, rfl⟩
  obtain ⟨rfl, -⟩ := hs.of_loadRecord load
  exact ⟨cur, load, revises_touched (wellFormed_of_loadRecord load) _ cur.deleted env.now⟩

theorem grows_qeUpdate (hs : db.Sound) (id : UInt64) (patch : UpdatePatch) (ns : Option CString) :
    Grows db (qeUpdate cfg env db id patch ns).1 := by
  refine grows_of_appends (appends_qeUpdate cfg env id patch ns) ?_
  rintro r ⟨cur, fact, load, -, htype, hadopt, rfl⟩
  obtain ⟨rfl, -⟩ := hs.of_loadRecord load
  exact ⟨cur, load, revises_apply htype hadopt env.now⟩

theorem grows_qeDelete (hs : db.Sound) (id : UInt64) (ns : Option CString) :
    Grows db (qeDelete cfg env db id ns).1 := by
  refine grows_of_appends (appends_qeDelete cfg env hs id ns) ?_
  rintro r ⟨cur, load, -, rfl⟩
  obtain ⟨rfl, -⟩ := hs.of_loadRecord load
  exact ⟨cur, load, revises_touched (wellFormed_of_loadRecord load) cur.relationships true env.now⟩

end

theorem Database.Immutable.sound (h : db.Immutable) : db.Sound := by
  obtain ⟨vs, h⟩ := h
  exact h.logged.sound

theorem Database.Immutable.grow (h : db.Immutable) (hgrow : Grows db db') : db'.Immutable := by
  obtain ⟨vs, h⟩ := h
  cases hgrow with
  | kept hstore hnext => exact ⟨vs, h.of_store hstore hnext⟩
  | insert hw hid hnext =>
    refine ⟨_, h.write hw hnext.le (hid ▸ hnext) fun q hq hqid => ?_⟩
    have hlt := h.below q hq
    rw [hqid, hid] at hlt
    exact absurd hlt (lt_irrefl _)
  | @revise r cur hw load hrev hnext =>
    have hid := (h.logged.sound.of_loadRecord load).1
    have hlt := h.below cur (h.logged.loaded _ cur load)
    rw [hid, ← hnext] at hlt
    exact ⟨_, h.write hw (by rw [hnext]) hlt fun q hq hqid => (h.current _ cur load q hq hqid).trans hrev⟩

/-- What happens to a primary: the writes of clients, and the jobs. -/
inductive PrimaryAct
  | write (a : WriteAct)
  | consolidate (env : Sample) (R : Ranking) (ns : Option CString) (minSimilarity : F32)
  | sweep (env : Sample)
  | infer (env : Sample)
  | retract (env : Sample)

section

variable (mul : F32 → F32 → F32) (icfg : InferConfig) (cfg : DbConfig)

/-- One act; a delete feeds the queue of the retractions. -/
def primaryStep (s : Reasoner F) : PrimaryAct → Option (Reasoner F)
  | .write (.client (.delete env id ns)) => some (s.delete cfg env id ns).1
  | .write a => (writeStep cfg s.db a).map fun db => { s with db }
  | .consolidate env R ns minSimilarity => some (s.consolidate cfg env ns R minSimilarity)
  | .sweep env => some (s.sweepExpired cfg env)
  | .infer env => some (dbInferenceStep mul icfg cfg env s)
  | .retract env => some (dbRetractStep icfg cfg env s)

def EnoughIds (s : Reasoner F) : PrimaryAct → Prop
  | .write _ => s.db.nextId.toNat + 1 < 2 ^ 64
  | .infer env => s.db.nextId.toNat + idsNeeded env icfg s < 2 ^ 64
  | _ => True

instance (s : Reasoner F) (a : PrimaryAct) : Decidable (EnoughIds icfg s a) :=
  match a with
  | .write _ => inferInstanceAs (Decidable (_ < _))
  | .infer _ => inferInstanceAs (Decidable (_ < _))
  | .consolidate .. | .sweep _ | .retract _ => .isTrue trivial

variable {mul icfg cfg}

section

variable {I : Database F → Prop} (hsound : ∀ d, I d → d.Sound)
  (hgrow : ∀ d d', I d → Grows d d' → I d')

include hgrow in
theorem promote_induction (h : I db) (hroom : db.nextId.toNat + 1 < 2 ^ 64)
    (session : Option CString) (workingId : UInt64) (toType : MemoryType) (ns : Option CString) :
    I (qePromote cfg env db session workingId toType ns).1 := by
  -- the working memory is not in the log
  have hworking (ws : WorkingStore) : I { db with working := ws } := hgrow _ _ h (.kept rfl le_rfl)
  unfold qePromote
  split
  · exact h
  · split
    · exact h
    · split
      · exact h
      · split
        · exact hworking _
        · exact hgrow _ _ (hworking _) ((inserts_qeInsert cfg env _ none 0).grows hroom)

include hsound hgrow

theorem infer_induction {s : Reasoner F} (h : I s.db)
    (hroom : s.db.nextId.toNat + idsNeeded env icfg s < 2 ^ 64) :
    I (dbInferenceStep mul icfg cfg env s).db := by
  have hmono {n m : ℕ} {db : Database F} (hle : n ≤ m)
      (hdb : db.nextId.toNat ≤ s.db.nextId.toNat + n ∧ I db) :
      db.nextId.toNat ≤ s.db.nextId.toNat + m ∧ I db := ⟨hdb.1.trans (by omega), hdb.2⟩
  refine (Derives.inferenceStep (P := fun n db => db.nextId.toNat ≤ s.db.nextId.toNat + n ∧ I db)
    (fun f _ => ⟨hmono, ?_, ?_⟩) hmono ⟨le_rfl, h⟩).2
  · intro n db fromId toId kind ns ⟨hnext, hdb⟩
    refine ⟨?_, hgrow _ _ hdb (grows_qeRelate cfg env (hsound db hdb) fromId toId kind ns)⟩
    rwa [(appends_qeRelate cfg env (hsound db hdb) fromId toId kind ns).1]
  · intro n db group c input _ _ _ hn ⟨hnext, hdb⟩
    have hins : Inserts input db _ := inserts_qeInsert cfg env input none 0
    have hle := hins.nextId_le (by omega)
    exact ⟨by omega, hgrow _ _ hdb (hins.grows (by omega))⟩

/-- What every such growth keeps, every step of a primary keeps. -/
theorem primaryStep_induction {s s' : Reasoner F} {a : PrimaryAct} (h : I s.db)
    (hids : EnoughIds icfg s a) (hstep : primaryStep mul icfg cfg s a = some s') : I s'.db := by
  have hdelete (env : Sample) (d : Database F) (id : UInt64) (ns : Option CString) (hd : I d) :
      I (qeDelete cfg env d id ns).1 := hgrow _ _ hd (grows_qeDelete cfg env (hsound d hd) id ns)
  have hrelate (env : Sample) (d : Database F) (x y : UInt64) (kind ns : Option CString) (hd : I d) :
      I (qeRelate cfg env d x y kind ns).1 :=
    hgrow _ _ hd (grows_qeRelate cfg env (hsound d hd) x y kind ns)
  have hupdate (env : Sample) (d : Database F) (id : UInt64) (patch : UpdatePatch)
      (ns : Option CString) (hd : I d) : I (qeUpdate cfg env d id patch ns).1 :=
    hgrow _ _ hd (grows_qeUpdate cfg env (hsound d hd) id patch ns)
  unfold primaryStep at hstep
  split at hstep
  · cases hstep
    rw [Reasoner.delete_db]
    exact hdelete _ _ _ _ h
  · rename_i a _
    obtain ⟨db, hdb, rfl⟩ := Option.map_eq_some_iff.1 hstep
    rcases a with (_ | _ | _ | _) | _ <;> cases hdb
    · exact hgrow _ _ h ((inserts_qeInsert cfg _ _ _ _).grows hids)
    · exact hupdate _ _ _ _ _ h
    · exact hrelate _ _ _ _ _ _ h
    · exact hdelete _ _ _ _ h
    · exact promote_induction hgrow h hids _ _ _ _
  · cases hstep
    rw [Reasoner.consolidate_db]
    exact (Preserved.mk (fun d x y kind => hrelate _ d x y kind _) (fun d id _ _ => hupdate _ d id _ _)
      fun d id => hdelete _ d id _).consolidate _ _ h
  · cases hstep
    exact sweepExpired_induction (fun d id => hdelete _ d id none) h
  · cases hstep
    exact infer_induction hsound hgrow h hids
  · cases hstep
    exact retractStep_induction (fun d id => hdelete _ d id none) h

end

theorem Database.Immutable.primaryStep {s s' : Reasoner F} {a : PrimaryAct} (h : s.db.Immutable)
    (hids : EnoughIds icfg s a) (hstep : primaryStep mul icfg cfg s a = some s') :
    s'.db.Immutable :=
  primaryStep_induction (fun _ h => h.sound) (fun _ _ h hgrow => h.grow hgrow) h hids hstep

/-- **The versions of a record agree on what is immutable**: the type, the time of creation, the
owner and the expiry; a fact, once there is one; and the contents of an episodic record. -/
theorem versions_agree {nonces : ℕ → F.Nonce} {as : List PrimaryAct} {s : Reasoner F}
    (hrun : run (primaryStep mul icfg cfg) (.fresh cfg nonces) as = some s)
    (hids : Along (primaryStep mul icfg cfg) (EnoughIds icfg) (.fresh cfg nonces) as) :
    (fileRecords F s.db.store.log.bytes).Pairwise fun q r => q.id = r.id → Revises q r := by
  obtain ⟨vs, h⟩ := run_invariant (I := fun (s : Reasoner F) => s.db.Immutable)
    (fun _ _ _ h hids hstep => h.primaryStep hids hstep) (Database.immutable_create cfg nonces)
    hids hrun
  rw [h.logged.fileRecords_eq]
  exact h.versions

/-! ## Deleted records -/

/-- The id was given out, and no record is live under it. -/
def Database.Lacks (db : Database F) (id : UInt64) : Prop :=
  id.toNat < db.nextId.toNat ∧ currentRecord F db.store id = none

theorem Database.Lacks.grow {id : UInt64} (h : db.Lacks id) (hs : db.Sound) (hgrow : Grows db db') :
    db'.Lacks id := by
  obtain ⟨hid, hgone⟩ := h
  cases hgrow with
  | kept hstore hnext => exact ⟨hid.trans_le hnext, by rwa [hstore]⟩
  | insert hw hfresh hnext =>
    refine ⟨hid.trans hnext, ?_⟩
    rwa [currentRecord_of_wrote hw hs, Function.update_of_ne]
    rintro rfl
    exact hid.ne (congrArg _ hfresh)
  | revise hw load _ hnext =>
    refine ⟨hnext ▸ hid, ?_⟩
    rwa [currentRecord_of_wrote hw hs, Function.update_of_ne]
    rintro rfl
    rw [currentRecord, load] at hgone
    cases hgone

/-- **What is deleted stays deleted**: neither a client nor a job brings it back. -/
theorem deleted_stays_deleted {nonces : ℕ → F.Nonce} {as bs : List PrimaryAct} {s s' : Reasoner F}
    (has : run (primaryStep mul icfg cfg) (.fresh cfg nonces) as = some s)
    (hids : Along (primaryStep mul icfg cfg) (EnoughIds icfg) (.fresh cfg nonces) as)
    (hbs : run (primaryStep mul icfg cfg) s bs = some s')
    (hids' : Along (primaryStep mul icfg cfg) (EnoughIds icfg) s bs) {id : UInt64}
    (hlacks : s.db.Lacks id) : s'.db.Lacks id := by
  have h := run_invariant (I := fun (s : Reasoner F) => s.db.Immutable)
    (fun _ _ _ h hids hstep => h.primaryStep hids hstep) (Database.immutable_create cfg nonces)
    hids has
  refine (run_invariant (I := fun (s : Reasoner F) => s.db.Immutable ∧ s.db.Lacks id)
    (fun _ _ _ h hids hstep => ?_) ⟨h, hlacks⟩ hids' hbs).2
  exact primaryStep_induction (I := fun d => d.Immutable ∧ d.Lacks id) (fun _ h => h.1.sound)
    (fun _ _ h hgrow => ⟨h.1.grow hgrow, h.2.grow h.1.sound hgrow⟩) h hids hstep

end

/-- A record is written, changed and deleted. -/
def writeUpdateDelete : List PrimaryAct :=
  [.write (.client (.insert .zero { recordInit with type := .semantic, data := [120] } none 0)),
    .write (.client (.update .zero 1 ⟨some [121], none, none, none, none, none⟩ none)),
    .write (.client (.delete .zero 1 none))]

set_option maxRecDepth 20000 in
/-- Its three versions agree. -/
theorem versions_agree_of_three : ∃ s : Reasoner plainFraming,
    run (primaryStep (fun a _ => a) ⟨4, 10, 1000, .zero, false⟩ .unlimited)
        (.fresh .unlimited fun _ => ()) writeUpdateDelete = some s ∧
      (fileRecords plainFraming s.db.store.log.bytes).map (fun r => (r.data, r.deleted)) =
        [([120], false), ([121], false), ([121], true)] ∧
      (fileRecords plainFraming s.db.store.log.bytes).Pairwise fun q r => q.id = r.id → Revises q r := by
  have hrun : (run (primaryStep (fun a _ => a) ⟨4, 10, 1000, .zero, false⟩ .unlimited)
      (.fresh (F := plainFraming) .unlimited fun _ => ()) writeUpdateDelete).map (fun s =>
        (fileRecords plainFraming s.db.store.log.bytes).map fun r => (r.data, r.deleted)) =
          some [([120], false), ([121], false), ([121], true)] := by
    decide +kernel
  have hids : Along (primaryStep (fun a _ => a) ⟨4, 10, 1000, .zero, false⟩ .unlimited)
      (EnoughIds ⟨4, 10, 1000, .zero, false⟩)
      (.fresh (F := plainFraming) .unlimited fun _ => ()) writeUpdateDelete := by
    decide +kernel
  obtain ⟨s, hs, hversions⟩ := Option.map_eq_some_iff.mp hrun
  exact ⟨s, hs, hversions, versions_agree hs hids⟩

set_option maxRecDepth 20000 in
/-- The jobs do not bring the record back. -/
theorem deleted_stays_deleted_of_three : ∃ s s' : Reasoner plainFraming,
    run (primaryStep (fun a _ => a) ⟨4, 10, 1000, .zero, false⟩ .unlimited)
        (.fresh .unlimited fun _ => ()) writeUpdateDelete = some s ∧
      run (primaryStep (fun a _ => a) ⟨4, 10, 1000, .zero, false⟩ .unlimited) s
        [.sweep .zero, .retract .zero] = some s' ∧ s'.db.Lacks 1 := by
  have hrun : (run (primaryStep (fun a _ => a) ⟨4, 10, 1000, .zero, false⟩ .unlimited)
      (.fresh (F := plainFraming) .unlimited fun _ => ()) writeUpdateDelete).map (fun s =>
        decide (1 < s.db.nextId.toNat ∧ currentRecord plainFraming s.db.store 1 = none)) =
          some true := by
    decide +kernel
  obtain ⟨s, hs, h⟩ := Option.map_eq_some_iff.mp hrun
  have hlacks := of_decide_eq_true h
  exact ⟨s, _, hs, rfl, @deleted_stays_deleted _ _ _ _ _ _ [.sweep .zero, .retract .zero] s _ hs
    (by decide +kernel) rfl ⟨trivial, fun _ _ => ⟨trivial, fun _ _ => trivial⟩⟩ 1 hlacks⟩

end AegisDB
