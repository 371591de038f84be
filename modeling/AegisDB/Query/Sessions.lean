import AegisDB.Query.Effects
import AegisDB.Query.WorkingRings

/-!
# Working memory and its tenants

The sessions of the working memory are kept under the ids their callers chose: two namespaces that use
one session id share its ring and its counter of ids, and only `working_store_take` asks who owns a
record. `Isolated` says that a namespace sees what it would see alone. It does when no other namespace
adds to a session before it does, or evicts a record of it that could still be promoted
(`isolated_of_undisturbed`).
-/

namespace AegisDB

open List Option

variable {sid : CString} {op : WorkingOp}

/-! ## Operations -/

inductive WorkingOp
  /-- `qe_insert` of a working memory, pinned to the namespace of the caller. -/
  | insert (caller : CString) (input : MemoryRecord) (session : Option CString) (ttl : UInt64)
  | get (caller : CString) (sid : CString) (id : UInt64)
  | promote (caller : CString) (session : Option CString) (id : UInt64) (toType : MemoryType)
  | sweep

def pinnedWorking (caller : CString) (input : MemoryRecord) : MemoryRecord :=
  { input with type := .working, agentId := some caller }

variable {F : Framing}

section

variable (cfg : DbConfig) (ns : CString)

def WorkingOp.apply (env : Sample) (db : Database F) : WorkingOp → Database F
  | .insert caller input session ttl =>
    (qeInsert cfg env db (pinnedWorking caller input) session ttl).1
  | .get _ sid id => { db with working := (workingStoreGet db.working sid id env.now).1 }
  | .promote caller session id toType => (qePromote cfg env db session id toType (some caller)).1
  | .sweep => { db with working := workingStoreSweep db.working env.now }

/-- The id that an insert of the namespace is given, or its error. -/
def WorkingOp.given (env : Sample) (db : Database F) : WorkingOp → List (Except Status UInt64)
  | .insert caller input session ttl =>
    if caller = ns then
      [(qeInsert cfg env db (pinnedWorking caller input) session ttl).2.map MemoryRecord.id]
    else []
  | _ => []

/-- The database behind a sequence of operations, with what the inserts of the namespace were given. -/
def worked (db : Database F) (ops : List (Sample × WorkingOp)) :
    Database F × List (Except Status UInt64) :=
  ops.foldl (fun (db, ids) (env, op) => (op.apply cfg env db, ids ++ op.given cfg ns env db)) (db, [])

/-- The operations of the namespace, and the sweeps. -/
def WorkingOp.concerns : WorkingOp → Bool
  | .insert caller _ _ _ | .get caller _ _ | .promote caller _ _ _ => caller = ns
  | .sweep => true

/-- What is left when only the namespace performs its operations. -/
def purged (ops : List (Sample × WorkingOp)) : List (Sample × WorkingOp) :=
  ops.filter fun o => o.2.concerns ns

/-- The namespace was given the ids, and can promote the records, it would have alone. -/
structure Isolated (db : Database F) (ops : List (Sample × WorkingOp)) : Prop where
  given : (worked cfg ns db ops).2 = (worked cfg ns db (purged ns ops)).2
  promotable : ∀ sid id now, (∀ o ∈ ops, o.1.now ≤ now) →
    promotable ns (worked cfg ns db ops).1.working sid id now =
      promotable ns (worked cfg ns db (purged ns ops)).1.working sid id now

/-- The checks of `qe_insert` for a working memory. -/
def workingCheck (r : MemoryRecord) : Except Status Unit :=
  match validateCommon cfg r with
  | .error st => .error st
  | .ok () =>
    if r.data = [] then .error .invalidRequest
    else if r.fact.kind ≠ .none ∧
        cfg.predicates.any fun registry => !predicateRegistryCheck registry r.fact then
      .error .invalidRequest
    else if cfg.phase 4 then .ok () else .error .notReady

/-- The session an insert adds to, when `qe_insert` accepts it. -/
def addsTo (caller : CString) (input : MemoryRecord) (session : Option CString) : Option CString :=
  if workingCheck cfg (pinnedWorking caller input) = .ok () ∧
      (recordClone (pinnedWorking caller input)).isSome then session
  else none

/-- The operation adds to the session, for another namespace. -/
def WorkingOp.Intrudes (sid : CString) : WorkingOp → Prop
  | .insert caller input session _ => caller ≠ ns ∧ addsTo cfg caller input session = some sid
  | _ => False

/-- What an operation must not do to a namespace, behind other operations. -/
def Undisturbing (db : Database F) (before : List (Sample × WorkingOp)) (o : Sample × WorkingOp) :
    Prop :=
  match o.2 with
  | .insert caller input session _ =>
    ∀ sid, addsTo cfg caller input session = some sid →
      if caller = ns then ∀ o' ∈ before, ¬ o'.2.Intrudes cfg ns sid
      else
        let s := getSession (worked cfg ns db before).1.working sid
        ∀ r, s.slots[s.head]? = some (some r) → r.agentId = some ns → recordExpired r o.1.now = true
  | _ => True

end

section

variable {cfg : DbConfig} {ns : CString} {env : Sample} {db : Database F}

theorem qeInsert_working {r : MemoryRecord} (htype : r.type = .working) (session : Option CString)
    (ttl : UInt64) :
    qeInsert cfg env db r session ttl =
      match workingCheck cfg r with
      | .error st => (db, .error st)
      | .ok () => insertWorking env db r session ttl := by
  unfold qeInsert workingCheck
  cases validateCommon cfg r with
  | error st => rfl
  | ok =>
    rw [htype]
    split_ifs <;> rfl

/-- An insert that is refused says so without a look at the database. -/
theorem qeInsert_of_not_addsTo {caller : CString} {input : MemoryRecord} {session : Option CString}
    (h : addsTo cfg caller input session = none) (ttl : UInt64) :
    ∃ st, ∀ (env : Sample) (db : Database F),
      qeInsert cfg env db (pinnedWorking caller input) session ttl = (db, .error st) := by
  cases hcheck : workingCheck cfg (pinnedWorking caller input) with
  | error st => exact ⟨st, fun env db => by rw [qeInsert_working rfl, hcheck]⟩
  | ok =>
    cases session with
    | none => exact ⟨.invalidRequest, fun env db => by rw [qeInsert_working rfl, hcheck]; rfl⟩
    | some sid =>
      cases hclone : recordClone (pinnedWorking caller input) with
      | none =>
        refine ⟨.internal, fun env db => ?_⟩
        rw [qeInsert_working rfl, hcheck]
        simp only [insertWorking, workingStoreAdd, hclone, map_none]
      | some copy =>
        rw [addsTo, if_pos ⟨hcheck, by simp [hclone]⟩] at h
        cases h

/-- What an accepted insert answers, from the copy it has made. -/
def insertReply (copy : MemoryRecord) (now : UInt64) : Except Status MemoryRecord :=
  if recordExpired copy now then .error .internal
  else (recordClone copy).elim (.error .internal) .ok

theorem lt_saturatingAdd {now ttl : UInt64} (hnow : now ≠ 0xFFFFFFFFFFFFFFFF) (httl : ttl ≠ 0) :
    now < saturatingAdd now ttl := by
  have hnow' : now.toNat ≠ 2 ^ 64 - 1 := fun h => hnow (UInt64.toNat_inj.1 h)
  have httl' : ttl.toNat ≠ 0 := fun h => httl (UInt64.toNat_inj.1 h)
  have hlt := now.toNat_lt
  have hmax : (0xFFFFFFFFFFFFFFFF : UInt64).toNat = 2 ^ 64 - 1 := rfl
  unfold saturatingAdd
  rw [UInt64.lt_iff_toNat_lt]
  split_ifs with hfar
  · omega
  · rw [UInt64.lt_iff_toNat_lt, UInt64.toNat_sub, hmax] at hfar
    rw [UInt64.toNat_add]
    omega

theorem insertReply_workingCopy {ws : WorkingStore} {s : WorkingSession} {copy : MemoryRecord}
    {now ttl : UInt64} (hcopy : copy.Formed) (hnow : now ≠ 0xFFFFFFFFFFFFFFFF)
    (httl : ws.defaultTtl ≠ 0) :
    insertReply (workingCopy ws s copy now ttl) now = .ok (workingCopy ws s copy now ttl) := by
  have hspan : (if ttl ≠ 0 then ttl else ws.defaultTtl) ≠ 0 := by
    split_ifs with h
    · exact h
    · exact httl
  have hlive : recordExpired (workingCopy ws s copy now ttl) now = false := by
    have hlt := lt_saturatingAdd hnow hspan
    simp only [recordExpired, workingCopy, Bool.and_eq_false_iff]
    exact .inr (decide_eq_false (UInt64.not_le.2 hlt))
  have hformed : (workingCopy ws s copy now ttl).Formed := ⟨hcopy.dim_iff, hcopy.fact, hcopy.routes⟩
  rw [insertReply, hlive, if_neg Bool.false_ne_true, hformed.recordClone_eq]
  rfl

theorem qeInsert_of_addsTo {caller : CString} {input : MemoryRecord} {session : Option CString}
    (h : addsTo cfg caller input session = some sid) (ttl : UInt64) :
    ∃ copy : MemoryRecord, copy.agentId = some caller ∧ copy.Formed ∧
      ∀ (env : Sample) (db : Database F) (count : CString → ℕ), db.working.Counted count →
        db.working.Added env.now sid
            (workingCopy db.working (getSession db.working sid) copy env.now ttl)
            (qeInsert cfg env db (pinnedWorking caller input) session ttl).1.working ∧
          (qeInsert cfg env db (pinnedWorking caller input) session ttl).2 =
            insertReply (workingCopy db.working (getSession db.working sid) copy env.now ttl)
              env.now := by
  unfold addsTo at h
  split_ifs at h with hok
  obtain ⟨hcheck, hclone⟩ := hok
  obtain ⟨copy, hclone⟩ := isSome_iff_exists.1 hclone
  refine ⟨copy, agentId_of_recordClone hclone, formed_of_recordClone hclone, ?_⟩
  · intro env db count hc
    subst h
    obtain ⟨⟨ws, wid⟩, hadd⟩ : ∃ x, workingStoreAdd db.working sid (pinnedWorking caller input)
        env.now ttl = some x := by simp [workingStoreAdd, hclone]
    obtain ⟨rfl, hadded, hholds⟩ := workingStoreAdd_added hclone hadd
    have hget := workingStoreGet_eq (hadded.counted count hc) (hholds count hc) env.now
    rw [qeInsert_working rfl, hcheck]
    simp only [insertWorking, hadd]
    refine ⟨hadded.aged (aged_workingStoreGet ws sid _ env.now), ?_⟩
    simp only [workingCopy] at hget ⊢
    rw [hget, insertReply]
    split_ifs <;> rfl

theorem working_qeInsert_none (db : Database F) (input : MemoryRecord) (ttl : UInt64) :
    (qeInsert cfg env db input none ttl).1.working = db.working := by
  have hpersisted : (insertPersisted cfg env db input ttl).1.working = db.working := by
    unfold insertPersisted
    split
    · rfl
    · dsimp only
      split
      · rfl
      · rename_i append
        exact (Database.of_appendAndHash append).2.2.1
  unfold qeInsert
  split
  · rfl
  · split
    · rfl
    · split
      · rfl
      · split
        · split <;> rfl
        · split
          · rfl
          · split
            · rfl
            · exact hpersisted
        · split
          · rfl
          · split
            · rfl
            · exact hpersisted

/-- `qe_promote` takes the record, or does nothing for a reason that is not in the database. -/
theorem working_qePromote (session : Option CString) (id : UInt64) (toType : MemoryType)
    (caller : CString) :
    (∀ db : Database F,
        (qePromote cfg env db session id toType (some caller)).1.working = db.working) ∨
      ∃ sid, ∀ db : Database F, (qePromote cfg env db session id toType (some caller)).1.working =
        (workingStoreTake db.working sid id env.now (some caller)).1 := by
  by_cases hphase : cfg.phase 4 = true
  · cases session with
    | none => exact .inl fun db => by simp [qePromote, hphase]
    | some sid =>
      by_cases htype : toType = .working
      · exact .inl fun db => by simp [qePromote, hphase, htype]
      · refine .inr ⟨sid, fun db => ?_⟩
        simp only [qePromote, hphase, htype, Bool.not_true, Bool.false_eq_true, if_false]
        rcases workingStoreTake db.working sid id env.now (some caller) with ⟨ws, _ | w⟩
        · rfl
        · exact working_qeInsert_none _ _ _
  · exact .inl fun db => by simp [qePromote, hphase]

/-! ## A sequence of operations -/

variable (cfg ns) in
theorem worked_concat (db : Database F) (ops : List (Sample × WorkingOp)) (o : Sample × WorkingOp) :
    worked cfg ns db (ops ++ [o]) = (o.2.apply cfg o.1 (worked cfg ns db ops).1,
        (worked cfg ns db ops).2 ++ o.2.given cfg ns o.1 (worked cfg ns db ops).1) := by
  rw [worked, foldl_append]
  rfl

variable (cfg) in
def WorkingOp.adds (sid : CString) : WorkingOp → Bool
  | .insert caller input session _ => addsTo cfg caller input session = some sid
  | _ => false

variable (cfg) in
/-- How many records have been added to a session. -/
def added (ops : List (Sample × WorkingOp)) (sid : CString) : ℕ :=
  ops.countP fun o => o.2.adds cfg sid

theorem added_concat (ops : List (Sample × WorkingOp)) (o : Sample × WorkingOp) (sid : CString) :
    added cfg (ops ++ [o]) sid = added cfg ops sid + if o.2.adds cfg sid then 1 else 0 := by
  simp [added, countP_append, countP_singleton]

/-- What an operation does to the working memory. -/
inductive WorkingStep (cfg : DbConfig) (env : Sample) (ws : WorkingStore) :
    WorkingOp → WorkingStore → Prop
  | aged {op ws'} (adds : ∀ sid, op.adds cfg sid = false) (aged : ws.Aged env.now ws') :
    WorkingStep cfg env ws op ws'
  | taken {caller session id toType sid r ws'} (own : r.agentId = some caller)
    (taken : ws.Taken env.now sid r ws') :
    WorkingStep cfg env ws (.promote caller session id toType) ws'
  | added {caller input session ttl sid copy ws'} (adds : addsTo cfg caller input session = some sid)
    (own : copy.agentId = some caller) (added : ws.Added env.now sid copy ws') :
    WorkingStep cfg env ws (.insert caller input session ttl) ws'

theorem workingStep {count : CString → ℕ} (h : db.working.Counted count) (op : WorkingOp) :
    WorkingStep cfg env db.working op (op.apply cfg env db).working := by
  cases op with
  | insert caller input session ttl =>
    cases hadds : addsTo cfg caller input session with
    | none =>
      obtain ⟨st, hrefused⟩ := qeInsert_of_not_addsTo hadds ttl
      refine .aged (fun sid => by simp [WorkingOp.adds, hadds]) ?_
      rw [WorkingOp.apply, hrefused]
      exact .refl env.now _
    | some sid =>
      obtain ⟨copy, hown, -, hadded⟩ := qeInsert_of_addsTo hadds ttl
      refine .added hadds ?_ (hadded env db count h).1
      exact hown
  | get caller sid id => exact .aged (fun _ => rfl) (aged_workingStoreGet db.working sid id env.now)
  | promote caller session id toType =>
    rcases working_qePromote session id toType caller with hkeep | ⟨sid, htake⟩
    · refine .aged (fun _ => rfl) ?_
      rw [WorkingOp.apply, hkeep]
      exact .refl env.now _
    · rw [WorkingOp.apply, htake]
      rcases workingStoreTake_cases db.working sid id env.now (some caller) with
        ⟨-, haged, -⟩ | ⟨r, -, -, -, hown, htaken⟩
      · exact .aged (fun _ => rfl) haged
      · exact .taken (hown rfl) htaken
  | sweep => exact .aged (fun _ => rfl) (aged_workingStoreSweep db.working env.now)

variable (cfg ns) in
theorem worked_counted (h : db.working.Counted fun _ => 0) (ops : List (Sample × WorkingOp)) :
    (worked cfg ns db ops).1.working.Counted (added cfg ops) ∧
      (worked cfg ns db ops).1.working.capacity = db.working.capacity ∧
      (worked cfg ns db ops).1.working.defaultTtl = db.working.defaultTtl := by
  induction ops using reverseRecOn with
  | nil => exact ⟨h, rfl, rfl⟩
  | append_singleton ops o ih =>
    obtain ⟨hc, hcap, httl⟩ := ih
    rw [worked_concat]
    obtain ⟨env, op⟩ := o
    have hstep : WorkingStep cfg env _ op _ := workingStep hc op
    generalize (op.apply cfg env (worked cfg ns db ops).1).working = ws at hstep ⊢
    have hsame : (∀ sid, op.adds cfg sid = false) → added cfg (ops ++ [(env, op)]) = added cfg ops := by
      intro hadds
      funext sid
      simp [added_concat, hadds sid]
    cases hstep with
    | aged adds aged =>
      rw [hsame adds]
      exact ⟨aged.counted hc, aged.capacity.trans hcap, aged.defaultTtl.trans httl⟩
    | taken own taken =>
      rw [hsame fun _ => rfl]
      exact ⟨taken.counted hc, taken.capacity.trans hcap, taken.defaultTtl.trans httl⟩
    | @added caller input session ttl sid copy _ adds own added =>
      refine ⟨?_, added.capacity.trans hcap, added.defaultTtl.trans httl⟩
      convert added.counted _ hc using 1
      funext sid'
      rw [added_concat, Function.update_apply]
      by_cases heq : sid' = sid
      · simp [WorkingOp.adds, adds, heq]
      · simp [WorkingOp.adds, adds, heq, Ne.symm heq]

/-- Two stores have the same live records of a namespace. -/
def Agree (ns : CString) (now : UInt64) (ws ws' : WorkingStore) : Prop :=
  ∀ sid r, r.agentId = some ns → recordExpired r now = false → (ws.Holds sid r ↔ ws'.Holds sid r)

theorem agree_iff_promotable {ws ws' : WorkingStore} {count count' : CString → ℕ} {now : UInt64}
    (h : ws.Counted count) (h' : ws'.Counted count') :
    Agree ns now ws ws' ↔ ∀ sid id, promotable ns ws sid id now = promotable ns ws' sid id now := by
  constructor
  · intro hagree sid id
    refine ext fun r => ?_
    rw [promotable_eq_some h, promotable_eq_some h']
    refine ⟨fun hr => ?_, fun hr => ?_⟩
    · exact ⟨(hagree sid r hr.2.2.2 hr.2.2.1).1 hr.1, hr.2⟩
    · exact ⟨(hagree sid r hr.2.2.2 hr.2.2.1).2 hr.1, hr.2⟩
  · intro hsame sid r hown hlive
    have hiff : promotable ns ws sid r.id now = some r ↔ promotable ns ws' sid r.id now = some r := by
      rw [hsame]
    rw [promotable_eq_some h, promotable_eq_some h'] at hiff
    exact ⟨fun hr => (hiff.1 ⟨hr, rfl, hlive, hown⟩).1, fun hr => (hiff.2 ⟨hr, rfl, hlive, hown⟩).1⟩

section

variable {ws ws' w w' : WorkingStore} {t now : UInt64} {count count' : CString → ℕ}
  (h : Agree ns now ws ws') (hle : t ≤ now)

include h hle

theorem Agree.aged_left (hw : ws.Aged t w) : Agree ns now w ws' := fun sid r hown hlive =>
  (hw.holds sid (live_of_le hle hlive)).trans (h sid r hown hlive)

theorem Agree.aged (hw : ws.Aged t w) (hw' : ws'.Aged t w') : Agree ns now w w' :=
  fun sid r hown hlive => (h.aged_left hle hw sid r hown hlive).trans
    (hw'.holds sid (live_of_le hle hlive)).symm

theorem Agree.taken_left (hc : ws.Counted count) {q : MemoryRecord} (hq : q.agentId ≠ some ns)
    (hw : ws.Taken t sid q w) : Agree ns now w ws' := by
  intro sid' r hown hlive
  rw [hw.holds hc sid' (live_of_le hle hlive), h sid' r hown hlive]
  refine and_iff_left fun heq => hq ?_
  rw [← heq.2, hown]

theorem Agree.taken (hc : ws.Counted count) (hc' : ws'.Counted count') {sid : CString}
    {q : MemoryRecord} (hw : ws.Taken t sid q w) (hw' : ws'.Taken t sid q w') : Agree ns now w w' := by
  intro sid' r hown hlive
  have hlive := live_of_le hle hlive
  rw [hw.holds hc sid' hlive, hw'.holds hc' sid' hlive, h sid' r hown ‹_›]

/-- A record of another namespace is added, in the place of none that could still be promoted. -/
theorem Agree.added_left (hc : ws.Counted count) {copy : MemoryRecord}
    (hcopy : copy.agentId ≠ some ns) (hw : ws.Added t sid copy w)
    (hkeep : ∀ r, (getSession ws sid).slots[(getSession ws sid).head]? = some (some r) →
      r.agentId = some ns → recordExpired r t = true) : Agree ns now w ws' := by
  intro sid' r hown hlive
  have hlive' := live_of_le hle hlive
  by_cases heq : sid' = sid
  · subst heq
    rw [hw.holds count hc r hlive', ← h sid' r hown hlive]
    constructor
    · rintro (rfl | ⟨hr, -⟩)
      · exact absurd hown hcopy
      · exact hr
    · refine fun hr => .inr ⟨hr, fun htag => ?_⟩
      rw [hkeep r (hc.head_iff.2 ⟨hr, htag⟩) hown] at hlive'
      cases hlive'
  · rw [hw.other sid' r heq hlive', h sid' r hown hlive]

theorem Agree.added (hc : ws.Counted count) (hc' : ws'.Counted count')
    (hcap : ws.capacity = ws'.capacity) {sid : CString} {copy : MemoryRecord}
    (hnext : (getSession ws sid).nextId = (getSession ws' sid).nextId) (hw : ws.Added t sid copy w)
    (hw' : ws'.Added t sid copy w') : Agree ns now w w' := by
  intro sid' r hown hlive
  have hlive' := live_of_le hle hlive
  by_cases heq : sid' = sid
  · subst heq
    rw [hw.holds count hc r hlive', hw'.holds count' hc' r hlive', h sid' r hown hlive, hcap, hnext]
  · rw [hw.other sid' r heq hlive', hw'.other sid' r heq hlive', h sid' r hown hlive]

end

theorem purged_concat (ops : List (Sample × WorkingOp)) (o : Sample × WorkingOp) :
    purged ns (ops ++ [o]) = purged ns ops ++ if o.2.concerns ns then [o] else [] := by
  rw [purged, filter_append]
  cases hc : o.2.concerns ns <;> simp [purged, hc]

theorem concerns_or_intrudes (h : op.adds cfg sid = true) :
    op.concerns ns = true ∨ op.Intrudes cfg ns sid := by
  cases op with
  | insert caller input session ttl =>
    simp only [WorkingOp.adds, decide_eq_true_eq] at h
    by_cases hcaller : caller = ns
    · exact .inl (decide_eq_true hcaller)
    · exact .inr ⟨hcaller, h⟩
  | get | promote | sweep => cases h

theorem WorkingOp.Intrudes.adds (h : op.Intrudes cfg ns sid) :
    op.adds cfg sid = true ∧ op.concerns ns = false := by
  cases op with
  | insert caller input session ttl => exact ⟨decide_eq_true h.2, decide_eq_false h.1⟩
  | get | promote | sweep => exact absurd h not_false

theorem added_purged {ops : List (Sample × WorkingOp)} (h : ∀ o ∈ ops, ¬ o.2.Intrudes cfg ns sid) :
    added cfg (purged ns ops) sid = added cfg ops sid := by
  rw [added, purged, countP_filter, added]
  refine countP_congr fun o ho => ?_
  rw [Bool.and_eq_true]
  exact and_iff_left_of_imp fun hadds => (concerns_or_intrudes hadds).resolve_right (h o ho)

theorem added_purged_lt {ops : List (Sample × WorkingOp)} {o : Sample × WorkingOp} (ho : o ∈ ops)
    (h : o.2.Intrudes cfg ns sid) :
    added cfg (purged ns ops) sid < added cfg ops sid := by
  obtain ⟨hadds, hconcerns⟩ := h.adds
  have hle : ∀ l : List (Sample × WorkingOp), added cfg (purged ns l) sid ≤ added cfg l sid :=
    fun l => List.Sublist.countP_le filter_sublist
  obtain ⟨pre, post, rfl⟩ := append_of_mem ho
  have hsplit : purged ns (pre ++ o :: post) = purged ns pre ++ purged ns post := by
    simp [purged, filter_append, hconcerns]
  have hpre := hle pre
  have hpost := hle post
  rw [hsplit]
  simp only [added, countP_append, countP_cons, hadds, if_true] at hpre hpost ⊢
  omega

/-! ## Isolation -/

section

variable (h₀ : db.working.Counted fun _ => 0)

include h₀

variable {ops : List (Sample × WorkingOp)}

omit h₀ in
theorem forall_concat_le {now : UInt64} (hle : ∀ o ∈ ops, o.1.now ≤ env.now) :
    (∀ o ∈ ops ++ [(env, op)], o.1.now ≤ now) ↔ env.now ≤ now := by
  simp only [forall_mem_append, forall_mem_singleton, and_iff_right_iff_imp]
  exact fun hnow o ho => UInt64.le_trans (hle o ho) hnow

theorem isolated_iff :
    Isolated cfg ns db ops ↔
      (worked cfg ns db ops).2 = (worked cfg ns db (purged ns ops)).2 ∧
      ∀ now, (∀ o ∈ ops, o.1.now ≤ now) →
        Agree ns now (worked cfg ns db ops).1.working
          (worked cfg ns db (purged ns ops)).1.working := by
  have hiff : ∀ now, Agree ns now _ _ ↔ _ := fun now => agree_iff_promotable
    (worked_counted cfg ns h₀ ops).1 (worked_counted cfg ns h₀ (purged ns ops)).1
  constructor
  · exact fun h => ⟨h.given, fun now hnow => (hiff now).2 fun sid id => h.promotable sid id now hnow⟩
  · exact fun h => ⟨h.1, fun sid id now hnow => (hiff now).1 (h.2 now hnow) sid id⟩

section

variable (h : Isolated cfg ns db ops) (hle : ∀ o ∈ ops, o.1.now ≤ env.now)

include h hle

theorem isolated_concat_of_concerns (hop : op.concerns ns = true) :
    Isolated cfg ns db (ops ++ [(env, op)]) ↔
      op.given cfg ns env (worked cfg ns db ops).1 =
          op.given cfg ns env (worked cfg ns db (purged ns ops)).1 ∧
        ∀ now, env.now ≤ now → Agree ns now (op.apply cfg env (worked cfg ns db ops).1).working
          (op.apply cfg env (worked cfg ns db (purged ns ops)).1).working := by
  rw [isolated_iff h₀, purged_concat, if_pos hop, worked_concat, worked_concat, h.given,
    append_right_inj]
  exact and_congr_right fun _ => forall_congr' fun now => imp_congr_left (forall_concat_le hle)

theorem isolated_concat_of_not_concerns (hop : op.concerns ns = false) :
    Isolated cfg ns db (ops ++ [(env, op)]) ↔
      ∀ now, env.now ≤ now → Agree ns now (op.apply cfg env (worked cfg ns db ops).1).working
        (worked cfg ns db (purged ns ops)).1.working := by
  have hgiven : op.given cfg ns env (worked cfg ns db ops).1 = [] := by
    cases op with
    | insert => exact if_neg (of_decide_eq_false hop)
    | get | promote | sweep => rfl
  rw [isolated_iff h₀, purged_concat, hop, if_neg Bool.false_ne_true, append_nil, worked_concat,
    hgiven, append_nil]
  exact (and_iff_right h.given).trans (forall_congr' fun now => imp_congr_left (forall_concat_le hle))

theorem Isolated.concat (hop : Undisturbing cfg ns db ops (env, op)) :
    Isolated cfg ns db (ops ++ [(env, op)]) := by
  obtain ⟨hc, hcap, httl⟩ := worked_counted cfg ns h₀ ops
  obtain ⟨hc', hcap', httl'⟩ := worked_counted cfg ns h₀ (purged ns ops)
  have hagree : ∀ now, env.now ≤ now → Agree ns now (worked cfg ns db ops).1.working
      (worked cfg ns db (purged ns ops)).1.working := fun now hnow =>
    ((isolated_iff h₀).1 h).2 now fun o ho => UInt64.le_trans (hle o ho) hnow
  by_cases hconcerns : op.concerns ns = true
  · rw [isolated_concat_of_concerns h₀ h hle hconcerns]
    cases op with
    | insert caller input session ttl =>
      obtain rfl : caller = ns := of_decide_eq_true hconcerns
      simp only [WorkingOp.given, WorkingOp.apply, if_true]
      cases hadds : addsTo cfg caller input session with
      | none =>
        obtain ⟨st, hrefused⟩ := qeInsert_of_not_addsTo (F := F) hadds ttl
        rw [hrefused, hrefused]
        exact ⟨rfl, hagree⟩
      | some sid =>
        obtain ⟨copy, -, -, hadded⟩ := qeInsert_of_addsTo (F := F) hadds ttl
        have halone := hop sid hadds
        rw [if_pos rfl] at halone
        -- the session has the counter it would have without the others
        have hnext : (getSession (worked cfg caller db ops).1.working sid).nextId =
            (getSession (worked cfg caller db (purged caller ops)).1.working sid).nextId := by
          rw [hc.nextId, hc'.nextId, added_purged halone]
        have hcopy : workingCopy (worked cfg caller db ops).1.working
              (getSession (worked cfg caller db ops).1.working sid) copy env.now ttl =
            workingCopy (worked cfg caller db (purged caller ops)).1.working
              (getSession (worked cfg caller db (purged caller ops)).1.working sid) copy env.now
              ttl := by
          simp only [workingCopy, httl, httl', hnext]
        obtain ⟨hadd, hreply⟩ := hadded env (worked cfg caller db ops).1 _ hc
        obtain ⟨hadd', hreply'⟩ := hadded env (worked cfg caller db (purged caller ops)).1 _ hc'
        rw [hcopy] at hadd hreply
        rw [hreply, hreply']
        exact ⟨rfl, fun now hnow => (hagree now hnow).added hnow hc hc' (hcap.trans hcap'.symm) hnext
          hadd hadd'⟩
    | get caller sid id =>
      refine ⟨rfl, fun now hnow => (hagree now hnow).aged hnow ?_ ?_⟩
      · exact aged_workingStoreGet _ sid id env.now
      · exact aged_workingStoreGet _ sid id env.now
    | promote caller session id toType =>
      obtain rfl : caller = ns := of_decide_eq_true hconcerns
      refine ⟨rfl, fun now hnow => ?_⟩
      simp only [WorkingOp.apply]
      rcases working_qePromote session id toType caller with hkeep | ⟨sid, htake⟩
      · rw [hkeep, hkeep]
        exact hagree now hnow
      · rw [htake, htake]
        -- both find the same record, or none
        have hsame : AegisDB.promotable caller _ sid id env.now =
            AegisDB.promotable caller _ sid id env.now :=
          (agree_iff_promotable hc hc').1 (hagree env.now (UInt64.le_refl _)) sid id
        unfold AegisDB.promotable at hsame
        rcases workingStoreTake_cases (worked cfg caller db ops).1.working sid id env.now
            (some caller) with ⟨hnone, haged, -⟩ | ⟨r, hr, -, -, -, htaken⟩ <;>
          rcases workingStoreTake_cases (worked cfg caller db (purged caller ops)).1.working sid id
            env.now (some caller) with ⟨hnone', haged', -⟩ | ⟨r', hr', -, -, -, htaken'⟩
        · exact (hagree now hnow).aged hnow haged haged'
        · rw [hnone, hr'] at hsame
          cases hsame
        · rw [hr, hnone'] at hsame
          cases hsame
        · rw [hr, hr'] at hsame
          cases hsame
          exact (hagree now hnow).taken hnow hc hc' htaken htaken'
    | sweep =>
      refine ⟨rfl, fun now hnow => (hagree now hnow).aged hnow ?_ ?_⟩
      · exact aged_workingStoreSweep _ env.now
      · exact aged_workingStoreSweep _ env.now
  · rw [isolated_concat_of_not_concerns h₀ h hle (by simpa using hconcerns)]
    intro now hnow
    have hstep : WorkingStep cfg env _ op _ := workingStep hc op
    generalize (op.apply cfg env (worked cfg ns db ops).1).working = ws at hstep ⊢
    cases hstep with
    | aged adds aged => exact (hagree now hnow).aged_left hnow aged
    | @taken caller _ _ _ _ r _ own taken =>
      refine (hagree now hnow).taken_left hnow hc (fun hr => hconcerns ?_) taken
      exact decide_eq_true (some.inj (own.symm.trans hr))
    | @added caller _ _ _ sid copy _ adds own added =>
      have hcaller : caller ≠ ns := fun heq => hconcerns (decide_eq_true heq)
      have hkeep := hop sid adds
      rw [if_neg hcaller] at hkeep
      refine (hagree now hnow).added_left hnow hc (fun hcopy => hcaller ?_) added hkeep
      exact some.inj (own.symm.trans hcopy)

theorem Isolated.undisturbing (h' : Isolated cfg ns db (ops ++ [(env, op)]))
    (hlen : ops.length < 2 ^ 64)
    (hnow : env.now ≠ 0xFFFFFFFFFFFFFFFF) (httl : db.working.defaultTtl ≠ 0) :
    Undisturbing cfg ns db ops (env, op) := by
  obtain ⟨hc, -, hdef⟩ := worked_counted cfg ns h₀ ops
  obtain ⟨hc', -, hdef'⟩ := worked_counted cfg ns h₀ (purged ns ops)
  have hagree := ((isolated_iff h₀).1 h).2 env.now hle
  cases op with
  | get | promote | sweep => trivial
  | insert caller input session ttl =>
    intro sid hadds
    obtain ⟨copy, hown, hformed, hadded⟩ := qeInsert_of_addsTo hadds ttl
    obtain ⟨hadd, hreply⟩ := hadded env (worked cfg ns db ops).1 _ hc
    by_cases hcaller : caller = ns
    · subst hcaller
      rw [if_pos rfl]
      intro o ho hintrudes
      -- the ids that are given differ by what the intruders have added
      have hself : WorkingOp.concerns caller (.insert caller input session ttl) = true :=
        decide_eq_true rfl
      obtain ⟨hgiven, -⟩ := (isolated_concat_of_concerns h₀ h hle hself).1 h'
      obtain ⟨-, hreply'⟩ := hadded env (worked cfg caller db (purged caller ops)).1 _ hc'
      rw [insertReply_workingCopy hformed hnow (hdef ▸ httl)] at hreply
      rw [insertReply_workingCopy hformed hnow (hdef' ▸ httl)] at hreply'
      simp only [WorkingOp.given, if_true, hreply, hreply', Except.map, List.cons.injEq, and_true,
        Except.ok.injEq, workingCopy, hc.nextId, hc'.nextId] at hgiven
      have hlt := added_purged_lt ho hintrudes
      have hcount : added cfg ops sid ≤ ops.length := countP_le_length
      have := RingOf.ofNat_inj hgiven.symm (by omega) (by omega)
      omega
    · rw [if_neg hcaller]
      intro s r hr hrown
      by_contra hlive
      replace hlive : recordExpired r env.now = false := by simpa using hlive
      -- the record is lost, and would be there without the others
      obtain ⟨hholds, htag⟩ := hc.head_iff.1 hr
      have hother : WorkingOp.concerns ns (.insert caller input session ttl) = false :=
        decide_eq_false hcaller
      have hafter := (isolated_concat_of_not_concerns h₀ h hle hother).1 h'
        env.now (UInt64.le_refl _) sid r hrown hlive
      have hstays := hafter.2 ((hagree sid r hrown hlive).1 hholds)
      rcases (hadd.holds _ hc r hlive).1 hstays with heq | ⟨-, hne⟩
      · rw [heq] at hrown
        exact hcaller (some.inj (hown.symm.trans hrown))
      · exact hne htag

end

end

theorem counted_workingStoreCreate {capacity : ℕ} (hcap : capacity < 2 ^ 32) (ttl : UInt64) :
    (workingStoreCreate capacity ttl).Counted fun _ => 0 := by
  have hsize : 0 < (workingStoreCreate capacity ttl).capacity ∧
      (workingStoreCreate capacity ttl).capacity < 2 ^ 32 := by
    simp only [workingStoreCreate]
    split_ifs <;> omega
  exact ⟨hsize.1, by omega, fun sid => .empty _ _, fun sid => (Nat.zero_mod _).symm, fun sid => rfl⟩

end

/-- **Working memory is isolated** from namespaces that keep out of the sessions of others: a
namespace is given the ids and can promote the records it would without the others, when it adds to
no session another one has added to, and no other one evicts a live record of it. Before the end of
time, and of the ids, that is also necessary. -/
theorem isolated_of_undisturbed (cfg : DbConfig) (ns : CString) {db : Database F} {capacity : ℕ}
    {ttl : UInt64} (hcap : capacity < 2 ^ 32) (hdb : db.working = workingStoreCreate capacity ttl)
    {ops : List (Sample × WorkingOp)} (hclock : ops.Pairwise fun a b => a.1.now ≤ b.1.now) :
    ((∀ pre o, pre ++ [o] <+: ops → Undisturbing cfg ns db pre o) →
        ∀ pre, pre <+: ops → Isolated cfg ns db pre) ∧
      (ops.length < 2 ^ 64 → (∀ o ∈ ops, o.1.now ≠ 0xFFFFFFFFFFFFFFFF) →
        (∀ pre, pre <+: ops → Isolated cfg ns db pre) →
          ∀ pre o, pre ++ [o] <+: ops → Undisturbing cfg ns db pre o) := by
  have h₀ : db.working.Counted fun _ => 0 := by
    rw [hdb]
    exact counted_workingStoreCreate hcap ttl
  have hle : ∀ {pre o}, pre ++ [o] <+: ops → ∀ a ∈ pre, a.1.now ≤ o.1.now := by
    intro pre o hpre a ha
    have hpair := (pairwise_append.1 (hclock.sublist hpre.sublist)).2.2
    exact hpair a ha o (mem_singleton.2 rfl)
  constructor
  · intro hquiet pre
    induction pre using reverseRecOn with
    | nil => exact fun _ => ⟨rfl, fun _ _ _ _ => rfl⟩
    | append_singleton pre o ih =>
      intro hpre
      have hpre' := (prefix_append pre [o]).trans hpre
      exact (ih hpre').concat h₀ (hle hpre) (hquiet pre o hpre)
  · intro hlen hend hall pre o hpre
    have hpre' := (prefix_append pre [o]).trans hpre
    have hlen' := hpre'.length_le
    refine (hall pre hpre').undisturbing h₀ (hle hpre) (hall _ hpre) (by omega)
      (hend o (hpre.subset (by simp))) ?_
    rw [hdb]
    simp only [workingStoreCreate]
    split_ifs with httl
    · exact httl
    · decide

/-- An insert of a note into the session `s`. -/
def noteIn (caller : CString) : Sample × WorkingOp :=
  (.zero, .insert caller { recordInit with data := [120] } (some (.ofBytes [115])) 0)

/-- The namespaces `a` and `b`. -/
def tenantA : CString := .ofBytes [97]
def tenantB : CString := .ofBytes [98]

/-- The second tenant of the session is given the id 2, and would be given 1 alone. -/
theorem shared_session_not_isolated :
    (worked .unlimited tenantA (.create .unlimited fun _ => () : Database plainFraming)
        [noteIn tenantB, noteIn tenantA]).2 = [.ok 2] ∧
      (worked .unlimited tenantA (.create .unlimited fun _ => () : Database plainFraming)
        (purged tenantA [noteIn tenantB, noteIn tenantA])).2 = [.ok 1] ∧
      ¬ Isolated .unlimited tenantA (.create .unlimited fun _ => () : Database plainFraming)
        [noteIn tenantB, noteIn tenantA] := by
  have hshared : (worked .unlimited tenantA (.create .unlimited fun _ => () : Database plainFraming)
      [noteIn tenantB, noteIn tenantA]).2 = [.ok 2] := by decide +kernel
  have halone : (worked .unlimited tenantA (.create .unlimited fun _ => () : Database plainFraming)
      (purged tenantA [noteIn tenantB, noteIn tenantA])).2 = [.ok 1] := by decide +kernel
  refine ⟨hshared, halone, fun h => ?_⟩
  have hgiven := h.given
  rw [hshared, halone] at hgiven
  exact absurd hgiven (by simp)

/-- An operation of another tenant that does not add leaves the first one alone. -/
theorem promote_of_other_isolated :
    Isolated .unlimited tenantA (.create .unlimited fun _ => () : Database plainFraming)
      [noteIn tenantA, (.zero, .promote tenantB (some (.ofBytes [115])) 1 .semantic)] := by
  refine (isolated_of_undisturbed .unlimited tenantA (by decide : 0 < 2 ^ 32) rfl (by decide)).1 ?_ _
    (prefix_refl _)
  intro pre o hpre
  match pre with
  | [] =>
    obtain ⟨rfl, -⟩ := cons_prefix_cons.1 hpre
    intro sid _
    rw [if_pos rfl]
    simp
  | [a] =>
    obtain ⟨-, hpre⟩ := cons_prefix_cons.1 hpre
    obtain ⟨rfl, -⟩ := cons_prefix_cons.1 hpre
    trivial
  | a :: b :: pre =>
    obtain ⟨-, hpre⟩ := cons_prefix_cons.1 hpre
    obtain ⟨-, hpre⟩ := cons_prefix_cons.1 hpre
    simp at hpre

end AegisDB
