import AegisDB.Foundations.DenseArray
import AegisDB.Query.PointInTime
import AegisDB.Storage.Identifiers

/-!
# The accounts of the tenants

With a token configured, every append of a record with a namespace changes the account of that
namespace by the difference of the version to the one before it, and refuses a version that would
take the account over a limit. Recovery fills the accounts from the live records.

A store with the accounts runs from an empty directory through the writes of clients, compactions,
checkpoints, restarts with any configuration, and the tokens that are added and revoked (`Tenancy`).
`accounts_exact` says in which runs the accounts are exact.
-/

namespace AegisDB

open Bytes List Function Option Database LogFile
open Prod (fst snd)

variable {F : Framing}

/-! ## What a namespace uses -/

instance : Add TenantUsage := ⟨fun u v => ⟨u.records + v.records, u.bytes + v.bytes⟩⟩

@[simp] theorem TenantUsage.add_eq (u v : TenantUsage) :
    u + v = ⟨u.records + v.records, u.bytes + v.bytes⟩ := rfl

/-- The namespace of the record in a payload. -/
def ownerOf (p : Bytes) : Option CString := (recordDecode p).bind MemoryRecord.agentId

/-- What a namespace uses of some payloads. -/
def usageOn (ns : CString) (xs : List (UInt64 × Bytes)) : TenantUsage :=
  let own := xs.filter fun x => decide (ownerOf x.2 = some ns)
  ⟨own.length, (own.map fun x => x.2.length).sum⟩

def livePayloads (F : Framing) (s : Db) : List (UInt64 × Bytes) :=
  (liveEntries s.hash).filterMap fun x => (s.log.read F x.2.offset).map fun p => (x.1, p)

/-- The live records of a namespace, and their bytes. -/
def usageOf (F : Framing) (s : Db) (ns : CString) : TenantUsage := usageOn ns (livePayloads F s)

section

variable {ns : CString} {xs ys : List (UInt64 × Bytes)}

@[simp] theorem usageOn_nil : usageOn ns [] = ⟨0, 0⟩ := rfl

theorem usageOn_append : usageOn ns (xs ++ ys) = usageOn ns xs + usageOn ns ys := by
  simp [usageOn]

theorem usageOn_singleton (id : UInt64) (p : Bytes) :
    usageOn ns [(id, p)] = if ownerOf p = some ns then ⟨1, p.length⟩ else ⟨0, 0⟩ := by
  by_cases h : ownerOf p = some ns <;> simp [usageOn, h]

theorem usageOn_perm (h : xs.Perm ys) : usageOn ns xs = usageOn ns ys := by
  have hown := h.filter fun x => decide (ownerOf x.2 = some ns)
  simp only [usageOn]
  rw [hown.length_eq, (hown.map fun x => x.2.length).sum_eq]

end

/-- One live record counts for its namespace. -/
def seedRecord (t : CString → TenantUsage) (p : Bytes) : CString → TenantUsage :=
  (ownerOf p).elim t fun ns => update t ns (tenantUsageAdjust (t ns) (1, p.length))

/-- The accounts that the second pass of `recovery_run` fills. -/
def seedTenants (F : Framing) (s : Db) : CString → TenantUsage :=
  (livePayloads F s).foldl (fun t x => seedRecord t x.2) fun _ => ⟨0, 0⟩

theorem seedRecord_apply (t : CString → TenantUsage) (id : UInt64) (p : Bytes) (ns : CString) :
    seedRecord t p ns = t ns + usageOn ns [(id, p)] := by
  rw [usageOn_singleton, seedRecord]
  cases ownerOf p with
  | none => simp
  | some o =>
    by_cases ho : o = ns
    · subst ho
      simp [tenantUsageAdjust]
      omega
    · simp [ho, update_of_ne (Ne.symm ho)]

theorem foldl_seedRecord (xs : List (UInt64 × Bytes)) (t : CString → TenantUsage) (ns : CString) :
    xs.foldl (fun t x => seedRecord t x.2) t ns = t ns + usageOn ns xs := by
  induction xs generalizing t with
  | nil => simp
  | cons x xs ih =>
    have hcons : usageOn ns (x :: xs) = usageOn ns [x] + usageOn ns xs := by
      rw [← singleton_append, usageOn_append]
    rw [foldl_cons, ih, seedRecord_apply t x.1, hcons]
    simp [add_assoc]

theorem seedTenants_eq (s : Db) : seedTenants F s = usageOf F s := by
  funext ns
  rw [seedTenants, foldl_seedRecord]
  simp [usageOf]

section

variable {s : Db} {fs : List (F.Nonce × Bytes)}

section

variable (h : CleanDb F s fs)

include h

/-- A live record is read from the log, and its entry has the length of its payload. -/
theorem CleanDb.of_hashIndexGet {id : UInt64} {e : HashEntry}
    (he : hashIndexGet s.hash id = some e) :
    ∃ p, logRead F s.log.bytes e.offset = some p ∧ payloadMap (fs.map snd) id = some p ∧
      e.length = p.length := by
  obtain ⟨hlook, hlive⟩ := hashIndexGet_eq_some.1 he
  obtain ⟨hintact, hmap⟩ := liveMap_framesBytes h.appendable h.lookup
  rw [← h.bytes] at hintact hmap
  obtain ⟨p, hp⟩ := hintact id e hlook hlive
  refine ⟨p, hp, ?_, ?_⟩
  · rw [← hmap, liveMap, he]
    exact hp
  · rcases h.sound id e hlook hlive with ⟨q, hq, r, -, -, hentry⟩ | hnone
    · cases hp.symm.trans hq
      rw [hentry]
      rfl
    · have := hnone []
      rw [append_nil, hp] at this
      cases this

theorem CleanDb.of_payloadMap {id : UInt64} {p : Bytes}
    (hp : payloadMap (fs.map snd) id = some p) :
    ∃ e, hashIndexGet s.hash id = some e ∧ logRead F s.log.bytes e.offset = some p := by
  obtain ⟨-, hmap⟩ := liveMap_framesBytes h.appendable h.lookup
  rw [← h.bytes] at hmap
  rw [← hmap] at hp
  exact bind_eq_some_iff.1 hp

theorem CleanDb.length_prior (id : UInt64) :
    (hashIndexGet s.hash id).map HashEntry.length =
      (payloadMap (fs.map snd) id).map List.length := by
  cases he : hashIndexGet s.hash id with
  | none =>
    cases hp : payloadMap (fs.map snd) id with
    | none => rfl
    | some p =>
      obtain ⟨e, he', -⟩ := h.of_payloadMap hp
      cases he.symm.trans he'
  | some e =>
    obtain ⟨p, -, hp, hlen⟩ := h.of_hashIndexGet he
    simp [hp, hlen]

theorem CleanDb.mem_idsOf {id : UInt64} {p : Bytes}
    (hp : payloadMap (fs.map snd) id = some p) : id ∈ idsOf fs := by
  obtain ⟨e, he, -⟩ := h.of_payloadMap hp
  apply mem_idsOf_of_replay
  rw [← h.lookup, (hashIndexGet_eq_some.1 he).1]
  rfl

theorem CleanDb.ownerOf_eq {id : UInt64} {r : MemoryRecord} {p : Bytes}
    (hload : loadRecord F s id = .ok r) (hp : payloadMap (fs.map snd) id = some p) :
    ownerOf p = r.agentId := by
  obtain ⟨e, he, hread⟩ := loadRecord_eq_ok.1 hload
  obtain ⟨q, hq, hmap, -⟩ := h.of_hashIndexGet he
  cases hp.symm.trans hmap
  obtain ⟨q', hq', hdec⟩ := bind_eq_some_iff.1 hread
  obtain ⟨-, hq'⟩ := read_eq_some.1 hq'
  cases hq.symm.trans hq'
  rw [ownerOf, hdec]
  rfl

theorem CleanDb.lists_livePayloads (hopen : s.log.isOpen = true) :
    Lists (payloadMap (fs.map snd)) (livePayloads F s) where
  mem_iff id p := by
    have hlive := liveOf_liveEntries s.hash
    unfold livePayloads
    rw [mem_filterMap]
    constructor
    · rintro ⟨⟨id', e⟩, he, hp⟩
      obtain ⟨q, hq, heq⟩ := map_eq_some_iff.1 hp
      cases heq
      obtain ⟨hlook, hdel⟩ := (hlive.mem_iff _).1 he
      obtain ⟨p', hp', hmap, -⟩ := h.of_hashIndexGet (hashIndexGet_eq_some.2 ⟨hlook, hdel⟩)
      obtain ⟨-, hq⟩ := read_eq_some.1 hq
      cases hp'.symm.trans hq
      exact hmap
    · intro hp
      obtain ⟨e, he, hread⟩ := h.of_payloadMap hp
      refine ⟨(id, e), (hlive.mem_iff _).2 (hashIndexGet_eq_some.1 he), ?_⟩
      rw [read_eq_some.2 ⟨hopen, hread⟩]
      rfl
  nodup := by
    have hnodup := (liveOf_liveEntries s.hash).nodup
    rw [List.Nodup, pairwise_map] at hnodup ⊢
    unfold livePayloads
    rw [pairwise_filterMap]
    refine hnodup.imp fun {x y} hne b hb b' hb' => ?_
    obtain ⟨p, -, rfl⟩ := map_eq_some_iff.1 hb
    obtain ⟨q, -, rfl⟩ := map_eq_some_iff.1 hb'
    exact hne

end

end

structure TenantUsage.Within (cfg : DbConfig) (u : TenantUsage) : Prop where
  records : cfg.tenantMaxRecords ≠ 0 → u.records ≤ cfg.tenantMaxRecords
  bytes : cfg.tenantMaxBytes ≠ 0 → u.bytes ≤ cfg.tenantMaxBytes

section

variable {cfg : DbConfig} {env : Sample} {db db' : Database F} {r : MemoryRecord}

theorem Database.tenants_appendAndHash (h : db.appendAndHash cfg env r = .ok db') :
    ∃ p, recordEncode r = some p ∧
      (∀ ns ∈ env.tenant r, tenantUsageWouldExceed cfg (db.tenants ns)
        (usageDelta db.store.hash r p.length) = false) ∧
      db'.tenants = (env.tenant r).elim db.tenants fun ns => update db.tenants ns
        (tenantUsageAdjust (db.tenants ns) (usageDelta db.store.hash r p.length)) := by
  unfold Database.appendAndHash at h
  split at h
  · cases h
  · rename_i p hp
    dsimp only at h
    split at h
    · cases h
    · rename_i hexceed
      split at h
      · cases h
      · cases h
        refine ⟨p, hp, fun ns hns => ?_, rfl⟩
        rw [mem_def.1 hns] at hexceed
        simpa using hexceed

/-- A change that is not refused keeps an account within the limits. -/
theorem TenantUsage.Within.adjust {u : TenantUsage} (h : u.Within cfg) {d : ℤ × ℤ}
    (hd : tenantUsageWouldExceed cfg u d = false) : (tenantUsageAdjust u d).Within cfg := by
  obtain ⟨hrecords, hbytes⟩ := Bool.or_eq_false_iff.1 hd
  simp only [Bool.and_eq_false_iff, decide_eq_false_iff_not, not_not, not_lt] at hrecords hbytes
  refine ⟨fun hmax => ?_, fun hmax => ?_⟩
  · have := h.records hmax
    show ((u.records : ℤ) + d.1).toNat ≤ _
    omega
  · have := h.bytes hmax
    show ((u.bytes : ℤ) + d.2).toNat ≤ _
    omega

theorem Database.within_appendAndHash (hw : ∀ ns, (db.tenants ns).Within cfg)
    (h : db.appendAndHash cfg env r = .ok db') (ns : CString) : (db'.tenants ns).Within cfg := by
  obtain ⟨p, -, hexceed, htenants⟩ := tenants_appendAndHash h
  rw [htenants]
  cases hns : env.tenant r with
  | none => exact hw ns
  | some o =>
    by_cases ho : ns = o
    · subst ho
      rw [elim_some, update_self]
      exact (hw ns).adjust (hexceed ns hns)
    · rw [elim_some, update_of_ne ho]
      exact hw ns

/-- The entry of an id in a list of entries, if it has one. -/
def slot (id : UInt64) (o : Option Bytes) : List (UInt64 × Bytes) := o.toList.map fun p => (id, p)

theorem usageOn_slot (ns : CString) (id : UInt64) (o : Option Bytes) :
    usageOn ns (slot id o) =
      o.elim ⟨0, 0⟩ fun p => if ownerOf p = some ns then ⟨1, p.length⟩ else ⟨0, 0⟩ := by
  cases o with
  | none => rfl
  | some p => exact usageOn_singleton id p

/-- The change of an account is the difference of what the id uses. -/
theorem tenantUsageAdjust_slot {ns : CString} {old : Option Bytes} {p : Bytes} {h : HashIndex}
    (hold : ∀ q ∈ old, ownerOf q = some ns) (hp : ownerOf p = some ns)
    (hprior : (hashIndexGet h r.id).map HashEntry.length = old.map List.length) (u : TenantUsage) :
    tenantUsageAdjust (usageOn ns (slot r.id old) + u) (usageDelta h r p.length) =
      usageOn ns (slot r.id (if r.deleted then none else some p)) + u := by
  rw [usageOn_slot, usageOn_slot, usageDelta]
  -- what the index says of the version before is what the list says of it
  have helim : (hashIndexGet h r.id).isSome = old.isSome ∧
      ((hashIndexGet h r.id).elim 0 fun e => (e.length : ℤ)) =
        old.elim 0 fun q => (q.length : ℤ) := by
    cases he : hashIndexGet h r.id <;> cases hq : old <;> simp_all
  simp only [helim.1, helim.2]
  cases old with
  | none => cases r.deleted <;> simp [tenantUsageAdjust, hp]; omega
  | some q =>
    have hq := hold q rfl
    cases r.deleted <;> simp [tenantUsageAdjust, hp, hq]
    omega

/-- **An append keeps the accounts exact**, if the record and the version before it count for the
same namespace. -/
theorem Database.exact_appendAndHash {m : UInt64 → Option Bytes} {xs : List (UInt64 × Bytes)}
    (hxs : Lists m xs) (hexact : ∀ ns, db.tenants ns = usageOn ns xs)
    (hprior : (hashIndexGet db.store.hash r.id).map HashEntry.length = (m r.id).map List.length)
    (howner : ∀ q ∈ m r.id, ownerOf q = r.agentId)
    (hauth : env.authOn = true ∨ r.agentId = none) (hr : r.WireFormed)
    (h : db.appendAndHash cfg env r = .ok db') :
    ∃ ys, Lists (applyPayload m (recordBytes r)) ys ∧ ∀ ns, db'.tenants ns = usageOn ns ys := by
  obtain ⟨p, hp, -, htenants⟩ := tenants_appendAndHash h
  rw [recordEncode_of_wireFormed hr] at hp
  cases hp
  have hdec := recordDecode_of_wireFormed hr
  have hown : ownerOf (recordBytes r) = r.agentId := by
    rw [ownerOf, hdec]
    rfl
  have happly : applyPayload m (recordBytes r) =
      update m r.id (if r.deleted then none else some (recordBytes r)) := by
    rw [applyPayload, hdec]
    rfl
  refine ⟨_, happly ▸ hxs.update r.id _, fun ns => ?_⟩
  have hbefore : db.tenants ns = usageOn ns (slot r.id (m r.id)) +
      usageOn ns (xs.filter fun x => decide (x.1 ≠ r.id)) := by
    rw [hexact, usageOn_perm (hxs.perm_cons r.id), usageOn_append]
    rfl
  rw [usageOn_append]
  change _ = usageOn ns (slot r.id _) + _
  rw [htenants, Sample.tenant]
  by_cases hns : r.agentId = some ns
  · have hauth : env.authOn = true := hauth.resolve_right (by simp [hns])
    rw [if_pos hauth, hns, elim_some, update_self, hbefore]
    refine tenantUsageAdjust_slot (fun q hq => ?_) (hown.trans hns) hprior _
    rw [howner q hq, hns]
  · -- neither version counts for another namespace
    have hzero (o : Option Bytes) (ho : ∀ q ∈ o, ownerOf q = r.agentId) :
        usageOn ns (slot r.id o) = ⟨0, 0⟩ := by
      rw [usageOn_slot]
      cases o with
      | none => rfl
      | some q => rw [elim_some, if_neg (by rw [ho q rfl]; exact hns)]
    rw [hzero (if r.deleted then none else some (recordBytes r)) ?_, ← hzero (m r.id) howner,
      ← hbefore]
    · split
      · cases hag : r.agentId with
        | none => rfl
        | some o =>
          have hne : ns ≠ o := by
            rintro rfl
            exact hns hag
          rw [elim_some, update_of_ne hne]
      · rfl
    · intro q hq
      split at hq
      · cases hq
      · cases hq
        exact hown

end

/-- A primary with its tokens and the accounts of its tenants, and what a restart finds on disk. -/
structure Tenancy (F : Framing) where
  cfg : DbConfig
  db : Database F
  phase : Phase
  index : Option Checkpoint
  floor : UInt64
  /-- The checkpoint belongs to another log. -/
  stale : Bool
  tokens : ℕ

inductive TenancyAct (F : Framing)
  | client (a : ClientAct)
  | promote (env : Sample) (session : Option CString) (workingId : UInt64) (toType : MemoryType)
    (ns : Option CString)
  /-- A step of a compaction, a checkpoint, or `metadata.db`. -/
  | upkeep (a : StoreAct F)
  | tokenAdd
  | tokenRevoke
  /-- The process ends with `k` bytes of the log on disk; `db_open` with a configuration and so many
  tokens. -/
  | restart (k : ℕ) (cfg : DbConfig) (tokens : ℕ) (rest : Database F)

/-- The operation sees whether there are tokens. -/
def ClientAct.withAuth (authOn : Bool) : ClientAct → ClientAct
  | .insert env input session ttl => .insert { env with authOn } input session ttl
  | .update env id patch ns => .update { env with authOn } id patch ns
  | .relate env fromId toId kind ns => .relate { env with authOn } fromId toId kind ns
  | .delete env id ns => .delete { env with authOn } id ns

namespace Tenancy

def toStore (t : Tenancy F) : Store where
  engine := ⟨t.db.store, t.phase⟩
  index := t.index
  floor := t.floor
  nextId := t.db.nextId
  pending := []
  acked := []
  stale := t.stale

def withStore (t : Tenancy F) (s : Store) : Tenancy F :=
  { t with
    db := { t.db with store := s.engine.db, nextId := s.nextId }
    phase := s.engine.phase
    index := s.index
    floor := s.floor
    stale := s.stale }

/-- `db_open`: with tokens, the accounts are those of the live records. -/
def reopened (t : Tenancy F) (k : ℕ) (cfg : DbConfig) (tokens : ℕ) (rest : Database F) : Tenancy F :=
  let s := dbOpen F t.toStore k
  let seeds := if 0 < tokens then seedTenants F s.engine.db else fun _ => ⟨0, 0⟩
  Tenancy.withStore ⟨cfg, { rest with tenants := seeds }, .idle, none, 0, false, tokens⟩ s

def fresh (cfg : DbConfig) (nonces : ℕ → F.Nonce) : Tenancy F :=
  ⟨cfg, .create cfg nonces, .idle, none, 0, false, 0⟩

end Tenancy

def tenancyStep (t : Tenancy F) : TenancyAct F → Option (Tenancy F)
  | .client a =>
    if t.phase.indexFree then
      (clientStep t.cfg t.db (a.withAuth (0 < t.tokens))).map fun db => { t with db }
    else none
  | .promote env session workingId toType ns =>
    if t.phase.indexFree then
      some { t with
        db := (qePromote t.cfg { env with authOn := 0 < t.tokens } t.db session workingId toType
          ns).1 }
    else none
  | .upkeep a =>
    if a.isUpkeep then (storeStep F t.cfg.fsyncBatch t.toStore a).map t.withStore else none
  | .tokenAdd => some { t with tokens := t.tokens + 1 }
  | .tokenRevoke => some { t with tokens := t.tokens - 1 }
  | .restart k cfg tokens rest =>
    if t.db.store.log.synced ≤ k ∧ k ≤ t.db.store.log.file.length then
      some (t.reopened k cfg tokens rest)
    else none

/-! ## Steps that keep the accounts -/

/-- The namespace of the record that an operation writes. -/
def ClientAct.subject (db : Database F) : ClientAct → Option CString
  | .insert _ input _ _ => input.agentId
  | .update _ id _ _ | .relate _ id _ _ _ | .delete _ id _ =>
    (currentRecord F db.store id).bind MemoryRecord.agentId

/-- The namespace of the record that a `promote` writes. -/
def promoteSubject (db : Database F) (env : Sample) (session : Option CString) (workingId : UInt64)
    (ns : Option CString) : Option CString :=
  session.bind fun sid => (workingStoreTake db.working sid workingId env.now ns).2.bind fun w =>
    ns.elim w.agentId some

/-- The step writes and recovers nothing for a namespace while there is no token; the ids have not
run out; and a restart finds no namespace over the limits, and a checkpoint only if it belongs to
the log. -/
def Accountable (t : Tenancy F) : TenancyAct F → Prop
  | .client a =>
    (0 < t.tokens ∨ a.subject t.db = none) ∧ t.db.nextId ≠ 0xFFFFFFFFFFFFFFFF
  | .promote env session workingId _ ns =>
    (0 < t.tokens ∨ promoteSubject t.db env session workingId ns = none) ∧
      t.db.nextId ≠ 0xFFFFFFFFFFFFFFFF
  | .restart k cfg tokens _ =>
    (t.stale = true → ∀ c ∈ t.index, k < c.covered) ∧
      let s := (dbOpen F t.toStore k).engine.db
      (0 < tokens ∨ ∀ ns, usageOf F s ns = ⟨0, 0⟩) ∧ ∀ ns, (usageOf F s ns).Within cfg
  | _ => True

/-- The accounts are those of the live payloads, and within the limits. -/
structure Tenancy.Inv (t : Tenancy F) (fs : List (F.Nonce × Bytes)) (xs : List (UInt64 × Bytes)) :
    Prop where
  ids : IdInv F t.toStore fs
  lists : Lists (payloadMap (fs.map snd)) xs
  exact : ∀ ns, t.db.tenants ns = usageOn ns xs
  within : ∀ ns, (t.db.tenants ns).Within t.cfg

section

variable {t : Tenancy F} {fs : List (F.Nonce × Bytes)} {xs : List (UInt64 × Bytes)}

theorem Tenancy.inv_fresh (cfg : DbConfig) (nonces : ℕ → F.Nonce) :
    (Tenancy.fresh cfg nonces).Inv [] [] where
  ids := idInv_fresh
  lists := ⟨fun k v => by simp [payloadMap], nodup_nil⟩
  exact _ := rfl
  within _ := ⟨fun _ => Nat.zero_le _, fun _ => Nat.zero_le _⟩

theorem Tenancy.Inv.of_eq (h : t.Inv fs xs) {db : Database F} (hstore : db.store = t.db.store)
    (htenants : db.tenants = t.db.tenants) (hmono : ∀ x, x < t.db.nextId → x < db.nextId) :
    ({ t with db } : Tenancy F).Inv fs xs := by
  obtain ⟨store, ix, working, nextId, tenants, nonces⟩ := db
  dsimp only at hstore htenants hmono
  subst hstore htenants
  refine ⟨⟨⟨h.ids.store.clean, h.ids.store.index⟩, nofun, nofun,
    fun x hx => hmono x (h.ids.frames x hx), fun hzero => ?_, h.ids.checkpoint, h.ids.bounds⟩,
    h.lists, h.exact, h.within⟩
  have := hmono 0 (UInt64.pos_iff_ne_zero.2 h.ids.nextId)
  rw [show nextId = 0 from hzero] at this
  exact absurd this (by decide)

theorem Tenancy.Inv.cleanDb (h : t.Inv fs xs) (hopen : t.db.store.log.isOpen = true) :
    CleanDb F t.db.store fs := by
  refine h.ids.store.clean.cleanDb ?_
  rw [← Bool.not_eq_false]
  intro hind
  exact absurd (hopen.symm.trans (h.ids.store.clean.closed hind)) (by simp)

variable {env : Sample}

/-- An append of a new record or of a version of one of the same namespace, and a flush. -/
theorem Tenancy.Inv.write (h : t.Inv fs xs) (hfree : t.phase.indexFree = true)
    {db₀ db₁ : Database F} {r : MemoryRecord} (happ : db₀.appendAndHash t.cfg env r = .ok db₁)
    (hr : r.Formed) (hstore : db₀.store = t.db.store) (htenants : db₀.tenants = t.db.tenants)
    (hauth : env.authOn = true ∨ r.agentId = none) (hmono : ∀ x, x < t.db.nextId → x < db₀.nextId)
    (howner : (r.id = t.db.nextId ∧ r.id < db₀.nextId) ∨
      ∃ cur, loadRecord F t.db.store r.id = .ok cur ∧ cur.agentId = r.agentId) (ix : Indexes) :
    ∃ gs ys, ({ t with db := ({ db₁ with ix }.durablyFlush t.cfg env).1 } : Tenancy F).Inv gs ys := by
  obtain ⟨happend, -, -, hnext⟩ := of_appendAndHash happ
  have hw := wireFormed_of_appendAndHash hr happend
  rw [hstore] at happend
  have hclean := h.cleanDb (lookup_appendAndHash (r := ⟨r, hw⟩) happend).1
  -- the version before this one, if there is any, counts for the same namespace
  have hprior : ∀ q ∈ payloadMap (fs.map snd) r.id, ownerOf q = r.agentId := by
    intro q hq
    rcases howner with ⟨hid, -⟩ | ⟨cur, hload, hagent⟩
    · have hlt := h.ids.frames _ (hclean.mem_idsOf hq)
      rw [hid] at hlt
      exact absurd hlt (UInt64.lt_irrefl _)
    · rw [hclean.ownerOf_eq hload hq, hagent]
  have hid : r.id < db₁.nextId := by
    rw [hnext]
    rcases howner with ⟨-, hlt⟩ | ⟨cur, hload, -⟩
    · exact hlt
    · obtain ⟨e, he, -⟩ := loadRecord_eq_ok.1 hload
      obtain ⟨q, -, hq, -⟩ := hclean.of_hashIndexGet he
      exact hmono _ (h.ids.frames _ (hclean.mem_idsOf hq))
  have hids : IdInv F ({ t with db := { db₁ with ix } } : Tenancy F).toStore
      (fs ++ [(db₀.nonces 0, recordBytes r)]) := by
    have hstep : EngineStep F t.cfg.fsyncBatch ⟨t.db.store, t.phase⟩
        (.write (db₀.nonces 0) ⟨r, hw⟩) ⟨db₁.store, t.phase⟩ := .write hfree happend
    refine IdInv.write (t := ({ t with db := { db₁ with ix } } : Tenancy F).toStore) (r := ⟨r, hw⟩)
      h.ids hstep rfl rfl rfl (fun x hx => ?_) nofun hid
    show x < db₁.nextId
    rw [hnext]
    exact hmono x hx
  have hexact : ∀ ns, db₀.tenants ns = usageOn ns xs := fun ns => htenants ▸ h.exact ns
  obtain ⟨ys, hys, htable⟩ := exact_appendAndHash h.lists hexact
    (hstore ▸ hclean.length_prior r.id) hprior hauth hw happ
  have hwithin : ∀ ns, (db₁.tenants ns).Within t.cfg :=
    within_appendAndHash (fun ns => htenants ▸ h.within ns) happ
  have hflush : EngineStep F t.cfg.fsyncBatch ⟨db₁.store, t.phase⟩ (.flush env.fsyncOk) _ :=
    .flush (Phase.logFree_of_indexFree hfree)
  refine ⟨_, ys, { hids with store := hids.store.flush hflush rfl rfl }, ?_, htable, hwithin⟩
  rw [map_append, payloadMap_append]
  exact hys

variable {db' : Database F}

section

variable (h : t.Inv fs xs) (hfree : t.phase.indexFree = true)

include h hfree

theorem Tenancy.Inv.insertStep {db₀ : Database F} {input : MemoryRecord} {ttl : UInt64}
    {res : Except Status MemoryRecord}
    (hstep : InsertStep t.cfg env db₀ input ttl db' res) (hstore : db₀.store = t.db.store)
    (htenants : db₀.tenants = t.db.tenants) (hnext : db₀.nextId = t.db.nextId)
    (htop : t.db.nextId ≠ 0xFFFFFFFFFFFFFFFF) (hauth : env.authOn = true ∨ input.agentId = none) :
    ∃ gs ys, ({ t with db := db' } : Tenancy F).Inv gs ys := by
  have hlt : t.db.nextId < db₀.nextId + 1 := by
    rw [hnext]
    exact lt_succ_of_ne htop
  have hmono : ∀ x, x < t.db.nextId → x < db₀.nextId + 1 := fun x hx => UInt64.lt_trans hx hlt
  cases hstep with
  | refused | working add => exact ⟨fs, xs, h.of_eq hstore htenants fun x hx => hnext ▸ hx⟩
  | failed => exact ⟨fs, xs, h.of_eq hstore htenants hmono⟩
  | wrote valid data clone append reply =>
    refine h.write hfree append (formed_stampRecord clone ..) hstore htenants ?_ hmono
      (.inl ⟨hnext, hnext ▸ hlt⟩) _
    exact hauth.imp_right (agentId_of_recordClone clone).trans

section

variable {id : UInt64} {ns : Option CString}
  (hauth : env.authOn = true ∨ (currentRecord F t.db.store id).bind MemoryRecord.agentId = none)

include hauth

theorem Tenancy.Inv.rewrite {db₀ db₁ : Database F} {cur r : MemoryRecord}
    (happ : db₀.appendAndHash t.cfg env r = .ok db₁) (hr : r.Formed)
    (hdb : db₀.store = t.db.store ∧ db₀.tenants = t.db.tenants ∧ db₀.nextId = t.db.nextId)
    (hload : loadRecord F t.db.store id = .ok cur) (hid : r.id = cur.id)
    (hagent : r.agentId = cur.agentId) (ix : Indexes) :
    ∃ gs ys, ({ t with db := ({ db₁ with ix }.durablyFlush t.cfg env).1 } : Tenancy F).Inv gs ys := by
  have hcur : cur.id = id := by
    obtain ⟨e, -, hread⟩ := loadRecord_eq_ok.1 hload
    obtain ⟨p, hp, -⟩ := bind_eq_some_iff.1 hread
    exact ((h.cleanDb (read_eq_some.1 hp).1).sound.of_loadRecord hload).1
  refine h.write hfree happ hr hdb.1 hdb.2.1 (hauth.imp_right fun hnone => ?_)
    (fun x hx => hdb.2.2 ▸ hx) (.inr ⟨cur, by rw [hid, hcur]; exact hload, hagent.symm⟩) ix
  rw [currentRecord_eq_some.2 hload] at hnone
  exact hagent.trans hnone

theorem Tenancy.Inv.updateStep {patch : UpdatePatch} {res : Except Status MemoryRecord}
    (hstep : UpdateStep t.cfg env t.db id patch ns db' res) :
    ∃ gs ys, ({ t with db := db' } : Tenancy F).Inv gs ys := by
  cases hstep with
  | refused => exact ⟨fs, xs, h⟩
  | wrote load owner type adopt valid append reply =>
    have hformed := UpdatePatch.formed_apply (wellFormed_of_loadRecord load).formed adopt env.now
    exact h.rewrite hfree hauth append hformed ⟨rfl, rfl, rfl⟩ load rfl rfl _

theorem Tenancy.Inv.relateStep {toId : UInt64} {kind : Option CString} {res : Except Status Unit}
    (hstep : RelateStep t.cfg env t.db id toId kind ns db' res) :
    ∃ gs ys, ({ t with db := db' } : Tenancy F).Inv gs ys := by
  cases hstep with
  | kept => exact ⟨fs, xs, h⟩
  | wrote load owner target ne short fresh append =>
    have hformed := formed_relatedRecord (wellFormed_of_loadRecord load).formed id toId kind env.now
    exact h.rewrite hfree hauth append hformed ⟨rfl, rfl, rfl⟩ load rfl rfl _

theorem Tenancy.Inv.deleteStep {res : Except Status Unit}
    (hstep : DeleteStep t.cfg env t.db id ns db' res) :
    ∃ gs ys, ({ t with db := db' } : Tenancy F).Inv gs ys := by
  cases hstep with
  | refused => exact ⟨fs, xs, h⟩
  | failed load owner append => exact ⟨fs, xs, h.of_eq rfl rfl fun _ hx => hx⟩
  | @wrote cur db' _ load owner append =>
    have hformed := formed_tombstone (wellFormed_of_loadRecord load).formed env.now
    exact h.rewrite hfree hauth append hformed ⟨rfl, rfl, rfl⟩ load rfl rfl db'.ix

end

theorem Tenancy.Inv.client {a : ClientAct} (ha : Accountable t (.client a))
    (hstep : clientStep t.cfg t.db (a.withAuth (0 < t.tokens)) = some db') :
    ∃ gs ys, ({ t with db := db' } : Tenancy F).Inv gs ys := by
  obtain ⟨hauth, htop⟩ := ha
  have hauth := hauth.imp_left decide_eq_true
  cases a with
  | insert env input session ttl =>
    cases hstep
    exact h.insertStep hfree (qeInsert_step input session ttl) rfl rfl rfl htop hauth
  | update env id patch ns =>
    cases hstep
    exact h.updateStep hfree hauth (qeUpdate_step id patch ns)
  | relate env fromId toId kind ns =>
    cases hstep
    exact h.relateStep hfree hauth (qeRelate_step fromId toId kind ns)
  | delete env id ns =>
    cases hstep
    exact h.deleteStep hfree hauth (qeDelete_step id ns)

theorem Tenancy.Inv.promote (env : Sample) (session : Option CString) (workingId : UInt64)
    (toType : MemoryType) (ns : Option CString)
    (ha : Accountable t (.promote env session workingId toType ns)) :
    ∃ gs ys, ({ t with
      db := (qePromote t.cfg { env with authOn := 0 < t.tokens } t.db session workingId toType
        ns).1 } : Tenancy F).Inv gs ys := by
  obtain ⟨hauth, htop⟩ := ha
  have hauth := hauth.imp_left decide_eq_true
  unfold qePromote
  split
  · exact ⟨fs, xs, h⟩
  · split
    · exact ⟨fs, xs, h⟩
    · rename_i sid
      split
      · exact ⟨fs, xs, h⟩
      · split
        · exact ⟨fs, xs, h.of_eq rfl rfl fun _ => id⟩
        · rename_i ws w htake
          refine h.insertStep hfree (qeInsert_step _ none 0) rfl rfl rfl htop
            (hauth.imp_right fun hnone => ?_)
          simpa [promoteSubject, htake] using hnone

end

theorem StoreAct.ids_of_isUpkeep {a : StoreAct F} (ha : a.isUpkeep = true) {batch : ℕ}
    {s s' : Store} (hstep : StoreStep F batch s a s') : s'.pending = s.pending ∧ s'.acked = s.acked := by
  cases hstep with
  | @engine a engine background step =>
    obtain ⟨hacked, hpending, -⟩ := s.afterEngine_ids a engine
    exact ⟨hpending, hacked⟩
  | again | checkpoint | saveMetadata => exact ⟨rfl, rfl⟩
  | _ => cases ha

theorem Tenancy.toStore_withStore {s : Store} (hpending : s.pending = []) (hacked : s.acked = []) :
    (t.withStore s).toStore = s := by
  obtain ⟨engine, index, floor, nextId, pending, acked, stale⟩ := s
  subst hpending hacked
  rfl

theorem Tenancy.Inv.upkeep (h : t.Inv fs xs) {a : StoreAct F} (ha : a.isUpkeep = true) {s : Store}
    (hstep : storeStep F t.cfg.fsyncBatch t.toStore a = some s) :
    ∃ gs, (t.withStore s).Inv gs xs := by
  have hstep := StoreStep.of_eq hstep
  obtain ⟨hpending, hacked⟩ := StoreAct.ids_of_isUpkeep ha hstep
  have hev : EvidencedStep t.toStore a := by cases a <;> trivial
  obtain ⟨gs, hgs, hlive⟩ := h.ids.step hev hstep
  refine ⟨gs, ?_, hlive ha ▸ h.lists, h.exact, h.within⟩
  rw [Tenancy.toStore_withStore hpending hacked]
  exact hgs

theorem Tenancy.Inv.restart (h : t.Inv fs xs) {k : ℕ} {cfg : DbConfig} {tokens : ℕ}
    {rest : Database F} (hk : k ≤ t.db.store.log.file.length)
    (ha : Accountable t (.restart k cfg tokens rest)) :
    ∃ gs ys, (t.reopened k cfg tokens rest).Inv gs ys := by
  obtain ⟨hfresh, hseed, hwithin⟩ := ha
  have hids := h.ids.restart hk hfresh nofun
  have hclean := hids.store.clean.cleanDb rfl
  have htable : ∀ ns, (t.reopened k cfg tokens rest).db.tenants ns =
      usageOf F (dbOpen F t.toStore k).engine.db ns := by
    intro ns
    show (if 0 < tokens then seedTenants F _ else fun _ => ⟨0, 0⟩) ns = _
    split
    · rw [seedTenants_eq]
    · rw [hseed.resolve_left ‹_›]
  refine ⟨_, _, ?_, hclean.lists_livePayloads rfl, htable, fun ns => ?_⟩
  · exact hids
  · rw [htable]
    exact hwithin ns

theorem Tenancy.Inv.step (h : t.Inv fs xs) {a : TenancyAct F} {t' : Tenancy F}
    (ha : Accountable t a) (hstep : tenancyStep t a = some t') : ∃ gs ys, t'.Inv gs ys := by
  cases a with
  | client a =>
    obtain ⟨hfree, hstep⟩ := ite_none_right_eq_some.1 hstep
    obtain ⟨db, hdb, rfl⟩ := map_eq_some_iff.1 hstep
    exact h.client hfree ha hdb
  | promote env session workingId toType ns =>
    obtain ⟨hfree, hstep⟩ := ite_none_right_eq_some.1 hstep
    cases hstep
    exact h.promote hfree env session workingId toType ns ha
  | upkeep a =>
    obtain ⟨hupkeep, hstep⟩ := ite_none_right_eq_some.1 hstep
    obtain ⟨s, hs, rfl⟩ := map_eq_some_iff.1 hstep
    obtain ⟨gs, hgs⟩ := h.upkeep hupkeep hs
    exact ⟨gs, xs, hgs⟩
  | tokenAdd | tokenRevoke =>
    cases hstep
    exact ⟨fs, xs, h.ids, h.lists, h.exact, h.within⟩
  | restart k cfg tokens rest =>
    obtain ⟨⟨-, hk⟩, hstep⟩ := ite_none_right_eq_some.1 hstep
    cases hstep
    exact h.restart hk ha

end

/-- **The accounts are exact.** In every run from an empty directory whose steps are accountable,
each account has the number of live records and the sum of their lengths whenever the log is open,
within the limits. -/
theorem accounts_exact {cfg : DbConfig} {nonces : ℕ → F.Nonce} {as : List (TenancyAct F)}
    {t : Tenancy F} (hrun : run tenancyStep (.fresh cfg nonces) as = some t)
    (has : Along tenancyStep Accountable (.fresh cfg nonces) as) :
    (t.db.store.log.isOpen = true → ∀ ns, t.db.tenants ns = usageOf F t.db.store ns) ∧
      ∀ ns, (t.db.tenants ns).Within t.cfg := by
  obtain ⟨fs, xs, h⟩ := run_invariant (I := fun t : Tenancy F => ∃ fs xs, t.Inv fs xs)
    (fun _ _ _ ⟨_, _, h⟩ ha hstep => h.step ha hstep) ⟨[], [], Tenancy.inv_fresh cfg nonces⟩ has hrun
  refine ⟨fun hopen ns => ?_, h.within⟩
  rw [h.exact, usageOf, usageOn_perm (h.lists.perm ((h.cleanDb hopen).lists_livePayloads hopen))]

def agentNote : MemoryRecord :=
  { recordInit with type := .episodic, agentId := some (.ofString "a"), data := [110] }

def insertNote : TenancyAct plainFraming := .client (.insert .zero agentNote none 0)

/-- The number of tokens, the account of the agent, and what the agent uses. -/
def agentAccount (as : List (TenancyAct plainFraming)) : Option (ℕ × TenantUsage × TenantUsage) :=
  (run tenancyStep (.fresh .unlimited fun _ => ()) as).map fun t =>
    (t.tokens, t.db.tenants (.ofString "a"), usageOf plainFraming t.db.store (.ofString "a"))

set_option maxRecDepth 20000 in
/-- With a token from the start the note is counted. -/
theorem countedInsert_exact :
    ∃ t, run tenancyStep (.fresh .unlimited fun _ => ()) [.tokenAdd, insertNote] = some t ∧
      t.db.store.log.isOpen = true ∧ t.db.tenants (.ofString "a") = ⟨1, 65⟩ ∧
      t.db.tenants (.ofString "a") = usageOf plainFraming t.db.store (.ofString "a") := by
  have hsome : (run tenancyStep (.fresh .unlimited fun _ => ()) [.tokenAdd, insertNote]).map
      (fun t => (t.db.store.log.isOpen, t.db.tenants (.ofString "a"))) = some (true, ⟨1, 65⟩) := by
    decide +kernel
  obtain ⟨t, ht, heq⟩ := map_eq_some_iff.1 hsome
  obtain ⟨hopen, haccount⟩ := Prod.mk.inj heq
  have halong : Along tenancyStep Accountable (.fresh .unlimited fun _ => ())
      [.tokenAdd, insertNote] := by
    refine ⟨trivial, fun t' ht' => ?_⟩
    cases ht'
    exact ⟨⟨.inl Nat.one_pos, by decide⟩, fun _ _ => trivial⟩
  have hexact := (accounts_exact ht halong).1 hopen (.ofString "a")
  exact ⟨t, ht, hopen, haccount, hexact⟩

set_option maxRecDepth 20000 in
/-- The same note, inserted before the first token is added: the account of the agent says that it has
no record. -/
theorem openInsert_uncounted :
    agentAccount [insertNote, .tokenAdd] = some (1, ⟨0, 0⟩, ⟨1, 65⟩) := by
  decide +kernel

end AegisDB
