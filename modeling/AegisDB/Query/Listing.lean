import AegisDB.Query.PointInTime

/-!
# What the indexes list along a run

A write changes the records that are live and the secondary indexes together: `IndexStep` says once
how, for each of the operations of clients. The indexes of a filter query are exact but for facts: one
that the intern table of predicates refuses, for its length or because the table is full, is not
listed, and nothing but a line in the server's own log says so. `FilterListed` is what is left: the
time index and the tag index list the live records, and the fact index lists facts of live records.
Every step keeps it (`Database.Tracked.step`), so it holds behind every run (`Database.Tracked.run`).
-/

namespace AegisDB

open Function Option UpdatePatch MemoryRecord Database

variable {F : Framing}
variable {cur : MemoryRecord} {patch : UpdatePatch}

/-! ## Writes -/

/-- The operations that write a record: those of `ClientAct`, and `qe_promote`. -/
inductive WriteAct
  | client (a : ClientAct)
  | promote (env : Sample) (session : Option CString) (workingId : UInt64) (toType : MemoryType)
    (ns : Option CString)

def writeStep (cfg : DbConfig) (db : Database F) : WriteAct → Option (Database F)
  | .client a => clientStep cfg db a
  | .promote env session workingId toType ns =>
    some (qePromote cfg env db session workingId toType ns).1

/-- The record an operation means to insert. -/
def WriteAct.input (db : Database F) : WriteAct → Option MemoryRecord
  | .client (.insert _ input _ _) => some input
  | .promote env (some sid) workingId toType ns =>
    (workingStoreTake db.working sid workingId env.now ns).2.map fun w =>
      { w with type := toType, expiresAt := 0, agentId := ns.elim w.agentId some }
  | _ => none

/-- What a write changes in the live records and in the indexes. -/
inductive IndexStep (cfg : DbConfig) (db : Database F) (a : WriteAct) :
    (UInt64 → Option MemoryRecord) → Indexes → Prop
  | kept : IndexStep cfg db a (currentRecord F db.store) db.ix
  | insert {input copy : MemoryRecord} {now ttl : UInt64} (intended : a.input db = some input)
    (clone : recordClone input = some copy)
    (fresh : currentRecord F db.store db.nextId = none) :
    IndexStep cfg db a
      (update (currentRecord F db.store) db.nextId
        (some (stampRecord copy db.nextId now ttl).clamped))
      (indexRecord (fun _ => true) db.ix (stampRecord copy db.nextId now ttl))
  | update {env : Sample} {patch : UpdatePatch} {ns : Option CString} {cur : MemoryRecord}
    {fact : Fact} (act : a = .client (.update env cur.id patch ns))
    (load : currentRecord F db.store cur.id = some cur) (adopt : patch.adopt cur.fact = .ok fact)
    (valid : validateCommon cfg (patch.apply cur fact env.now) = .ok ()) :
    IndexStep cfg db a
      (update (currentRecord F db.store) cur.id
        (some (patch.apply cur fact env.now).clamped))
      (reindexRecord db.ix patch cur (patch.apply cur fact env.now))
  | relate {env : Sample} {toId : UInt64} {kind ns : Option CString} {cur : MemoryRecord}
    (act : a = .client (.relate env cur.id toId kind ns))
    (load : currentRecord F db.store cur.id = some cur) (target : targetOk db toId ns = true)
    (short : ∀ k ∈ kind, k.bytes.length ≤ maxRelKindLen) :
    IndexStep cfg db a
      (update (currentRecord F db.store) cur.id
        (some (relatedRecord cur cur.id toId kind env.now).clamped))
      { db.ix with edges := db.ix.edges.map fun e => edgeIndexAdd e cur.id toId kind }
  | delete {cur : MemoryRecord} (load : currentRecord F db.store cur.id = some cur) :
    IndexStep cfg db a (update (currentRecord F db.store) cur.id none)
      ((unindexRecord db.ix cur).dropTarget cur.id)

/-- A log that can be written, of records that fit into a frame and whose ids are given out. -/
structure Database.Sturdy (db : Database F) : Prop where
  sound : db.Sound
  isOpen : db.store.log.isOpen = true
  below : ∀ id r, loadRecord F db.store id = .ok r → id.toNat < db.nextId.toNat
  length_le : ∀ id r, loadRecord F db.store id = .ok r → (recordBytes r).length ≤ maxPayload

theorem Database.create_sturdy (cfg : DbConfig) (nonces : ℕ → F.Nonce) :
    (create cfg nonces).Sturdy where
  sound := create_sound cfg nonces
  isOpen := rfl
  below id r h := by
    rw [loadRecord_create] at h
    cases h
  length_le id r h := by
    rw [loadRecord_create] at h
    cases h

section

variable {cfg : DbConfig} {env : Sample} {db db' : Database F} {r : MemoryRecord}

theorem currentRecord_of_wrote {s s' : Db} (h : Wrote F s r s')
    (hs : Sound F s.log.bytes s.hash.lookup) : currentRecord F s' =
      update (currentRecord F s) r.id (if r.deleted then none else some r.clamped) := by
  funext id
  rw [currentRecord, h.loadRecord_eq hs, update_apply]
  split
  · cases r.deleted <;> rfl
  · rfl

theorem length_recordBytes_clamped (r : MemoryRecord) :
    (recordBytes r.clamped).length = (recordBytes r).length := by
  simp [recordBytes, putHead, MemoryRecord.clamped]

theorem Database.Sturdy.wrote (h : db.Sturdy) (hw : Wrote F db.store r db'.store)
    (hnext : db.nextId.toNat ≤ db'.nextId.toNat) (hid : r.id.toNat < db'.nextId.toNat) : db'.Sturdy where
  sound := hw.sound h.sound
  isOpen := hw.isOpen
  below id r' hr' := by
    rw [hw.loadRecord_eq h.sound] at hr'
    split at hr'
    · rename_i heq
      exact heq ▸ hid
    · exact (h.below id r' hr').trans_le hnext
  length_le id r' hr' := by
    rw [hw.loadRecord_eq h.sound] at hr'
    split at hr'
    · split at hr'
      · cases hr'
      · cases hr'
        rw [length_recordBytes_clamped]
        exact hw.length_le
    · exact h.length_le id r' hr'

theorem Database.Sturdy.of_store (h : db.Sturdy) (hstore : db'.store = db.store)
    (hnext : db.nextId.toNat ≤ db'.nextId.toNat) : db'.Sturdy where
  sound := by
    rw [Sound, hstore]
    exact h.sound
  isOpen := by rw [hstore]; exact h.isOpen
  below id r hr := by
    rw [hstore] at hr
    exact (h.below id r hr).trans_le hnext
  length_le id r hr := by
    rw [hstore] at hr
    exact h.length_le id r hr

/-- What a write keeps of the log, and what it changes in the indexes. -/
structure Tracks (cfg : DbConfig) (db : Database F) (a : WriteAct) (db' : Database F) : Prop where
  sturdy : db'.Sturdy
  appends : db'.store = db.store ∨ ∃ r, Wrote F db.store r db'.store
  le_nextId : db.nextId.toNat ≤ db'.nextId.toNat
  nextId_le : db'.nextId.toNat ≤ db.nextId.toNat + 1
  step : IndexStep cfg db a (currentRecord F db'.store) db'.ix

variable {a : WriteAct}

theorem Database.Sturdy.tracks_kept (h : db.Sturdy) (hstore : db'.store = db.store)
    (hix : db'.ix = db.ix) (hle : db.nextId.toNat ≤ db'.nextId.toNat)
    (hnext : db'.nextId.toNat ≤ db.nextId.toNat + 1) : Tracks cfg db a db' := by
  refine ⟨h.of_store hstore hle, .inl hstore, hle, hnext, ?_⟩
  rw [hstore, hix]
  exact .kept

theorem Database.Sturdy.tracks_wrote (h : db.Sturdy) (hw : Wrote F db.store r db'.store)
    (hnext : db'.nextId = db.nextId) (load : loadRecord F db.store r.id = .ok cur)
    (hstep : IndexStep cfg db a (update (currentRecord F db.store) r.id
      (if r.deleted then none else some r.clamped)) db'.ix) : Tracks cfg db a db' := by
  have hnat := congrArg UInt64.toNat hnext
  refine ⟨h.wrote hw hnat.ge ((h.below _ _ load).trans_eq hnat.symm), .inr ⟨_, hw⟩, hnat.ge,
    hnat.le.trans (Nat.le_succ _), ?_⟩
  rwa [currentRecord_of_wrote hw h.sound]

theorem Database.Sturdy.insert (h : db.Sturdy) (hroom : db.nextId.toNat + 1 < 2 ^ 64)
    {input : MemoryRecord} (hin : a.input db = some input) (ws : WorkingStore)
    (session : Option CString) (ttl : UInt64) :
    Tracks cfg db a (qeInsert cfg env { db with working := ws } input session ttl).1 := by
  have hstep : InsertStep cfg env { db with working := ws } input ttl _ _ :=
    qeInsert_step input session ttl
  have hsucc := toNat_nextId_succ hroom
  generalize (qeInsert cfg env { db with working := ws } input session ttl).1 = d at hstep ⊢
  generalize (qeInsert cfg env { db with working := ws } input session ttl).2 = res at hstep
  cases hstep with
  | refused | working => exact h.tracks_kept rfl rfl le_rfl (by simp)
  | failed => exact h.tracks_kept rfl rfl ((Nat.le_succ _).trans_eq hsucc.symm) hsucc.le
  | @wrote copy db₁ _ valid data clone append reply =>
    obtain ⟨-, hix, -, hnext⟩ := of_appendAndHash append
    have hw := wrote_of_appendAndHash (formed_stampRecord clone _ _ _) append
        (indexRecord (fun _ => true) db₁.ix (stampRecord copy db.nextId env.now ttl))
    have hfresh : currentRecord F db.store db.nextId = none := by
      rw [eq_none_iff_forall_not_mem]
      intro r hr
      exact lt_irrefl _ (h.below _ _ (currentRecord_eq_some.1 hr))
    have hnext' : db₁.nextId.toNat = db.nextId.toNat + 1 :=
      (congrArg UInt64.toNat hnext).trans hsucc
    have hle : db.nextId.toNat ≤ db₁.nextId.toNat := (Nat.le_succ _).trans_eq hnext'.symm
    refine ⟨h.wrote hw hle ?_, .inr ⟨_, hw⟩, hle, hnext'.le, ?_⟩
    · exact (Nat.lt_succ_self _).trans_eq hnext'.symm
    · rw [currentRecord_of_wrote hw h.sound, ix_durablyFlush, hix]
      exact .insert hin clone hfresh

theorem Database.Sturdy.promote (h : db.Sturdy) (hroom : db.nextId.toNat + 1 < 2 ^ 64)
    (session : Option CString) (workingId : UInt64) (toType : MemoryType) (ns : Option CString) :
    Tracks cfg db (.promote env session workingId toType ns)
      (qePromote cfg env db session workingId toType ns).1 := by
  unfold qePromote
  split
  · exact h.tracks_kept rfl rfl le_rfl (by simp)
  · split
    · exact h.tracks_kept rfl rfl le_rfl (by simp)
    · split
      · exact h.tracks_kept rfl rfl le_rfl (by simp)
      · split
        · exact h.tracks_kept rfl rfl le_rfl (by simp)
        · rename_i ws w htake
          refine h.insert hroom ?_ ws none 0
          simp [WriteAct.input, htake]

theorem Database.Sturdy.update (h : db.Sturdy) (id : UInt64) (patch : UpdatePatch)
    (ns : Option CString) : Tracks cfg db (.client (.update env id patch ns))
      (qeUpdate cfg env db id patch ns).1 := by
  obtain ⟨d, res, heq, hstep⟩ := exists_pair (@qeUpdate_step F cfg env db id patch ns)
  simp only [heq]
  cases hstep with
  | refused => exact h.tracks_kept rfl rfl le_rfl (by simp)
  | @wrote cur fact db₁ _ load owner type adopt valid append reply =>
    obtain ⟨-, hix, -, hnext⟩ := of_appendAndHash append
    obtain ⟨rfl, hlive⟩ := h.sound.of_loadRecord load
    have hw := wrote_of_appendAndHash
      (formed_apply (wellFormed_of_loadRecord load).toWireFormed.formed adopt env.now)
      append (reindexRecord db₁.ix patch cur (patch.apply cur fact env.now))
    refine h.tracks_wrote hw hnext load ?_
    have hdel : (patch.apply cur fact env.now).deleted = false := hlive
    rw [hdel, ix_durablyFlush, hix]
    exact .update rfl (currentRecord_eq_some.2 load) adopt valid

theorem Database.Sturdy.relate (h : db.Sturdy) (fromId toId : UInt64) (kind ns : Option CString) :
    Tracks cfg db (.client (.relate env fromId toId kind ns))
      (qeRelate cfg env db fromId toId kind ns).1 := by
  obtain ⟨d, res, heq, hstep⟩ := exists_pair (@qeRelate_step F cfg env db fromId toId kind ns)
  simp only [heq]
  cases hstep with
  | kept => exact h.tracks_kept rfl rfl le_rfl (by simp)
  | @wrote cur db₁ _ load owner target ne short fresh append =>
    obtain ⟨-, hix, -, hnext⟩ := of_appendAndHash append
    obtain ⟨rfl, hlive⟩ := h.sound.of_loadRecord load
    have hw := wrote_of_appendAndHash
      (formed_relatedRecord (wellFormed_of_loadRecord load).toWireFormed.formed cur.id toId kind
        env.now) append
      { db₁.ix with edges := db₁.ix.edges.map fun e => edgeIndexAdd e cur.id toId kind }
    refine h.tracks_wrote hw hnext load ?_
    have hdel : (relatedRecord cur cur.id toId kind env.now).deleted = false := hlive
    rw [hdel, ix_durablyFlush, hix]
    exact .relate rfl (currentRecord_eq_some.2 load) target short

theorem Database.Sturdy.delete (h : db.Sturdy) (id : UInt64) (ns : Option CString) :
    Tracks cfg db (.client (.delete env id ns)) (qeDelete cfg env db id ns).1 := by
  obtain ⟨d, res, heq, hstep⟩ := exists_pair (@qeDelete_step F cfg env db id ns)
  simp only [heq]
  cases hstep with
  | refused => exact h.tracks_kept rfl rfl le_rfl (by simp)
  | @failed cur st load owner append =>
    -- the tombstone is as long as the record, and an open log takes it
    obtain ⟨db₁, hok⟩ := appendAndHash_isOk_of_quota cfg env
      { db with ix := (unindexRecord db.ix cur).dropTarget cur.id } h.isOpen
      (wireFormed_tombstone (wellFormed_of_loadRecord load).toWireFormed env.now)
      ((length_recordBytes_tombstone cur env.now).trans_le (h.length_le _ _ load))
      (by simp [tenantUsageWouldExceed_tombstone])
    cases append.symm.trans hok
  | @wrote cur db₁ _ load owner append =>
    obtain ⟨-, hix, -, hnext⟩ := of_appendAndHash append
    obtain ⟨rfl, -⟩ := h.sound.of_loadRecord load
    have hw := Wrote.of_delete cfg env load append
    refine h.tracks_wrote hw hnext load ?_
    rw [ix_durablyFlush, hix]
    have hgone : IndexStep cfg db (.client (.delete env cur.id ns)) _ _ :=
      .delete (currentRecord_eq_some.2 load)
    exact hgone

theorem Database.Sturdy.tracks (h : db.Sturdy) (hroom : db.nextId.toNat + 1 < 2 ^ 64)
    (hstep : writeStep cfg db a = some db') : Tracks cfg db a db' := by
  rcases a with (_ | _ | _ | _) | _ <;> cases hstep
  · exact h.insert hroom rfl db.working _ _
  · exact h.update _ _ _
  · exact h.relate _ _ _ _
  · exact h.delete _ _
  · exact h.promote hroom _ _ _ _

end

/-! ## The indexes of a filter query -/

/-- The time index and the tag index list the records of `live`; the fact index lists facts of them,
but for those it has refused. -/
structure FilterListed (live : UInt64 → Option MemoryRecord) (ix : Indexes) : Prop where
  time : TimeExact (fun id => (live id).map created) ix.time
  tags : TagsExact (fun id => (live id).elim [] MemoryRecord.tags) ix.tags
  facts : ∀ f ∈ ix.facts, ∃ triples, FactsExact triples f ∧
    ∀ id t, triples id = some t → ∃ r, live id = some r ∧ r.fact.triple = some t

section

variable {live : UInt64 → Option MemoryRecord} {ix : Indexes} {r : MemoryRecord} {id : UInt64}

theorem FilterExact.listed (h : FilterExact live ix) : FilterListed live ix where
  time := h.time
  tags := h.tags
  facts f hf := ⟨_, h.facts f hf, fun _ _ => Option.bind_eq_some_iff.1⟩

theorem FilterListed.clamped (h : FilterListed (update live id (some r)) ix) :
    FilterListed (update live id (some r.clamped)) ix where
  time := by
    rw [view_congr (Option.map created) live id r.clamped r rfl]
    exact h.time
  tags := by
    rw [view_congr (fun o => o.elim [] MemoryRecord.tags) live id r.clamped r rfl]
    exact h.tags
  facts f hf := by
    obtain ⟨triples, hexact, hsub⟩ := h.facts f hf
    refine ⟨triples, hexact, fun id' t ht => ?_⟩
    obtain ⟨r', hr', ht'⟩ := hsub id' t ht
    by_cases hid : id' = id
    · subst hid
      rw [update_self] at hr' ⊢
      cases hr'
      exact ⟨_, rfl, ht'⟩
    · rw [update_of_ne hid] at hr' ⊢
      exact ⟨r', hr', ht'⟩

theorem exists_listed_update {triples : UInt64 → Option FactTriple} {f : FactIndex}
    (hsub : ∀ id t, triples id = some t → ∃ r, live id = some r ∧ r.fact.triple = some t)
    {o : Option FactTriple} {new : Option MemoryRecord}
    (hnew : ∀ t ∈ o, ∃ r, new = some r ∧ r.fact.triple = some t)
    (hexact : FactsExact (update triples id o) f) :
    ∃ triples, FactsExact triples f ∧ ∀ id' t, triples id' = some t →
      ∃ r, update live id new id' = some r ∧ r.fact.triple = some t := by
  refine ⟨_, hexact, fun id' t ht => ?_⟩
  by_cases hid : id' = id
  · subst hid
    rw [update_self] at ht ⊢
    exact hnew t ht
  · rw [update_of_ne hid] at ht ⊢
    exact hsub id' t ht

section

variable (h : FilterListed live ix)

include h

theorem FilterListed.facts_apply_add
    (hnone : ∀ old, live r.id = some old → old.fact.triple = none) :
    ∀ f ∈ dbFactIndexApply ix.facts r true, ∃ triples, FactsExact triples f ∧
      ∀ id t, triples id = some t →
        ∃ r', update live r.id (some r) id = some r' ∧ r'.fact.triple = some t := by
  intro f hf
  obtain ⟨f, hmem, rfl⟩ := mem_map.1 hf
  obtain ⟨triples, hexact, hsub⟩ := h.facts f hmem
  have hid : triples r.id = none := by
    rw [eq_none_iff_forall_not_mem]
    intro t ht
    obtain ⟨old, hold, ht'⟩ := hsub r.id t ht
    cases (hnone old hold).symm.trans ht'
  split
  · exact exists_listed_update hsub (o := none) (by simp) (by rwa [← hid, update_eq_self])
  · obtain ⟨o, ho, hexact'⟩ := hexact.offer hid r.fact
    exact exists_listed_update hsub (fun t ht => ⟨r, rfl, ho t ht⟩) hexact'

theorem FilterListed.add (keep : UInt64 → Bool) (hid : live r.id = none) :
    FilterListed (update live r.id (some r)) (indexRecord keep ix r) where
  time := by
    rw [view_update (Option.map created)]
    exact h.time.add (by simp [hid])
  tags := by
    rw [view_update (fun o => o.elim [] MemoryRecord.tags)]
    exact h.tags.add (by simp [hid]) r.tags
  facts := h.facts_apply_add fun old hold => by
    rw [hid] at hold
    cases hold

theorem FilterListed.remove (hid : live r.id = some r) :
    FilterListed (update live r.id none) ((unindexRecord ix r).dropTarget r.id) where
  time := by
    rw [view_update (Option.map created)]
    exact h.time.remove (by simp [hid])
  tags := by
    have := h.tags.remove r.id
    simp only [hid, elim_some] at this
    rw [view_update (fun o => o.elim [] MemoryRecord.tags)]
    exact this
  facts f hf := by
    obtain ⟨f, hmem, rfl⟩ := mem_map.1 hf
    obtain ⟨triples, hexact, hsub⟩ := h.facts f hmem
    have hlisted (t : FactTriple) (ht : triples r.id = some t) : r.fact.triple = some t := by
      obtain ⟨r', hr', ht'⟩ := hsub r.id t ht
      cases hid.symm.trans hr'
      exact ht'
    refine exists_listed_update hsub (o := none) (by simp) ?_
    split
    · rename_i hkind
      have hnone : triples r.id = none := by
        rw [eq_none_iff_forall_not_mem]
        intro t ht
        cases (Fact.triple_of_kind hkind).symm.trans (hlisted t ht)
      rwa [← hnone, update_eq_self]
    · exact hexact.withdraw hlisted

theorem FilterListed.facts_keep (hid : live cur.id = some cur) (hfact : r.fact = cur.fact) :
    ∀ f ∈ ix.facts, ∃ triples, FactsExact triples f ∧ ∀ id t, triples id = some t →
      ∃ r', update live cur.id (some r) id = some r' ∧ r'.fact.triple = some t := by
  intro f hf
  obtain ⟨triples, hexact, hsub⟩ := h.facts f hf
  refine exists_listed_update hsub (fun t ht => ?_)
    (by rwa [update_eq_self])
  obtain ⟨r', hr', ht'⟩ := hsub cur.id t ht
  cases hid.symm.trans hr'
  exact ⟨r, rfl, hfact ▸ ht'⟩

theorem FilterListed.keep {cur : MemoryRecord} (hid : live cur.id = some cur)
    (hcreated : r.created = cur.created) (htags : r.tags = cur.tags) (hfact : r.fact = cur.fact) :
    FilterListed (update live cur.id (some r)) ix where
  time := by
    rw [view_keep (Option.map created) hid r (by simp [hcreated])]
    exact h.time
  tags := by
    rw [view_keep (fun o => o.elim [] MemoryRecord.tags) hid r (by simp [htags])]
    exact h.tags
  facts := h.facts_keep hid hfact

end

theorem UpdatePatch.triple_of_adopt {cur fact : Fact}
    (h : patch.adopt cur = .ok fact) (hfact : patch.fact.isSome = true) : cur.triple = none := by
  unfold UpdatePatch.adopt at h
  split at h
  · rename_i hnone
    rw [hnone] at hfact
    cases hfact
  · split at h
    · cases h
    · rename_i hkind
      exact Fact.triple_of_kind (not_not.1 hkind)

theorem UpdatePatch.fact_of_adopt {cur fact : Fact}
    (h : patch.adopt cur = .ok fact) (hfact : patch.fact.isSome = false) : fact = cur := by
  unfold UpdatePatch.adopt at h
  rw [isSome_eq_false_iff, isNone_iff_eq_none] at hfact
  rw [hfact] at h
  cases h
  rfl

theorem FilterListed.reindex (h : FilterListed live ix)
    {fact : Fact} (hid : live cur.id = some cur) (hadopt : patch.adopt cur.fact = .ok fact)
    (now : UInt64) :
    FilterListed (update live cur.id (some (patch.apply cur fact now)))
      (reindexRecord ix patch cur (patch.apply cur fact now)) where
  time := by
    rw [view_keep (Option.map created) hid (patch.apply cur fact now) rfl]
    exact h.time
  tags := by
    rw [view_update (fun o => o.elim [] MemoryRecord.tags)]
    simp only [reindexRecord]
    split
    · have hgone := h.tags.remove cur.id
      simp only [hid, elim_some] at hgone
      have := hgone.add (update_self ..) (patch.apply cur fact now).tags
      rwa [update_idem] at this
    · rename_i hnone
      rw [Bool.not_eq_true, isSome_eq_false_iff, isNone_iff_eq_none] at hnone
      rw [update_eq_self_iff.2 (by simp [hid, UpdatePatch.apply, hnone])]
      exact h.tags
  facts := by
    simp only [reindexRecord]
    split
    · rename_i hfact
      refine h.facts_apply_add fun old hold => ?_
      cases hid.symm.trans hold
      exact triple_of_adopt hadopt hfact
    · rename_i hfact
      exact h.facts_keep hid (fact_of_adopt hadopt (Bool.not_eq_true _ ▸ hfact))

end

/-- A database whose log can be written, and whose indexes list what is live. -/
structure Database.Tracked (db : Database F) : Prop extends db.Sturdy where
  filters : FilterListed (currentRecord F db.store) db.ix

theorem FilterListed.step {cfg : DbConfig} {db : Database F} {a : WriteAct}
    {live : UInt64 → Option MemoryRecord} {ix : Indexes}
    (h : FilterListed (currentRecord F db.store) db.ix) (hstep : IndexStep cfg db a live ix) :
    FilterListed live ix := by
  cases hstep with
  | kept => exact h
  | @insert _ copy now ttl _ _ fresh =>
    exact (h.add (r := stampRecord copy db.nextId now ttl) _ fresh).clamped
  | update _ load adopt _ => exact (h.reindex load adopt _).clamped
  | @relate env toId kind _ cur _ load _ _ =>
    have hkeep := (h.keep (r := relatedRecord cur cur.id toId kind env.now) load rfl rfl rfl).clamped
    exact ⟨hkeep.time, hkeep.tags, hkeep.facts⟩
  | delete load => exact h.remove load

variable {cfg : DbConfig} {db db' : Database F} {a : WriteAct}

theorem Database.create_tracked (cfg : DbConfig) (nonces : ℕ → F.Nonce) :
    (create cfg nonces).Tracked :=
  { create_sturdy cfg nonces with
    filters := (create_exact cfg nonces).filters.listed }

theorem Database.Tracked.step (h : db.Tracked) (hroom : db.nextId.toNat + 1 < 2 ^ 64)
    (hstep : writeStep cfg db a = some db') :
    db'.Tracked ∧ db'.nextId.toNat ≤ db.nextId.toNat + 1 := by
  have htracks := h.toSturdy.tracks hroom hstep
  exact ⟨{ htracks.sturdy with filters := h.filters.step htracks.step }, htracks.nextId_le⟩

/-- **The indexes of a filter query list what is live, behind every run of writes.** -/
theorem Database.Tracked.run {as : List WriteAct} (h : db.Tracked)
    (hroom : db.nextId.toNat + as.length < 2 ^ 64)
    (hrun : AegisDB.run (writeStep cfg) db as = some db') : db'.Tracked := by
  -- every write uses up at most one id
  induction as generalizing db with
  | nil =>
    cases hrun
    exact h
  | cons a as ih =>
    obtain ⟨d, hd, hrest⟩ := run_cons_eq_some.1 hrun
    rw [List.length_cons] at hroom
    obtain ⟨hd', hnext⟩ := h.step (by omega) hd
    exact ih hd' (by omega) hrest

end AegisDB
