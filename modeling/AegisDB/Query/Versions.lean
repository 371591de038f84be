import AegisDB.Query.Consolidation
import AegisDB.Storage.Reopen

/-!
# The versions in the log

Every write of the query engine appends one version of a record to the log, and what is loaded for
an id is one of the versions there. `Logged` says both; `Database.Logged.write` is the only way in
which the list grows, so that a property of all versions that each write keeps is a property of the
whole log.
-/

namespace AegisDB

open Bytes List Option

variable {F : Framing} {cfg : DbConfig} {env : Sample} {db db' : Database F}
variable {fs : List (F.Nonce × Bytes)}

def versions (fs : List (F.Nonce × Bytes)) : List MemoryRecord :=
  fs.filterMap fun x => recordDecode x.2

/-- The records in the frames of a log file. -/
def fileRecords (F : Framing) (b : Bytes) : List MemoryRecord :=
  (scanPayloads F b).filterMap recordDecode

theorem foldl_records (ds : List (ℕ × Bytes)) (rs : List MemoryRecord) :
    ds.foldl (fun c d => c ++ (recordDecode d.2).toList) rs =
      rs ++ (ds.map Prod.snd).filterMap recordDecode := by
  induction ds generalizing rs with
  | nil => simp
  | cons d ds ih =>
    rw [foldl_cons, ih, map_cons, filterMap_cons, append_assoc]
    cases recordDecode d.2 <;> rfl

theorem logScan_frames {σ : Type} (f : ℕ → Bytes → σ → σ) (hfs : Appendable fs) (c : σ) :
    (logScan F (always f) (framesBytes F fs) 0 (framesBytes F fs).length c).1 =
      (placed F 0 (fs.map Prod.snd)).foldl (fun c d => f d.1 d.2 c) c := by
  have hscan := (logScan_cut f (show Appendable ([] ++ fs) from hfs) (Nat.zero_le _) le_rfl c).1
  have hsize : framesSize F (fs.map Prod.snd) ≤ (framesBytes F fs).length :=
    (length_framesBytes fs).ge
  simpa only [nil_append, take_length, map_nil, framesSize_nil, Nat.sub_zero,
    wholeFrames_eq_self hsize] using hscan

theorem fileRecords_eq {s : Db} (h : CleanDb F s fs) : fileRecords F s.log.bytes = versions fs := by
  rw [fileRecords, scanPayloads, h.bytes, logScan_frames collect h.appendable, foldl_collect,
    nil_append, map_snd_placed, versions, filterMap_map]
  rfl

theorem logRecords_eq {s : Db} (h : CleanDb F s fs)
    (hopen : s.log.isOpen = true) : logRecords F s.log = fileRecords F s.log.bytes := by
  rw [fileRecords_eq h, logRecords, LogFile.size, if_pos hopen, h.bytes,
    logScan_frames _ h.appendable, foldl_records, nil_append, map_snd_placed, versions,
    filterMap_map]
  rfl

theorem Wrote.versions {s s' : Db} {r : MemoryRecord} {vs : List MemoryRecord} (hw : Wrote F s r s') :
    (∃ fs, CleanDb F s fs ∧ versions fs = vs) →
      ∃ fs, CleanDb F s' fs ∧ versions fs = vs ++ [r.clamped] := by
  rintro ⟨fs, hclean, rfl⟩
  obtain ⟨n, hclean'⟩ := hw.clean hclean
  refine ⟨_, hclean', ?_⟩
  simp [AegisDB.versions, recordDecode_of_wireFormed hw.wireFormed]

/-- The log holds these versions, and what is loaded is among them. -/
structure Database.Logged (db : Database F) (vs : List MemoryRecord) : Prop where
  clean : ∃ fs, CleanDb F db.store fs ∧ versions fs = vs
  loaded : ∀ id r, loadRecord F db.store id = .ok r → r ∈ vs

namespace Database.Logged

variable {vs : List MemoryRecord}

theorem sound (h : db.Logged vs) : db.Sound := by
  obtain ⟨fs, hclean, -⟩ := h.clean
  exact hclean.sound

theorem fileRecords_eq (h : db.Logged vs) : fileRecords F db.store.log.bytes = vs := by
  obtain ⟨fs, hclean, rfl⟩ := h.clean
  exact AegisDB.fileRecords_eq hclean

theorem of_store (h : db.Logged vs) (hstore : db'.store = db.store) : db'.Logged vs := by
  refine ⟨?_, ?_⟩
  · rw [hstore]
    exact h.clean
  · rw [hstore]
    exact h.loaded

theorem write (h : db.Logged vs) {r : MemoryRecord} (hw : Wrote F db.store r db'.store) :
    db'.Logged (vs ++ [r.clamped]) where
  clean := hw.versions h.clean
  loaded id r' hr' := by
    rw [hw.loadRecord_eq h.sound] at hr'
    split_ifs at hr'
    · cases hr'
      exact mem_append_right _ (mem_singleton.2 rfl)
    · exact mem_append_left _ (h.loaded id r' hr')

end Database.Logged

theorem Database.logged_create (cfg : DbConfig) (nonces : ℕ → F.Nonce) :
    (Database.create cfg nonces).Logged [] where
  clean := by
    refine ⟨[], ⟨nofun, rfl, rfl, ?_⟩, rfl⟩
    funext id
    exact lookup_hashIndexCreate id
  loaded id r hr := by
    rw [Database.loadRecord_create] at hr
    cases hr

/-! ## What the operations append -/

/-- Nothing is appended, or a version of a record of the caller: of the same owner, with the same
derivation. -/
def Rewrites (ns : Option CString) (db db' : Database F) : Prop :=
  db'.nextId = db.nextId ∧ (db'.store = db.store ∨ ∃ r cur, Wrote F db.store r db'.store ∧
    loadRecord F db.store r.id = .ok cur ∧ nsDenies ns cur = false ∧ r.agentId = cur.agentId ∧
    r.routes = cur.routes)

theorem Database.nextId_of_appendAndHash {r : MemoryRecord}
    (h : db.appendAndHash cfg env r = .ok db') (ix : Indexes) :
    ({ db' with ix }.durablyFlush cfg env).1.nextId = db.nextId :=
  (Database.of_appendAndHash h).2.2.2

/-- Nothing is appended, or one of some records. -/
def Appends (P : MemoryRecord → Prop) (db db' : Database F) : Prop :=
  db'.store = db.store ∨ ∃ r, P r ∧ Wrote F db.store r db'.store

section

variable (cfg env)

theorem appends_qeRelate (hs : db.Sound) (fromId toId : UInt64) (kind ns : Option CString) :
    (qeRelate cfg env db fromId toId kind ns).1.nextId = db.nextId ∧
      Appends (fun r => ∃ cur, loadRecord F db.store fromId = .ok cur ∧ nsDenies ns cur = false ∧
        r = relatedRecord cur fromId toId kind env.now) db
          (qeRelate cfg env db fromId toId kind ns).1 := by
  obtain ⟨d, res, heq, hstep⟩ := exists_pair (@qeRelate_step F cfg env db fromId toId kind ns)
  simp only [heq]
  cases hstep with
  | kept => exact ⟨rfl, .inl rfl⟩
  | @wrote cur db₁ _ load owner target ne short fresh append =>
    obtain ⟨rfl, -⟩ := hs.of_loadRecord load
    have hwf := wellFormed_of_loadRecord load
    have hw := Database.wrote_of_appendAndHash
      (formed_relatedRecord hwf.toWireFormed.formed cur.id toId kind env.now) append
      { db₁.ix with edges := db₁.ix.edges.map fun e => edgeIndexAdd e cur.id toId kind }
    exact ⟨Database.nextId_of_appendAndHash append _, .inr ⟨_, ⟨cur, load, owner, rfl⟩, hw⟩⟩

theorem appends_qeUpdate (id : UInt64) (patch : UpdatePatch) (ns : Option CString) :
    (qeUpdate cfg env db id patch ns).1.nextId = db.nextId ∧
      Appends (fun r => ∃ cur fact, loadRecord F db.store id = .ok cur ∧ nsDenies ns cur = false ∧
        cur.type = .semantic ∧ patch.adopt cur.fact = .ok fact ∧ r = patch.apply cur fact env.now) db
          (qeUpdate cfg env db id patch ns).1 := by
  obtain ⟨d, res, heq, hstep⟩ := exists_pair (@qeUpdate_step F cfg env db id patch ns)
  simp only [heq]
  cases hstep with
  | refused => exact ⟨rfl, .inl rfl⟩
  | @wrote cur fact db₁ _ load owner type adopt valid append reply =>
    have hwf := wellFormed_of_loadRecord load
    have hw := Database.wrote_of_appendAndHash
      (UpdatePatch.formed_apply hwf.toWireFormed.formed adopt env.now) append
      (reindexRecord db₁.ix patch cur (patch.apply cur fact env.now))
    exact ⟨Database.nextId_of_appendAndHash append _,
      .inr ⟨_, ⟨cur, fact, load, owner, type, adopt, rfl⟩, hw⟩⟩

theorem appends_qeDelete (hs : db.Sound) (id : UInt64) (ns : Option CString) :
    (qeDelete cfg env db id ns).1.nextId = db.nextId ∧
      Appends (fun r => ∃ cur, loadRecord F db.store id = .ok cur ∧ nsDenies ns cur = false ∧
        r = tombstone cur env.now) db (qeDelete cfg env db id ns).1 := by
  obtain ⟨d, res, heq, hstep⟩ := exists_pair (@qeDelete_step F cfg env db id ns)
  simp only [heq]
  cases hstep with
  | refused | failed => exact ⟨rfl, .inl rfl⟩
  | @wrote cur _ _ load owner append =>
    obtain ⟨rfl, -⟩ := hs.of_loadRecord load
    exact ⟨Database.nextId_of_appendAndHash append _,
      .inr ⟨_, ⟨cur, load, owner, rfl⟩, Wrote.of_delete cfg env load append⟩⟩

/-- A version of a record of the caller, of the same owner and with the same derivation. -/
theorem rewrites_of_appends {ns : Option CString} {P : MemoryRecord → Prop}
    (h : db'.nextId = db.nextId ∧ Appends P db db')
    (hP : ∀ r, P r → ∃ cur, loadRecord F db.store r.id = .ok cur ∧ nsDenies ns cur = false ∧
      r.agentId = cur.agentId ∧ r.routes = cur.routes) : Rewrites ns db db' := by
  obtain ⟨hnext, hsame | ⟨r, hr, hw⟩⟩ := h
  · exact ⟨hnext, .inl hsame⟩
  · obtain ⟨cur, load, owner, hagent, hroutes⟩ := hP r hr
    exact ⟨hnext, .inr ⟨r, cur, hw, load, owner, hagent, hroutes⟩⟩

theorem rewrites_qeRelate (hs : db.Sound) (fromId toId : UInt64) (kind ns : Option CString) :
    Rewrites ns db (qeRelate cfg env db fromId toId kind ns).1 := by
  refine rewrites_of_appends (appends_qeRelate cfg env hs fromId toId kind ns) ?_
  rintro r ⟨cur, load, owner, rfl⟩
  obtain ⟨rfl, -⟩ := hs.of_loadRecord load
  exact ⟨cur, load, owner, rfl, rfl⟩

theorem rewrites_qeUpdate (hs : db.Sound) (id : UInt64) (patch : UpdatePatch) (ns : Option CString) :
    Rewrites ns db (qeUpdate cfg env db id patch ns).1 := by
  refine rewrites_of_appends (appends_qeUpdate cfg env id patch ns) ?_
  rintro r ⟨cur, fact, load, owner, -, -, rfl⟩
  obtain ⟨rfl, -⟩ := hs.of_loadRecord load
  exact ⟨cur, load, owner, rfl, rfl⟩

theorem rewrites_qeDelete (hs : db.Sound) (id : UInt64) (ns : Option CString) :
    Rewrites ns db (qeDelete cfg env db id ns).1 := by
  refine rewrites_of_appends (appends_qeDelete cfg env hs id ns) ?_
  rintro r ⟨cur, load, owner, rfl⟩
  obtain ⟨rfl, -⟩ := hs.of_loadRecord load
  exact ⟨cur, load, owner, rfl, rfl⟩

end

/-- Nothing is appended, or a record under the next id, with the owner of the input and no other
routes. -/
def Inserts (input : MemoryRecord) (db db' : Database F) : Prop :=
  db'.store = db.store ∧ (db'.nextId = db.nextId ∨ db'.nextId = db.nextId + 1) ∨
    ∃ r, Wrote F db.store r db'.store ∧ r.id = db.nextId ∧ db'.nextId = db.nextId + 1 ∧
      r.agentId = input.agentId ∧ (∀ rt ∈ r.routes, rt ∈ input.routes) ∧
      ∀ a ∈ r.agentId, validAgentId a = true

theorem toNat_nextId_succ {n : UInt64} (h : n.toNat + 1 < 2 ^ 64) :
    (n + 1).toNat = n.toNat + 1 := by
  rw [UInt64.toNat_add, UInt64.toNat_one, Nat.mod_eq_of_lt h]

theorem Inserts.nextId_le {input : MemoryRecord} (h : Inserts input db db')
    (hroom : db.nextId.toNat + 1 < 2 ^ 64) : db'.nextId.toNat ≤ db.nextId.toNat + 1 := by
  have hone := toNat_nextId_succ hroom
  rcases h with ⟨-, hnext | hnext⟩ | ⟨r, -, -, hnext, -⟩
  · rw [hnext]
    exact Nat.le_succ _
  · rw [hnext, hone]
  · rw [hnext, hone]

theorem mem_of_recordAddRoute {routes routes' : List DerivRoute} {rule : DerivRule} {depth : UInt16}
    {premises : List UInt64} (h : recordAddRoute routes rule depth premises = .added routes')
    {rt : DerivRoute} (hrt : rt ∈ routes') : rt ∈ routes ∨ rt = ⟨rule, depth, premises⟩ := by
  have hmem : ∀ i, rt ∈ routes.take i ++ ⟨rule, depth, premises⟩ :: routes.drop i →
      rt ∈ routes ∨ rt = ⟨rule, depth, premises⟩ := by
    intro i hx
    rcases mem_append.1 hx with hx | hx
    · exact .inl (mem_of_mem_take hx)
    · exact (mem_cons.1 hx).symm.imp_left mem_of_mem_drop
  unfold recordAddRoute insertRoute at h
  cases hslot : routeSlot ⟨rule, depth, premises⟩ routes with
  | none =>
    rw [hslot] at h
    split_ifs at h
  | some i =>
    rw [hslot] at h
    dsimp only at h
    split_ifs at h
    · cases h
      exact hmem _ (mem_of_mem_take hrt)
    · cases h
      exact hmem _ hrt

theorem mem_of_addRoutes {routes rts routes' : List DerivRoute}
    (h : addRoutes routes rts = some routes') {rt : DerivRoute} (hrt : rt ∈ routes') :
    rt ∈ routes ∨ rt ∈ rts := by
  induction rts generalizing routes with
  | nil =>
    cases h
    exact .inl hrt
  | cons x rts ih =>
    unfold addRoutes at h
    split at h
    · rename_i added hadd
      rcases ih h with hmem | hmem
      · rcases mem_of_recordAddRoute hadd hmem with hmem | rfl
        · exact .inl hmem
        · exact .inr mem_cons_self
      · exact .inr (mem_cons_of_mem x hmem)
    · exact (ih h).imp_right (mem_cons_of_mem x)
    · cases h

variable (cfg env) in
theorem appends_qeInsert (input : MemoryRecord) (session : Option CString) (ttl : UInt64) :
    (qeInsert cfg env db input session ttl).1.store = db.store ∧
        ((qeInsert cfg env db input session ttl).1.nextId = db.nextId ∨
          (qeInsert cfg env db input session ttl).1.nextId = db.nextId + 1) ∨
      (qeInsert cfg env db input session ttl).1.nextId = db.nextId + 1 ∧
        ∃ copy, validateCommon cfg input = .ok () ∧ recordClone input = some copy ∧
          Wrote F db.store (stampRecord copy db.nextId env.now ttl)
            (qeInsert cfg env db input session ttl).1.store := by
  obtain ⟨d, res, heq, hstep⟩ := exists_pair (@qeInsert_step F cfg env db input session ttl)
  simp only [heq]
  cases hstep with
  | refused | working => exact .inl ⟨rfl, .inl rfl⟩
  | failed => exact .inl ⟨rfl, .inr rfl⟩
  | @wrote copy db₁ _ valid data clone append reply =>
    exact .inr ⟨Database.nextId_of_appendAndHash append _, copy, valid, clone,
      Database.wrote_of_appendAndHash (formed_stampRecord clone _ _ _) append _⟩

variable (cfg env) in
theorem inserts_qeInsert (input : MemoryRecord) (session : Option CString) (ttl : UInt64) :
    Inserts input db (qeInsert cfg env db input session ttl).1 := by
  refine (appends_qeInsert cfg env input session ttl).imp id ?_
  rintro ⟨hnext, copy, valid, clone, hw⟩
  obtain ⟨fact, -, clone'⟩ := bind_eq_some_iff.1 clone
  obtain ⟨routes, hroutes, rfl⟩ := map_eq_some_iff.1 clone'
  refine ⟨_, hw, rfl, hnext, rfl, fun rt hrt => ?_, fun a ha => ?_⟩
  · exact (mem_of_addRoutes hroutes hrt).resolve_left not_mem_nil
  · unfold validateCommon at valid
    split_ifs at valid with _ _ _ _ _ hagent
    rw [show input.agentId = some a from ha] at hagent
    simpa using hagent

end AegisDB
