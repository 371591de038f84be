import AegisDB.Query.InferSteps
import AegisDB.Query.Versions

/-!
# Inference within a namespace

The facts a pass joins are those of one run of `load_facts`, which sorts by namespace, and a
conclusion is written into the namespace of its run. `Confined` says that the versions of an id have
one owner, and that the premises of a derived record belong to the owner of the record; it holds
along every run of inserts, updates, deletes, consolidations and inference steps
(`derived_within_namespace`).
-/

namespace AegisDB

open Bytes List Option Function

variable {F : Framing} {cfg : DbConfig} {env : Sample} {db db' : Database F}
variable {ns : Option CString} {f : FactIndex}

/-! ## The invariant -/

/-- A version that belongs to the owner of its id, and is drawn from records of that owner. -/
structure MemoryRecord.Kept (own : UInt64 → Option CString) (vs : List MemoryRecord)
    (q : MemoryRecord) : Prop where
  agent : q.agentId = own q.id
  named : ∀ a ∈ q.agentId, a.bytes ≠ []
  premises : ∀ rt ∈ q.routes, ∀ p ∈ rt.premises, own p = q.agentId ∧ ∃ x ∈ vs, x.id = p

/-- Every id has one owner, and every derived record belongs to the owner of its premises. -/
structure Confined (db : Database F) (vs : List MemoryRecord) : Prop where
  logged : db.Logged vs
  fresh : ∀ q ∈ vs, q.id < db.nextId
  kept : ∃ own, ∀ q ∈ vs, q.Kept own vs

theorem MemoryRecord.Kept.mono {own own' : UInt64 → Option CString} {vs vs' : List MemoryRecord}
    {q : MemoryRecord} (h : q.Kept own vs) (hq : q ∈ vs) (hvs : vs ⊆ vs')
    (hown : ∀ x ∈ vs, own' x.id = own x.id) : q.Kept own' vs' where
  agent := h.agent.trans (hown q hq).symm
  named := h.named
  premises rt hrt p hp := by
    obtain ⟨howner, x, hx, rfl⟩ := h.premises rt hrt p hp
    exact ⟨(hown x hx).trans howner, x, hvs hx, rfl⟩

namespace Confined

variable {vs : List MemoryRecord}

theorem of_store (h : Confined db vs) (hstore : db'.store = db.store)
    (hnext : db.nextId ≤ db'.nextId) : Confined db' vs :=
  ⟨h.logged.of_store hstore, fun q hq => UInt64.lt_of_lt_of_le (h.fresh q hq) hnext, h.kept⟩

theorem write (h : Confined db vs) {r : MemoryRecord} (hw : Wrote F db.store r db'.store)
    (hnext : ∀ x, x < db.nextId → x < db'.nextId) (hid : r.id < db'.nextId)
    (hr : ∀ own, (∀ q ∈ vs, q.Kept own vs) → ∃ own', (∀ x ∈ vs, own' x.id = own x.id) ∧
      r.Kept own' (vs ++ [r.clamped])) : Confined db' (vs ++ [r.clamped]) := by
  obtain ⟨own, hkept⟩ := h.kept
  obtain ⟨own', hown, hr⟩ := hr own hkept
  refine ⟨h.logged.write hw, fun q hq => ?_, own', fun q hq => ?_⟩
  · rcases mem_append.1 hq with hq | hq
    · exact hnext _ (h.fresh q hq)
    · rw [mem_singleton.1 hq]
      exact hid
  · rcases mem_append.1 hq with hq | hq
    · exact (hkept q hq).mono hq (subset_append_left _ _) hown
    · rw [mem_singleton.1 hq]
      exact ⟨hr.agent, hr.named, hr.premises⟩

theorem rewrite (h : Confined db vs) (hstep : Rewrites ns db db') :
    ∃ more, Confined db' (vs ++ more) := by
  obtain ⟨hnext, hstore | ⟨r, cur, hw, hload, -, hagent, hroutes⟩⟩ := hstep
  · exact ⟨[], (append_nil vs).symm ▸ h.of_store hstore (hnext ▸ UInt64.le_refl _)⟩
  · have hcur := h.logged.loaded _ cur hload
    have hid := (h.logged.sound.of_loadRecord hload).1
    refine ⟨_, h.write hw (fun x hx => hnext.symm ▸ hx) ?_ fun own hkept => ⟨own, fun _ _ => rfl, ?_⟩⟩
    · rw [hnext, ← hid]
      exact h.fresh cur hcur
    · have hk := hkept cur hcur
      refine ⟨?_, hagent.symm ▸ hk.named, fun rt hrt p hp => ?_⟩
      · rw [hagent, hk.agent, hid]
      · obtain ⟨howner, x, hx, hxp⟩ := hk.premises rt (hroutes ▸ hrt) p hp
        exact ⟨howner.trans hagent.symm, x, mem_append_left _ hx, hxp⟩

/-- A new record keeps the owners when its premises belong to its owner. -/
theorem insert (h : Confined db vs) {input : MemoryRecord} (hstep : Inserts input db db')
    (hroom : db.nextId.toNat + 1 < 2 ^ 64)
    (hprem : ∀ rt ∈ input.routes, ∀ p ∈ rt.premises, ∃ x ∈ vs, x.id = p ∧
      x.agentId = input.agentId) : ∃ more, Confined db' (vs ++ more) := by
  have hlt : db.nextId < db.nextId + 1 := by
    rw [UInt64.lt_iff_toNat_lt, UInt64.toNat_add]
    have : (1 : UInt64).toNat = 1 := rfl
    omega
  rcases hstep with ⟨hstore, hnext⟩ | ⟨r, hw, hid, hnext, hagent, hroutes, hvalid⟩
  · refine ⟨[], (append_nil vs).symm ▸ h.of_store hstore ?_⟩
    rcases hnext with hnext | hnext
    · exact hnext ▸ UInt64.le_refl _
    · exact hnext ▸ UInt64.le_of_lt hlt
  · refine ⟨_, h.write hw (fun x hx => hnext ▸ UInt64.lt_trans hx hlt) (hnext ▸ hid.symm ▸ hlt)
      fun own hkept => ⟨update own r.id r.agentId, fun x hx => ?_, ?_⟩⟩
    · refine update_of_ne (fun heq => ?_) _ _
      exact UInt64.ne_of_lt (h.fresh x hx) (heq.trans hid)
    · refine ⟨by rw [update_self], fun a ha => ?_, fun rt hrt p hp => ?_⟩
      · have := hvalid a ha
        simp only [validAgentId, Bool.and_eq_true, decide_eq_true_eq] at this
        exact ne_nil_of_length_pos this.1.1
      · obtain ⟨x, hx, rfl, hxa⟩ := hprem rt (hroutes rt hrt) p hp
        refine ⟨?_, x, mem_append_left _ hx, rfl⟩
        rw [update_of_ne fun heq => UInt64.ne_of_lt (h.fresh x hx) (heq.trans hid),
          ← (hkept x hx).agent, hxa, hagent]

end Confined

theorem confined_create (cfg : DbConfig) (nonces : ℕ → F.Nonce) :
    Confined (Database.create cfg nonces) [] :=
  ⟨Database.logged_create cfg nonces, fun _ hq => (not_mem_nil hq).elim, fun _ => none,
    fun _ hq => (not_mem_nil hq).elim⟩

/-- A later state that is confined too, with the versions there were and the same next id. -/
def ConfinedFrom (vs : List MemoryRecord) (next : UInt64) (db : Database F) : Prop :=
  db.nextId = next ∧ ∃ more, Confined db (vs ++ more)

section

variable {vs : List MemoryRecord} {next : UInt64} (cfg : DbConfig) (env : Sample)

theorem ConfinedFrom.rewrite (h : ConfinedFrom vs next db)
    (hstep : db.Sound → Rewrites ns db db') : ConfinedFrom vs next db' := by
  obtain ⟨hnext, more, h⟩ := h
  have hstep := hstep h.logged.sound
  obtain ⟨more', h⟩ := h.rewrite hstep
  exact ⟨hstep.1.trans hnext, more ++ more', by rwa [← append_assoc]⟩

theorem confinedFrom_preserved (ns : Option CString) (vs : List MemoryRecord) (next : UInt64) :
    Preserved (F := F) cfg env ns (ConfinedFrom vs next) where
  relate _ fromId toId kind h := h.rewrite fun hs => rewrites_qeRelate cfg env hs fromId toId kind ns
  update _ id members adopt h :=
    h.rewrite fun hs => rewrites_qeUpdate cfg env hs id (mergePatch members adopt) ns
  delete _ id h := h.rewrite fun hs => rewrites_qeDelete cfg env hs id ns

/-- After at most `n` inserts: confined, with the versions there were, and no more ids used. -/
def ConfinedWithin (vs : List MemoryRecord) (next n : ℕ) (db : Database F) : Prop :=
  db.nextId.toNat ≤ next + n ∧ ∃ more, Confined db (vs ++ more)

/-- An insert uses one id, and keeps the owners when its premises belong to its owner. -/
theorem ConfinedWithin.insert {n k : ℕ} (h : ConfinedWithin vs n k db) (hroom : n + k + 1 < 2 ^ 64)
    {input : MemoryRecord} (hstep : Inserts input db db')
    (hprem : ∀ rt ∈ input.routes, ∀ p ∈ rt.premises, ∃ x ∈ vs, x.id = p ∧
      x.agentId = input.agentId) : ConfinedWithin vs n (k + 1) db' := by
  obtain ⟨hnext, more, h⟩ := h
  have hroom' : db.nextId.toNat + 1 < 2 ^ 64 := by omega
  obtain ⟨more', h'⟩ := h.insert hstep hroom' fun rt hrt p hp => by
    obtain ⟨x, hx, hxp⟩ := hprem rt hrt p hp
    exact ⟨x, mem_append_left _ hx, hxp⟩
  have := hstep.nextId_le hroom'
  exact ⟨by omega, more ++ more', by rwa [← append_assoc]⟩

theorem ConfinedWithin.relate {n k : ℕ} (h : ConfinedWithin vs n k db) (fromId toId : UInt64)
    (kind ns : Option CString) : ConfinedWithin vs n k (qeRelate cfg env db fromId toId kind ns).1 := by
  obtain ⟨hnext, hmore⟩ := h
  obtain ⟨hnext', hmore'⟩ := (confinedFrom_preserved cfg env ns vs db.nextId).relate db fromId toId
    kind ⟨rfl, hmore⟩
  exact ⟨hnext' ▸ hnext, hmore'⟩

theorem conclusionRecord_eq_some {c : InferConclusion} {input : MemoryRecord}
    (h : conclusionRecord env db c ns = some input) :
    input.agentId = ns ∧ ∀ rt ∈ input.routes, ∃ x ∈ c.routes, rt = x.toDerivRoute := by
  unfold conclusionRecord at h
  simp only [bind_eq_bind, Option.pure_def, bind_eq_some_iff, Option.some.injEq] at h
  obtain ⟨rule, -, fact, -, routes, hroutes, rfl⟩ := h
  refine ⟨rfl, fun rt hrt => ?_⟩
  obtain ⟨x, hx, rfl⟩ := List.mem_map.1 ((mem_of_addRoutes hroutes hrt).resolve_left not_mem_nil)
  exact ⟨x, hx, rfl⟩

/-- The premises of a conclusion are records of a namespace. -/
def DrawnFrom (vs : List MemoryRecord) (ns : Option CString) (c : InferConclusion) : Prop :=
  ∀ rt ∈ c.routes, ∀ p ∈ rt.premises, ∃ x ∈ vs, x.id = p ∧ x.agentId = ns

/-! ## One namespace after the other -/

def SameScope (vs group : List MemoryRecord) : Prop :=
  ∀ r ∈ group, r ∈ vs ∧ r.agentId = group.head?.bind factScope

theorem drawnFrom_of_inferRun (mul : F32 → F32 → F32) {group : List MemoryRecord}
    (hgroup : SameScope vs group) (opts : InferOpts) :
    ∀ c ∈ (inferRun mul cfg.predicates (group.filterMap inferFact) opts).items,
      DrawnFrom vs (group.head?.bind factScope) c := by
  intro c hc rt hrt p hp
  have hmem := (passBounds_inferRun mul cfg.predicates _ opts).premises c hc rt hrt p hp
  obtain ⟨f, hf, rfl⟩ := List.mem_map.1 hmem
  obtain ⟨r, hr, hrf⟩ := mem_filterMap.1 hf
  obtain ⟨t, -, rfl⟩ := map_eq_some_iff.1 hrf
  exact ⟨r, (hgroup r hr).1, rfl, (hgroup r hr).2⟩

theorem mem_of_mem_loadFacts (h : Confined db vs) {r : MemoryRecord}
    (hr : r ∈ loadFacts env db f) : r ∈ vs := by
  unfold loadFacts at hr
  rw [(perm_sortBy nsKey _).mem_iff] at hr
  obtain ⟨id, -, hid⟩ := mem_filterMap.1 hr
  split at hid
  · cases hid
  · rename_i r' hget
    split_ifs at hid
    cases hid
    exact h.logged.loaded id r (qeGet_eq_ok.1 hget).1

theorem agentId_eq_factScope {r head : MemoryRecord} (hr : ∀ a ∈ r.agentId, a.bytes ≠ [])
    (hhead : ∀ a ∈ head.agentId, a.bytes ≠ []) (h : factNs r = factNs head) :
    r.agentId = factScope head := by
  unfold factNs at h
  unfold factScope
  cases hra : r.agentId with
  | none =>
    cases hha : head.agentId with
    | none => rfl
    | some b =>
      rw [hra, hha] at h
      exact absurd h.symm (hhead b hha)
  | some a =>
    cases hha : head.agentId with
    | none =>
      rw [hra, hha] at h
      exact absurd h (hr a hra)
    | some b =>
      rw [hra, hha] at h
      have hab : a = b := Subtype.ext h
      rw [filter_some, hab, if_pos (by simpa using hhead b hha)]

theorem sameScope_of_mem_namespaceGroups (h : Confined db vs)
    {group : List MemoryRecord} (hgroup : group ∈ namespaceGroups (loadFacts env db f)) :
    SameScope vs group := by
  have hmem : ∀ r ∈ group, r ∈ vs := by
    intro r hr
    refine mem_of_mem_loadFacts env h (f := f) ?_
    have hflat := flatten_splitBy (fun a b => decide (factNs a = factNs b)) (loadFacts env db f)
    rw [← hflat]
    exact mem_flatten.2 ⟨group, hgroup, hr⟩
  obtain ⟨own, hkept⟩ := h.kept
  have hchain := isChain_of_mem_splitBy hgroup
  cases group with
  | nil => exact nofun
  | cons head rest =>
    have hsame : ∀ r ∈ head :: rest, factNs r = factNs head := by
      have : Trans (fun a b => factNs a = factNs b) (fun a b => factNs a = factNs b)
          (fun a b => factNs a = factNs b) := ⟨Eq.trans⟩
      have hpair := (hchain.imp fun _ _ => of_decide_eq_true).pairwise
      intro r hr
      rcases mem_cons.1 hr with rfl | hr
      · rfl
      · exact ((pairwise_cons.1 hpair).1 r hr).symm
    intro r hr
    refine ⟨hmem r hr, ?_⟩
    exact agentId_eq_factScope (hkept r (hmem r hr)).named
      (hkept head (hmem head mem_cons_self)).named (hsame r hr)

theorem Confined.derives (mul : F32 → F32 → F32) {room : ℕ} (h : Confined db vs)
    (hroom : db.nextId.toNat + room < 2 ^ 64) :
    Derives mul cfg env (namespaceGroups (loadFacts env db f)) room
      (ConfinedWithin (F := F) vs db.nextId.toNat) where
  mono hle hdb := ⟨hdb.1.trans (by omega), hdb.2⟩
  relate _ _ fromId toId kind ns hdb := hdb.relate cfg env fromId toId kind ns
  insert n d group c input hgroup hc hrec hn hd := by
    obtain ⟨opts, hc⟩ := hc
    obtain ⟨hagent, hroutes⟩ := conclusionRecord_eq_some env hrec
    have hdrawn := drawnFrom_of_inferRun cfg mul (sameScope_of_mem_namespaceGroups env h hgroup) opts
      c hc
    refine hd.insert (by omega) (inserts_qeInsert cfg env input none 0) fun rt hrt p hp => ?_
    obtain ⟨y, hy, rfl⟩ := hroutes rt hrt
    exact hagent.symm ▸ hdrawn y hy p hp

theorem Confined.dbInferenceStep (mul : F32 → F32 → F32) (icfg : InferConfig) {s : Reasoner F}
    (h : Confined s.db vs) (hroom : s.db.nextId.toNat + idsNeeded env icfg s < 2 ^ 64) :
    ∃ more, Confined (dbInferenceStep mul icfg cfg env s).db (vs ++ more) := by
  have hstart : ConfinedWithin vs s.db.nextId.toNat 0 s.db := ⟨le_rfl, [], (append_nil vs).symm ▸ h⟩
  exact (Derives.inferenceStep (fun f _ => h.derives cfg env mul hroom)
    (fun hle hdb => ⟨hdb.1.trans (by omega), hdb.2⟩) hstart).2

end

/-- What happens to a primary: the writes of clients, and the jobs. -/
inductive JobAct
  | insert (env : Sample) (input : MemoryRecord) (asserted : input.routes = [])
      (session : Option CString) (ttl : UInt64)
  | update (env : Sample) (id : UInt64) (patch : UpdatePatch) (ns : Option CString)
  | relate (env : Sample) (fromId toId : UInt64) (kind ns : Option CString)
  | delete (env : Sample) (id : UInt64) (ns : Option CString)
  | consolidate (env : Sample) (R : Ranking) (ns : Option CString) (minSimilarity : F32)
  | infer (env : Sample)
  | retract (env : Sample)

section

variable (mul : F32 → F32 → F32) (icfg : InferConfig) (cfg : DbConfig)

def jobStep (s : Reasoner F) : JobAct → Option (Reasoner F)
  | .insert env input _ session ttl =>
    some { s with db := (qeInsert cfg env s.db input session ttl).1 }
  | .update env id patch ns => some { s with db := (qeUpdate cfg env s.db id patch ns).1 }
  | .relate env fromId toId kind ns =>
    some { s with db := (qeRelate cfg env s.db fromId toId kind ns).1 }
  | .delete env id ns => some (s.delete cfg env id ns).1
  | .consolidate env R ns minSimilarity => some (s.consolidate cfg env ns R minSimilarity)
  | .infer env => some (dbInferenceStep mul icfg cfg env s)
  | .retract env => some (dbRetractStep icfg cfg env s)

def IdsLeft (s : Reasoner F) : JobAct → Prop
  | .insert .. => s.db.nextId.toNat + 1 < 2 ^ 64
  | .infer env => s.db.nextId.toNat + idsNeeded env icfg s < 2 ^ 64
  | _ => True

instance (s : Reasoner F) (a : JobAct) : Decidable (IdsLeft icfg s a) :=
  match a with
  | .insert .. => inferInstanceAs (Decidable (_ < _))
  | .infer _ => inferInstanceAs (Decidable (_ < _))
  | .update .. | .relate .. | .delete .. | .consolidate .. | .retract .. => .isTrue trivial

variable {mul icfg cfg}

theorem confined_jobStep {s s' : Reasoner F} {a : JobAct} (h : ∃ vs, Confined s.db vs)
    (hids : IdsLeft icfg s a) (hstep : jobStep mul icfg cfg s a = some s') :
    ∃ vs, Confined s'.db vs := by
  obtain ⟨vs, h⟩ := h
  have hfrom : ConfinedFrom vs s.db.nextId s.db := ⟨rfl, [], (append_nil vs).symm ▸ h⟩
  have hexists : ∀ {next} {db : Database F}, ConfinedFrom vs next db → ∃ vs, Confined db vs :=
    fun h => let ⟨_, more, h⟩ := h; ⟨_, h⟩
  cases a with
  | insert env input asserted session ttl =>
    cases hstep
    obtain ⟨more, h⟩ := h.insert (inserts_qeInsert cfg env input session ttl) hids
      (by rw [asserted]; exact nofun)
    exact ⟨_, h⟩
  | update env id patch ns =>
    cases hstep
    exact hexists (hfrom.rewrite fun hs => rewrites_qeUpdate cfg env hs id patch ns)
  | relate env fromId toId kind ns =>
    cases hstep
    exact hexists ((confinedFrom_preserved cfg env ns vs _).relate _ fromId toId kind hfrom)
  | delete env id ns =>
    cases hstep
    rw [Reasoner.delete_db]
    exact hexists ((confinedFrom_preserved cfg env ns vs _).delete _ id hfrom)
  | consolidate env R ns minSimilarity =>
    cases hstep
    rw [Reasoner.consolidate_db]
    exact hexists ((confinedFrom_preserved cfg env ns vs _).consolidate R minSimilarity hfrom)
  | infer env =>
    cases hstep
    obtain ⟨more, h⟩ := h.dbInferenceStep cfg env mul icfg hids
    exact ⟨_, h⟩
  | retract env =>
    cases hstep
    exact hexists (retractStep_induction
      (confinedFrom_preserved cfg env none vs _).delete hfrom)

/-- **Inference is confined to a namespace.** Whatever is written, merged and derived, every premise
of a live derived record is a record of the log, and all its versions belong to the owner of the
derived one. -/
theorem derived_within_namespace {nonces : ℕ → F.Nonce} {as : List JobAct} {s : Reasoner F}
    (hrun : run (jobStep mul icfg cfg) (.fresh cfg nonces) as = some s)
    (hids : Along (jobStep mul icfg cfg) (IdsLeft icfg) (.fresh cfg nonces) as) :
    ∀ id r, loadRecord F s.db.store id = .ok r → ∀ rt ∈ r.routes, ∀ p ∈ rt.premises,
      (∃ q ∈ fileRecords F s.db.store.log.bytes, q.id = p) ∧
        ∀ q ∈ fileRecords F s.db.store.log.bytes, q.id = p → q.agentId = r.agentId := by
  obtain ⟨vs, h⟩ := run_invariant (I := fun (s : Reasoner F) => ∃ vs, Confined s.db vs)
    (fun _ _ _ h hids hstep => confined_jobStep h hids hstep) ⟨[], confined_create cfg nonces⟩ hids hrun
  intro id r hr rt hrt p hp
  obtain ⟨own, hkept⟩ := h.kept
  rw [h.logged.fileRecords_eq]
  obtain ⟨howner, hthere⟩ := (hkept r (h.logged.loaded id r hr)).premises rt hrt p hp
  refine ⟨hthere, fun q hq hqp => ?_⟩
  rw [(hkept q hq).agent, hqp, howner]

end

/-- The predicate `p`, symmetric. -/
def symmetricSpec : PredicateSpec := ⟨.ofBytes [112], true, true, false, none, false, []⟩

/-- Inference with that predicate, and no limits. -/
def symmetricConfig : DbConfig :=
  { DbConfig.unlimited with inference := true, predicates := some [symmetricSpec] }

/-- The options of the job by default, but for the caps. -/
def smallJob : InferConfig := ⟨4, 10, 1000, .zero, false⟩

/-- Something that says `5 p 6`. -/
def assertion : MemoryRecord :=
  { recordInit with
    type := .semantic
    agentId := some (.ofBytes [97])
    data := [120]
    fact := ⟨.objId, 5, some (.ofBytes [112]), 6, none⟩ }

def assertAndInfer : List JobAct := [.insert .zero assertion rfl none 0, .infer .zero]

set_option maxRecDepth 20000 in
/-- The pass concludes `6 p 5`, in the namespace of the assertion. -/
theorem conclusion_within_namespace : ∃ s : Reasoner plainFraming,
    run (jobStep (fun a _ => a) smallJob symmetricConfig) (.fresh symmetricConfig fun _ => ())
        assertAndInfer = some s ∧
      (loadRecord plainFraming s.db.store 2).toOption.map
        (fun r => r.routes.map fun rt => rt.premises) = some [[1]] ∧
      ∀ id r, loadRecord plainFraming s.db.store id = .ok r → ∀ rt ∈ r.routes, ∀ p ∈ rt.premises,
        (∃ q ∈ fileRecords plainFraming s.db.store.log.bytes, q.id = p) ∧
          ∀ q ∈ fileRecords plainFraming s.db.store.log.bytes, q.id = p → q.agentId = r.agentId := by
  have hrun : (run (jobStep (fun a _ => a) smallJob symmetricConfig)
      (.fresh (F := plainFraming) symmetricConfig fun _ => ()) assertAndInfer).map (fun s =>
        (loadRecord plainFraming s.db.store 2).toOption.map
          (fun r => r.routes.map fun rt => rt.premises)) = some (some [[1]]) := by
    decide +kernel
  have hids : Along (jobStep (fun a _ => a) smallJob symmetricConfig) (IdsLeft smallJob)
      (.fresh (F := plainFraming) symmetricConfig fun _ => ()) assertAndInfer := by
    decide +kernel
  obtain ⟨s, hs, hroutes⟩ := map_eq_some_iff.mp hrun
  exact ⟨s, hs, hroutes, derived_within_namespace hs hids⟩

end AegisDB
