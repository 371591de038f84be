import AegisDB.Query.Merges

/-!
# Links through a merge

A merge adds the edges of its losers to the survivor one by one with `qe_relate`, and deletes the
losers whatever came of it. `Roomy` is what keeps each of these calls from being refused: there is
room for every edge of a set `U` that holds all edges of the database and the lineage a run can add,
records are far below the size of a frame, and the edges of the caller's records lead to its records.
`Roomy` is kept by every write of a run (`Roomy.mergeCluster`), so that no link is lost
(`consolidate_keeps_links`).
-/

namespace AegisDB

open Bytes List Database MergePlan Function Bool

variable {F : Framing} {cfg : DbConfig} {env : Sample} {db db' : Database F}
variable {toId survivor : UInt64} {kind : Option CString}
variable {rels : List Relationship} {e : Relationship}

/-! ## The size of a record -/

/-- The length of the sections that no merge changes. -/
def bodyLength (r : MemoryRecord) : ℕ :=
  (putHead r).length + (putLenstr r.agentId).length + (putEmbedding r.embedding).length +
    (putDerivation r.routes).length + (putData r.data).length

theorem length_recordBytes (r : MemoryRecord) :
    (recordBytes r).length = bodyLength r + (putTags r.tags).length +
      (putRelationships r.relationships).length + (putFact r.fact).length := by
  simp only [recordBytes, bodyLength, length_append]
  omega

theorem length_flatMap_le {α : Type} {f : α → Bytes} {n : ℕ} {l : List α}
    (h : ∀ a ∈ l, (f a).length ≤ n) : (l.flatMap f).length ≤ n * l.length := by
  induction l with
  | nil => simp
  | cons a l ih =>
    have ha := h a mem_cons_self
    have hl := ih fun b hb => h b (mem_cons_of_mem a hb)
    rw [flatMap_cons, length_append, length_cons, Nat.mul_succ]
    omega

/-- The kinds `qe_relate` accepts. -/
def ShortKinds (rels : List Relationship) : Prop :=
  ∀ e ∈ rels, ∀ k ∈ e.kind, k.bytes.length ≤ maxRelKindLen

theorem length_putRelationships_le (h : ShortKinds rels) :
    (putRelationships rels).length ≤ 2 + 84 * rels.length := by
  rw [putRelationships, length_append, length_leBytes]
  refine Nat.add_le_add_left (length_flatMap_le fun e he => ?_) 2
  have hk := h e he
  rw [putRelationship]
  simp only [length_append, length_leBytes]
  cases hkind : e.kind with
  | none => simp [putLenstr]
  | some k =>
    have := hk k hkind
    simp only [putLenstr, length_append, length_leBytes, maxRelKindLen] at this ⊢
    omega

theorem length_putTags_le {tags : List CString} (h : tags.all validTag = true) :
    (putTags tags).length ≤ 2 + 68 * tags.length := by
  rw [putTags, length_append, length_leBytes]
  refine Nat.add_le_add_left (length_flatMap_le fun t ht => ?_) 2
  have hvalid := all_eq_true.1 h t ht
  simp only [validTag, and_eq_true, decide_eq_true_eq] at hvalid
  simp only [putLenstr, length_append, length_leBytes]
  omega

/-! ## Room for more links -/

def Relationship.link (e : Relationship) : UInt64 × Option CString := (e.toId, e.kind)

theorem relSame_eq_true : relSame e toId kind = true ↔ e.link = (toId, kind) := by
  simp [relSame, Relationship.link]

def links (r : MemoryRecord) : List (UInt64 × Option CString) := r.relationships.map (·.link)

theorem any_relSame {r : MemoryRecord} :
    (r.relationships.any fun e => relSame e toId kind) = true ↔ (toId, kind) ∈ links r := by
  simp only [any_eq_true, relSame_eq_true, links, mem_map]

theorem links_relatedRecord (r : MemoryRecord) (fromId toId : UInt64) (kind : Option CString)
    (now : UInt64) : links (relatedRecord r fromId toId kind now) = links r ++ [(toId, kind)] := by
  simp [links, relatedRecord, Relationship.link]

/-- A record that can take each link of `U` once, with none of its sections above one GiB. -/
structure RoomyRecord (U : Finset (UInt64 × Option CString)) (r : MemoryRecord) : Prop where
  within : ∀ l ∈ links r, l ∈ U
  short : ShortKinds r.relationships
  room : ∃ old more, links r = old ++ more ∧ more.Nodup ∧ old.length + U.card ≤ maxRelationships
  body : bodyLength r ≤ 2 ^ 30
  tags : (putTags r.tags).length ≤ 2 ^ 30
  fact : (putFact r.fact).length ≤ 2 ^ 30

namespace RoomyRecord

variable {U : Finset (UInt64 × Option CString)} {r : MemoryRecord}

theorem length_le_card {l : List (UInt64 × Option CString)} (hnodup : l.Nodup)
    (hU : ∀ x ∈ l, x ∈ U) : l.length ≤ U.card := by
  rw [← toFinset_card_of_nodup hnodup]
  exact Finset.card_le_card fun x hx => hU x (mem_toFinset.1 hx)

theorem length_le (h : RoomyRecord U r) : r.relationships.length ≤ maxRelationships := by
  obtain ⟨old, more, heq, hnodup, hroom⟩ := h.room
  have hle := length_le_card hnodup fun x hx => h.within x (heq ▸ mem_append_right old hx)
  have hlen := congrArg List.length heq
  rw [links, length_map, length_append] at hlen
  omega

theorem length_lt (h : RoomyRecord U r) {l : UInt64 × Option CString} (hl : l ∈ U)
    (hfresh : l ∉ links r) : r.relationships.length < maxRelationships := by
  obtain ⟨old, more, heq, hnodup, hroom⟩ := h.room
  have hnodup' : (l :: more).Nodup :=
    nodup_cons.2 ⟨fun hmem => hfresh (heq ▸ mem_append_right old hmem), hnodup⟩
  have hle := length_le_card hnodup' (forall_mem_cons.2
    ⟨hl, fun x hx => h.within x (heq ▸ mem_append_right old hx)⟩)
  have hlen := congrArg List.length heq
  rw [links, length_map, length_append] at hlen
  rw [length_cons] at hle
  omega

theorem length_recordBytes_le (h : RoomyRecord U r) : (recordBytes r).length ≤ maxPayload := by
  have hrels := length_putRelationships_le h.short
  have hcount := h.length_le
  have := h.body
  have := h.tags
  have := h.fact
  rw [length_recordBytes]
  simp only [maxRelationships, maxPayload] at *
  omega

theorem related (h : RoomyRecord U r) (hl : (toId, kind) ∈ U) (hfresh : (toId, kind) ∉ links r)
    (hshort : ∀ k ∈ kind, k.bytes.length ≤ maxRelKindLen) (fromId now : UInt64) :
    RoomyRecord U (relatedRecord r fromId toId kind now) where
  within x hx := by
    rw [links_relatedRecord, mem_append, mem_singleton] at hx
    rcases hx with hx | rfl
    · exact h.within x hx
    · exact hl
  short e he := by
    rcases mem_append.1 he with he | he
    · exact h.short e he
    · rw [mem_singleton.1 he]
      exact hshort
  room := by
    obtain ⟨old, more, heq, hnodup, hroom⟩ := h.room
    refine ⟨old, more ++ [(toId, kind)], ?_, ?_, hroom⟩
    · rw [links_relatedRecord, heq, append_assoc]
    · refine nodup_append'.2 ⟨hnodup, nodup_singleton _, ?_⟩
      rw [disjoint_singleton]
      exact fun hmem => hfresh (heq ▸ mem_append_right old hmem)
  body := h.body
  tags := h.tags
  fact := h.fact

end RoomyRecord

/-- Every record has room for the links of `U`, the lineage of a merge among them, and but for some
`X` its links lead to records of the caller. -/
structure Roomy (ns : Option CString) (U : Finset (UInt64 × Option CString)) (X : Set UInt64)
    (db : Database F) : Prop where
  sound : db.Sound
  isOpen : db.store.log.isOpen = true
  record : ∀ id r, loadRecord F db.store id = .ok r → RoomyRecord U r
  lineage : ∀ id r, loadRecord F db.store id = .ok r → InScope ns r →
    (id, some supersedes) ∈ U ∧ (id, some derivedFrom) ∈ U
  target : ∀ id r l t, loadRecord F db.store id = .ok r → id ∉ X → l ∈ links r →
    loadRecord F db.store l.1 = .ok t → nsDenies ns t = false

def NoByteQuota (cfg : DbConfig) (env : Sample) : Prop :=
  env.authOn = false ∨ cfg.tenantMaxBytes = 0

section

variable {ns : Option CString} {U : Finset (UInt64 × Option CString)} {X : Set UInt64}

theorem Roomy.of_load (h : Roomy ns U X db) (hs : db'.Sound) (hopen : db'.store.log.isOpen = true)
    (hload : ∀ id r, loadRecord F db'.store id = .ok r → loadRecord F db.store id = .ok r) :
    Roomy ns U X db' where
  sound := hs
  isOpen := hopen
  record id r hr := h.record id r (hload id r hr)
  lineage id r hr := h.lineage id r (hload id r hr)
  target id r l t hr hX hl ht := h.target id r l t (hload id r hr) hX hl (hload l.1 t ht)

variable {id : UInt64}

/-- A new version of one record keeps the room, if it has room and its new links lead to records of
the caller. -/
theorem Roomy.of_update (h : Roomy ns U X db) (hs : db'.Sound) (hopen : db'.store.log.isOpen = true)
    {cur new : MemoryRecord} (hcur : loadRecord F db.store id = .ok cur)
    (hview : loadRecord F db'.store = update (loadRecord F db.store) id (.ok new))
    (hrew : Rewritten cur new) (hnew : RoomyRecord U new)
    (hlinks : ∀ l ∈ links new, l ∉ links cur → ∀ t, loadRecord F db.store l.1 = .ok t →
      nsDenies ns t = false) : Roomy ns U X db' := by
  have hback : ∀ x y', loadRecord F db'.store x = .ok y' → ∃ y, loadRecord F db.store x = .ok y ∧
      Rewritten y y' ∧ (y' = y ∨ y = cur ∧ y' = new) := by
    intro x y' hy'
    rw [hview, update_apply] at hy'
    split_ifs at hy' with hx
    · cases hy'
      exact ⟨cur, hx ▸ hcur, hrew, .inr ⟨rfl, rfl⟩⟩
    · exact ⟨y', hy', .refl y', .inl rfl⟩
  refine ⟨hs, hopen, ?_, ?_, ?_⟩
  · intro x y' hy'
    obtain ⟨y, hy, -, rfl | ⟨-, rfl⟩⟩ := hback x y' hy'
    · exact h.record x y' hy
    · exact hnew
  · intro x y' hy' hscope
    obtain ⟨y, hy, hyy, -⟩ := hback x y' hy'
    exact h.lineage x y hy ((InScope.rewritten hyy).1 hscope)
  · intro x y' l t' hy' hX hl ht'
    obtain ⟨y, hy, hyy, hcase⟩ := hback x y' hy'
    obtain ⟨t, ht, htt, -⟩ := hback l.1 t' ht'
    have hdenies : nsDenies ns t = false := by
      rcases hcase with rfl | ⟨rfl, rfl⟩
      · exact h.target x y' l t hy hX hl ht
      · by_cases hold : l ∈ links y
        · exact h.target x y l t hy hX hold ht
        · exact hlinks l hl hold t ht
    simpa only [nsDenies, htt.agentId] using hdenies

theorem nsDenies_of_targetOk {t : MemoryRecord} (h : targetOk db id ns = true)
    (ht : loadRecord F db.store id = .ok t) : nsDenies ns t = false := by
  cases ns with
  | none => rfl
  | some n =>
    simp only [targetOk, ht, not_eq_true', or_eq_false_iff] at h
    exact h.2

theorem targetOk_of_nsDenies (hs : db.Sound) {t : MemoryRecord}
    (ht : loadRecord F db.store id = .ok t) (h : nsDenies ns t = false) :
    targetOk db id ns = true := by
  cases ns with
  | none =>
    obtain ⟨e, he, -⟩ := loadRecord_eq_ok.1 ht
    simp only [targetOk, he, Option.isSome_some]
  | some n => simp only [targetOk, ht, (hs.of_loadRecord ht).2, h, Bool.or_self, Bool.not_false]

variable (cfg env) in
theorem Roomy.relate (h : Roomy ns U X db) (fromId : UInt64) {toId : UInt64} {kind : Option CString}
    (hl : (toId, kind) ∈ U) : Roomy ns U X (qeRelate cfg env db fromId toId kind ns).1 := by
  obtain ⟨hs, hopen, hsame | ⟨cur, hrel, hview⟩⟩ :=
    qeRelate_effect cfg env h.sound fromId toId kind ns
  · exact h.of_load hs (hopen h.isOpen) fun id r hr => hsame ▸ hr
  · have hfresh : (toId, kind) ∉ links cur := by
      rw [← any_relSame, hrel.fresh]
      exact false_ne_true
    refine h.of_update hs (hopen h.isOpen) hrel.load hview ?_
      ((h.record _ _ hrel.load).related hl hfresh hrel.short fromId env.now) ?_
    · exact ⟨rfl, rfl, rfl, rfl, fun _ => rfl, _, rfl⟩
    · intro l hmem hnot t ht
      rw [links_relatedRecord, mem_append, mem_singleton] at hmem
      cases hmem.resolve_left hnot
      exact nsDenies_of_targetOk hrel.target ht

variable (cfg env) in
theorem Roomy.delete (h : Roomy ns U X db) (id : UInt64) :
    Roomy ns U X (qeDelete cfg env db id ns).1 := by
  obtain ⟨hs, hopen, hview⟩ := qeDelete_effect cfg env h.sound id ns
  refine h.of_load hs (hopen h.isOpen) fun id' r hr => ?_
  rcases hview id' with hsame | ⟨-, hgone⟩
  · exact hsame ▸ hr
  · cases hgone.notFound.symm.trans hr

def Reach (ns : Option CString) (db : Database F) (id : UInt64) : Prop :=
  ∃ r, loadRecord F db.store id = .ok r ∧ nsDenies ns r = false

def HasLink (db : Database F) (id : UInt64) (l : UInt64 × Option CString) : Prop :=
  ∃ r, loadRecord F db.store id = .ok r ∧ l ∈ links r

theorem Rewritten.links_subset {r r' : MemoryRecord} (h : Rewritten r r') : links r ⊆ links r' := by
  obtain ⟨more, hmore⟩ := h.relationships
  rw [links, links, hmore, map_append]
  exact subset_append_left _ _

theorem Relinks.reach (h : Relinks db db') (hid : Reach ns db id) : Reach ns db' id := by
  obtain ⟨r, hr, hns⟩ := hid
  obtain ⟨r', hr', hrel⟩ := h.ok id r hr
  exact ⟨r', hr', by simpa only [nsDenies, hrel.rewritten.agentId] using hns⟩

theorem Relinks.hasLink (h : Relinks db db') {l : UInt64 × Option CString} (hl : HasLink db id l) :
    HasLink db' id l := by
  obtain ⟨r, hr, hmem⟩ := hl
  obtain ⟨r', hr', hrel⟩ := h.ok id r hr
  exact ⟨r', hr', hrel.rewritten.links_subset hmem⟩

theorem withinQuota (hquota : NoByteQuota cfg env) {r : MemoryRecord}
    (hlive : (hashIndexGet db.store.hash r.id).isSome = true) (len : ℕ) :
    ((env.tenant r).any fun ns => tenantUsageWouldExceed cfg (db.tenants ns)
      (usageDelta db.store.hash r len)) = false := by
  rcases hquota with hauth | hmax
  · simp only [Sample.tenant, hauth, false_eq_true, if_false, Option.any_none]
  · have hcount : ¬ 0 < (usageDelta db.store.hash r len).1 := by
      simp only [usageDelta, hlive, if_true]
      split <;> decide
    cases env.tenant r with
    | none => rfl
    | some n => simp [tenantUsageWouldExceed, hmax, hcount]

theorem Roomy.hasLink_qeRelate (h : Roomy ns U X db) (hphase : cfg.phase 4 = true)
    (hquota : NoByteQuota cfg env) {fromId : UInt64} (hl : (toId, kind) ∈ U)
    (hshort : ∀ k ∈ kind, k.bytes.length ≤ maxRelKindLen) (hne : fromId ≠ toId)
    (hfrom : Reach ns db fromId) (hto : Reach ns db toId) :
    HasLink (qeRelate cfg env db fromId toId kind ns).1 fromId (toId, kind) := by
  obtain ⟨r, hr, hown⟩ := hfrom
  obtain ⟨t, ht, htown⟩ := hto
  obtain ⟨hid, hlive⟩ := h.sound.of_loadRecord hr
  have hroom := h.record fromId r hr
  have hkind : ¬ (kind.any fun k => maxRelKindLen < k.bytes.length) = true := by
    cases kind with
    | none => exact Bool.false_ne_true
    | some k => simpa using hshort k rfl
  unfold qeRelate
  simp only [hphase, Bool.not_true, Bool.false_eq_true, if_false, hne, hkind, hr, hlive, hown,
    Bool.or_self, targetOk_of_nsDenies h.sound ht htown]
  by_cases hmem : (toId, kind) ∈ links r
  · rw [if_pos (any_relSame.2 hmem)]
    exact ⟨r, hr, hmem⟩
  · have hfresh :=  fun hany => hmem (any_relSame.1 hany)
    rw [if_neg hfresh, if_neg (hroom.length_lt hl hmem).not_ge]
    have hnew := hroom.related hl hmem hshort fromId env.now
    have hwf := wellFormed_of_loadRecord hr
    have hwire : (relatedRecord r fromId toId kind env.now).WireFormed :=
      { hwf.toWireFormed with
        kinds := fun e he k hk => (hnew.short e he k hk).trans_lt (by decide)
        rel_count := hnew.length_le.trans (by decide) }
    obtain ⟨e, he, -⟩ := loadRecord_eq_ok.1 hr
    obtain ⟨db', append⟩ := appendAndHash_isOk_of_quota cfg env db h.isOpen hwire
      hnew.length_recordBytes_le (withinQuota hquota (by
        simp only [relatedRecord, hid, he, Option.isSome_some]) _)
    simp only [append]
    refine ⟨relatedRecord r fromId toId kind env.now, ?_, ?_⟩
    · rw [(wrote_of_appendAndHash hwire.formed append _).loadRecord_eq h.sound,
        clamped_relatedRecord hwf]
      simp only [relatedRecord, hid, hlive, Bool.false_eq_true, if_false, if_true]
    · rw [links_relatedRecord]
      exact mem_append_right _ (mem_singleton.2 rfl)

/-! ## The writes of a merge -/

theorem Roomy.foldl {α : Type} {f : Database F → α → Database F} {l : List α}
    (hf : ∀ (db : Database F), ∀ a ∈ l, Roomy ns U X db → Roomy ns U X (f db a)) (h : Roomy ns U X db) :
    Roomy ns U X (l.foldl f db) := by
  induction l generalizing db with
  | nil => exact h
  | cons a l ih =>
    exact ih (fun db b hb => hf db b (mem_cons_of_mem a hb)) (hf db a mem_cons_self h)

variable (cfg env) in
theorem Roomy.relate_all (h : Roomy ns U X db) (fromId : UInt64) (hU : ∀ e ∈ rels, e.link ∈ U) :
    Roomy ns U X (relateAll cfg env ns fromId rels db) :=
  Roomy.foldl (fun _ e he h => h.relate cfg env fromId (hU e he)) h

variable (cfg env) in
theorem Roomy.repoint (h : Roomy ns U X db) (oldId : UInt64) {heir : UInt64}
    (hU : (heir, some derivedFrom) ∈ U) :
    Roomy ns U X (repointDependents cfg env ns oldId heir db) := by
  unfold repointDependents
  split
  · exact h
  · exact Roomy.foldl (fun _ src _ h => h.relate cfg env src.fromId hU) h

variable (cfg env) in
theorem Roomy.absorb (h : Roomy ns U X db) {losers : List MemoryRecord}
    (hheir : (survivor, some derivedFrom) ∈ U) (hU : ∀ r ∈ losers, (r.id, some supersedes) ∈ U) :
    Roomy ns U X (absorbAll cfg env ns survivor losers db).1 := by
  induction losers generalizing db with
  | nil => exact h
  | cons r losers ih =>
    rw [absorbAll_cons]
    have hrel := h.relate cfg env survivor (hU r mem_cons_self)
    have hrep := hrel.repoint cfg env r.id hheir
    exact ih (hrep.delete cfg env r.id) fun r' hr' => hU r' (mem_cons_of_mem r hr')

/-- The survivor has every link that was to be added, but to itself. -/
theorem Roomy.hasLink_relateAll (h : Roomy ns U X db) (hphase : cfg.phase 4 = true)
    (hquota : NoByteQuota cfg env) {fromId : UInt64} (hU : ∀ e ∈ rels, e.link ∈ U)
    (hshort : ShortKinds rels) (hfrom : Reach ns db fromId) (he : e ∈ rels) (hne : fromId ≠ e.toId)
    (hto : Reach ns db e.toId) :
    HasLink (relateAll cfg env ns fromId rels db) fromId e.link := by
  induction rels generalizing db with
  | nil => cases he
  | cons e' rels ih =>
    have hlink := relinks_qeRelate cfg env h.sound fromId e'.toId e'.kind ns
    have hrest := relinks_relateAll cfg env hlink.sound ns fromId rels
    rcases mem_cons.1 he with rfl | he
    · exact hrest.hasLink (h.hasLink_qeRelate hphase hquota (hU e mem_cons_self)
        (hshort e mem_cons_self) hne hfrom hto)
    · exact ih (h.relate cfg env fromId (hU e' mem_cons_self))
        (fun x hx => hU x (mem_cons_of_mem e' hx))
        (fun x hx => hshort x (mem_cons_of_mem e' hx)) (hlink.reach hfrom) he (hlink.reach hto)

section

variable {recs : List MemoryRecord} {m : MergePlan} (hplan : mergePlan recs = some m)
  (hits : Duplicates ns db recs) (h : Roomy ns U X db)

include hplan hits h

/-- The survivor has room after its update: what it folds is bounded. -/
theorem RoomyRecord.patched {cur new : MemoryRecord}
    (hcur : loadRecord F db.store m.survivor.id = .ok cur)
    (hnew : Patched env ns (mergePatch m.members m.adopt) cur new) : RoomyRecord U new := by
  have hfact := (patched_survivor hplan hits hcur hnew).2
  have hroom := h.record _ cur hcur
  have hfits := mergePlan_fits hplan
  have htags := length_putTags_le hnew.tags.2
  have hcount := hnew.tags.1
  obtain ⟨fact, -, rfl⟩ := hnew.new
  refine ⟨hroom.within, hroom.short, hroom.room, ?_, ?_, ?_⟩
  · refine le_of_eq_of_le ?_ hroom.body
    simp [bodyLength, putHead, UpdatePatch.apply, mergePatch, MemoryRecord.clamped]
  · simp only [maxTags] at hcount
    omega
  · rw [hfact]
    cases hadopt : m.adopt with
    | none => exact (h.record _ _ (hits m.survivor hfits.survivor).1).fact
    | some f =>
      obtain ⟨-, r, hr, rfl, -⟩ := hfits.adopt f hadopt
      exact (h.record _ r (hits r hr).1).fact

variable (cfg env) in
theorem Roomy.update_survivor :
    Roomy ns U X (qeUpdate cfg env db m.survivor.id (mergePatch m.members m.adopt) ns).1 := by
  obtain ⟨hs, hopen, ⟨-, hsame⟩ | ⟨cur, new, hcur, hnew, hview⟩⟩ :=
    qeUpdate_effect cfg env h.sound m.survivor.id (mergePatch m.members m.adopt) ns
  · exact h.of_load hs (hopen h.isOpen) fun id r hr => hsame ▸ hr
  · refine h.of_update hs (hopen h.isOpen) hcur hview hnew.rewritten
      (RoomyRecord.patched hplan hits h hcur hnew) fun l hl hnot => ?_
    -- the patch has no edges
    obtain ⟨fact, -, rfl⟩ := hnew.new
    exact absurd hl hnot

theorem Roomy.mem_of_losers (he : e ∈ m.losers.flatMap fun r => r.relationships) :
    e.link ∈ U ∧ ∀ k ∈ e.kind, k.bytes.length ≤ maxRelKindLen := by
  obtain ⟨r, hr, he⟩ := mem_flatMap.1 he
  have hroom := h.record _ r
    (hits r ((mergePlan_fits hplan).members r (mem_losers.1 hr).1)).1
  exact ⟨hroom.within _ (mem_map_of_mem he), hroom.short e he⟩

end

variable (cfg env ns) in
theorem MergePlan.migrate_eq (m : MergePlan) (db : Database F) :
    m.migrate cfg env ns db =
      relateAll cfg env ns m.survivor.id (m.losers.flatMap fun r => r.relationships) db := by
  unfold migrate relateAll
  rw [foldl_flatMap]

variable (cfg env) in
theorem Roomy.merge (h : Roomy ns U X db) {recs : List MemoryRecord} (hits : Duplicates ns db recs) :
    Roomy ns U X (mergeCluster cfg env ns recs db).1 := by
  rw [mergeCluster_eq]
  cases hplan : mergePlan recs with
  | none => exact h
  | some m =>
    have hfits := mergePlan_fits hplan
    have hupd := Roomy.update_survivor cfg env hplan hits h
    obtain ⟨hload, hscope⟩ := hits m.survivor hfits.survivor
    dsimp only
    generalize qeUpdate cfg env db m.survivor.id (mergePatch m.members m.adopt) ns = x at hupd
    obtain ⟨d, _ | _⟩ := x
    · exact hupd
    · dsimp only
      rw [migrate_eq]
      refine (hupd.relate_all cfg env _ fun e he => (Roomy.mem_of_losers hplan hits h he).1).absorb
        cfg env (h.lineage _ _ hload hscope).2 fun r hr => ?_
      obtain ⟨hr, hrs⟩ := hits r (hfits.members r (mem_losers.1 hr).1)
      exact (h.lineage _ r hr hrs).1

theorem exists_of_not_lost (h : ¬ Lost db id) : ∃ r, loadRecord F db.store id = .ok r := by
  by_contra hnone
  exact h fun r hr => hnone ⟨r, hr⟩

variable (cfg env ns) in
theorem not_lost_absorbAll (hs : db.Sound) {m : MergePlan} (hid : ¬ Lost db m.survivor.id) :
    ¬ Lost (absorbAll cfg env ns m.survivor.id m.losers db).1 m.survivor.id := by
  intro hlost
  obtain ⟨-, r, hr, heq⟩ := of_mem_absorbMerges (mem_absorbMerges_of_lost m.losers hs hid hlost)
  exact (mem_losers.1 hr).2 heq.symm

theorem Roomy.lost_absorbAll (h : Roomy ns U X db) (hphase : cfg.phase 1 = true)
    {losers : List MemoryRecord} (hheir : (survivor, some derivedFrom) ∈ U)
    (hU : ∀ r ∈ losers, (r.id, some supersedes) ∈ U) (hid : ∃ r ∈ losers, r.id = id)
    (hown : ∀ r, loadRecord F db.store id = .ok r → nsDenies ns r = false) :
    Lost (AegisDB.absorbAll cfg env ns survivor losers db).1 id := by
  induction losers generalizing db with
  | nil => obtain ⟨r, hr, -⟩ := hid; cases hr
  | cons r losers ih =>
    rw [absorbAll_cons]
    have hlink := relinks_beforeDelete cfg env h.sound ns survivor r.id
    have hroom : Roomy ns U X (beforeDelete cfg env ns survivor r.id db) :=
      (h.relate cfg env survivor (hU r mem_cons_self)).repoint cfg env r.id hheir
    have hdel := evolves_qeDelete cfg env hlink.sound r.id ns
    have hown' : ∀ r', loadRecord F (beforeDelete cfg env ns survivor r.id db).store id = .ok r' →
        nsDenies ns r' = false := by
      intro r' hr'
      obtain ⟨r₀, hr₀, hrew⟩ := hlink.evolves.back id r' hr'
      simpa only [nsDenies, hrew.agentId] using hown r₀ hr₀
    by_cases heq : r.id = id
    · refine (evolves_absorbAll cfg env hdel.sound ns survivor losers).lost ?_
      by_cases hlost : Lost (beforeDelete cfg env ns survivor r.id db) id
      · exact hdel.lost hlost
      · obtain ⟨t, ht⟩ := exists_of_not_lost hlost
        obtain ⟨htid, -⟩ := hlink.sound.of_loadRecord ht
        have hgone := loadRecord_qeDelete cfg env hlink.sound hphase hroom.isOpen
          (htid.symm ▸ ht) (hroom.record id t ht).length_recordBytes_le (hown' t ht)
        subst heq
        rw [htid] at hgone
        exact fun x hx => by cases hgone.symm.trans hx
    · obtain ⟨x, hx, hxid⟩ := hid
      refine ih (hroom.delete cfg env r.id) (fun r' hr' => hU r' (mem_cons_of_mem r hr'))
        ⟨x, (mem_cons.1 hx).resolve_left fun hxr => heq (hxr ▸ hxid), hxid⟩ fun r' hr' => ?_
      obtain ⟨r₀, hr₀, hrew⟩ := hdel.back id r' hr'
      simpa only [nsDenies, hrew.agentId] using hown' r₀ hr₀

/-- The survivor of a merge has the links of a loser, but to itself. -/
theorem Roomy.links_survivor (h : Roomy ns U X db) (hphase : cfg.phase 4 = true)
    (hquota : NoByteQuota cfg env)
    (hX : ∀ id r, loadRecord F db.store id = .ok r → InScope ns r → id ∉ X)
    {recs : List MemoryRecord} (hits : Duplicates ns db recs)
    {m : MergePlan} (hplan : mergePlan recs = some m) {r : MemoryRecord} (hr : r ∈ m.losers)
    (hlost : Lost (mergeCluster cfg env ns recs db).1 r.id) :
    ∃ s, loadRecord F (mergeCluster cfg env ns recs db).1.store m.survivor.id = .ok s ∧
      ∀ l ∈ links r, l.1 ≠ m.survivor.id → ¬ Lost (mergeCluster cfg env ns recs db).1 l.1 →
        l ∈ links s := by
  have hfits := mergePlan_fits hplan
  obtain ⟨hload, hscope⟩ := hits r (hfits.members r (mem_losers.1 hr).1)
  obtain ⟨hsv, hsvscope⟩ := hits m.survivor hfits.survivor
  have hupd := Roomy.update_survivor cfg env hplan hits h
  have hev := evolves_qeUpdate cfg env h.sound m.survivor.id (mergePatch m.members m.adopt) ns
  have hkeep : ∀ id, ¬ Lost db id → _ := fun id hid =>
    not_lost_qeUpdate cfg env h.sound m.survivor.id (mergePatch m.members m.adopt) ns hid
  rw [mergeCluster_eq, hplan] at hlost ⊢
  dsimp only at hlost ⊢
  generalize qeUpdate cfg env db m.survivor.id (mergePatch m.members m.adopt) ns = x
    at hupd hev hkeep hlost ⊢
  obtain ⟨d, _ | _⟩ := x
  · exact absurd hlost (hkeep _ fun hnone => hnone r hload)
  dsimp only at hupd hev hkeep hlost ⊢
  have hmig := relinks_migrate cfg env hupd.sound ns m
  have hdel := evolves_absorbAll cfg env hmig.sound ns m.survivor.id m.losers
  -- what the caller could reach before the merge, it still can when the edges are added
  have hreach : ∀ id t, loadRecord F db.store id = .ok t → nsDenies ns t = false → Reach ns d id := by
    intro id t ht hown
    obtain ⟨t', ht'⟩ := exists_of_not_lost (hkeep id fun hnone => hnone t ht)
    obtain ⟨t₀, ht₀, hrew⟩ := hev.back id t' ht'
    cases ht.symm.trans ht₀
    exact ⟨t', ht', by simpa only [nsDenies, hrew.agentId] using hown⟩
  have hsvreach := hreach _ _ hsv hsvscope.owner
  obtain ⟨s, hs⟩ : ∃ s, loadRecord F
      (absorbAll cfg env ns m.survivor.id m.losers (m.migrate cfg env ns d)).1.store
        m.survivor.id = .ok s := by
    obtain ⟨s₁, hs₁, -⟩ := hmig.reach hsvreach
    exact exists_of_not_lost (not_lost_absorbAll cfg env ns hmig.sound fun hnone => hnone s₁ hs₁)
  refine ⟨s, hs, fun l hl hne hlive => ?_⟩
  obtain ⟨e, he, rfl⟩ := mem_map.1 hl
  obtain ⟨t, ht⟩ := exists_of_not_lost fun hgone =>
    hlive (((hev.trans hmig.evolves).trans hdel).lost hgone)
  have hmem : e ∈ m.losers.flatMap fun r => r.relationships := mem_flatMap.2 ⟨r, hr, he⟩
  obtain ⟨s₂, hs₂, hlink⟩ : HasLink (m.migrate cfg env ns d) m.survivor.id e.link := by
    rw [migrate_eq]
    exact hupd.hasLink_relateAll hphase hquota
      (fun x hx => (Roomy.mem_of_losers hplan hits h hx).1)
      (fun x hx => (Roomy.mem_of_losers hplan hits h hx).2) hsvreach hmem (Ne.symm hne)
      (hreach _ t ht (h.target _ r _ t hload (hX _ r hload hscope) hl ht))
  obtain ⟨s₂', hs₂', hrew⟩ := hdel.back _ s hs
  cases hs₂.symm.trans hs₂'
  exact hrew.links_subset hlink

end

/-- The record was merged into the other one, directly or through others. -/
inductive MergedInto (ms : List (UInt64 × UInt64)) : UInt64 → UInt64 → Prop
  | single {id survivor : UInt64} (h : (id, survivor) ∈ ms) : MergedInto ms id survivor
  | head {id next survivor : UInt64} (h : (id, next) ∈ ms) (rest : MergedInto ms next survivor) :
    MergedInto ms id survivor

variable {ms : List (UInt64 × UInt64)}

theorem MergedInto.mono {ms' : List (UInt64 × UInt64)} (hsub : ms ⊆ ms') {id : UInt64}
    (h : MergedInto ms id survivor) : MergedInto ms' id survivor := by
  induction h with
  | single h => exact .single (hsub h)
  | head h _ ih => exact .head (hsub h) ih

/-- The record was merged into one that is there, with each of its links that leads to another one
that is there. -/
def LinksKept (ms : List (UInt64 × UInt64)) (db' : Database F) (id : UInt64)
    (r : MemoryRecord) : Prop :=
  ∃ survivor s, MergedInto ms id survivor ∧ loadRecord F db'.store survivor = .ok s ∧
    ∀ l ∈ links r, l.1 ≠ survivor → ¬ Lost db' l.1 → l ∈ links s

variable {U : Finset (UInt64 × Option CString)}

theorem MergeRun.linksKept {ns : Option CString} {X : Set UInt64}
    (hrun : MergeRun cfg env ns db ms db') (h : Roomy ns U X db) (hphase : cfg.phase 4 = true)
    (hquota : NoByteQuota cfg env)
    (hX : ∀ id r, loadRecord F db.store id = .ok r → InScope ns r → id ∉ X) :
    ∀ id r, loadRecord F db.store id = .ok r → Lost db' id → LinksKept ms db' id r := by
  induction hrun with
  | nil => exact fun id r hr hlost => absurd hr (hlost r)
  | @cons db db' recs ms hits rest ih =>
    intro id r hr hlost
    have hnext := h.merge cfg env hits
    have hev := evolves_mergeCluster cfg env h.sound ns recs
    have hrest := rest.evolves hnext.sound
    have hX' : ∀ id r, loadRecord F (mergeCluster cfg env ns recs db).1.store id = .ok r →
        InScope ns r → id ∉ X := by
      intro id r' hr' hscope
      obtain ⟨r, hr, hrew⟩ := hev.back id r' hr'
      exact hX id r hr ((InScope.rewritten hrew).1 hscope)
    by_cases hgone : Lost (mergeCluster cfg env ns recs db).1 id
    · -- merged here, into a survivor that may be merged later
      obtain ⟨next, hmem⟩ := mem_clusterMerges_of_lost ns h.sound (fun hnone => hnone r hr) hgone
      obtain ⟨m, hplan, rfl, r', hr', rfl⟩ := of_mem_clusterMerges hmem
      obtain ⟨hload, -⟩ := hits r' ((mergePlan_fits hplan).members r' (mem_losers.1 hr').1)
      cases hload.symm.trans hr
      obtain ⟨s₁, hs₁, hlinks⟩ := h.links_survivor hphase hquota hX hits hplan hr' hgone
      by_cases hsv : Lost db' m.survivor.id
      · obtain ⟨survivor, s, hinto, hs, hkept⟩ := ih hnext hX' _ s₁ hs₁ hsv
        refine ⟨survivor, s, .head (mem_append_left _ hmem)
          (hinto.mono (subset_append_right _ _)), hs, fun l hl hne hlive => ?_⟩
        refine hkept l (hlinks l hl ?_ fun hlost => hlive (hrest.lost hlost)) hne hlive
        exact fun heq => hlive (heq ▸ hsv)
      · obtain ⟨s, hs⟩ := exists_of_not_lost hsv
        refine ⟨_, s, .single (mem_append_left _ hmem), hs, fun l hl hne hlive => ?_⟩
        obtain ⟨s₁', hs₁', hrew⟩ := hrest.back _ s hs
        cases hs₁.symm.trans hs₁'
        exact hrew.links_subset (hlinks l hl hne fun hlost => hlive (hrest.lost hlost))
    · -- merged later, with all its links
      obtain ⟨r₁, hr₁⟩ := exists_of_not_lost hgone
      obtain ⟨r', hr', hrew⟩ := hev.back id r₁ hr₁
      cases hr.symm.trans hr'
      obtain ⟨survivor, s, hinto, hs, hkept⟩ := ih hnext hX' id r₁ hr₁ hlost
      exact ⟨survivor, s, hinto.mono (subset_append_right _ _), hs,
        fun l hl => hkept l (hrew.links_subset hl)⟩

/-- What keeps every link of a merge: each record has room for the links of all records and the
lineage of those the caller can consolidate; `qe_relate` accepts their sizes; and the caller's
records are linked to its own. -/
structure LinkRoom (ns : Option CString) (db : Database F) : Prop where
  room : ∃ U : Finset (UInt64 × Option CString),
    (∀ id r, loadRecord F db.store id = .ok r → (∀ l ∈ links r, l ∈ U) ∧
      r.relationships.length + U.card ≤ maxRelationships) ∧
    ∀ id r, loadRecord F db.store id = .ok r → InScope ns r →
      (id, some supersedes) ∈ U ∧ (id, some derivedFrom) ∈ U
  size : ∀ id r, loadRecord F db.store id = .ok r →
    ShortKinds r.relationships ∧ (recordBytes r).length ≤ 2 ^ 30
  target : ∀ id r l t, loadRecord F db.store id = .ok r → InScope ns r → l ∈ links r →
    loadRecord F db.store l.1 = .ok t → nsDenies ns t = false

theorem RoomyRecord.of_size {r : MemoryRecord} (hwithin : ∀ l ∈ links r, l ∈ U)
    (hroom : r.relationships.length + U.card ≤ maxRelationships)
    (hshort : ShortKinds r.relationships) (hsize : (recordBytes r).length ≤ 2 ^ 30) :
    RoomyRecord U r := by
  rw [length_recordBytes] at hsize
  refine ⟨hwithin, hshort, ⟨links r, [], (append_nil _).symm, nodup_nil, ?_⟩,
    by omega, by omega, by omega⟩
  rwa [links, length_map]

theorem LinkRoom.roomy {ns : Option CString} (h : LinkRoom ns db) (hs : db.Sound)
    (hopen : db.store.log.isOpen = true) :
    ∃ U, Roomy ns U {id | ∀ r, loadRecord F db.store id = .ok r → ¬ InScope ns r} db := by
  obtain ⟨U, hrecords, hlineage⟩ := h.room
  refine ⟨U, hs, hopen, fun id r hr => ?_, hlineage, fun id r l t hr hX => ?_⟩
  swap
  · refine h.target id r l t hr ?_
    by_contra hscope
    exact hX fun r' hr' => by cases hr.symm.trans hr'; exact hscope
  obtain ⟨hwithin, hroom⟩ := hrecords id r hr
  obtain ⟨hshort, hsize⟩ := h.size id r hr
  exact .of_size hwithin hroom hshort hsize

theorem MergeRun.roomy {ns : Option CString} {X : Set UInt64} (hrun : MergeRun cfg env ns db ms db')
    (h : Roomy ns U X db) :
    Roomy ns U X db' := by
  induction hrun with
  | nil => exact h
  | cons hits _ ih => exact ih (h.merge cfg env hits)

theorem MergedInto.exists_mem {id : UInt64} (h : MergedInto ms id survivor) :
    ∃ id', (id', survivor) ∈ ms := by
  induction h with
  | single h => exact ⟨_, h⟩
  | head _ _ ih => exact ih

def twinNs : CString := .ofBytes [97]

/-- The record the first twin is linked to, in the namespace of the twins or in another one. -/
def linkTarget (foreign : Bool) : MemoryRecord :=
  { twinTarget with agentId := some (if foreign then .ofBytes [98] else twinNs) }

theorem storable_linkTarget (foreign : Bool) : Storable (linkTarget foreign) where
  wellFormed := { storable_twinTarget.wellFormed with agent := by cases foreign <;> decide }
  length_le := by cases foreign <;> decide +kernel

/-- A database with the twins and that record, with edges. -/
def linkDb (foreign : Bool) : Database plainFraming :=
  (((Database.create (twinConfig true) fun _ => ()).put (twinConfig true) .zero
    (linkTarget foreign)).put (twinConfig true) .zero firstTwin).put (twinConfig true) .zero
      (secondTwin false)

def linkView (foreign : Bool) : UInt64 → Except Status MemoryRecord :=
  update (update (update (fun _ => .error .notFound) 3
    (.ok (linkTarget foreign))) 1 (.ok firstTwin)) 2 (.ok (secondTwin false))

theorem shows_linkDb (foreign : Bool) : (linkDb foreign).Shows (linkView foreign) :=
  (((shows_create (twinConfig true) _).put (twinConfig true) .zero
    (storable_linkTarget foreign) rfl rfl).put (twinConfig true) .zero storable_firstTwin rfl rfl).put
      (twinConfig true) .zero (storable_secondTwin false) rfl rfl

variable {foreign : Bool}

theorem linkView_eq_ok {id : UInt64} {r : MemoryRecord} (h : linkView foreign id = .ok r) :
    id = 2 ∧ r = secondTwin false ∨ id = 1 ∧ r = firstTwin ∨ id = 3 ∧ r = linkTarget foreign := by
  unfold linkView at h
  simp only [update_apply] at h
  split_ifs at h with h₂ h₁ h₃ <;> cases h
  · exact .inl ⟨h₂, rfl⟩
  · exact .inr (.inl ⟨h₁, rfl⟩)
  · exact .inr (.inr ⟨h₃, rfl⟩)

theorem showsTwins_linkView (foreign : Bool) :
    ShowsTwins (some twinNs) false (linkView foreign) where
  first := rfl
  second := rfl
  rest id r hr := by
    rcases linkView_eq_ok hr with ⟨rfl, -⟩ | ⟨rfl, -⟩ | ⟨-, rfl⟩ <;> simp [linkTarget, twinTarget,
      recordInit, Embedding.absent]
  firstOwner := by decide
  secondOwner := by decide

/-- The links of that database, with the lineage of the twins. -/
def twinLinks : Finset (UInt64 × Option CString) :=
  {(3, none), (1, some supersedes), (1, some derivedFrom), (2, some supersedes), (2, some derivedFrom)}

section

variable (h : db.Shows (linkView foreign))

include h

theorem room_linkDb :
    (∀ id r, loadRecord F db.store id = .ok r → (∀ l ∈ links r, l ∈ twinLinks) ∧
      r.relationships.length + twinLinks.card ≤ maxRelationships) ∧
    ∀ id r, loadRecord F db.store id = .ok r → InScope (some twinNs) r →
      (id, some supersedes) ∈ twinLinks ∧ (id, some derivedFrom) ∈ twinLinks := by
  rw [h.load]
  refine ⟨fun id r hr => ?_, fun id r hr hscope => ?_⟩
  · rcases linkView_eq_ok hr with ⟨-, rfl⟩ | ⟨-, rfl⟩ | ⟨-, rfl⟩
    · exact ⟨nofun, by decide⟩
    · exact ⟨by decide, by decide⟩
    · exact ⟨nofun, by simp only [linkTarget, twinTarget, recordInit]; decide⟩
  · rcases linkView_eq_ok hr with ⟨rfl, rfl⟩ | ⟨rfl, rfl⟩ | ⟨rfl, rfl⟩
    · decide
    · decide
    · cases hscope.type

theorem size_linkDb :
    ∀ id r, loadRecord F db.store id = .ok r →
      ShortKinds r.relationships ∧ (recordBytes r).length ≤ 2 ^ 30 := by
  intro id r hr
  rw [h.load] at hr
  rcases linkView_eq_ok hr with ⟨-, rfl⟩ | ⟨-, rfl⟩ | ⟨-, rfl⟩
  · exact ⟨nofun, by decide +kernel⟩
  · exact ⟨fun e he => mem_singleton.1 he ▸ nofun, by decide +kernel⟩
  · exact ⟨nofun, by cases foreign <;> decide +kernel⟩

theorem roomy_linkDb : Roomy (some twinNs) twinLinks {1} db := by
  obtain ⟨hroom, hlineage⟩ := room_linkDb h
  refine ⟨h.sound, h.isOpen, fun id r hr => ?_, hlineage, fun id r l t hr hX hl => ?_⟩
  · obtain ⟨hwithin, hcount⟩ := hroom id r hr
    obtain ⟨hshort, hsize⟩ := size_linkDb h id r hr
    exact .of_size hwithin hcount hshort hsize
  · -- no other record has a link
    rw [h.load] at hr
    rcases linkView_eq_ok hr with ⟨-, rfl⟩ | ⟨rfl, -⟩ | ⟨-, rfl⟩
    · cases hl
    · exact absurd rfl hX
    · cases hl

theorem lost_linkDb :
    Lost (qeConsolidate twinRanking (twinConfig true) .zero db (some twinNs) .zero).1 1 := by
  have hload : loadRecord F db.store 2 = .ok (secondTwin false) := by
    rw [h.load]
    rfl
  obtain ⟨e, he, htype, -⟩ := h.sound.exists_entry hload
  have htwins := showsTwins_linkView foreign
  obtain ⟨ids, hloop, -⟩ := consolidateLoop_twins true h htwins
    (collectIds db.store.hash fun _ e => e.type = .semantic)
    (mem_collectIds.2 ⟨e, he, decide_eq_true htype⟩)
  have hcons : (qeConsolidate twinRanking (twinConfig true) .zero db (some twinNs) .zero).1 = _ := hloop
  have hits : Duplicates (some twinNs) db [firstTwin, secondTwin false] := by
    intro r hr
    rw [h.load]
    rcases mem_pair.1 hr with rfl | rfl
    · exact ⟨rfl, rfl, htwins.firstOwner⟩
    · exact ⟨rfl, rfl, htwins.secondOwner⟩
  have hroom := (roomy_linkDb h).merge (twinConfig true) .zero hits
  rw [hcons]
  refine ((mergeRun_loop _ _ twinRanking hroom.sound (some twinNs) .zero ids).evolves
    hroom.sound).lost ?_
  have hplan := mergePlan_twins false
  obtain ⟨hok, hupd⟩ := qeUpdate_twins true htwins.secondOwner h htwins.second
  have hroom' := Roomy.update_survivor (twinConfig true) .zero hplan hits (roomy_linkDb h)
  have hid : (secondTwin false).id = 2 := rfl
  rw [mergeCluster_eq, hplan]
  simp only [hid] at hroom' ⊢
  generalize qeUpdate (twinConfig true) .zero db 2 (mergePatch [firstTwin, secondTwin false] none)
    (some twinNs) = x at hok hupd hroom'
  obtain ⟨d, _ | new⟩ := x
  · cases hok
  dsimp only at hupd hroom' ⊢
  rw [migrate_eq]
  have hmig := hroom'.relate_all (twinConfig true) .zero 2 fun e he =>
    (Roomy.mem_of_losers hplan hits (roomy_linkDb h) he).1
  have hlosers : (MergePlan.mk (secondTwin false) none [firstTwin, secondTwin false]).losers =
      [firstTwin] := rfl
  rw [hlosers] at hmig ⊢
  refine hmig.lost_absorbAll rfl (by decide) ?_ ⟨firstTwin, mem_singleton.2 rfl, rfl⟩ ?_
  · intro r hr
    rw [mem_singleton.1 hr]
    decide
  · intro r hr
    obtain ⟨r', hr', hrew⟩ := (relinks_relateAll (twinConfig true) .zero hroom'.sound (some twinNs) 2
      _).evolves.back 1 r hr
    rw [hupd.load, update_of_ne (by decide), htwins.first] at hr'
    cases hr'
    simpa only [nsDenies, hrew.agentId] using htwins.firstOwner

end

end AegisDB
