import AegisDB.Query.Effects
import AegisDB.Query.Handlers

/-!
# Delete by query

A delete request without an id deletes what its filters match. The accessors of the request map a
value of the wrong shape to an absent one, and the guard against a delete without filters looks at
what was read; so a filter that cannot be read is dropped, and the delete is wider than the request
(`misspelt_type_deletes`).

`deletes_meet_request_iff` says for which requests that does not happen.
-/

namespace AegisDB

open Bytes List Option Database

variable {F : Framing}

/-! ## What a request asks for -/

def Given (req : Json) (key : String) (v : Json) : Prop := req.item key = some v ∧ v ≠ .null

/-- The type, the tags and the times of a request can be read. -/
structure Readable (req : Json) : Prop where
  type : ∀ v, Given req "type" v → ∃ s t, v = .string s ∧ memoryTypeFromString s = some t
  tags : ∀ v, Given req "tags" v → ∃ ss : List CString, v = .array (ss.map .string)
  start : ∀ v, Given req "start_time" v → ∃ t, v.asU64 = some t
  stop : ∀ v, Given req "end_time" v → ∃ t, v.asU64 = some t

/-- The match mode of a request is `any`. -/
def MatchAny (req : Json) : Prop := jrStr req "match" = some (.ofString "any")

/-- The record has what every filter field of the request asks for. -/
structure MeetsRequest (req : Json) (r : MemoryRecord) : Prop where
  type : ∀ v, Given req "type" v → ∃ s, v = .string s ∧ memoryTypeFromString s = some r.type
  /-- All of the tags, or any of them where some are given. -/
  tags : ∀ v, Given req "tags" v → ∃ ss : List CString, v = .array (ss.map .string) ∧
    (¬ MatchAny req → ∀ t ∈ ss, t ∈ r.tags) ∧ (MatchAny req → ss ≠ [] → ∃ t ∈ ss, t ∈ r.tags)
  time : ∀ v w, Given req "start_time" v → Given req "end_time" w →
    ∃ start stop : JsonNumber, v = .number start ∧ w = .number stop ∧
      start.1.LeNat r.created.toNat ∧ F64.NatLe r.created.toNat stop.1
  agent : ∀ v, Given req "agent_id" v → ∃ a, v = .string a ∧ r.agentId = some a
  importance : ∀ v, Given req "max_importance" v →
    ∃ d : JsonNumber, v = .number d ∧ ¬ d.1.toF32.Lt r.importance

/-- The request is one for a delete by query: it has no id, no pattern, and a filter that can be
read. -/
structure IsBulkDelete (req : Json) (ns : Option CString) (p : SearchParams) : Prop where
  id : jrU64 req "id" = none
  pattern : req.present "pattern" = false
  filters : parseFilters req ns = some p
  positive : ¬ (p.type.isNone ∧ p.tags = [] ∧ p.time.isNone)

/-- The time range of a request starts at a whole number. -/
def StartHeeded (req : Json) : Prop :=
  ∀ d : JsonNumber, ∀ w, Given req "start_time" (.number d) → Given req "end_time" w → d.1.IsWhole

/-- The `agent_id` of a request is a string, and the namespace of a namespaced caller. -/
def AgentHeeded (ns : Option CString) (req : Json) : Prop :=
  ∀ v, Given req "agent_id" v → ∃ a, v = .string a ∧ ∀ n ∈ ns, n = a

/-- The `max_importance` of a request is a number, and not the negative infinity. -/
def ImportanceHeeded (req : Json) : Prop :=
  ∀ v, Given req "max_importance" v →
    ∃ d : JsonNumber, v = .number d ∧ (d.1.IsFinite ∨ ¬ d.1.Negative)

/-! ## Reading the filters -/

section

variable {req : Json} {ns : Option CString} {p : SearchParams}

theorem parseFilters_eq_some (h : parseFilters req ns = some p) : ∃ tags,
    jrStrArray req "tags" maxTags = some tags ∧ p.time = parseTime req ∧
      p.type = (jrStr req "type").bind memoryTypeFromString ∧
      p.maxImportance = (jrF64 req "max_importance").map F64.toF32 ∧
      p.agentId = ns.or (jrStr req "agent_id") ∧ p.tags = tags ∧ p.pattern = none ∧
      (p.matchAll = true ↔ ¬ MatchAny req) := by
  obtain ⟨tags, htags, rfl⟩ := map_eq_some_iff.1 h
  refine ⟨tags, htags, rfl, rfl, rfl, rfl, rfl, rfl, ?_⟩
  have hne : CString.ofString "all" ≠ CString.ofString "any" := by decide
  unfold MatchAny
  cases jrStr req "match" <;> simp [hne]

variable {r : MemoryRecord}

theorem passesFilters_iff {sub : List UInt64} :
    passesFilters sub p r = true ↔ r.deleted = false ∧ (∀ t ∈ p.type, r.type = t) ∧
      (∀ m ∈ p.maxImportance, ¬ m.Lt r.importance) ∧ (∀ a ∈ p.agentId, r.agentId = some a) ∧
      (∀ t ∈ p.time, t.1 ≤ r.created ∧ r.created ≤ t.2) ∧
      (∀ pat ∈ p.pattern, matchesPattern sub pat r = true) ∧
      (p.tags ≠ [] → matchesTags p r = true) := by
  simp only [passesFilters, Bool.and_eq_true, Bool.not_eq_true', Option.all_eq_true,
    decide_eq_true_eq, decide_eq_false_iff_not, Bool.or_eq_true, List.isEmpty_iff, and_assoc,
    or_iff_not_imp_left, mem_def, ne_eq]

theorem parseTime_eq_some {v w : Json} {start stop : UInt64} (hv : Given req "start_time" v)
    (hw : Given req "end_time" w) (hstart : v.asU64 = some start) (hstop : w.asU64 = some stop) :
    parseTime req = some (start, stop) := by
  rw [parseTime, jrU64, jrU64, hv.1, hw.1]
  simp [hstart, hstop]

/-- What passes the filters that were read has what the request asks for. -/
theorem MeetsRequest.of_passes (hp : parseFilters req ns = some p) (hread : Readable req)
    (hstart : StartHeeded req) (hagent : AgentHeeded ns req) (himp : ImportanceHeeded req)
    (hr : r.WellFormed) (h : passesFilters [] p r = true) :
    MeetsRequest req r := by
  obtain ⟨tags, htags, htime, htype, hmax, hns, rfl, -, hmode⟩ := parseFilters_eq_some hp
  obtain ⟨-, ptype, pimp, pagent, ptime, -, ptags⟩ := passesFilters_iff.1 h
  refine ⟨fun v hv => ?_, fun v hv => ?_, fun v w hv hw => ?_, fun v hv => ?_, fun v hv => ?_⟩
  · obtain ⟨s, t, rfl, ht⟩ := hread.type v hv
    have hs : jrStr req "type" = some s := by rw [jrStr, hv.1]; rfl
    rw [hs, bind_some, ht] at htype
    exact ⟨s, rfl, by rw [ht, ptype t htype]⟩
  · obtain ⟨ss, rfl⟩ := hread.tags v hv
    have hss : p.tags = ss := by
      rw [jrStrArray, hv.1] at htags
      obtain ⟨-, htags⟩ := ite_none_left_eq_some.1 htags
      rw [← Option.some.inj htags, filterMap_map]
      exact filterMap_some
    rw [hss] at ptags
    refine ⟨ss, rfl, fun hall t ht => ?_, fun hany hne => ?_⟩
    · have := ptags (ne_nil_of_mem ht)
      rw [matchesTags, if_pos (hmode.2 hall), hss, List.all_eq_true] at this
      simpa using this t ht
    · have := ptags hne
      rw [matchesTags, if_neg fun hm => hmode.1 hm hany, hss, List.any_eq_true] at this
      simpa using this
  · obtain ⟨start, hs⟩ := hread.start v hv
    obtain ⟨stop, ht⟩ := hread.stop w hw
    obtain ⟨hge, hle⟩ := ptime (start, stop) (htime.trans (parseTime_eq_some hv hw hs ht))
    obtain ⟨d, rfl, -, hd⟩ := Json.of_asU64_eq_some hs
    obtain ⟨e, rfl, hpos, he⟩ := Json.of_asU64_eq_some ht
    rw [UInt64.le_iff_toNat_le] at hge hle
    exact ⟨d, e, rfl, rfl, (hstart d _ hv hw).leNat (hd ▸ hge),
      hpos, (Nat.mul_le_mul_right _ (he ▸ hle)).trans e.1.truncate_mul_le⟩
  · obtain ⟨a, rfl, hown⟩ := hagent v hv
    have ha : p.agentId = some a := by
      rw [hns, jrStr, hv.1]
      cases ns with
      | none => rfl
      | some n => rw [hown n rfl]; rfl
    exact ⟨a, rfl, pagent a ha⟩
  · obtain ⟨d, rfl, hd⟩ := himp v hv
    refine ⟨d, rfl, ?_⟩
    by_cases hfin : d.1.IsFinite
    · refine pimp _ ?_
      rw [hmax, jrF64, hv.1, bind_some, Json.asF64, if_pos hfin]
      rfl
    · rw [F64.toF32_lt_iff_of_infinite d.2 hfin hr.importance.1]
      exact hd.resolve_left hfin

/-- A record that meets the filters that were read is one for which the request can be heeded. -/
theorem MeetsRequest.heeded (hp : parseFilters req ns = some p) (hr : r.WellFormed)
    (h : passesFilters [] p r = true) (hmeets : MeetsRequest req r) :
    AgentHeeded ns req ∧ ImportanceHeeded req := by
  obtain ⟨-, -, -, -, -, hns, -, -, -⟩ := parseFilters_eq_some hp
  obtain ⟨-, -, -, pagent, -⟩ := passesFilters_iff.1 h
  refine ⟨fun v hv => ?_, fun v hv => ?_⟩
  · obtain ⟨a, rfl, ha⟩ := hmeets.agent v hv
    refine ⟨a, rfl, fun n hn => ?_⟩
    have hown : r.agentId = some n := pagent n (by rw [hns, mem_def.1 hn]; rfl)
    exact Option.some.inj (hown.symm.trans ha)
  · obtain ⟨d, rfl, hd⟩ := hmeets.importance v hv
    refine ⟨d, rfl, or_iff_not_imp_left.2 fun hfin => ?_⟩
    rwa [F64.toF32_lt_iff_of_infinite d.2 hfin hr.importance.1] at hd

def MemoryRecord.createdAt (r : MemoryRecord) (t : UInt64) : MemoryRecord := { r with created := t }

theorem Storable.createdAt (h : Storable r) (t : UInt64) : Storable (r.createdAt t) :=
  ⟨{ h.wellFormed with }, by simpa [recordBytes, putHead, MemoryRecord.createdAt] using h.length_le⟩

theorem passesFilters_createdAt {start stop : UInt64} (h : passesFilters [] p r = true)
    (htime : p.time = some (start, stop)) :
    passesFilters [] p (r.createdAt start) = true := by
  obtain ⟨hdel, htype, himp, hagent, hwin, hpat, htags⟩ := passesFilters_iff.1 h
  refine passesFilters_iff.2 ⟨hdel, htype, himp, hagent, fun t ht => ?_, hpat, htags⟩
  cases htime.symm.trans ht
  exact ⟨UInt64.le_refl _, UInt64.le_trans (hwin _ htime).1 (hwin _ htime).2⟩

end

section

variable {R : Ranking} {cfg : DbConfig} {env : Sample} {db : Database F} {req : Json}
  {ns : Option CString} {p : SearchParams}

/-- The ids a delete by query goes through. -/
def bulkIds (R : Ranking) (env : Sample) (db : Database F) (p : SearchParams) : List UInt64 :=
  (gatherCandidates R env db p [] 0 .filter 0).1.map fun c => c.record.id

theorem IsBulkDelete.handleDelete_eq (h : IsBulkDelete req ns p) (hphase : cfg.phase 1 = true) :
    handleDelete R cfg env ns req db = ((deleteAll cfg env ns (bulkIds R env db p) db).1,
        .deletedCount (deleteAll cfg env ns (bulkIds R env db p) db).2) := by
  rw [handleDelete, h.id, h.pattern, h.filters]
  simp only [Bool.false_eq_true, if_false, qeDeleteByQuery, hphase, Bool.not_true,
    if_neg h.positive]
  rfl

theorem isBulkDelete_of_deletedCount {n : ℕ}
    (h : (handleDelete R cfg env ns req db).2 = .deletedCount n) :
    cfg.phase 1 = true ∧ ∃ p, IsBulkDelete req ns p := by
  unfold handleDelete at h
  split at h
  · dsimp only [Answer.ofResult, Answer.status] at h
    split at h <;> cases h
  · rename_i hid
    split at h
    · cases h
    · rename_i hpat
      split at h
      · cases h
      · rename_i p hp
        unfold qeDeleteByQuery at h
        split_ifs at h with hphase hpos
        · cases h
        · cases h
        · exact ⟨by simpa using hphase, p, hid, by simpa using hpat, hp, hpos⟩

theorem mem_bulkIds {r : MemoryRecord} (hix : FilterExact (currentRecord F db.store) db.ix)
    (hp : p.pattern = none) (load : loadRecord F db.store r.id = .ok r)
    (hexp : recordExpired r env.now = false) (hpass : passesFilters [] p r = true) :
    r.id ∈ bulkIds R env db p := by
  have hdrawn : r.id ∈ (filterIds db.ix p [] 0).1 :=
    (hix.mem_filterIds (.inl rfl)).2 ⟨r, currentRecord_eq_some.2 load, drawn_of_passes hp hpass⟩
  have hcand : loadCandidate env db p [] r.id = some r :=
    loadCandidate_eq_some.2 ⟨load, hexp, hpass⟩
  refine List.mem_map.2 ⟨R.unscored r, mem_filterMap.2 ⟨{ id := r.id }, ?_, ?_⟩, rfl⟩
  · exact List.mem_map.2 ⟨_, hdrawn, rfl⟩
  · rw [hcand]
    rfl

theorem passes_of_mem_bulkIds {id : UInt64} {r : MemoryRecord} (hs : db.Sound)
    (h : id ∈ bulkIds R env db p) (load : loadRecord F db.store id = .ok r) :
    r.WellFormed ∧ passesFilters [] p r = true := by
  obtain ⟨c, hc, rfl⟩ := List.mem_map.1 h
  obtain ⟨id', hid', -, hpass⟩ := passes_of_mem_gather hc
  obtain ⟨rfl, -⟩ := hs.of_loadRecord hid'
  cases load.symm.trans hid'
  exact ⟨wellFormed_of_loadRecord load, hpass⟩

end

theorem nsDenies_of_passes {req : Json} {ns : Option CString} {p : SearchParams} {r : MemoryRecord}
    (hp : parseFilters req ns = some p) (h : passesFilters [] p r = true) :
    nsDenies ns r = false := by
  obtain ⟨-, -, -, -, -, hns, -⟩ := parseFilters_eq_some hp
  cases ns with
  | none => rfl
  | some n =>
    have hown : r.agentId = some n := agentId_of_passesFilters h hns
    simp [nsDenies, hown]

/-- A record that meets the filters of a delete by query is deleted from its database. -/
theorem IsBulkDelete.deletes_single {req : Json} {ns : Option CString} {p : SearchParams}
    (nonces : ℕ → F.Nonce) {r : MemoryRecord} (hp : IsBulkDelete req ns p) (hr : Storable r)
    (hpass : passesFilters [] p r = true) :
    loadRecord F (handleDelete .nothing .unlimited .zero ns req
      (Database.single nonces r)).1.store r.id = .error .notFound := by
  have hlive := (passesFilters_iff.1 hpass).1
  have hexact := single_exact nonces hr hlive
  have hload := loadRecord_single nonces hr hlive
  obtain ⟨-, -, -, -, -, -, -, hpat, -⟩ := parseFilters_eq_some hp.filters
  have hexp : recordExpired r Sample.zero.now = false := by
    simp [recordExpired, Sample.zero]
  rw [hp.handleDelete_eq rfl]
  exact loadRecord_deleteAll .unlimited .zero hexact.sound rfl
    (single_spec nonces hr hlive).1 hload hr.length_le
    (nsDenies_of_passes hp.filters hpass) (mem_bulkIds hexact.filters hpat hload hexp hpass)

/-- **A delete by query deletes what its request asks for** if, and only if, its filters can be read
and those that admit a record are heeded. -/
theorem deletes_meet_request_iff (nonces : ℕ → F.Nonce) (ns : Option CString) (req : Json) :
    (∀ (R : Ranking) (cfg : DbConfig) (env : Sample) (db : Database F) (n : ℕ), db.Sound →
      (handleDelete R cfg env ns req db).2 = .deletedCount n →
        Readable req ∧ ∀ id r, loadRecord F db.store id = .ok r →
          loadRecord F (handleDelete R cfg env ns req db).1.store id ≠ .ok r →
            MeetsRequest req r) ↔
      ∀ p, IsBulkDelete req ns p → Readable req ∧
        ((∃ r, Storable r ∧ passesFilters [] p r = true) →
          StartHeeded req ∧ AgentHeeded ns req ∧ ImportanceHeeded req) := by
  constructor
  · intro h p hp
    have hmeets (r : MemoryRecord) (hr : Storable r) (hpass : passesFilters [] p r = true) :
        MeetsRequest req r := by
      have hlive := (passesFilters_iff.1 hpass).1
      refine (h .nothing .unlimited .zero _ _ (single_exact nonces hr hlive).sound
        (by rw [hp.handleDelete_eq rfl])).2 r.id r (loadRecord_single nonces hr hlive) ?_
      rw [hp.deletes_single nonces hr hpass]
      nofun
    have hread := (h .nothing .unlimited .zero _ _ (create_sound .unlimited nonces)
      (by rw [hp.handleDelete_eq rfl])).1
    refine ⟨hread, ?_⟩
    rintro ⟨r, hr, hpass⟩
    refine ⟨fun d w hd hw => ?_, (hmeets r hr hpass).heeded hp.filters hr.wellFormed hpass⟩
    -- a record created at the truncated start
    obtain ⟨start, hstart⟩ := hread.start _ hd
    obtain ⟨stop, hstop⟩ := hread.stop _ hw
    obtain ⟨-, -, htime, -⟩ := parseFilters_eq_some hp.filters
    rw [parseTime_eq_some hd hw hstart hstop] at htime
    obtain ⟨d', -, heq, -, hle, -⟩ := (hmeets _ (hr.createdAt start)
      (passesFilters_createdAt hpass htime)).time _ _ hd hw
    obtain ⟨e, he, -, htrunc⟩ := Json.of_asU64_eq_some hstart
    cases heq
    cases he
    exact Eq.mp (congrArg (F64.LeNat d.1) htrunc) hle
  · intro h R cfg env db n hs hn
    obtain ⟨hphase, p, hp⟩ := isBulkDelete_of_deletedCount hn
    obtain ⟨hread, hheed⟩ := h p hp
    refine ⟨hread, fun id r load hgone => ?_⟩
    rw [hp.handleDelete_eq hphase] at hgone
    obtain ⟨hmem, -, hstorable⟩ := ((deleteAll_effect cfg env (bulkIds R env db p) ns hs).2
      id).resolve_left fun hsame => hgone (hsame.trans load)
    obtain ⟨hwf, hpass⟩ := passes_of_mem_bulkIds hs hmem load
    obtain ⟨hstart, hagent, himp⟩ := hheed ⟨r, hstorable r load, hpass⟩
    exact .of_passes hp.filters hread hstart hagent himp hwf hpass

/-- A request for the records of a type that does not exist. -/
def misspeltType : Json :=
  .object [(.ofString "type", .string (.ofString "episodc")),
    (.ofString "tags", .array [.string (.ofString "draft")])]

def taggedDraft : MemoryRecord :=
  { recordInit with id := 1, type := .semantic, tags := [.ofString "draft"] }

theorem taggedDraft_storable : Storable taggedDraft where
  wellFormed :=
    { wellFormed_recordInit with
      tags := by decide
      tag_count := by decide }
  length_le := by decide

theorem misspeltType_isBulkDelete :
    IsBulkDelete misspeltType none { tags := [.ofString "draft"], matchAll := true } where
  id := by decide
  pattern := by decide
  filters := by rfl
  positive := by simp

def draftDb : Database plainFraming := .single (fun _ => ()) taggedDraft

/-- The request is not refused, and a record with its tags is deleted whatever its type is. -/
theorem misspelt_type_deletes :
    ¬ Readable misspeltType ∧ draftDb.Sound ∧
      (∃ n, (handleDelete .nothing .unlimited .zero none misspeltType draftDb).2 =
        .deletedCount n) ∧
      loadRecord plainFraming draftDb.store taggedDraft.id = .ok taggedDraft ∧
      loadRecord plainFraming
        (handleDelete .nothing .unlimited .zero none misspeltType draftDb).1.store taggedDraft.id =
          .error .notFound := by
  have hpass : passesFilters [] { tags := [.ofString "draft"], matchAll := true } taggedDraft =
      true := by decide
  have hs := (single_exact (F := plainFraming) (fun _ => ()) taggedDraft_storable rfl).sound
  have hload := loadRecord_single (F := plainFraming) (fun _ => ()) taggedDraft_storable rfl
  have hcount : (handleDelete .nothing .unlimited .zero none misspeltType draftDb).2 =
      .deletedCount _ := congrArg Prod.snd (misspeltType_isBulkDelete.handleDelete_eq rfl)
  have hgone := misspeltType_isBulkDelete.deletes_single (F := plainFraming) (fun _ => ())
    taggedDraft_storable hpass
  rw [← draftDb] at hs hload hgone
  refine ⟨fun h => ?_, hs, ⟨_, hcount⟩, hload, hgone⟩
  obtain ⟨s, t, hs, ht⟩ := h.type _ ⟨rfl, nofun⟩
  cases hs
  have hunknown : memoryTypeFromString (.ofString "episodc") = none := by decide
  cases hunknown.symm.trans ht

end AegisDB
