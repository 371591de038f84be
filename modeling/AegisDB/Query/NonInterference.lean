import AegisDB.Query.DeleteByQuery

/-!
# Other tenants do not show in filter queries

The candidates of a search that is not ranked, and of a count, are drawn from indexes that all tenants
share; the namespace of the caller is one of the filters the candidates then have to meet. Two
databases with the same live records of a tenant give that tenant the same answers
(`filter_query_noninterference`), provided that no limit cuts the candidates: a limit cuts before the
filters see them, so that the records of others decide what is left (`scan_cap_shows_others`).
-/

namespace AegisDB

open Bytes List Function Option Database

variable {F : Framing}

/-! ## Databases that look alike to a tenant -/

/-- Two databases with the same live records of a tenant. -/
structure SameView (tenant : CString) (db₁ db₂ : Database F) : Prop where
  exact₁ : db₁.Exact
  exact₂ : db₂.Exact
  facts : db₁.ix.facts.isSome = db₂.ix.facts.isSome
  records : ∀ id r, r.agentId = some tenant →
    (loadRecord F db₁.store id = .ok r ↔ loadRecord F db₂.store id = .ok r)

/-- No limit cuts the candidates of a query. -/
structure NoCut (cfg : DbConfig) (ix : Indexes) (p : SearchParams) : Prop where
  scan : Uncut ix p cfg.queryScanCap
  members : ∀ pat ∈ p.pattern, pat.subsume = true → ∀ s ∈ pat.subject, ∀ f ∈ ix.facts,
    cfg.inferenceMaxSubsume = 0 ∨
      (factIndexByKey f (.id s) (some isA)).length ≤ cfg.inferenceMaxSubsume

/-- What a query of a tenant looks at: the records it may see, by their contents. -/
theorem SameView.exists_iff {tenant : CString} {db₁ db₂ : Database F}
    (h : SameView tenant db₁ db₂) {Q : UInt64 → MemoryRecord → Prop}
    (hQ : ∀ id r, Q id r → r.agentId = some tenant) :
    (∃ id r, loadRecord F db₁.store id = .ok r ∧ Q id r) ↔
      ∃ id r, loadRecord F db₂.store id = .ok r ∧ Q id r :=
  exists_congr fun id => exists_congr fun r =>
    and_congr_left fun hr => h.records id r (hQ id r hr)

/-! ## The members of a subject -/

section

variable {cfg : DbConfig} {env : Sample} {db : Database F} {p : SearchParams} {tenant : CString}

/-- The record says that `m` is a member of `s`, and the tenant may see it. -/
def SaysMember (env : Sample) (tenant : CString) (s m : UInt64) (r : MemoryRecord) : Prop :=
  (∃ t, r.fact.triple = some t ∧ t.object = .id s ∧ t.predicate = isA) ∧
    r.deleted = false ∧ recordExpired r env.now = false ∧ r.agentId = some tenant ∧
    r.fact.kind = .objId ∧ r.fact.subject ≠ s ∧ r.fact.subject = m

theorem memberOf_eq_some {s id m : UInt64} :
    memberOf env db (some tenant) s id = some m ↔ ∃ r, loadRecord F db.store id = .ok r ∧
      r.deleted = false ∧ recordExpired r env.now = false ∧ r.agentId = some tenant ∧
      r.fact.kind = .objId ∧ r.fact.subject ≠ s ∧ r.fact.subject = m := by
  unfold memberOf qeGet
  cases hload : loadRecord F db.store id with
  | error st => simp
  | ok r =>
    simp only [Except.ok.injEq, exists_eq_left', ← nsDenies_eq_false]
    cases r.deleted <;> cases recordExpired r env.now <;> cases nsDenies (some tenant) r <;>
      simp [and_assoc]

theorem Database.Exact.mem_members (h : db.Exact) {f : FactIndex} (hf : db.ix.facts = some f)
    {s m : UInt64} :
    m ∈ (factIndexByKey f (.id s) (some isA)).filterMap (memberOf env db (some tenant) s) ↔
      ∃ id r, loadRecord F db.store id = .ok r ∧ SaysMember env tenant s m r := by
  simp only [mem_filterMap, h.filters.mem_factIndexByKey hf, memberOf_eq_some,
    currentRecord_eq_some, mem_some_iff, forall_eq', SaysMember]
  constructor
  · rintro ⟨id, ⟨r, t, hr, ht⟩, r', hr', hrest⟩
    cases hr.symm.trans hr'
    exact ⟨id, r, hr, ⟨t, ht⟩, hrest⟩
  · rintro ⟨id, r, hr, ⟨t, ht⟩, hrest⟩
    exact ⟨id, ⟨r, t, hr, ht⟩, r, hr, hrest⟩

def SearchParams.subsumes (p : SearchParams) : Option UInt64 :=
  p.pattern.bind fun pat => if pat.subsume then pat.subject else none

theorem resolveSubsume_of_noCut (hcut : NoCut cfg db.ix p) : resolveSubsume cfg env db p =
    match p.subsumes, db.ix.facts with
    | some s, some f =>
      if !cfg.inference then .error .notReady
      else .ok ((sortBy UInt64.toNat ((factIndexByKey f (.id s) (some isA)).filterMap
        (memberOf env db p.agentId s))).eraseReps, false)
    | _, _ => .ok ([], false) := by
  unfold resolveSubsume
  change (match p.subsumes, db.ix.facts with
    | some s, some f => _
    | _, _ => _) = _
  cases hs : p.subsumes with
  | none => rfl
  | some s =>
    cases hf : db.ix.facts with
    | none => rfl
    | some f =>
      obtain ⟨pat, hpat, hs'⟩ := bind_eq_some_iff.1 hs
      obtain ⟨hsub, hs'⟩ := ite_none_right_eq_some.1 hs'
      have hlen : ¬ (cfg.inferenceMaxSubsume ≠ 0 ∧
          cfg.inferenceMaxSubsume < (factIndexByKey f (.id s) (some isA)).length) := by
        have := hcut.members pat hpat hsub s hs' f hf
        omega
      simp [hlen]

theorem memberOf_ne {agent : Option CString} {s id m : UInt64}
    (h : memberOf env db agent s id = some m) : m ≠ s := by
  unfold memberOf at h
  split at h
  · cases h
  · obtain ⟨⟨-, hne⟩, h⟩ := ite_none_right_eq_some.1 h
    cases h
    exact hne

theorem nodup_of_resolveSubsume {sub : List UInt64} {truncated : Bool}
    (h : resolveSubsume cfg env db p = .ok (sub, truncated)) :
    ∀ pat ∈ p.pattern, ∀ s ∈ pat.subject, (s :: sub).Nodup := by
  intro pat hpat s hs
  unfold resolveSubsume at h
  split at h
  · rename_i s' f hs' hf
    have hss : s' = s := by
      obtain ⟨pat', hpat', hs'⟩ := bind_eq_some_iff.1 hs'
      cases hpat'.symm.trans hpat
      exact Option.some.inj ((ite_none_right_eq_some.1 hs').2.symm.trans hs)
    subst hss
    split at h
    · cases h
    · cases h
      refine nodup_cons.2 ⟨fun hmem => ?_, nodup_eraseReps_sortBy uint64_toNat_injective _⟩
      obtain ⟨id, -, hid⟩ := mem_filterMap.1 (mem_eraseReps_sortBy.1 hmem)
      exact memberOf_ne hid rfl
  · cases h
    exact nodup_singleton s

theorem SameView.resolveSubsume_eq {db₁ db₂ : Database F} (h : SameView tenant db₁ db₂)
    (hp : p.agentId = some tenant) (h₁ : NoCut cfg db₁.ix p) (h₂ : NoCut cfg db₂.ix p) :
    resolveSubsume cfg env db₁ p = resolveSubsume cfg env db₂ p := by
  have hfacts := h.facts
  rw [resolveSubsume_of_noCut h₁, resolveSubsume_of_noCut h₂, hp]
  cases p.subsumes with
  | none => rfl
  | some s =>
    cases hf₁ : db₁.ix.facts with
    | none =>
      rw [hf₁] at hfacts
      have hf₂ : db₂.ix.facts = none := by simpa using hfacts
      rw [hf₂]
    | some f₁ =>
      rw [hf₁] at hfacts
      obtain ⟨f₂, hf₂⟩ := isSome_iff_exists.1 hfacts.symm
      have hmembers (m : UInt64) := (h.exact₁.mem_members hf₁).trans
        ((h.exists_iff fun _ r (hr : SaysMember env tenant s m r) => hr.2.2.2.1).trans
          (h.exact₂.mem_members hf₂).symm)
      rw [hf₂]
      dsimp only
      rw [eraseReps_sortBy_congr uint64_toNat_injective hmembers]

end

section

variable {R : Ranking} {cfg : DbConfig} {env : Sample} {db : Database F} {p : SearchParams}
  {sub : List UInt64} {cap : ℕ} {tenant : CString}

/-- The records a filter query has before it sorts and cuts them. -/
def filterRecords (env : Sample) (db : Database F) (p : SearchParams) (sub : List UInt64)
    (cap : ℕ) : List MemoryRecord :=
  (filterIds db.ix p sub cap).1.filterMap (loadCandidate env db p sub)

theorem gatherCandidates_filter (fetch : ℕ) : gatherCandidates R env db p sub fetch .filter cap =
    ((filterRecords env db p sub cap).map R.unscored, (filterIds db.ix p sub cap).2) := by
  simp only [gatherCandidates, candidateIds, filterRecords, filterMap_map, if_true, map_filterMap]
  rfl

theorem Database.Exact.mem_filterRecords (h : db.Exact) (hcut : Uncut db.ix p cap)
    {r : MemoryRecord} :
    r ∈ filterRecords env db p sub cap ↔ ∃ id r', loadRecord F db.store id = .ok r' ∧ r' = r ∧
      recordExpired r env.now = false ∧ passesFilters sub p r = true ∧
      Drawn db.ix.facts.isSome p sub r := by
  simp only [filterRecords, mem_filterMap, h.filters.mem_filterIds hcut,
    loadCandidate_eq_some, currentRecord_eq_some]
  constructor
  · rintro ⟨id, ⟨r', hr', hdrawn⟩, hr, hexp, hpass⟩
    cases hr.symm.trans hr'
    exact ⟨id, r, hr, rfl, hexp, hpass, hdrawn⟩
  · rintro ⟨id, r', hr, rfl, hexp, hpass, hdrawn⟩
    exact ⟨id, ⟨r', hr, hdrawn⟩, hr, hexp, hpass⟩

theorem nodup_loadCandidates (hs : db.Sound) {ids : List UInt64} (hids : ids.Nodup) :
    ((ids.filterMap (loadCandidate env db p sub)).map MemoryRecord.id).Nodup := by
  rw [map_filterMap]
  refine hids.filterMap fun a b x ha hb => ?_
  have hid {c : UInt64} (hc : x ∈ (loadCandidate env db p sub c).map MemoryRecord.id) : c = x := by
    obtain ⟨r, hr, rfl⟩ := map_eq_some_iff.1 hc
    exact (hs.of_loadRecord (loadCandidate_eq_some.1 hr).1).1.symm
  rw [hid ha, hid hb]

theorem Database.Exact.nodup_filterRecords (h : db.Exact) (env : Sample) (cap : ℕ)
    (hsub : ∀ pat ∈ p.pattern, ∀ s ∈ pat.subject, (s :: sub).Nodup) :
    ((filterRecords env db p sub cap).map MemoryRecord.id).Nodup :=
  nodup_loadCandidates h.sound (h.filters.nodup_filterIds hsub cap)

theorem SameView.perm_filterRecords {db₁ db₂ : Database F} (h : SameView tenant db₁ db₂)
    (env : Sample) (hp : p.agentId = some tenant) (h₁ : Uncut db₁.ix p cap) (h₂ : Uncut db₂.ix p cap)
    (hsub : ∀ pat ∈ p.pattern, ∀ s ∈ pat.subject, (s :: sub).Nodup) :
    (filterRecords env db₁ p sub cap).Perm (filterRecords env db₂ p sub cap) := by
  refine (perm_ext_iff_of_nodup (h.exact₁.nodup_filterRecords env cap hsub).of_map
    (h.exact₂.nodup_filterRecords env cap hsub).of_map).2 fun r => ?_
  rw [h.exact₁.mem_filterRecords h₁, h.exact₂.mem_filterRecords h₂, h.facts]
  refine h.exists_iff fun _ r' hr => ?_
  obtain ⟨rfl, -, hpass, -⟩ := hr
  exact agentId_of_passesFilters hpass hp

end

section

variable {R : Ranking} {cfg : DbConfig} {env : Sample} {p : SearchParams} {tenant : CString}
  {req : Json} {db₁ db₂ : Database F}

theorem SameView.qeCount_eq (h : SameView tenant db₁ db₂) (hp : p.agentId = some tenant)
    (horder : p.oldestFirst = false) (h₁ : NoCut cfg db₁.ix p) (h₂ : NoCut cfg db₂.ix p) :
    qeCount R cfg env db₁ p = qeCount R cfg env db₂ p := by
  unfold qeCount
  rw [h.resolveSubsume_eq hp h₁ h₂]
  cases hres : resolveSubsume cfg env db₂ p with
  | error st => rfl
  | ok res =>
    obtain ⟨sub, truncated⟩ := res
    have hperm := h.perm_filterRecords env hp h₁.scan h₂.scan (nodup_of_resolveSubsume hres)
    simp only [gatherCandidates_filter, length_map, hperm.length_eq,
      exhausted_filterIds h₁.scan horder, exhausted_filterIds h₂.scan horder]

theorem SameView.qeSearch_eq (h : SameView tenant db₁ db₂) (hp : p.agentId = some tenant)
    (hemb : p.embedding = []) (hquery : p.query.any (fun q => q.bytes ≠ []) = false)
    (h₁ : NoCut cfg db₁.ix p) (h₂ : NoCut cfg db₂.ix p) :
    qeSearch R cfg env db₁ p = qeSearch R cfg env db₂ p := by
  have hsrc : p.source = .filter := by
    rw [SearchParams.source, hemb, hquery]
  unfold qeSearch
  rw [h.resolveSubsume_eq hp h₁ h₂]
  cases hres : resolveSubsume cfg env db₂ p with
  | error st => rfl
  | ok res =>
    obtain ⟨sub, truncated⟩ := res
    have hsub := nodup_of_resolveSubsume hres
    have hperm := (h.perm_filterRecords env hp h₁.scan h₂.scan hsub).map R.unscored
    have hkeys : ((filterRecords env db₁ p sub cfg.queryScanCap).map R.unscored |>.map
        Cand.createdKey).Nodup := by
      have hid := (h.exact₁.nodup_filterRecords env cfg.queryScanCap hsub).map uint64_toNat_injective
      refine List.Nodup.of_map (fun k => (ofLex k).2) ?_
      rw [List.map_map] at hid
      rw [List.map_map, List.map_map]
      exact hid
    simp only [hquery, rankedPage, hsrc, gatherCandidates_filter, if_true,
      selectTop_eq_of_perm hkeys hperm, Bool.false_eq_true, false_and, if_false]

end

/-- No limit cuts the candidates of the request in this database. -/
def ScannedWhole (cfg : DbConfig) (tenant : CString) (req : Json) (db : Database F) : Prop :=
  ∀ p pattern, parseFilters req (some tenant) = some p → parsePattern db.ix req = .ok pattern →
    NoCut cfg db.ix { p with pattern }

/-- A search without a vector and without a text. -/
def Unranked (cfg : DbConfig) (req : Json) : Prop :=
  jrFloatArray req "embedding" cfg.embeddingDimensions = some [] ∧
    ∀ q ∈ jrStr req "query", q.bytes = []

theorem parsePattern_congr {ix₁ ix₂ : Indexes} (h : ix₁.facts.isSome = ix₂.facts.isSome)
    (req : Json) : parsePattern ix₁ req = parsePattern ix₂ req := by
  have hnone : ix₁.facts.isNone = ix₂.facts.isNone := by
    rw [← not_isSome, h, not_isSome]
  unfold parsePattern
  rw [hnone]

section

variable {R : Ranking} {cfg : DbConfig} {env : Sample} {tenant : CString} {req : Json}
  {db₁ db₂ : Database F}

theorem filters_of_tenant {p : SearchParams} (h : parseFilters req (some tenant) = some p) :
    p.agentId = some tenant ∧ p.oldestFirst = false := by
  obtain ⟨tags, -, rfl⟩ := map_eq_some_iff.1 h
  exact ⟨rfl, rfl⟩

theorem SameView.handleCount_eq (h : SameView tenant db₁ db₂)
    (h₁ : ScannedWhole cfg tenant req db₁) (h₂ : ScannedWhole cfg tenant req db₂) :
    handleCount R cfg env (some tenant) req db₁ = handleCount R cfg env (some tenant) req db₂ := by
  have hpat := parsePattern_congr h.facts req
  unfold handleCount
  rw [hpat]
  cases hp : parseFilters req (some tenant) with
  | none => rfl
  | some p =>
    cases hpattern : parsePattern db₂.ix req with
    | error st => rfl
    | ok pattern =>
      have hcut₁ := h₁ p pattern hp (hpat.trans hpattern)
      have hcut₂ := h₂ p pattern hp hpattern
      obtain ⟨hagent, horder⟩ := filters_of_tenant hp
      refine congrArg (Answer.ofResult fun c => .counted c.1 c.2)
        (h.qeCount_eq ?_ ?_ hcut₁ hcut₂)
      · exact hagent
      · exact horder

theorem SameView.handleSearch_eq (h : SameView tenant db₁ db₂) (hreq : Unranked cfg req)
    (h₁ : ScannedWhole cfg tenant req db₁) (h₂ : ScannedWhole cfg tenant req db₂) :
    handleSearch R cfg env (some tenant) req db₁ =
      handleSearch R cfg env (some tenant) req db₂ := by
  have hpat := parsePattern_congr h.facts req
  have hquery : (jrStr req "query").any (fun q => q.bytes ≠ []) = false := by
    cases hq : jrStr req "query" with
    | none => rfl
    | some q => simp [hreq.2 q hq]
  unfold handleSearch parseSearch
  rw [hpat, hquery, hreq.1]
  cases hp : parseFilters req (some tenant) with
  | none => rfl
  | some p =>
    cases hpattern : parsePattern db₂.ix req with
    | error st => rfl
    | ok pattern =>
      have hcut₁ := h₁ p pattern hp (hpat.trans hpattern)
      have hcut₂ := h₂ p pattern hp hpattern
      refine congrArg (Answer.ofResult fun c => .hits c.1 c.2) (h.qeSearch_eq ?_ ?_ ?_ ?_ ?_)
      · exact (filters_of_tenant hp).1
      · rfl
      · exact hquery
      · exact ⟨hcut₁.scan, hcut₁.members⟩
      · exact ⟨hcut₂.scan, hcut₂.members⟩

end

/-- **Filter queries do not show other tenants**: a tenant is told the same in two databases that
differ in the records of others, as long as no limit cuts the candidates. -/
theorem filter_query_noninterference (R : Ranking) (cfg : DbConfig) (env : Sample)
    {tenant : CString} {req : Json} {db₁ db₂ : Database F} (hview : SameView tenant db₁ db₂)
    (hcut₁ : ScannedWhole cfg tenant req db₁) (hcut₂ : ScannedWhole cfg tenant req db₂) :
    handleCount R cfg env (some tenant) req db₁ = handleCount R cfg env (some tenant) req db₂ ∧
      (Unranked cfg req →
        handleSearch R cfg env (some tenant) req db₁ =
          handleSearch R cfg env (some tenant) req db₂) :=
  ⟨hview.handleCount_eq hcut₁ hcut₂, fun hreq => hview.handleSearch_eq hreq hcut₁ hcut₂⟩

/-! ## Two databases -/

def alice : CString := .ofString "alice"

def aliceNote : MemoryRecord := .note 1 1 alice

def bobNote : MemoryRecord := .note 2 2 (.ofString "bob")

def aliceDb : Database plainFraming := .single (fun _ => ()) aliceNote

def sharedDb : Database plainFraming := aliceDb.put .unlimited .zero bobNote

theorem aliceNote_storable : Storable aliceNote := storable_note 1 1 (by decide)

theorem bobNote_storable : Storable bobNote := storable_note 2 2 (by decide)

theorem loadRecord_aliceDb : loadRecord plainFraming aliceDb.store =
    update (fun _ => .error .notFound) 1 (.ok aliceNote) :=
  (single_spec _ aliceNote_storable rfl).2

theorem sharedDb_spec : sharedDb.ix = indexRecord (fun _ => true) aliceDb.ix bobNote ∧
    loadRecord plainFraming sharedDb.store =
      update (loadRecord plainFraming aliceDb.store) 2 (.ok bobNote) :=
  (put_spec .unlimited .zero (single_exact _ aliceNote_storable rfl).sound
    (single_spec _ aliceNote_storable rfl).1 bobNote_storable rfl rfl).2.2

theorem sameView_sharedDb : SameView alice aliceDb sharedDb where
  exact₁ := single_exact _ aliceNote_storable rfl
  exact₂ := by
    refine (single_exact _ aliceNote_storable rfl).put .unlimited .zero
      (single_spec _ aliceNote_storable rfl).1 bobNote_storable rfl rfl ?_ nofun
    exact (congrFun loadRecord_aliceDb 2).trans (update_of_ne (by decide) _ _)
  facts := by
    rw [sharedDb_spec.1]
    rfl
  records id r hr := by
    rw [sharedDb_spec.2]
    by_cases hid : id = 2
    · rw [hid, update_self, loadRecord_aliceDb, update_of_ne (by decide)]
      refine iff_of_false nofun fun h => ?_
      cases h
      exact absurd hr (by decide)
    · rw [update_of_ne hid]

/-- Without a limit on the scan, the tenant counts alike in both databases. -/
theorem sharedDb_noninterference : SameView alice aliceDb sharedDb ∧
    handleCount .nothing .unlimited .zero (some alice) (.object []) aliceDb =
      handleCount .nothing .unlimited .zero (some alice) (.object []) sharedDb ∧
    (Unranked .unlimited (.object []) →
      handleSearch .nothing .unlimited .zero (some alice) (.object []) aliceDb =
        handleSearch .nothing .unlimited .zero (some alice) (.object []) sharedDb) :=
  ⟨sameView_sharedDb, filter_query_noninterference .nothing .unlimited .zero sameView_sharedDb
    (fun _ _ _ _ => ⟨.inl rfl, fun _ _ _ _ _ _ _ => .inl rfl⟩)
    fun _ _ _ _ => ⟨.inl rfl, fun _ _ _ _ _ _ _ => .inl rfl⟩⟩

/-- A configuration in which a query looks at one candidate. -/
def DbConfig.narrow : DbConfig := { DbConfig.unlimited with queryScanCap := 1 }

/-- The parameters of a request of the tenant without filters. -/
def aliceAll : SearchParams := { agentId := some alice, matchAll := true }

theorem handleCount_aliceAll (db : Database plainFraming) :
    handleCount .nothing .narrow .zero (some alice) (.object []) db =
      .counted (filterRecords .zero db aliceAll [] 1).length (!(filterIds db.ix aliceAll [] 1).2) := by
  have hcount : qeCount .nothing .narrow .zero db aliceAll =
      .ok ((filterRecords .zero db aliceAll [] 1).length, !(filterIds db.ix aliceAll [] 1).2) := by
    simp [qeCount, resolveSubsume, aliceAll, DbConfig.narrow, DbConfig.unlimited, DbConfig.phase,
      gatherCandidates_filter]
  change Answer.ofResult (fun c => .counted c.1 c.2) (qeCount .nothing .narrow .zero db aliceAll) = _
  rw [hcount]
  rfl

theorem aliceDb_ix : aliceDb.ix = indexRecord (fun _ => true) (.create 0 true true true) aliceNote :=
  (put_spec .unlimited .zero (create_sound .unlimited _) rfl aliceNote_storable rfl
    rfl).2.2.1

/-- With a limit on the scan, the record of another tenant takes the place of the tenant's own. -/
theorem scan_cap_shows_others : SameView alice aliceDb sharedDb ∧
    handleCount .nothing .narrow .zero (some alice) (.object []) aliceDb = .counted 1 false ∧
    handleCount .nothing .narrow .zero (some alice) (.object []) sharedDb = .counted 0 true := by
  have hown : filterIds aliceDb.ix aliceAll [] 1 = ([1], true) := by
    rw [aliceDb_ix]
    decide
  have hshared : filterIds sharedDb.ix aliceAll [] 1 = ([2], false) := by
    rw [sharedDb_spec.1, aliceDb_ix]
    decide
  have halice : loadCandidate .zero aliceDb aliceAll [] 1 = some aliceNote := by
    rw [loadCandidate_eq_some, loadRecord_aliceDb, update_self]
    exact ⟨rfl, by decide, by decide⟩
  have hbob : loadCandidate .zero sharedDb aliceAll [] 2 = none := by
    rw [eq_none_iff_forall_ne_some]
    intro r hr
    obtain ⟨hload, -, hpass⟩ := loadCandidate_eq_some.1 hr
    rw [sharedDb_spec.2, update_self] at hload
    cases hload
    exact absurd hpass (by decide)
  refine ⟨sameView_sharedDb, ?_, ?_⟩
  · rw [handleCount_aliceAll, filterRecords, hown]
    simp [halice]
  · rw [handleCount_aliceAll, filterRecords, hshared]
    simp [hbob]

end AegisDB
