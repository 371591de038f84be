import AegisDB.Query.Listing
import AegisDB.Query.NonInterference
import AegisDB.Query.Paging

/-!
# A filter search and a scan

A query with neither an embedding nor a text takes its candidates from one of the indexes, and tests
each of them against all the filters. `naiveSearch` is what it stands for: scan the records, keep
those that meet the filters, sort by creation, and cut out the page. The two agree when the index
that answers knows every match (`Answerable`): the time index and the tag index always do, but the
fact index knows neither a fact that its intern table has refused nor what to do with a pattern in
which nothing is bound.
-/

namespace AegisDB

open List MemoryRecord

variable {F : Framing}
variable {t : FactTriple}

/-! ## What the index that answers knows -/

/-- The fact of a record is in the fact index. -/
def factListed (ix : Indexes) (r : MemoryRecord) : Bool :=
  ix.facts.any fun f => (factIndexBySubject f r.fact.subject none).contains r.id

/-- A record as the indexes show it: without a fact that is not listed. -/
def MemoryRecord.shown (ix : Indexes) (r : MemoryRecord) : MemoryRecord :=
  if factListed ix r then r else { r with fact := .zeroed }

def Pattern.Bound (pat : Pattern) : Prop :=
  pat.subject ≠ none ∨ pat.predicate ≠ none ∨ pat.object ≠ none

/-- The index that answers the query knows the record: the time index or the tag index does, and the
fact index has to when there is a pattern. -/
def Answerable (ix : Indexes) (p : SearchParams) (r : MemoryRecord) : Prop :=
  p.time = none → ∀ pat ∈ p.pattern, pat.Bound ∧ factListed ix r = true

/-- The hash index belongs to the log, and the indexes list what is live. -/
structure Database.Listed (db : Database F) : Prop where
  sound : db.Sound
  filters : FilterListed (currentRecord F db.store) db.ix

section

variable {live : UInt64 → Option MemoryRecord} {ix : Indexes} {r : MemoryRecord} {p : SearchParams}
  {sub : List UInt64}

theorem factListed_eq_true : factListed ix r = true ↔
    ∃ f ∈ ix.facts, r.id ∈ factIndexBySubject f r.fact.subject none := by
  simp [factListed, Option.any_eq_true]

/-- The fact of a record of `live` is listed just when its triple is. -/
theorem FactsExact.factListed_iff {triples : UInt64 → Option FactTriple} {f : FactIndex}
    (h : FactsExact triples f) (hf : ix.facts = some f)
    (hsub : ∀ id t, triples id = some t → ∃ r, live id = some r ∧ r.fact.triple = some t)
    (hr : live r.id = some r) : factListed ix r = true ↔
      ∃ t, triples r.id = some t ∧ r.fact.triple = some t := by
  have htriple {t : FactTriple} (ht : triples r.id = some t) : r.fact.triple = some t := by
    obtain ⟨r', hr', ht'⟩ := hsub _ t ht
    cases hr.symm.trans hr'
    exact ht'
  simp only [factListed_eq_true, hf, Option.mem_some_iff, exists_eq_left', h.mem_factIndexBySubject]
  constructor
  · rintro ⟨t, ht, -⟩
    exact ⟨t, ht, htriple ht⟩
  · rintro ⟨t, ht, ht'⟩
    exact ⟨t, ht, (Fact.eq_of_triple ht').2.2.symm, by simp⟩

theorem FilterListed.shown (h : FilterListed live ix) (hid : ∀ id r, live id = some r → r.id = id) :
    FilterExact (fun id => (live id).map (MemoryRecord.shown ix)) ix where
  time := by
    have hview : (fun id => ((live id).map (MemoryRecord.shown ix)).map created) =
        fun id => (live id).map created := by
      funext id
      rw [Option.map_map]
      congr 1
      funext r
      simp only [Function.comp_apply, MemoryRecord.shown]
      split <;> rfl
    rw [hview]
    exact h.time
  tags := by
    have hview : (fun id => ((live id).map (MemoryRecord.shown ix)).elim [] MemoryRecord.tags) =
        fun id => (live id).elim [] MemoryRecord.tags := by
      funext id
      cases live id with
      | none => rfl
      | some r =>
        simp only [Option.map_some, Option.elim_some, MemoryRecord.shown]
        split <;> rfl
    rw [hview]
    exact h.tags
  facts f hf := by
    obtain ⟨triples, hexact, hsub⟩ := h.facts f hf
    have hview : (fun id => ((live id).map (MemoryRecord.shown ix)).bind fun r => r.fact.triple) =
        triples := by
      funext id
      cases hlive : live id with
      | none =>
        cases ht : triples id with
        | none => rfl
        | some t =>
          obtain ⟨r, hr, -⟩ := hsub id t ht
          cases hlive.symm.trans hr
      | some r =>
        obtain rfl := hid id r hlive
        have hiff := hexact.factListed_iff hf hsub hlive
        simp only [Option.map_some, Option.bind_some, MemoryRecord.shown]
        split
        · rename_i hlisted
          obtain ⟨t, ht, ht'⟩ := hiff.1 hlisted
          rw [ht, ht']
        · rename_i hlisted
          cases ht : triples r.id with
          | none => rfl
          | some t =>
            obtain ⟨r', hr', ht'⟩ := hsub r.id t ht
            cases hlive.symm.trans hr'
            exact absurd (hiff.2 ⟨t, ht, ht'⟩) hlisted
    rw [hview]
    exact hexact

theorem FilterListed.triple_of_factListed (h : FilterListed live ix) (hr : live r.id = some r)
    (hlisted : factListed ix r = true) : ∃ t, r.fact.triple = some t := by
  obtain ⟨f, hf, -⟩ := factListed_eq_true.1 hlisted
  obtain ⟨triples, hexact, hsub⟩ := h.facts f hf
  obtain ⟨t, -, ht⟩ := (hexact.factListed_iff hf hsub hr).1 hlisted
  exact ⟨t, ht⟩

theorem shown_of_factListed (h : factListed ix r = true) : r.shown ix = r := if_pos h

theorem factListed_of_triple (h : (r.shown ix).fact.triple = some t) : factListed ix r = true := by
  by_contra hlisted
  rw [shown, if_neg hlisted] at h
  cases h

theorem object_of_matchesObject {fact : Fact} {o : ObjectKey}
    (ht : fact.triple = some t) (h : matchesObject fact o = true) : t.object = o := by
  obtain ⟨-, hobj, -⟩ := Fact.eq_of_triple ht
  cases o with
  | id n | str s =>
    simp only [matchesObject, Bool.and_eq_true, decide_eq_true_eq] at h
    rw [h.1, h.2] at hobj
    exact (Option.some.inj hobj).symm

/-- A record with a listed fact that meets a pattern is drawn by it. -/
theorem drawnByPattern_of_matches {pat : Pattern} (ht : r.fact.triple = some t)
    (hbound : pat.Bound) (h : matchesPattern sub pat r = true) : DrawnByPattern pat sub r := by
  obtain ⟨hpred, -, hsubj⟩ := Fact.eq_of_triple ht
  simp only [matchesPattern, Bool.and_eq_true, Option.all_eq_true, decide_eq_true_eq,
    Bool.or_eq_true, contains_iff_mem] at h
  obtain ⟨⟨⟨-, hs⟩, hp⟩, ho⟩ := h
  refine ⟨t, ht, ?_, fun q hq => ?_⟩
  · cases hsubject : pat.subject with
    | some s =>
      rw [← hsubj]
      exact mem_cons.2 (hs s hsubject)
    | none =>
      cases hobject : pat.object with
      | some o => exact object_of_matchesObject ht (ho o hobject)
      | none => exact (hbound.resolve_left (· hsubject)).resolve_right (· hobject)
  · have := hp q hq
    rw [hpred] at this
    exact Option.some.inj this

/-- What the query draws of the matches is what the index that answers knows. -/
theorem FilterListed.drawn_iff (h : FilterListed live ix) (hr : live r.id = some r)
    (hpass : passesFilters sub p r = true) :
    Drawn ix.facts.isSome p sub (r.shown ix) ↔ Answerable ix p r := by
  have hcreated : (r.shown ix).created = r.created := by
    unfold MemoryRecord.shown
    split <;> rfl
  have htags : matchesTags p (r.shown ix) = matchesTags p r := by
    unfold MemoryRecord.shown
    split <;> rfl
  simp only [passesFilters, Bool.and_eq_true, Bool.or_eq_true, List.isEmpty_iff] at hpass
  obtain ⟨⟨⟨-, htime⟩, hpat⟩, htag⟩ := hpass
  unfold Drawn Answerable
  cases hp : p.time with
  | some window =>
    rw [hp] at htime
    simpa [hcreated] using htime
  | none =>
    simp only [true_imp_iff]
    cases hq : p.pattern with
    | none => simpa [htags, imp_iff_not_or] using htag
    | some pat =>
      rw [hq] at hpat
      simp only [Option.mem_some_iff, forall_eq']
      constructor
      · rintro ⟨-, t, ht, hkey, hpred⟩
        refine ⟨?_, factListed_of_triple ht⟩
        unfold Pattern.Bound
        cases hs : pat.subject with
        | some s => simp
        | none =>
          cases ho : pat.object with
          | some o => simp
          | none =>
            rw [hs, ho] at hkey
            exact .inr (.inl hkey)
      · rintro ⟨hbound, hlisted⟩
        obtain ⟨f, hf, -⟩ := factListed_eq_true.1 hlisted
        obtain ⟨t, ht⟩ := h.triple_of_factListed hr hlisted
        rw [shown_of_factListed hlisted]
        exact ⟨by rw [hf]; rfl, drawnByPattern_of_matches ht hbound hpat⟩

end

/-! ## The scan -/

/-- The record is live, has not expired and meets the filters; `sub` are the members of the
pattern's subject. -/
structure Matches (env : Sample) (db : Database F) (p : SearchParams) (sub : List UInt64)
    (r : MemoryRecord) : Prop where
  load : loadRecord F db.store r.id = .ok r
  unexpired : recordExpired r env.now = false
  passes : passesFilters sub p r = true

/-- The records that match, in the order of the hash index. -/
def scanRecords (env : Sample) (db : Database F) (p : SearchParams) (sub : List UInt64) :
    List MemoryRecord :=
  (liveEntries db.store.hash).filterMap fun x => loadCandidate env db p sub x.1

def MemoryRecord.createdKey (r : MemoryRecord) : ℕ ×ₗ ℕ := toLex (r.created.toNat, r.id.toNat)

/-- The page of a scan: the matches by creation, from the offset on, as many as are wanted. -/
def naiveSearch (env : Sample) (db : Database F) (p : SearchParams) (sub : List UInt64) :
    List MemoryRecord :=
  ((sortBy createdKey (scanRecords env db p sub)).drop p.offset).take
    (if p.topK ≠ 0 then p.topK else 10)

section

variable {R : Ranking} {cfg : DbConfig} {env : Sample} {db : Database F} {p : SearchParams}
  {sub : List UInt64} {cap : ℕ} {r : MemoryRecord}

theorem Database.Tracked.listed (h : db.Tracked) : db.Listed := ⟨h.sound, h.filters⟩

theorem mem_scanRecords (hs : db.Sound) : r ∈ scanRecords env db p sub ↔ Matches env db p sub r := by
  simp only [scanRecords, mem_filterMap, (liveOf_liveEntries _).mem_iff, loadCandidate_eq_some]
  constructor
  · rintro ⟨x, -, hload, hexp, hpass⟩
    obtain ⟨hid, -⟩ := hs.of_loadRecord hload
    exact ⟨by rwa [hid], hexp, hpass⟩
  · rintro ⟨hload, hexp, hpass⟩
    obtain ⟨e, he, -⟩ := loadRecord_eq_ok.1 hload
    exact ⟨(r.id, e), hashIndexGet_eq_some.1 he, hload, hexp, hpass⟩

theorem nodup_scanRecords (hs : db.Sound) (env : Sample) (p : SearchParams) (sub : List UInt64) :
    ((scanRecords env db p sub).map MemoryRecord.id).Nodup := by
  have hscan : scanRecords env db p sub =
      ((liveEntries db.store.hash).map Prod.fst).filterMap (loadCandidate env db p sub) := by
    rw [scanRecords, filterMap_map]
    rfl
  rw [hscan]
  exact nodup_loadCandidates hs (liveOf_liveEntries _).nodup

theorem Database.Listed.exact (h : db.Listed) :
    FilterExact (fun id => (currentRecord F db.store id).map (shown db.ix)) db.ix :=
  h.filters.shown fun _ _ hr => (h.sound.of_loadRecord (currentRecord_eq_some.1 hr)).1

/-- The records before a query sorts them are the matches that its index knows. -/
theorem Database.Listed.mem_filterRecords (h : db.Listed) (hcut : Uncut db.ix p cap) :
    r ∈ filterRecords env db p sub cap ↔ Matches env db p sub r ∧ Answerable db.ix p r := by
  simp only [filterRecords, mem_filterMap, h.exact.mem_filterIds hcut, loadCandidate_eq_some]
  constructor
  · rintro ⟨id, ⟨r', hr', hdrawn⟩, hload, hexp, hpass⟩
    obtain ⟨rfl, -⟩ := h.sound.of_loadRecord hload
    have hcur := currentRecord_eq_some.2 hload
    rw [hcur] at hr'
    cases hr'
    exact ⟨⟨hload, hexp, hpass⟩, (h.filters.drawn_iff hcur hpass).1 hdrawn⟩
  · rintro ⟨⟨hload, hexp, hpass⟩, hanswer⟩
    have hcur := currentRecord_eq_some.2 hload
    refine ⟨r.id, ⟨r.shown db.ix, ?_, (h.filters.drawn_iff hcur hpass).2 hanswer⟩, hload, hexp, hpass⟩
    rw [hcur]
    rfl

theorem Database.Listed.nodup_filterRecords (h : db.Listed) (env : Sample) (cap : ℕ)
    (hsub : ∀ pat ∈ p.pattern, ∀ s ∈ pat.subject, (s :: sub).Nodup) :
    ((filterRecords env db p sub cap).map MemoryRecord.id).Nodup :=
  nodup_loadCandidates h.sound (h.exact.nodup_filterIds hsub cap)

theorem nodup_createdKey {rs : List MemoryRecord} (h : (rs.map MemoryRecord.id).Nodup) :
    (rs.map createdKey).Nodup := by
  refine List.Nodup.of_map (fun k => (ofLex k).2) ?_
  have := h.map uint64_toNat_injective
  rw [map_map] at this ⊢
  exact this

/-- The page of a filter query is a slice of its candidates by creation. -/
theorem map_record_rankedPage (hsrc : p.source = .filter) (hcap : cfg.queryScanCap = 0)
    (hoffset : p.offset ≤ maxOffset)
    (hnodup : ((filterRecords env db p sub 0).map MemoryRecord.id).Nodup) :
    (rankedPage R cfg env db p sub).map Cand.record =
      ((sortBy createdKey (filterRecords env db p sub 0)).drop p.offset).take
        (if p.topK ≠ 0 then p.topK else 10) := by
  have hkeys : (((filterRecords env db p sub 0).map R.unscored).map Cand.createdKey).Nodup := by
    rw [map_map]
    exact nodup_createdKey hnodup
  have hsort (cands : List Cand) : (sortBy Cand.createdKey cands).map Cand.record =
      sortBy createdKey (cands.map Cand.record) :=
    map_mergeSort fun _ _ _ _ => rfl
  have hrecords : ((filterRecords env db p sub 0).map R.unscored).map Cand.record =
      filterRecords env db p sub 0 := by
    rw [map_map]
    exact map_id _
  unfold rankedPage
  simp only [hsrc, hcap, gatherCandidates_filter, if_true, min_eq_left hoffset]
  rw [selectTop_eq_take hkeys, map_drop, map_take, hsort, hrecords, drop_take,
    Nat.add_sub_cancel_left]

/-- The records a search without a vector and without a text returns. -/
theorem qeSearch_filter (h : db.Listed) (hphase : cfg.phase 2 = true) (hcap : cfg.queryScanCap = 0)
    (hemb : p.embedding = []) (hquery : p.query.any (fun q => q.bytes ≠ []) = false)
    (hoffset : p.offset ≤ maxOffset) {truncated : Bool}
    (hsub : resolveSubsume cfg env db p = .ok (sub, truncated)) :
    (qeSearch R cfg env db p).map (fun hits => hits.1.map Cand.record) =
      .ok (((sortBy createdKey (filterRecords env db p sub 0)).drop p.offset).take
        (if p.topK ≠ 0 then p.topK else 10)) := by
  have hsrc : p.source = .filter := by
    rw [SearchParams.source, hemb, hquery]
  have hok : qeSearch R cfg env db p = .ok (rankedPage R cfg env db p sub, truncated) := by
    simp only [qeSearch, hsub, hemb, hquery, hphase, ne_eq, not_true_eq_false, if_false,
      Bool.not_true, Bool.false_eq_true, false_and]
  have hnodup := h.nodup_filterRecords env 0 (nodup_of_resolveSubsume hsub)
  rw [hok, ← map_record_rankedPage hsrc hcap hoffset hnodup]
  rfl

/-- **A filter search is a scan just when the index that answers knows every match.** -/
theorem filter_search_iff_scan (h : db.Listed) (hphase : cfg.phase 2 = true)
    (hcap : cfg.queryScanCap = 0) (hemb : p.embedding = [])
    (hquery : p.query.any (fun q => q.bytes ≠ []) = false) {truncated : Bool}
    (hsub : resolveSubsume cfg env db p = .ok (sub, truncated)) :
    (∀ topK offset, offset ≤ maxOffset →
      (qeSearch R cfg env db (p.page topK offset)).map (fun hits => hits.1.map Cand.record) =
        .ok (naiveSearch env db (p.page topK offset) sub)) ↔
      ∀ r, Matches env db p sub r → Answerable db.ix p r := by
  have hpage (topK offset : ℕ) (hoffset : offset ≤ maxOffset) :
      (qeSearch R cfg env db (p.page topK offset)).map (fun hits => hits.1.map Cand.record) =
        .ok (((sortBy createdKey (filterRecords env db p sub 0)).drop offset).take
          (if topK ≠ 0 then topK else 10)) :=
    qeSearch_filter (p := p.page topK offset) h hphase hcap hemb hquery hoffset hsub
  have hmem (r : MemoryRecord) : r ∈ filterRecords env db p sub 0 ↔
      Matches env db p sub r ∧ Answerable db.ix p r := h.mem_filterRecords (.inl rfl)
  constructor
  · intro hall r hr
    -- a page for all matches has the record, so the index has drawn it
    have hscan := (mem_scanRecords h.sound).2 hr
    have hne : (scanRecords env db p sub).length ≠ 0 := (length_pos_of_mem hscan).ne'
    have heq := (hpage (scanRecords env db p sub).length 0 (Nat.zero_le _)).symm.trans
      (hall (scanRecords env db p sub).length 0 (Nat.zero_le _))
    rw [if_pos hne, drop_zero] at heq
    have hwhole : naiveSearch env db (p.page (scanRecords env db p sub).length 0) sub =
        sortBy createdKey (scanRecords env db p sub) := by
      have hlen := (perm_sortBy createdKey (scanRecords env db p sub)).length_eq
      change ((sortBy createdKey (scanRecords env db p sub)).drop 0).take
        (if (scanRecords env db p sub).length ≠ 0 then (scanRecords env db p sub).length else 10) = _
      rw [if_pos hne, drop_zero, take_of_length_le hlen.le]
    rw [hwhole] at heq
    have hdrawn : r ∈ filterRecords env db p sub 0 := by
      rw [← (perm_sortBy createdKey _).mem_iff] at hscan ⊢
      rw [← Except.ok.inj heq] at hscan
      exact mem_of_mem_take hscan
    exact ((hmem r).1 hdrawn).2
  · intro hanswer topK offset hoffset
    have hperm : (filterRecords env db p sub 0).Perm (scanRecords env db p sub) := by
      refine (perm_ext_iff_of_nodup ?_ ?_).2 fun r => ?_
      · exact (h.nodup_filterRecords env 0 (nodup_of_resolveSubsume hsub)).of_map
      · exact (nodup_scanRecords h.sound env p sub).of_map
      · rw [mem_scanRecords h.sound, hmem, and_iff_left_iff_imp]
        exact hanswer r
    have hsort : sortBy createdKey (filterRecords env db p sub 0) =
        sortBy createdKey (scanRecords env db p sub) := by
      refine sortBy_eq_of_perm ?_ hperm (perm_sortBy _ _) (pairwise_sortBy _ _)
      exact nodup_createdKey (h.nodup_filterRecords env 0 (nodup_of_resolveSubsume hsub))
    rw [hpage topK offset hoffset, hsort]
    rfl

end

/-! ## A fact that is not listed -/

/-- A predicate of 65 letters, one more than the intern table takes. -/
def longPredicate : CString := .ofBytes (List.replicate 65 97)

/-- The insert of a fact about the record 7 with the long predicate. -/
def longFact : WriteAct :=
  .client (.insert .zero
    { recordInit with
      type := .semantic
      data := [120]
      fact := ⟨.objId, 7, some longPredicate, 8, none⟩ } none 0)

def longFactDb : Database plainFraming :=
  (run (writeStep .unlimited) (.create .unlimited fun _ => ()) [longFact]).getD
    (.create .unlimited fun _ => ())

/-- The query for the facts about the record 7. -/
def aboutSeven : SearchParams := { pattern := some ⟨some 7, false, none, none⟩ }

theorem run_longFact : run (writeStep .unlimited) (.create .unlimited fun _ => ()) [longFact] =
    some longFactDb := rfl

theorem longFactDb_tracked : longFactDb.Tracked := by
  have hstart : (Database.create .unlimited fun _ => () : Database plainFraming).Tracked :=
    Database.create_tracked DbConfig.unlimited _
  refine hstart.run ?_ run_longFact
  show 1 + 1 < 2 ^ 64
  omega

theorem longFactDb_listed : longFactDb.Listed := longFactDb_tracked.listed

/-- A query without a pattern finds the record as the scan does. -/
theorem longFactDb_scanned : longFactDb.Listed ∧ ∀ topK offset, offset ≤ maxOffset →
    (qeSearch .nothing .unlimited .zero longFactDb (SearchParams.page {} topK offset)).map
        (fun hits => hits.1.map Cand.record) =
      .ok (naiveSearch .zero longFactDb (SearchParams.page {} topK offset) []) := by
  refine ⟨longFactDb_listed, ?_⟩
  refine (filter_search_iff_scan longFactDb_listed rfl rfl rfl rfl rfl).2 ?_
  intro r _ _ pat hpat
  cases hpat

set_option maxRecDepth 20000 in
theorem map_id_scanRecords_longFact :
    (scanRecords .zero longFactDb aboutSeven []).map MemoryRecord.id = [1] := by
  decide +kernel

set_option maxRecDepth 20000 in
theorem filterRecords_longFact : filterRecords .zero longFactDb aboutSeven [] 0 = [] := by
  decide +kernel

/-- The scan finds the record by its subject, and the search does not. -/
theorem longFact_not_found :
    run (writeStep .unlimited) (.create .unlimited fun _ => ()) [longFact] = some longFactDb ∧
      (qeSearch .nothing .unlimited .zero longFactDb aboutSeven).map
        (fun hits => hits.1.map Cand.record) = .ok [] ∧
      (naiveSearch .zero longFactDb aboutSeven []).map MemoryRecord.id = [1] := by
  refine ⟨run_longFact, ?_, ?_⟩
  · rw [qeSearch_filter longFactDb_listed rfl rfl rfl rfl (Nat.zero_le _) rfl,
      filterRecords_longFact]
    simp [sortBy]
  · obtain ⟨r, hr, hid⟩ : ∃ r, scanRecords .zero longFactDb aboutSeven [] = [r] ∧ r.id = 1 := by
      have hids := map_id_scanRecords_longFact
      obtain ⟨r, hr⟩ := length_eq_one_iff.1 ((length_map _).symm.trans
        (congrArg List.length hids))
      rw [hr, map_singleton, singleton_inj] at hids
      exact ⟨r, hr, hids⟩
    have hsort : sortBy createdKey [r] = [r] := perm_singleton.1 (perm_sortBy _ _)
    rw [naiveSearch, hr, hsort]
    simp [aboutSeven, hid]

end AegisDB
