import AegisDB.Query.Search

/-!
# What a filter query draws

A query that is not ranked draws its candidates from the time index, the fact index or the tag index.
When the indexes list exactly the live records, and the limit on the scan cuts nothing, the candidates
are the live records with a property that can be read off the record alone (`Drawn`), each of them
once. Every record that meets the filters and has an interned fact is among them.
-/

namespace AegisDB

open List Option MemoryRecord

variable {F : Framing}
variable {f : FactIndex} {predicate : Option CString}

/-! ## The indexes of a filter query -/

/-- The indexes a filter query draws from list the records of `live`. -/
structure FilterExact (live : UInt64 → Option MemoryRecord) (ix : Indexes) : Prop where
  time : TimeExact (fun id => (live id).map created) ix.time
  tags : TagsExact (fun id => (live id).elim [] MemoryRecord.tags) ix.tags
  facts : ∀ f ∈ ix.facts, FactsExact (fun id => (live id).bind fun r => r.fact.triple) f

theorem Indexed.filterExact {dim : ℕ} {live : UInt64 → Option MemoryRecord} {alive : UInt64 → Prop}
    {ix : Indexes} (h : Indexed dim live alive ix) : FilterExact live ix :=
  ⟨h.time, h.tags, h.facts⟩

theorem FilterExact.add {live : UInt64 → Option MemoryRecord} {ix : Indexes} {r : MemoryRecord}
    (h : FilterExact live ix) (keep : UInt64 → Bool) (hid : live r.id = none)
    (hroom : ∀ f ∈ ix.facts, ∀ t, r.fact.triple = some t →
      (f.preds.intern factMaxPredicates t.predicate).2 ≠ none) :
    FilterExact (Function.update live r.id (some r)) (indexRecord keep ix r) where
  time := by
    rw [view_update (Option.map created)]
    exact h.time.add (by simp [hid])
  tags := by
    rw [view_update (fun o => o.elim [] MemoryRecord.tags)]
    exact h.tags.add (by simp [hid]) r.tags
  facts := factsExact_apply_add h.facts (by rw [hid]; rfl) hroom

/-- The fact of a record is one that the lookup of a pattern finds. -/
def DrawnByPattern (pat : Pattern) (sub : List UInt64) (r : MemoryRecord) : Prop :=
  ∃ t, r.fact.triple = some t ∧
    (match pat.subject, pat.object with
      | some s, _ => t.subject ∈ s :: sub
      | none, some o => t.object = o
      | none, none => pat.predicate ≠ none) ∧
    ∀ q ∈ pat.predicate, t.predicate = q

/-- The record is a candidate of the query; `facts` says that there is a fact index. -/
def Drawn (facts : Bool) (p : SearchParams) (sub : List UInt64) (r : MemoryRecord) : Prop :=
  match p.time, p.pattern with
  | some (start, stop), _ => start ≤ r.created ∧ r.created ≤ stop
  | none, some pat => facts = true ∧ DrawnByPattern pat sub r
  | none, none => p.tags ≠ [] → matchesTags p r = true

/-- The limit on the scan does not cut the candidates. -/
def Uncut (ix : Indexes) (p : SearchParams) (cap : ℕ) : Prop :=
  cap = 0 ∨
    match p.time, p.pattern with
    | some (start, stop), _ => (timeWindow ix.time start stop).length ≤ cap
    | none, some _ => True
    | none, none =>
      p.tags ≠ [] ∨ (timeWindow ix.time 0 0xFFFFFFFFFFFFFFFF).length ≤ cap

theorem factIndexByKey_eq (f : FactIndex) (o : ObjectKey) (predicate : Option CString) :
    factIndexByKey f o predicate = collectUnder f (f.obj.under o) predicate := by
  cases o <;> rfl

section

variable {live : UInt64 → Option MemoryRecord} {ix : Indexes} {p : SearchParams}
  {sub : List UInt64} {cap : ℕ} {id : UInt64}

theorem FilterExact.mem_timeWindow (hix : FilterExact live ix) {start stop : UInt64} :
    id ∈ (timeWindow ix.time start stop).map TimeEntry.id ↔
      ∃ r, live id = some r ∧ start ≤ r.created ∧ r.created ≤ stop := by
  simp only [timeWindow, List.mem_map, mem_filter, hix.time.mem, map_eq_some_iff, decide_eq_true_eq]
  constructor
  · rintro ⟨⟨c, id'⟩, ⟨⟨r, hr, rfl⟩, hwin⟩, rfl⟩
    exact ⟨r, hr, hwin⟩
  · rintro ⟨r, hr, hwin⟩
    exact ⟨⟨r.created, id⟩, ⟨⟨r, hr, rfl⟩, hwin⟩, rfl⟩

theorem FilterExact.nodup_timeWindow (hix : FilterExact live ix) (start stop : UInt64) :
    ((timeWindow ix.time start stop).map TimeEntry.id).Nodup := by
  refine (hix.time.nodup.filter _).map_on ?_
  rintro ⟨c, id⟩ hx ⟨c', id'⟩ hy hid
  have hc := (hix.time.mem _).1 (mem_of_mem_filter hx)
  have hc' := (hix.time.mem _).1 (mem_of_mem_filter hy)
  dsimp only at hid hc hc'
  subst hid
  rw [Option.some.inj (hc.symm.trans hc')]

theorem timeIndexRangeRecent_of_uncut {t : TimeIndex} {start stop : UInt64}
    (h : cap = 0 ∨ (timeWindow t start stop).length ≤ cap) :
    timeIndexRangeRecent t start stop cap = ((timeWindow t start stop).map TimeEntry.id, false) := by
  rw [timeIndexRangeRecent_eq, if_neg]
  omega

theorem timeIndexRange_of_uncut {t : TimeIndex} {start stop : UInt64}
    (h : cap = 0 ∨ (timeWindow t start stop).length ≤ cap) :
    timeIndexRange t start stop cap = (timeWindow t start stop).map TimeEntry.id := by
  rw [timeIndexRange_eq]
  split
  · rfl
  · rw [take_of_length_le (h.resolve_left ‹_›)]

/-! ## The fact index -/

theorem exists_triple_iff {o : Option MemoryRecord} {Q : FactTriple → Prop} :
    (∃ t, (o.bind fun r => r.fact.triple) = some t ∧ Q t) ↔
      ∃ r t, o = some r ∧ r.fact.triple = some t ∧ Q t := by
  cases o with
  | none | some r => simp

section

variable (hix : FilterExact live ix)

include hix

theorem FilterExact.mem_factIndexBySubject (hf : ix.facts = some f) {s : UInt64} :
    id ∈ factIndexBySubject f s predicate ↔ ∃ r t, live id = some r ∧ r.fact.triple = some t ∧
      t.subject = s ∧ ∀ q ∈ predicate, t.predicate = q := by
  rw [(hix.facts f hf).mem_factIndexBySubject]
  exact exists_triple_iff

theorem FilterExact.mem_factIndexByKey (hf : ix.facts = some f) {o : ObjectKey} :
    id ∈ factIndexByKey f o predicate ↔ ∃ r t, live id = some r ∧ r.fact.triple = some t ∧
      t.object = o ∧ ∀ q ∈ predicate, t.predicate = q := by
  have hfacts := hix.facts f hf
  rw [factIndexByKey_eq, hfacts.mem_collectUnder hfacts.obj]
  exact exists_triple_iff

theorem FilterExact.mem_factIndexByPredicate (hf : ix.facts = some f) :
    id ∈ factIndexByPredicate f predicate ↔ ∃ r t, live id = some r ∧ r.fact.triple = some t ∧
      predicate ≠ none ∧ ∀ q ∈ predicate, t.predicate = q := by
  cases predicate with
  | none => simp [factIndexByPredicate]
  | some q =>
    rw [(hix.facts f hf).mem_factIndexByPredicate]
    simp only [mem_some_iff, forall_eq', ne_eq, reduceCtorEq, not_false_eq_true, true_and]
    exact exists_triple_iff

theorem FilterExact.nodup_flatMap_bySubject (hf : ix.facts = some f) {subjects : List UInt64}
    (hnodup : subjects.Nodup) (predicate : Option CString) :
    (subjects.flatMap fun s => factIndexBySubject f s predicate).Nodup := by
  rw [List.nodup_flatMap]
  refine ⟨fun s _ => nodup_collectUnder f _ predicate, hnodup.imp fun {s s'} hne => ?_⟩
  intro id hid hid'
  obtain ⟨r, t, hr, ht, rfl, -⟩ := (hix.mem_factIndexBySubject hf).1 hid
  obtain ⟨r', t', hr', ht', hs, -⟩ := (hix.mem_factIndexBySubject hf).1 hid'
  cases hr.symm.trans hr'
  cases ht.symm.trans ht'
  exact hne hs

end

theorem nodup_factIndexByPredicate (f : FactIndex) (predicate : Option CString) :
    (factIndexByPredicate f predicate).Nodup := by
  unfold factIndexByPredicate
  split
  · exact nodup_nil
  · exact f.predRecs.nodup_under _

section

variable (hix : FilterExact live ix)

include hix

theorem FilterExact.mem_patternIds {pat : Pattern} :
    id ∈ patternIds ix.facts pat sub ↔
      ∃ r, live id = some r ∧ ix.facts.isSome = true ∧ DrawnByPattern pat sub r := by
  obtain ⟨subject, subsume, predicate, object⟩ := pat
  unfold patternIds DrawnByPattern
  cases hf : ix.facts with
  | none => simp
  | some f =>
    simp only [isSome_some, true_and]
    cases subject with
    | some s =>
      simp only [mem_flatMap, hix.mem_factIndexBySubject hf]
      constructor
      · rintro ⟨s', hmem, r, t, hr, ht, rfl, hq⟩
        exact ⟨r, hr, t, ht, hmem, hq⟩
      · rintro ⟨r, hr, t, ht, hmem, hq⟩
        exact ⟨t.subject, hmem, r, t, hr, ht, rfl, hq⟩
    | none =>
      cases object with
      | some o => simp only [hix.mem_factIndexByKey hf, exists_and_left]
      | none => simp only [hix.mem_factIndexByPredicate hf, exists_and_left]

theorem FilterExact.nodup_patternIds {pat : Pattern} (hsub : ∀ s ∈ pat.subject, (s :: sub).Nodup) :
    (patternIds ix.facts pat sub).Nodup := by
  obtain ⟨subject, subsume, predicate, object⟩ := pat
  unfold patternIds
  cases hf : ix.facts with
  | none => exact nodup_nil
  | some f =>
    cases subject with
    | some s => exact hix.nodup_flatMap_bySubject hf (hsub s rfl) _
    | none =>
      cases object with
      | some o =>
        simp only [factIndexByKey_eq]
        exact nodup_collectUnder f _ _
      | none => exact nodup_factIndexByPredicate f _

theorem FilterExact.mem_tagIndexQuery (hne : p.tags ≠ []) :
    id ∈ tagIndexQuery ix.tags p.tags p.matchAll ↔ ∃ r, live id = some r ∧ matchesTags p r = true := by
  rw [AegisDB.mem_tagIndexQuery hne]
  simp only [hix.tags _ _, matchesTags]
  cases hid : live id with
  | none =>
    obtain ⟨tag, htag⟩ := exists_mem_of_ne_nil _ hne
    cases p.matchAll with
    | false => simp
    | true =>
      simp only [elim_none, not_mem_nil, if_true, reduceCtorEq, false_and, exists_false,
        iff_false, not_forall]
      exact ⟨tag, htag, not_false⟩
  | some r => cases p.matchAll <;> simp

theorem FilterExact.mem_filterIds (hcut : Uncut ix p cap) :
    id ∈ (filterIds ix p sub cap).1 ↔ ∃ r, live id = some r ∧ Drawn ix.facts.isSome p sub r := by
  unfold filterIds Drawn
  unfold Uncut at hcut
  cases htime : p.time with
  | some window =>
    obtain ⟨start, stop⟩ := window
    simp only [htime] at hcut
    dsimp only
    split
    · rw [timeIndexRange_of_uncut hcut]
      exact hix.mem_timeWindow
    · rw [timeIndexRangeRecent_of_uncut hcut]
      exact hix.mem_timeWindow
  | none =>
    cases hpat : p.pattern with
    | none =>
      simp only [htime, hpat] at hcut
      dsimp only
      split
      · rename_i hne
        rw [hix.mem_tagIndexQuery hne]
        simp [hne]
      · rename_i hnil
        rw [timeIndexRangeRecent_of_uncut (by tauto), hix.mem_timeWindow]
        have hall (c : UInt64) : 0 ≤ c ∧ c ≤ 0xFFFFFFFFFFFFFFFF :=
          ⟨UInt64.zero_le, UInt64.le_iff_toNat_le.2 (Nat.le_of_lt_succ c.toNat_lt)⟩
        simp [hall, not_not.1 hnil]
    | some pat => exact hix.mem_patternIds

/-- A record is drawn at most once, if no subject is asked for twice. -/
theorem FilterExact.nodup_filterIds
    (hsub : ∀ pat ∈ p.pattern, ∀ s ∈ pat.subject, (s :: sub).Nodup) (cap : ℕ) :
    (filterIds ix p sub cap).1.Nodup := by
  have hrecent (start stop : UInt64) : (timeIndexRangeRecent ix.time start stop cap).1.Nodup := by
    rw [timeIndexRangeRecent_eq]
    have := hix.nodup_timeWindow start stop
    split
    · rw [map_drop]
      exact this.sublist (drop_sublist _ _)
    · exact this
  unfold filterIds
  cases htime : p.time with
  | some window =>
    dsimp only
    split
    · rw [timeIndexRange_eq]
      have := hix.nodup_timeWindow window.1 window.2
      split
      · exact this
      · rw [map_take]
        exact this.sublist (take_sublist _ _)
    · exact hrecent window.1 window.2
  | none =>
    cases hpat : p.pattern with
    | none =>
      dsimp only
      split
      · exact (pairwise_tagIndexQuery _ _ _).imp UInt64.ne_of_lt
      · exact hrecent _ _
    | some pat => exact hix.nodup_patternIds (hsub pat hpat)

end

/-- A record that meets the filters of a query without a pattern is drawn. -/
theorem drawn_of_passes {facts : Bool} {r : MemoryRecord} (hpat : p.pattern = none)
    (h : passesFilters sub p r = true) : Drawn facts p sub r := by
  simp only [passesFilters, Bool.and_eq_true, Bool.or_eq_true, List.isEmpty_iff] at h
  obtain ⟨⟨⟨-, htime⟩, -⟩, htags⟩ := h
  unfold Drawn
  rw [hpat]
  cases hp : p.time with
  | none => exact fun hne => htags.resolve_left hne
  | some window => simpa [hp] using htime

/-- Where the limit does not cut, the query knows that it has seen everything. -/
theorem exhausted_filterIds (hcut : Uncut ix p cap) (horder : p.oldestFirst = false) :
    (filterIds ix p sub cap).2 = true := by
  unfold filterIds
  unfold Uncut at hcut
  cases htime : p.time with
  | some window =>
    obtain ⟨start, stop⟩ := window
    simp only [htime] at hcut
    simp [horder, timeIndexRangeRecent_of_uncut hcut]
  | none =>
    cases hpat : p.pattern with
    | none =>
      simp only [htime, hpat] at hcut
      dsimp only
      split
      · rfl
      · rw [timeIndexRangeRecent_of_uncut (by tauto)]
        rfl
    | some pat => rfl

end

end AegisDB
