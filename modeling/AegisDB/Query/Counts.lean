import AegisDB.Query.FilterSearch
import Mathlib.Data.Set.Card

/-!
# What a count says

`qe_count` counts the candidates of a filter query that meet the filters, and says with a flag
whether a limit has cut them or the members of the subject. The number it stands for is that of the
records that meet the filters, where the subject of a pattern with `subsume` may be any entity of
which a visible `is_a` fact says that it is a member (`matchCount`). `count_honest_iff` compares the
two.
-/

namespace AegisDB

open List Option

variable {F : Framing}

/-! ## The number of matches -/

/-- A visible record says that the entity `x` is an `s`. -/
structure SaysIsA (env : Sample) (db : Database F) (agent : Option CString) (s x : UInt64)
    (m : MemoryRecord) : Prop where
  visible : qeGet env db m.id agent = .ok m
  kind : m.fact.kind = .objId
  predicate : m.fact.predicate = some isA
  object : m.fact.objectId = s
  subject : m.fact.subject = x

/-- The record meets the filters, with its own subject or as a member of the one that is asked for. -/
def Meets (env : Sample) (db : Database F) (p : SearchParams) (r : MemoryRecord) : Prop :=
  passesFilters [] p r = true ∨ passesFilters [r.fact.subject] p r = true ∧
    ∃ s m, p.subsumes = some s ∧ SaysIsA env db p.agentId s r.fact.subject m

/-- The records a count is about: live, unexpired, and they meet the filters. -/
def countable (env : Sample) (db : Database F) (p : SearchParams) : Set MemoryRecord :=
  {r | loadRecord F db.store r.id = .ok r ∧ recordExpired r env.now = false ∧ Meets env db p r}

noncomputable def matchCount (env : Sample) (db : Database F) (p : SearchParams) : ℕ :=
  (countable env db p).ncard

/-- The fact index knows that the subject of the record answers for the one that is asked for. -/
def MemberListed (env : Sample) (db : Database F) (p : SearchParams) (r : MemoryRecord) : Prop :=
  passesFilters [] p r = true ∨
    ∃ s m, p.subsumes = some s ∧ SaysIsA env db p.agentId s r.fact.subject m ∧
      factListed db.ix m = true

section

variable {R : Ranking} {cfg : DbConfig} {env : Sample} {db : Database F} {p : SearchParams}
  {sub : List UInt64} {cap : ℕ} {r : MemoryRecord}

theorem finite_countable (env : Sample) (db : Database F) (p : SearchParams) :
    (countable env db p).Finite := by
  refine (finite_toSet
    ((liveEntries db.store.hash).filterMap fun x => currentRecord F db.store x.1)).subset ?_
  rintro r ⟨hload, -⟩
  obtain ⟨e, he, -⟩ := loadRecord_eq_ok.1 hload
  exact mem_filterMap.2 ⟨(r.id, e), ((liveOf_liveEntries _).mem_iff _).2
    (hashIndexGet_eq_some.1 he), currentRecord_eq_some.2 hload⟩

/-- The members matter to a record only by whether its subject is one of them. -/
theorem passesFilters_members_iff : passesFilters sub p r = true ↔
    passesFilters [] p r = true ∨
      passesFilters [r.fact.subject] p r = true ∧ r.fact.subject ∈ sub := by
  have hcases : passesFilters sub p r =
      if r.fact.subject ∈ sub then passesFilters [r.fact.subject] p r
      else passesFilters [] p r := by
    unfold passesFilters matchesPattern
    split <;> rename_i hmem <;> simp [hmem]
  have hmono : passesFilters [] p r = true → passesFilters [r.fact.subject] p r = true := by
    unfold passesFilters matchesPattern
    simp only [Bool.and_eq_true, Option.all_eq_true, Bool.or_eq_true]
    rintro ⟨⟨hhead, hpat⟩, htags⟩
    refine ⟨⟨hhead, fun pat hp => ?_⟩, htags⟩
    obtain ⟨⟨⟨hkind, -⟩, hpred⟩, hobj⟩ := hpat pat hp
    exact ⟨⟨⟨hkind, fun s _ => .inr (by simp)⟩, hpred⟩, hobj⟩
  rw [hcases]
  split
  · rename_i hmem
    simp only [hmem, and_true]
    exact ⟨.inr, fun h => h.elim hmono id⟩
  · rename_i hmem
    simp [hmem]

/-- The records behind the lookup of the members say so, and are listed. -/
theorem Database.Listed.mem_filterMap_memberOf (h : db.Listed) {f : FactIndex}
    (hf : db.ix.facts = some f) {agent : Option CString} {s x : UInt64} :
    x ∈ (factIndexByKey f (.id s) (some isA)).filterMap (memberOf env db agent s) ↔
      x ≠ s ∧ ∃ m, SaysIsA env db agent s x m ∧ factListed db.ix m = true := by
  simp only [mem_filterMap, h.exact.mem_factIndexByKey hf, mem_some_iff, forall_eq']
  constructor
  · rintro ⟨id, ⟨r, t, hr, ht, hobj, hpred⟩, hmember⟩
    obtain ⟨m, hm, rfl⟩ := map_eq_some_iff.1 hr
    have hlisted := factListed_of_triple ht
    rw [shown_of_factListed hlisted] at ht
    obtain ⟨hpred', hobj', -⟩ := Fact.eq_of_triple ht
    have hne := memberOf_ne hmember
    unfold memberOf at hmember
    split at hmember
    · cases hmember
    · rename_i m' hget
      obtain rfl : m' = m := by
        have := currentRecord_eq_some.2 (qeGet_eq_ok.1 hget).1
        exact some.inj (this.symm.trans hm)
      obtain ⟨⟨hkind, -⟩, hsubj⟩ := ite_none_right_eq_some.1 hmember
      obtain ⟨rfl, -⟩ := h.sound.of_loadRecord (qeGet_eq_ok.1 hget).1
      rw [hkind, hobj] at hobj'
      refine ⟨hne, m', ⟨hget, hkind, ?_, ?_, some.inj hsubj⟩, hlisted⟩
      · rw [hpred', hpred]
      · exact ObjectKey.id.inj (some.inj hobj')
  · rintro ⟨hne, m, hm, hlisted⟩
    have hcur := currentRecord_eq_some.2 (qeGet_eq_ok.1 hm.visible).1
    obtain ⟨t, ht⟩ := h.filters.triple_of_factListed hcur hlisted
    obtain ⟨hpred, hobj, -⟩ := Fact.eq_of_triple ht
    refine ⟨m.id, ⟨m, t, ?_, ht, ?_, ?_⟩, ?_⟩
    · rw [hcur, map_some, shown_of_factListed hlisted]
    · rw [hm.kind, hm.object] at hobj
      exact (some.inj hobj).symm
    · exact some.inj (hpred.symm.trans hm.predicate)
    · rw [memberOf, hm.visible]
      simp [hm.kind, hm.subject, hne]

/-- Every member of the subject is one by a listed fact, and if no limit has cut them all are. -/
theorem Database.Listed.members_spec (h : db.Listed) {truncated : Bool}
    (hsub : resolveSubsume cfg env db p = .ok (sub, truncated)) {x : UInt64} :
    (x ∈ sub → ∃ s m, p.subsumes = some s ∧ SaysIsA env db p.agentId s x m ∧
      factListed db.ix m = true) ∧
    (truncated = false → ∀ s m, p.subsumes = some s → x ≠ s → SaysIsA env db p.agentId s x m →
      factListed db.ix m = true → x ∈ sub) := by
  unfold resolveSubsume at hsub
  split at hsub
  · rename_i s f hs hf
    split at hsub
    · cases hsub
    · cases hsub
      rw [mem_eraseReps_sortBy]
      constructor
      · intro hx
        have hall : x ∈ (factIndexByKey f (.id s) (some isA)).filterMap
            (memberOf env db p.agentId s) := by
          split at hx
          · exact ((take_sublist _ _).filterMap _).mem hx
          · exact hx
        obtain ⟨-, m, hm, hlisted⟩ := (h.mem_filterMap_memberOf hf).1 hall
        exact ⟨s, m, hs, hm, hlisted⟩
      · intro htrunc s' m hs' hne hm hlisted
        cases hs'.symm.trans hs
        rw [if_neg (by rw [htrunc]; exact Bool.false_ne_true)]
        exact (h.mem_filterMap_memberOf hf).2 ⟨hne, m, hm, hlisted⟩
  · rename_i hnone
    cases hsub
    refine ⟨fun hx => absurd hx not_mem_nil, fun _ s m hs _ _ hlisted => ?_⟩
    obtain ⟨f, hf, -⟩ := factListed_eq_true.1 hlisted
    exact absurd hf (hnone s f hs)

theorem uncut_of_exhausted (h : (filterIds db.ix p sub cap).2 = true) : Uncut db.ix p cap := by
  have hrecent {start stop : UInt64}
      (htrunc : (!(timeIndexRangeRecent db.ix.time start stop cap).2) = true) :
      cap = 0 ∨ (timeWindow db.ix.time start stop).length ≤ cap := by
    rw [timeIndexRangeRecent_eq] at htrunc
    split at htrunc
    · cases htrunc
    · omega
  unfold filterIds at h
  unfold Uncut
  cases htime : p.time with
  | some window =>
    obtain ⟨start, stop⟩ := window
    rw [htime] at h
    dsimp only at h ⊢
    split at h
    · rw [timeIndexRange_eq] at h
      simp only [Bool.or_eq_true, decide_eq_true_eq] at h
      refine h.imp_right fun hlt => ?_
      split at hlt
      · omega
      · rw [length_map, length_take] at hlt
        omega
    · exact hrecent h
  | none =>
    rw [htime] at h
    cases hpat : p.pattern with
    | some pat => exact .inr trivial
    | none =>
      rw [hpat] at h
      dsimp only at h ⊢
      split at h
      · rename_i hne
        exact .inr (.inl hne)
      · exact (hrecent h).imp_right .inr

theorem ncard_setOf_mem {α : Type} {l : List α} (h : l.Nodup) : {x | x ∈ l}.ncard = l.length := by
  classical
  rw [← coe_toFinset, Set.ncard_coe_finset, toFinset_card_of_nodup h]

theorem Database.Listed.mem_countable (h : db.Listed) {truncated : Bool}
    (hsub : resolveSubsume cfg env db p = .ok (sub, truncated))
    (hr : r ∈ filterRecords env db p sub cap) : r ∈ countable env db p := by
  obtain ⟨id, -, hload⟩ := mem_filterMap.1 hr
  obtain ⟨hload, hexp, hpass⟩ := loadCandidate_eq_some.1 hload
  obtain ⟨rfl, -⟩ := h.sound.of_loadRecord hload
  refine ⟨hload, hexp, ?_⟩
  refine (passesFilters_members_iff.1 hpass).imp_right fun ⟨hown, hmem⟩ => ⟨hown, ?_⟩
  obtain ⟨s, m, hs, hm, -⟩ := (h.members_spec hsub).1 hmem
  exact ⟨s, m, hs, hm⟩

theorem passesFilters_of_subject {s : UInt64} (hs : p.subsumes = some s)
    (hown : passesFilters [r.fact.subject] p r = true) (heq : r.fact.subject = s) :
    passesFilters [] p r = true := by
  obtain ⟨pat, hpat, hs⟩ := bind_eq_some_iff.1 hs
  obtain ⟨-, hs⟩ := ite_none_right_eq_some.1 hs
  simpa [passesFilters, matchesPattern, hpat, hs, heq] using hown

/-- Without a cut, the countable records are counted that the index knows, with the membership of
their subject. -/
theorem Database.Listed.mem_filterRecords_iff (h : db.Listed)
    (hsub : resolveSubsume cfg env db p = .ok (sub, false)) (hcut : Uncut db.ix p cap)
    (hr : r ∈ countable env db p) : r ∈ filterRecords env db p sub cap ↔
      Answerable db.ix p r ∧ MemberListed env db p r := by
  obtain ⟨hload, hexp, hmeets⟩ := hr
  rw [h.mem_filterRecords hcut]
  constructor
  · rintro ⟨hmatch, hanswer⟩
    refine ⟨hanswer, ?_⟩
    refine (passesFilters_members_iff.1 hmatch.passes).imp_right fun hown => ?_
    exact (h.members_spec hsub).1 hown.2
  · rintro ⟨hanswer, hmember⟩
    refine ⟨⟨hload, hexp, passesFilters_members_iff.2 ?_⟩, hanswer⟩
    rcases hmember with hpass | ⟨s, m, hs, hm, hlisted⟩
    · exact .inl hpass
    · rcases hmeets with hpass | ⟨hown, -⟩
      · exact .inl hpass
      · by_cases heq : r.fact.subject = s
        · exact .inl (passesFilters_of_subject hs hown heq)
        · exact .inr ⟨hown, (h.members_spec hsub).2 rfl s m hs heq hm hlisted⟩

/-- **A count is at most the number of matches, and without the flag it is that number just when the
indexes know every match and the membership of its subject.** -/
theorem count_honest_iff (h : db.Listed) {n : ℕ} {capped : Bool}
    (hcount : qeCount R cfg env db p = .ok (n, capped)) :
    n ≤ matchCount env db p ∧ (capped = false → (n = matchCount env db p ↔
      ∀ r ∈ countable env db p, Answerable db.ix p r ∧ MemberListed env db p r)) := by
  unfold qeCount at hcount
  split at hcount
  · cases hcount
  cases hsub : resolveSubsume cfg env db p with
  | error st =>
    rw [hsub] at hcount
    cases hcount
  | ok members =>
    obtain ⟨sub, truncated⟩ := members
    simp only [hsub, gatherCandidates_filter, length_map, Except.ok.injEq,
      Prod.mk.injEq] at hcount
    obtain ⟨rfl, rfl⟩ := hcount
    have hnodup := (h.nodup_filterRecords env cfg.queryScanCap (nodup_of_resolveSubsume hsub)).of_map
    have hsubset : {r | r ∈ filterRecords env db p sub cfg.queryScanCap} ⊆ countable env db p :=
      fun r hr => h.mem_countable hsub hr
    rw [← ncard_setOf_mem hnodup]
    refine ⟨Set.ncard_le_ncard hsubset (finite_countable env db p), fun hcapped => ?_⟩
    obtain ⟨hexhausted, rfl⟩ := Bool.or_eq_false_iff.1 hcapped
    have hcut := uncut_of_exhausted ((Bool.not_eq_false' _).mp hexhausted)
    constructor
    · intro hcard r hr
      have heq := Set.eq_of_subset_of_ncard_le hsubset hcard.ge (finite_countable env db p)
      rw [← heq] at hr
      exact (h.mem_filterRecords_iff hsub hcut (hsubset hr)).1 hr
    · intro hall
      refine congrArg Set.ncard (hsubset.antisymm fun r hr => ?_)
      exact (h.mem_filterRecords_iff hsub hcut hr).2 (hall r hr)

end

theorem matchCount_of_subsumes_none {env : Sample} {db : Database F} {p : SearchParams}
    (hs : db.Sound) (hnone : p.subsumes = none) :
    matchCount env db p = (scanRecords env db p []).length := by
  rw [matchCount, ← ncard_setOf_mem (nodup_scanRecords hs env p []).of_map]
  congr 1
  ext r
  change _ ↔ r ∈ scanRecords env db p []
  rw [mem_scanRecords hs]
  constructor
  · rintro ⟨hload, hexp, hpass | ⟨-, s, m, hs', -⟩⟩
    · exact ⟨hload, hexp, hpass⟩
    · cases hnone.symm.trans hs'
  · rintro ⟨hload, hexp, hpass⟩
    exact ⟨hload, hexp, .inl hpass⟩

set_option maxRecDepth 20000 in
theorem qeCount_longFact :
    qeCount .nothing .unlimited .zero longFactDb aboutSeven = .ok (0, false) ∧
      qeCount .nothing .unlimited .zero longFactDb {} = .ok (1, false) := by
  decide +kernel

/-- Without a pattern the record is counted. -/
theorem longFactDb_counted : qeCount .nothing .unlimited .zero longFactDb {} = .ok (1, false) ∧
    1 = matchCount .zero longFactDb {} := by
  refine ⟨qeCount_longFact.2, ?_⟩
  refine ((count_honest_iff longFactDb_listed qeCount_longFact.2).2 rfl).2 ?_
  rintro r ⟨-, -, hpass | ⟨-, s, m, hs, -⟩⟩
  · refine ⟨fun _ pat hpat => ?_, .inl hpass⟩
    cases hpat
  · cases hs

/-- One record has the subject, and none is counted. -/
theorem longFact_not_counted :
    run (writeStep .unlimited) (.create .unlimited fun _ => ()) [longFact] = some longFactDb ∧
      qeCount .nothing .unlimited .zero longFactDb aboutSeven = .ok (0, false) ∧
      matchCount .zero longFactDb aboutSeven = 1 := by
  refine ⟨run_longFact, qeCount_longFact.1, ?_⟩
  rw [matchCount_of_subsumes_none longFactDb_listed.sound rfl, ← length_map MemoryRecord.id,
    map_id_scanRecords_longFact]
  rfl

end AegisDB
