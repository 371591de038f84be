import AegisDB.Foundations.Runs
import AegisDB.Query.Infer

/-!
# Contradictions

`find_conflicts` sorts the facts of a namespace by subject, predicate and id, and scans each subject
twice: within each predicate that takes one value the first record is compared with the others, and of
each two predicates that exclude each other every pair is taken. `conflict_set_add` keeps the pairs in
a list of at most `CONFLICT_SET_MAX`.

`mem_cardinalityPairs` and `mem_mutexPairs` say which pairs the scans flag,
`contradicted_reported_iff` when every contradicted record is in one, and `conflict_gauge_exact_iff`
when the count is that of the pairs.
-/

namespace AegisDB

open List Prod

variable {F : Framing}
variable {b r : MemoryRecord} {run l : List MemoryRecord} {cs : List (UInt64 × UInt64)}

/-! ## What contradicts what -/

def assertions (facts : List MemoryRecord) : List MemoryRecord :=
  facts.filter fun r => r.fact.kind ≠ .none && r.fact.predicate.isSome

/-- The entry of the registry for the predicate of a record. -/
def specOf (registry : List PredicateSpec) (r : MemoryRecord) : Option PredicateSpec :=
  r.fact.predicate.bind (predicateRegistryGet registry)

/-- The predicate of the record takes one value. -/
def SingleValued (registry : List PredicateSpec) (r : MemoryRecord) : Prop :=
  ∃ spec, specOf registry r = some spec ∧ spec.singleValued = true

/-- The predicates of the records exclude each other. -/
def Excludes (registry : List PredicateSpec) (a b : MemoryRecord) : Prop :=
  ∃ sa sb, specOf registry a = some sa ∧ specOf registry b = some sb ∧
    mutuallyExclusive sa sb = true

/-- The records say something about the same subject, with the same predicate. -/
def SameGroup (a b : MemoryRecord) : Prop :=
  a.fact.subject = b.fact.subject ∧ a.fact.predicate = b.fact.predicate

def Contradicts (registry : List PredicateSpec) (a b : MemoryRecord) : Prop :=
  a ≠ b ∧ a.fact.subject = b.fact.subject ∧
    (a.fact.predicate = b.fact.predicate ∧ SingleValued registry a ∧
        objectsDiffer a.fact b.fact = true ∨
      Excludes registry a b)

/-- The record has the lowest id of those that say something about its subject with its predicate. -/
def IsFirst (facts : List MemoryRecord) (a : MemoryRecord) : Prop :=
  ∀ b ∈ assertions facts, SameGroup a b → a.id ≤ b.id

variable {a : MemoryRecord}

theorem Excludes.symm {registry : List PredicateSpec} (h : Excludes registry a b) :
    Excludes registry b a := by
  obtain ⟨sa, sb, ha, hb, hab⟩ := h
  refine ⟨sb, sa, hb, ha, ?_⟩
  rw [mutuallyExclusive, Bool.or_comm]
  exact hab

theorem objectsDiffer_comm (a b : Fact) : objectsDiffer a b = objectsDiffer b a := by
  unfold objectsDiffer
  by_cases hkind : a.kind = b.kind
  · simp only [hkind, ne_eq, not_true_eq_false, if_false, eq_comm (a := a.objectId),
      eq_comm (a := a.objectStr), Bool.or_comm a.objectStr.isNone]
  · simp [hkind, Ne.symm hkind]

/-- A record that says the same as another one says the same as itself. -/
theorem objectsDiffer_self {a b : Fact} (h : objectsDiffer a b = false) :
    objectsDiffer b b = false := by
  unfold objectsDiffer at h ⊢
  by_cases hkind : a.kind = b.kind
  · by_cases hid : b.kind = .objId
    · simp [hid]
    · simp only [hkind, hid, ne_eq, not_true_eq_false, if_false, Bool.or_eq_false_iff,
        decide_eq_false_iff_not, not_not] at h
      simp [hid, h.1.2]
  · simp [hkind] at h

/-! ## The scans -/

/-- The records about a subject, in the order of the scan. -/
def subjectRun (facts : List MemoryRecord) (s : UInt64) : List MemoryRecord :=
  (sortBy subjectKey (assertions facts)).filter fun r => r.fact.subject = s

theorem pairwise_subject (facts : List MemoryRecord) :
    (sortBy subjectKey (assertions facts)).Pairwise fun a b =>
      a.fact.subject.toNat ≤ b.fact.subject.toNat := by
  refine (pairwise_sortBy subjectKey _).imp fun {a b} h => ?_
  rcases Lex.toLex_le_toLex.1 h with hlt | ⟨heq, -⟩
  · exact hlt.le
  · exact heq.le

variable {facts : List MemoryRecord}

theorem mem_subjectRuns :
    run ∈ (sortBy subjectKey (assertions facts)).splitBy
        (fun a b => decide (a.fact.subject = b.fact.subject)) ↔
      ∃ a ∈ assertions facts, run = subjectRun facts a.fact.subject := by
  rw [Runs.mem_splitBy_sorted
    (fun a _ b _ => by simp [UInt64.toNat_inj]) (pairwise_subject facts)]
  simp only [(perm_sortBy subjectKey (assertions facts)).mem_iff, UInt64.toNat_inj, subjectRun]

variable {p : MemoryRecord × MemoryRecord}

theorem mem_conflictPairs {registry : List PredicateSpec} : p ∈ conflictPairs registry facts ↔
      ∃ a ∈ assertions facts, (subjectRun facts a.fact.subject).length ≤ conflictMaxPerSubject ∧
        (p ∈ cardinalityPairs registry (subjectRun facts a.fact.subject) ∨
          p ∈ mutexPairs registry (subjectRun facts a.fact.subject)) := by
  unfold conflictPairs
  rw [mem_flatMap]
  constructor
  · rintro ⟨run, hrun, hp⟩
    obtain ⟨a, ha, rfl⟩ := mem_subjectRuns.1 hrun
    split at hp
    · cases hp
    · rename_i hlen
      exact ⟨a, ha, not_lt.1 hlen, mem_append.1 hp⟩
  · rintro ⟨a, ha, hlen, hp⟩
    refine ⟨_, mem_subjectRuns.2 ⟨a, ha, rfl⟩, ?_⟩
    rw [if_neg (not_lt.2 hlen)]
    exact mem_append.2 hp

theorem mem_subjectRun {s : UInt64} :
    r ∈ subjectRun facts s ↔ r ∈ assertions facts ∧ r.fact.subject = s := by
  rw [subjectRun, mem_filter, (perm_sortBy subjectKey _).mem_iff, decide_eq_true_eq]

theorem nodup_subjectRun (h : (facts.map MemoryRecord.id).Nodup) (s : UInt64) :
    (subjectRun facts s).Nodup :=
  ((perm_sortBy subjectKey _).nodup_iff.2 (h.of_map.filter _)).filter _

/-- Of two records about a subject the earlier one has the lower predicate, or the lower id. -/
theorem pairwise_subjectRun (facts : List MemoryRecord) (s : UInt64) :
    (subjectRun facts s).Pairwise fun a b => (subjectKey a).2 ≤ (subjectKey b).2 := by
  have hsorted := (pairwise_sortBy subjectKey (assertions facts)).sublist
    (filter_sublist (p := fun r => decide (r.fact.subject = s)))
  refine hsorted.imp_of_mem fun {a b} ha hb h => ?_
  have ha := of_decide_eq_true (mem_filter.1 ha).2
  have hb := of_decide_eq_true (mem_filter.1 hb).2
  rcases Lex.toLex_le_toLex.1 h with hlt | ⟨-, hle⟩
  · simp only [ha, hb] at hlt
    exact absurd hlt (lt_irrefl _)
  · exact hle

/-- What `strcmp` compares predicates by. -/
def predKey (r : MemoryRecord) : List ℕ := (r.fact.predicate.elim [] CString.bytes).map UInt8.toNat

theorem predKey_eq_iff (ha : a.fact.predicate.isSome = true) (hb : b.fact.predicate.isSome = true) :
    predKey a = predKey b ↔ a.fact.predicate = b.fact.predicate := by
  obtain ⟨p, hp⟩ := Option.isSome_iff_exists.1 ha
  obtain ⟨q, hq⟩ := Option.isSome_iff_exists.1 hb
  have hinj : Function.Injective UInt8.toNat := fun x y h => UInt8.toNat_inj.1 h
  simp only [predKey, hp, hq, Option.elim_some, List.map_inj_right (fun x y => @hinj x y),
    Option.some.injEq]
  exact ⟨fun h => Subtype.ext h, fun h => by rw [h]⟩

theorem isSome_of_mem_assertions (h : r ∈ assertions facts) : r.fact.predicate.isSome = true := by
  have := (mem_filter.1 h).2
  simp only [Bool.and_eq_true] at this
  exact this.2

/-- The records about a subject with one predicate, in the order of the scan. -/
def groupRun (facts : List MemoryRecord) (a : MemoryRecord) : List MemoryRecord :=
  (subjectRun facts a.fact.subject).filter fun r => r.fact.predicate = a.fact.predicate

theorem mem_groupRun : r ∈ groupRun facts a ↔ r ∈ assertions facts ∧ SameGroup a r := by
  rw [groupRun, mem_filter, mem_subjectRun, decide_eq_true_eq, SameGroup]
  constructor
  · rintro ⟨⟨hr, hs⟩, hp⟩
    exact ⟨hr, hs.symm, hp.symm⟩
  · rintro ⟨hr, hs, hp⟩
    exact ⟨⟨hr, hs.symm⟩, hp.symm⟩

theorem mem_groupRuns {s : UInt64} :
    run ∈ (subjectRun facts s).splitBy
        (fun a b => decide (a.fact.predicate = b.fact.predicate)) ↔
      ∃ a ∈ assertions facts, a.fact.subject = s ∧ run = groupRun facts a := by
  have hsome (r : MemoryRecord) (hr : r ∈ subjectRun facts s) : r.fact.predicate.isSome = true :=
    isSome_of_mem_assertions (mem_subjectRun.1 hr).1
  rw [Runs.mem_splitBy_sorted (f := predKey)]
  · constructor
    · rintro ⟨a, ha, rfl⟩
      obtain ⟨hmem, rfl⟩ := mem_subjectRun.1 ha
      refine ⟨a, hmem, rfl, filter_congr fun r hr => ?_⟩
      simp only [predKey_eq_iff (hsome r hr) (hsome a ha)]
    · rintro ⟨a, ha, rfl, rfl⟩
      have hmem := mem_subjectRun.2 ⟨ha, rfl⟩
      refine ⟨a, hmem, filter_congr fun r hr => ?_⟩
      simp only [predKey_eq_iff (hsome r hr) (hsome a hmem)]
  · intro a ha b hb
    simp only [predKey_eq_iff (hsome a ha) (hsome b hb)]
  · refine (pairwise_subjectRun facts s).imp fun {a b} h => ?_
    rcases Lex.toLex_le_toLex.1 h with hlt | ⟨heq, -⟩
    · exact le_of_lt hlt
    · exact le_of_eq heq

theorem pairwise_groupRun (facts : List MemoryRecord) (a : MemoryRecord) :
    (groupRun facts a).Pairwise fun x y => x.id ≤ y.id := by
  have hsorted := (pairwise_subjectRun facts a.fact.subject).sublist
    (filter_sublist (p := fun r => decide (r.fact.predicate = a.fact.predicate)))
  refine hsorted.imp_of_mem fun {x y} hx hy h => ?_
  have hx := of_decide_eq_true (mem_filter.1 hx).2
  have hy := of_decide_eq_true (mem_filter.1 hy).2
  rcases Lex.toLex_le_toLex.1 h with hlt | ⟨-, hle⟩
  · simp only [hx, hy] at hlt
    exact absurd hlt (lt_irrefl _)
  · exact UInt64.le_iff_toNat_le.2 hle

theorem sameGroup_of_mem {x y : MemoryRecord} (hx : x ∈ groupRun facts a)
    (hy : y ∈ groupRun facts a) : SameGroup x y := by
  obtain ⟨-, hxs, hxp⟩ := mem_groupRun.1 hx
  obtain ⟨-, hys, hyp⟩ := mem_groupRun.1 hy
  exact ⟨hxs.symm.trans hys, hxp.symm.trans hyp⟩

theorem groupRun_congr (h : SameGroup a b) : groupRun facts a = groupRun facts b := by
  rw [groupRun, groupRun, h.1, h.2]

section

variable {registry : List PredicateSpec} {facts : List MemoryRecord}

section

variable (hids : (facts.map MemoryRecord.id).Nodup)

include hids

theorem eq_of_id {a : MemoryRecord} (ha : a ∈ assertions facts) (hb : b ∈ assertions facts)
    (h : a.id = b.id) : a = b :=
  inj_on_of_nodup_map hids (mem_filter.1 ha).1 (mem_filter.1 hb).1 h

theorem groupRun_eq_cons {a : MemoryRecord} (ha : a ∈ assertions facts) (hfirst : IsFirst facts a) :
    ∃ rest, groupRun facts a = a :: rest ∧
      ∀ b, b ∈ rest ↔ b ∈ assertions facts ∧ SameGroup a b ∧ b ≠ a := by
  have hmem : a ∈ groupRun facts a := mem_groupRun.2 ⟨ha, rfl, rfl⟩
  have hnodup : (groupRun facts a).Nodup := (nodup_subjectRun hids _).filter _
  cases hrun : groupRun facts a with
  | nil =>
    rw [hrun] at hmem
    cases hmem
  | cons x rest =>
    have hx : x ∈ groupRun facts a := by rw [hrun]; exact mem_cons_self
    obtain ⟨hxf, hxg⟩ := mem_groupRun.1 hx
    have hle : x.id ≤ a.id := by
      have hsorted := pairwise_groupRun facts a
      rw [hrun] at hsorted hmem
      rcases mem_cons.1 hmem with rfl | hmem
      · exact UInt64.le_refl _
      · exact rel_of_pairwise_cons hsorted hmem
    obtain rfl : x = a := eq_of_id hids hxf ha (UInt64.le_antisymm hle (hfirst x hxf hxg))
    refine ⟨rest, rfl, fun b => ?_⟩
    rw [hrun] at hnodup
    have hb : b ∈ groupRun facts x ↔ b ∈ assertions facts ∧ SameGroup x b := mem_groupRun
    rw [hrun, mem_cons] at hb
    constructor
    · intro hmemb
      obtain ⟨hbf, hbg⟩ := hb.1 (.inr hmemb)
      refine ⟨hbf, hbg, ?_⟩
      rintro rfl
      exact (nodup_cons.1 hnodup).1 hmemb
    · rintro ⟨hbf, hbg, hne⟩
      exact (hb.2 ⟨hbf, hbg⟩).resolve_left hne

/-- The pairs of the first scan: the first record of a group with each other one of another value. -/
theorem mem_cardinalityPairs {s : UInt64} {a : MemoryRecord} :
    (a, b) ∈ cardinalityPairs registry (subjectRun facts s) ↔
      a ∈ assertions facts ∧ b ∈ assertions facts ∧ a.fact.subject = s ∧ SameGroup a b ∧ b ≠ a ∧
        IsFirst facts a ∧ SingleValued registry a ∧ objectsDiffer a.fact b.fact = true := by
  have hsingle (r : MemoryRecord) : ((r.fact.predicate.bind (predicateRegistryGet registry)).any
      fun spec => spec.singleValued) = true ↔ SingleValued registry r := by
    rw [Option.any_eq_true]
    rfl
  unfold cardinalityPairs
  rw [mem_flatMap]
  constructor
  · rintro ⟨run, hrun, hp⟩
    obtain ⟨c, hc, hcs, rfl⟩ := mem_groupRuns.1 hrun
    cases hgroup : groupRun facts c with
    | nil =>
      rw [hgroup] at hp
      cases hp
    | cons x rest =>
      rw [hgroup] at hp
      dsimp only at hp
      split at hp
      · rename_i hsv
        obtain ⟨y, hy, hxy⟩ := mem_map.1 hp
        cases hxy
        obtain ⟨hrest, hdiff⟩ := mem_filter.1 hy
        have hag : a ∈ groupRun facts c := by rw [hgroup]; exact mem_cons_self
        have hbg : b ∈ groupRun facts c := by rw [hgroup]; exact mem_cons_of_mem a hrest
        have hsame := sameGroup_of_mem hag hbg
        have hnodup : (groupRun facts c).Nodup := (nodup_subjectRun hids _).filter _
        have hsorted := pairwise_groupRun facts c
        rw [hgroup] at hnodup hsorted
        obtain ⟨haf, has, -⟩ := mem_groupRun.1 hag
        refine ⟨haf, (mem_groupRun.1 hbg).1, has.symm.trans hcs, hsame, ?_, ?_, (hsingle a).1 hsv,
          hdiff⟩
        · rintro rfl
          exact (nodup_cons.1 hnodup).1 hrest
        · intro z hz hzg
          have hzc : z ∈ groupRun facts a := mem_groupRun.2 ⟨hz, hzg⟩
          rw [← groupRun_congr (mem_groupRun.1 hag).2, hgroup] at hzc
          rcases mem_cons.1 hzc with rfl | hzc
          · exact UInt64.le_refl _
          · exact rel_of_pairwise_cons hsorted hzc
      · cases hp
  · rintro ⟨ha, hb, has, hsame, hne, hfirst, hsv, hdiff⟩
    obtain ⟨rest, hgroup, hrest⟩ := groupRun_eq_cons hids ha hfirst
    refine ⟨_, mem_groupRuns.2 ⟨a, ha, has, rfl⟩, ?_⟩
    rw [hgroup]
    dsimp only
    rw [if_pos ((hsingle a).2 hsv)]
    exact mem_map.2 ⟨b, mem_filter.2 ⟨(hrest b).2 ⟨hb, hsame, hne⟩, hdiff⟩, rfl⟩

end

/-- The pairs of the second scan: every two records, in their order, of predicates that exclude each
other. -/
theorem mem_mutexPairs {a : MemoryRecord} :
    (a, b) ∈ mutexPairs registry l ↔ [a, b].Sublist l ∧ Excludes registry a b := by
  induction l with
  | nil =>
    refine ⟨fun h => (by cases h), fun h => ?_⟩
    cases h.1
  | cons x l ih =>
    unfold mutexPairs
    rw [mem_append, ih]
    refine (or_congr_left (?_ : _ ↔ a = x ∧ b ∈ l ∧ Excludes registry a b)).trans ?_
    · cases hx : x.fact.predicate.bind (predicateRegistryGet registry) with
      | none =>
        refine ⟨fun h => (by cases h), ?_⟩
        rintro ⟨rfl, -, sa, -, hsa, -⟩
        cases hx.symm.trans hsa
      | some sa =>
        simp only [mem_map, mem_filter, mk.injEq]
        constructor
        · rintro ⟨y, ⟨hy, hany⟩, rfl, rfl⟩
          obtain ⟨sb, hsb, hex⟩ := (Option.any_eq_true _ _).1 hany
          exact ⟨rfl, hy, sa, sb, hx, hsb, hex⟩
        · rintro ⟨rfl, hy, sa', sb, hsa, hsb, hex⟩
          cases hx.symm.trans hsa
          exact ⟨b, ⟨hy, (Option.any_eq_true _ _).2 ⟨sb, hsb, hex⟩⟩, rfl, rfl⟩
    rw [sublist_cons_iff]
    constructor
    · rintro (⟨rfl, hb, hex⟩ | ⟨hsub, hex⟩)
      · exact ⟨.inr ⟨[b], rfl, singleton_sublist.2 hb⟩, hex⟩
      · exact ⟨.inl hsub, hex⟩
    · rintro ⟨hsub | ⟨rest, hrest, hsub⟩, hex⟩
      · exact .inr ⟨hsub, hex⟩
      · cases hrest
        exact .inl ⟨rfl, singleton_sublist.1 hsub, hex⟩

end

/-- The ids of a pair, the lower one first. -/
def pairIds (p : MemoryRecord × MemoryRecord) : UInt64 × UInt64 :=
  if p.2.id < p.1.id then (p.2.id, p.1.id) else (p.1.id, p.2.id)

theorem mem_pairIds_iff {i : UInt64} :
    ((pairIds p).1 = i ∨ (pairIds p).2 = i) ↔ p.1.id = i ∨ p.2.id = i := by
  unfold pairIds
  split
  · exact or_comm
  · rfl

/-- The pair can be kept: its records have different ids, and none of them is zero. -/
def Listable (p : MemoryRecord × MemoryRecord) : Prop := p.1.id ≠ 0 ∧ p.2.id ≠ 0 ∧ p.1.id ≠ p.2.id

theorem conflictSetAdd_of_listable (h : Listable p) (cs : List (UInt64 × UInt64)) :
    conflictSetAdd cs p.1.id p.2.id =
      if pairIds p ∈ cs then (cs, true)
      else if conflictSetMax ≤ cs.length then (cs, false) else (cs ++ [pairIds p], false) := by
  obtain ⟨ha, hb, hne⟩ := h
  unfold conflictSetAdd
  rw [if_neg (by simp [ha, hb, hne])]
  simp only [contains_eq_mem, decide_eq_true_eq, pairIds]
  congr

def retain (cs : List (UInt64 × UInt64)) (pairs : List (MemoryRecord × MemoryRecord)) :
    List (UInt64 × UInt64) :=
  pairs.foldl (fun cs p => (conflictSetAdd cs p.1.id p.2.id).1) cs

theorem findConflicts_snd (cfg : DbConfig) (env : Sample) (registry : List PredicateSpec)
    (ns : Option CString) (facts : List MemoryRecord) (s : Database F × List (UInt64 × UInt64)) :
    (findConflicts cfg env registry ns facts s).2 = retain s.2 (conflictPairs registry facts) := by
  unfold findConflicts retain
  induction conflictPairs registry facts generalizing s with
  | nil => rfl
  | cons p pairs ih => exact ih _

theorem sublist_conflictSetAdd (cs : List (UInt64 × UInt64)) (a b : UInt64) :
    cs.Sublist (conflictSetAdd cs a b).1 := by
  unfold conflictSetAdd
  dsimp only
  split_ifs
  · exact .refl cs
  · exact .refl cs
  · exact .refl cs
  · exact sublist_append_left cs _
  · exact .refl cs
  · exact .refl cs
  · exact sublist_append_left cs _

theorem sublist_retain (cs : List (UInt64 × UInt64)) (pairs : List (MemoryRecord × MemoryRecord)) :
    cs.Sublist (retain cs pairs) := by
  induction pairs generalizing cs with
  | nil => exact .refl cs
  | cons p pairs ih => exact (sublist_conflictSetAdd cs _ _).trans (ih _)

variable {pairs : List (MemoryRecord × MemoryRecord)}

theorem mem_retain (hok : ∀ p ∈ pairs, Listable p)
    (hroom : (retain cs pairs).length < conflictSetMax) {x : UInt64 × UInt64} :
    x ∈ retain cs pairs ↔ x ∈ cs ∨ ∃ p ∈ pairs, pairIds p = x := by
  induction pairs generalizing cs with
  | nil => simp [retain]
  | cons p pairs ih =>
    have hp := hok p mem_cons_self
    have hlen := lt_of_le_of_lt (sublist_retain cs (p :: pairs)).length_le hroom
    have hstep : ∀ y, y ∈ (conflictSetAdd cs p.1.id p.2.id).1 ↔ y ∈ cs ∨ pairIds p = y := by
      intro y
      rw [conflictSetAdd_of_listable hp]
      split
      · rename_i hmem
        refine ⟨.inl, ?_⟩
        rintro (hy | rfl)
        · exact hy
        · exact hmem
      · rw [if_neg (not_le.2 hlen), mem_append, mem_singleton, eq_comm]
    have hrest := ih (fun q hq => hok q (mem_cons_of_mem p hq)) hroom
    refine hrest.trans ?_
    rw [hstep, exists_mem_cons_iff, or_assoc]

/-! ## Every contradicted record is reported -/

section

variable {registry : List PredicateSpec} {facts : List MemoryRecord}

section

variable (hids : (facts.map MemoryRecord.id).Nodup)

include hids

theorem cases_of_mem {a : MemoryRecord} (h : (a, b) ∈ conflictPairs registry facts) :
    (a ∈ assertions facts ∧ b ∈ assertions facts ∧ SameGroup a b ∧ b ≠ a ∧ IsFirst facts a ∧
      SingleValued registry a ∧ objectsDiffer a.fact b.fact = true) ∨
    (∃ s, [a, b].Sublist (subjectRun facts s)) ∧ Excludes registry a b := by
  obtain ⟨c, -, -, hcard | hmutex⟩ := mem_conflictPairs.1 h
  · obtain ⟨ha, hb, -, hrest⟩ := (mem_cardinalityPairs hids).1 hcard
    exact .inl ⟨ha, hb, hrest⟩
  · obtain ⟨hsub, hex⟩ := mem_mutexPairs.1 hmutex
    exact .inr ⟨⟨_, hsub⟩, hex⟩

theorem mem_conflictPairs_iff (hfew : ∀ s, (subjectRun facts s).length ≤ conflictMaxPerSubject)
    {a : MemoryRecord} :
    (a, b) ∈ conflictPairs registry facts ↔
      (a ∈ assertions facts ∧ b ∈ assertions facts ∧ SameGroup a b ∧ b ≠ a ∧ IsFirst facts a ∧
        SingleValued registry a ∧ objectsDiffer a.fact b.fact = true) ∨
      (∃ s, [a, b].Sublist (subjectRun facts s)) ∧ Excludes registry a b := by
  refine ⟨cases_of_mem hids, fun h => mem_conflictPairs.2 ?_⟩
  rcases h with ⟨ha, hb, hrest⟩ | ⟨⟨s, hsub⟩, hex⟩
  · exact ⟨a, ha, hfew _, .inl ((mem_cardinalityPairs hids).2 ⟨ha, hb, rfl, hrest⟩)⟩
  · obtain ⟨ha, rfl⟩ := mem_subjectRun.1 (hsub.subset mem_cons_self)
    exact ⟨a, ha, hfew _, .inr (mem_mutexPairs.2 ⟨hsub, hex⟩)⟩

theorem contradicts_of_mem {a : MemoryRecord} (h : (a, b) ∈ conflictPairs registry facts) :
    a ∈ assertions facts ∧ b ∈ assertions facts ∧ Contradicts registry a b := by
  rcases cases_of_mem hids h with ⟨ha, hb, hsame, hne, -, hsv, hdiff⟩ | ⟨⟨s, hsub⟩, hex⟩
  · exact ⟨ha, hb, hne.symm, hsame.1, .inl ⟨hsame.2, hsv, hdiff⟩⟩
  · obtain ⟨ha, has⟩ := mem_subjectRun.1 (hsub.subset mem_cons_self)
    obtain ⟨hb, hbs⟩ := mem_subjectRun.1 (hsub.subset (mem_cons_of_mem a mem_cons_self))
    refine ⟨ha, hb, ?_, has.trans hbs.symm, .inr hex⟩
    have := (nodup_subjectRun hids s).sublist hsub
    rintro rfl
    simp at this

theorem listable_of_mem (hzero : ∀ r ∈ facts, r.id ≠ 0) {p : MemoryRecord × MemoryRecord}
    (h : p ∈ conflictPairs registry facts) : Listable p := by
  obtain ⟨ha, hb, hne, -⟩ := contradicts_of_mem hids h
  exact ⟨hzero _ (mem_filter.1 ha).1, hzero _ (mem_filter.1 hb).1,
    fun heq => hne (eq_of_id hids ha hb heq)⟩

end

theorem pair_sublist {a : MemoryRecord} (ha : a ∈ l) (hb : b ∈ l) (hne : a ≠ b) :
    [a, b].Sublist l ∨ [b, a].Sublist l := by
  induction l with
  | nil => cases ha
  | cons x l ih =>
    rcases mem_cons.1 ha with rfl | ha'
    · have hb' := (mem_cons.1 hb).resolve_left hne.symm
      exact .inl ((singleton_sublist.2 hb').cons_cons a)
    · rcases mem_cons.1 hb with rfl | hb'
      · exact .inr ((singleton_sublist.2 ha').cons_cons b)
      · exact (ih ha' hb').imp (fun h => h.cons x) fun h => h.cons x

/-- A record is in a flagged pair exactly if it is the first of its group and another one differs,
or differs from the first, or another predicate excludes its own. -/
theorem exists_mem_conflictPairs_iff (hids : (facts.map MemoryRecord.id).Nodup)
    (hfew : ∀ s, (subjectRun facts s).length ≤ conflictMaxPerSubject) (hr : r ∈ assertions facts) :
    (∃ p ∈ conflictPairs registry facts, p.1 = r ∨ p.2 = r) ↔
      (∃ x ∈ assertions facts, SameGroup r x ∧ x ≠ r ∧ (IsFirst facts r ∨ IsFirst facts x) ∧
        SingleValued registry r ∧ objectsDiffer r.fact x.fact = true) ∨
      ∃ x ∈ assertions facts, x ≠ r ∧ r.fact.subject = x.fact.subject ∧ Excludes registry r x := by
  have hsv {a b : MemoryRecord} (h : SameGroup a b) (ha : SingleValued registry a) :
      SingleValued registry b := by
    obtain ⟨spec, hspec, hval⟩ := ha
    exact ⟨spec, by rw [← hspec, specOf, specOf, h.2], hval⟩
  constructor
  · rintro ⟨⟨a, b⟩, hp, hpr⟩
    obtain ⟨ha, hb, hne, hsubj, -⟩ := contradicts_of_mem hids hp
    rcases (mem_conflictPairs_iff hids hfew).1 hp with
      ⟨-, -, hsame, -, hfirst, hsingle, hdiff⟩ | ⟨-, hex⟩
    · left
      rcases hpr with rfl | rfl
      · exact ⟨b, hb, hsame, hne.symm, .inl hfirst, hsingle, hdiff⟩
      · refine ⟨a, ha, ⟨hsame.1.symm, hsame.2.symm⟩, hne, .inr hfirst, hsv hsame hsingle, ?_⟩
        rw [objectsDiffer_comm]
        exact hdiff
    · right
      rcases hpr with rfl | rfl
      · exact ⟨b, hb, hne.symm, hsubj, hex⟩
      · exact ⟨a, ha, hne, hsubj.symm, hex.symm⟩
  · rintro (⟨x, hx, hsame, hne, hfirst, hsingle, hdiff⟩ | ⟨x, hx, hne, hsubj, hex⟩)
    · rcases hfirst with hfirst | hfirst
      · exact ⟨(r, x), (mem_conflictPairs_iff hids hfew).2
          (.inl ⟨hr, hx, hsame, hne, hfirst, hsingle, hdiff⟩), .inl rfl⟩
      · refine ⟨(x, r), (mem_conflictPairs_iff hids hfew).2
          (.inl ⟨hx, hr, ⟨hsame.1.symm, hsame.2.symm⟩, hne.symm, hfirst, hsv hsame hsingle, ?_⟩),
          .inr rfl⟩
        rw [objectsDiffer_comm]
        exact hdiff
    · have hrun : r ∈ subjectRun facts r.fact.subject := mem_subjectRun.2 ⟨hr, rfl⟩
      have hxun : x ∈ subjectRun facts r.fact.subject := mem_subjectRun.2 ⟨hx, hsubj.symm⟩
      rcases pair_sublist hrun hxun hne.symm with hsub | hsub
      · exact ⟨(r, x), (mem_conflictPairs_iff hids hfew).2 (.inr ⟨⟨_, hsub⟩, hex⟩), .inl rfl⟩
      · exact ⟨(x, r), (mem_conflictPairs_iff hids hfew).2 (.inr ⟨⟨_, hsub⟩, hex.symm⟩), .inr rfl⟩

theorem exists_isFirst (hr : r ∈ assertions facts) :
    ∃ f ∈ assertions facts, SameGroup r f ∧ IsFirst facts f := by
  cases hrun : groupRun facts r with
  | nil =>
    have hmem : r ∈ groupRun facts r := mem_groupRun.2 ⟨hr, rfl, rfl⟩
    rw [hrun] at hmem
    cases hmem
  | cons f rest =>
    have hf : f ∈ groupRun facts r := by rw [hrun]; exact mem_cons_self
    have hsorted := pairwise_groupRun facts r
    rw [hrun] at hsorted
    obtain ⟨hff, hsame⟩ := mem_groupRun.1 hf
    refine ⟨f, hff, hsame, fun b hb hbf => ?_⟩
    have hbr : b ∈ groupRun facts r :=
      mem_groupRun.2 ⟨hb, hsame.1.trans hbf.1, hsame.2.trans hbf.2⟩
    rw [hrun] at hbr
    rcases mem_cons.1 hbr with rfl | hbr
    · exact UInt64.le_refl _
    · exact rel_of_pairwise_cons hsorted hbr

theorem length_subjectRun (facts : List MemoryRecord) (s : UInt64) :
    (subjectRun facts s).length = (assertions facts).countP fun r => r.fact.subject = s := by
  rw [subjectRun, ← countP_eq_length_filter, (perm_sortBy subjectKey _).countP_eq]

/-- For facts of which no subject has too many, and a list with room that held pairs of other
records: every contradicted record is in a pair and every pair is a contradiction, exactly if each
record that says the same as the first of its group, while another one differs, has a predicate that
another record's excludes. -/
theorem contradicted_reported_iff (cfg : DbConfig) (env : Sample) (registry : List PredicateSpec)
    (ns : Option CString) (facts : List MemoryRecord) (s : Database F × List (UInt64 × UInt64))
    (hids : (facts.map MemoryRecord.id).Nodup) (hzero : ∀ r ∈ facts, r.id ≠ 0)
    (hfew : ∀ subject, ((assertions facts).countP fun r => r.fact.subject = subject) ≤
      conflictMaxPerSubject)
    (hother : ∀ x ∈ s.2, ∀ r ∈ facts, x.1 ≠ r.id ∧ x.2 ≠ r.id)
    (hroom : (findConflicts cfg env registry ns facts s).2.length < conflictSetMax) :
    ((∀ r ∈ assertions facts, (∃ x ∈ assertions facts, Contradicts registry r x) →
        ∃ p ∈ (findConflicts cfg env registry ns facts s).2, p.1 = r.id ∨ p.2 = r.id) ∧
      ∀ p ∈ (findConflicts cfg env registry ns facts s).2, p ∈ s.2 ∨
        ∃ a ∈ assertions facts, ∃ b ∈ assertions facts, Contradicts registry a b ∧
          pairIds (a, b) = p) ↔
    ∀ f ∈ assertions facts, ∀ r ∈ assertions facts, IsFirst facts f → SameGroup f r → r ≠ f →
      SingleValued registry r → objectsDiffer f.fact r.fact = false →
      (∃ x ∈ assertions facts, SameGroup r x ∧ objectsDiffer r.fact x.fact = true) →
      ∃ x ∈ assertions facts, x ≠ r ∧ r.fact.subject = x.fact.subject ∧ Excludes registry r x := by
  have hfew' (subject : UInt64) : (subjectRun facts subject).length ≤ conflictMaxPerSubject := by
    rw [length_subjectRun]
    exact hfew subject
  rw [findConflicts_snd] at hroom ⊢
  have hlist {x : UInt64 × UInt64} := mem_retain (x := x)
    (fun p hp => listable_of_mem hids hzero hp) hroom
  -- a record is in a pair of the list exactly if it is in a flagged one
  have hreported {r : MemoryRecord} (hr : r ∈ assertions facts) :
      (∃ p ∈ retain s.2 (conflictPairs registry facts), p.1 = r.id ∨ p.2 = r.id) ↔
        ∃ p ∈ conflictPairs registry facts, p.1 = r ∨ p.2 = r := by
    constructor
    · rintro ⟨x, hx, hxr⟩
      rcases hlist.1 hx with hx | ⟨p, hp, rfl⟩
      · have hne := hother x hx r (mem_filter.1 hr).1
        exact absurd hxr (by simp [hne])
      · obtain ⟨ha, hb, -⟩ := contradicts_of_mem hids hp
        rcases mem_pairIds_iff.1 hxr with h | h
        · exact ⟨p, hp, .inl (eq_of_id hids ha hr h)⟩
        · exact ⟨p, hp, .inr (eq_of_id hids hb hr h)⟩
    · rintro ⟨p, hp, hpr⟩
      refine ⟨pairIds p, hlist.2 (.inr ⟨p, hp, rfl⟩), mem_pairIds_iff.2 ?_⟩
      exact hpr.imp (fun h => by rw [h]) fun h => by rw [h]
  constructor
  · rintro ⟨hall, -⟩ f hf r hr hfirst hsame hne hsv hequal ⟨x, hx, hrx, hdiff⟩
    have hself := objectsDiffer_self hequal
    have hxr : r ≠ x := by
      rintro rfl
      rw [hself] at hdiff
      cases hdiff
    have hrep := (hreported hr).1 (hall r hr ⟨x, hx, hxr, hrx.1, .inl ⟨hrx.2, hsv, hdiff⟩⟩)
    rcases (exists_mem_conflictPairs_iff hids hfew' hr).1 hrep with
      ⟨y, hy, hry, hyr, hfirst', -, hdiff'⟩ | hex
    · -- only the first record of the group makes pairs, and it says the same
      exfalso
      have hfy : SameGroup f y := ⟨hsame.1.trans hry.1, hsame.2.trans hry.2⟩
      rcases hfirst' with hrf | hyf
      · exact hne (eq_of_id hids hr hf (UInt64.le_antisymm
          (hrf f hf ⟨hsame.1.symm, hsame.2.symm⟩) (hfirst r hr hsame)))
      · obtain rfl : y = f := eq_of_id hids hy hf (UInt64.le_antisymm
          (hyf f hf ⟨hfy.1.symm, hfy.2.symm⟩) (hfirst y hy hfy))
        rw [objectsDiffer_comm, hequal] at hdiff'
        cases hdiff'
    · exact hex
  · intro hcond
    refine ⟨fun r hr hcontra => (hreported hr).2 ?_, fun x hx => ?_⟩
    · rw [exists_mem_conflictPairs_iff hids hfew' hr]
      obtain ⟨x, hx, hne, hsubj, ⟨hpred, hsv, hdiff⟩ | hex⟩ := hcontra
      · obtain ⟨f, hf, hrf, hfirst⟩ := exists_isFirst hr
        by_cases hfr : f = r
        · subst hfr
          exact .inl ⟨x, hx, ⟨hsubj, hpred⟩, hne.symm, .inl hfirst, hsv, hdiff⟩
        · cases hequal : objectsDiffer f.fact r.fact with
          | true =>
            rw [objectsDiffer_comm] at hequal
            exact .inl ⟨f, hf, hrf, hfr, .inr hfirst, hsv, hequal⟩
          | false =>
            exact .inr (hcond f hf r hr hfirst ⟨hrf.1.symm, hrf.2.symm⟩ (Ne.symm hfr) hsv hequal
              ⟨x, hx, ⟨hsubj, hpred⟩, hdiff⟩)
      · exact .inr ⟨x, hx, hne.symm, hsubj, hex⟩
    · refine (hlist.1 hx).imp_right ?_
      rintro ⟨⟨a, b⟩, hp, rfl⟩
      obtain ⟨ha, hb, hcontra⟩ := contradicts_of_mem hids hp
      exact ⟨a, ha, b, hb, hcontra, rfl⟩

end

def homeSpec (mutexWith : List CString) : PredicateSpec :=
  ⟨.ofBytes [104], true, false, false, none, true, mutexWith⟩

def homeFact (id subject object : UInt64) : MemoryRecord :=
  { recordInit with id, fact := ⟨.objId, subject, some (.ofBytes [104]), object, none⟩ }

theorem conflictPairs_of_sorted (registry : List PredicateSpec)
    (h : (assertions facts).Pairwise fun a b => subjectKey a ≤ subjectKey b) :
    conflictPairs registry facts =
      ((assertions facts).splitBy fun a b => a.fact.subject = b.fact.subject).flatMap fun run =>
        if conflictMaxPerSubject < run.length then []
        else cardinalityPairs registry run ++ mutexPairs registry run := by
  rw [conflictPairs]
  exact congrArg _ (congrArg _ (mergeSort_of_pairwise (h.imp decide_eq_true)))

/-- Two records give one value and a third one another: the second is in no pair. -/
theorem repeated_value_not_reported :
    Contradicts [homeSpec []] (homeFact 2 7 5) (homeFact 3 7 6) ∧
      ∀ cfg env ns (db : Database plainFraming), (findConflicts cfg env [homeSpec []] ns
        [homeFact 1 7 5, homeFact 2 7 5, homeFact 3 7 6] (db, [])).2 = [(1, 3)] := by
  refine ⟨⟨?_, rfl, .inl ⟨rfl, ⟨homeSpec [], rfl, rfl⟩, rfl⟩⟩, fun cfg env ns db => ?_⟩
  · intro h
    have := congrArg MemoryRecord.id h
    simp [homeFact] at this
  · rw [findConflicts_snd, conflictPairs_of_sorted _ (by decide)]
    change retain [] _ = _
    decide

def twoHomes : List MemoryRecord := [homeFact 1 7 5, homeFact 2 7 6]

/-- A new database, and no pair in the list. -/
def noPairs : Database plainFraming × List (UInt64 × UInt64) :=
  (.create .unlimited fun _ => (), [])

theorem two_values_reported :
    (∀ r ∈ assertions twoHomes, (∃ x ∈ assertions twoHomes, Contradicts [homeSpec []] r x) →
      ∃ p ∈ (findConflicts .unlimited .zero [homeSpec []] none twoHomes noPairs).2,
        p.1 = r.id ∨ p.2 = r.id) ∧
    ∀ p ∈ (findConflicts .unlimited .zero [homeSpec []] none twoHomes noPairs).2, p ∈ noPairs.2 ∨
      ∃ a ∈ assertions twoHomes, ∃ b ∈ assertions twoHomes, Contradicts [homeSpec []] a b ∧
        pairIds (a, b) = p := by
  have hids : (twoHomes.map MemoryRecord.id).Nodup := by decide
  have hdiffer : ∀ f ∈ assertions twoHomes, ∀ r ∈ assertions twoHomes, r.id ≠ f.id →
      objectsDiffer f.fact r.fact = true := by decide
  have hroom : (findConflicts .unlimited .zero [homeSpec []] none twoHomes noPairs).2.length <
      conflictSetMax := by
    rw [findConflicts_snd, conflictPairs_of_sorted _ (by decide)]
    decide
  refine (contradicted_reported_iff .unlimited .zero [homeSpec []] none twoHomes noPairs hids
    (by decide) (fun subject => ?_) (fun x hx => (not_mem_nil hx).elim) hroom).2 ?_
  · exact countP_le_length.trans (by decide)
  · intro f hf r hr _ _ hne _ hequal
    rw [hdiffer f hf r hr fun h => hne (eq_of_id hids hr hf h)] at hequal
    cases hequal

/-! ## The gauge -/

/-- What `find_conflicts` counts: the pairs that are not in the list when they are found. -/
def countPairs : List (UInt64 × UInt64) → List (MemoryRecord × MemoryRecord) → ℕ
  | _, [] => 0
  | cs, p :: pairs =>
    let (cs, known) := conflictSetAdd cs p.1.id p.2.id
    countPairs cs pairs + if known then 0 else 1

instance (p : MemoryRecord × MemoryRecord) : Decidable (Listable p) :=
  inferInstanceAs (Decidable (_ ∧ _))

/-- `conflict_set_truncated` behind the pairs: one was new when the list was full. -/
def cutShort : List (UInt64 × UInt64) → List (MemoryRecord × MemoryRecord) → Bool
  | _, [] => false
  | cs, p :: pairs =>
    decide (Listable p ∧ pairIds p ∉ cs ∧ conflictSetMax ≤ cs.length) ||
      cutShort (conflictSetAdd cs p.1.id p.2.id).1 pairs

/-- The contradictions of all namespaces, in the order of the passes. -/
def allPairs (registry : List PredicateSpec) (groups : List (List MemoryRecord)) :
    List (MemoryRecord × MemoryRecord) := groups.flatMap (conflictPairs registry)

/-- `conflicts` and the list behind `find_conflicts` over all namespaces. -/
def conflictGauge (registry : List PredicateSpec) (groups : List (List MemoryRecord)) :
    ℕ × List (UInt64 × UInt64) :=
  groups.foldl (fun (n, cs) facts =>
    (n + countPairs cs (conflictPairs registry facts), retain cs (conflictPairs registry facts)))
    (0, [])

theorem countPairs_append (cs : List (UInt64 × UInt64))
    (ps qs : List (MemoryRecord × MemoryRecord)) :
    countPairs cs (ps ++ qs) = countPairs cs ps + countPairs (retain cs ps) qs := by
  induction ps generalizing cs with
  | nil => simp [countPairs, retain]
  | cons p ps ih =>
    simp only [cons_append, countPairs, ih]
    rw [add_right_comm]
    rfl

/-- The passes over the namespaces count as one over all their pairs. -/
theorem conflictGauge_eq (registry : List PredicateSpec) (groups : List (List MemoryRecord)) :
    conflictGauge registry groups =
      (countPairs [] (allPairs registry groups), retain [] (allPairs registry groups)) := by
  have hfold (n : ℕ) (cs : List (UInt64 × UInt64)) :
      groups.foldl (fun (n, cs) facts => (n + countPairs cs (conflictPairs registry facts),
        retain cs (conflictPairs registry facts))) (n, cs) =
      (n + countPairs cs (allPairs registry groups), retain cs (allPairs registry groups)) := by
    induction groups generalizing n cs with
    | nil => rfl
    | cons g groups ih =>
      rw [foldl_cons, ih]
      simp only [allPairs, flatMap_cons, countPairs_append, retain, foldl_append, add_assoc]
  rw [conflictGauge, hfold, Nat.zero_add]

/-- Pairs that are found once each are counted once each, also behind the end of the list. -/
theorem countPairs_of_nodup (hok : ∀ p ∈ pairs, Listable p) (hnodup : (pairs.map pairIds).Nodup)
    (hnew : ∀ p ∈ pairs, pairIds p ∉ cs) :
    countPairs cs pairs = pairs.length := by
  induction pairs generalizing cs with
  | nil => rfl
  | cons p pairs ih =>
    obtain ⟨hp, hrest⟩ := nodup_cons.1 hnodup
    have hadd := conflictSetAdd_of_listable (hok p mem_cons_self) cs
    rw [if_neg (hnew p mem_cons_self)] at hadd
    have hnew' : ∀ q ∈ pairs, pairIds q ∉ (conflictSetAdd cs p.1.id p.2.id).1 := by
      intro q hq hmem
      have hq' := hnew q (mem_cons_of_mem p hq)
      rw [hadd] at hmem
      split at hmem
      · exact hq' hmem
      · rcases mem_append.1 hmem with hmem | hmem
        · exact hq' hmem
        · rw [mem_singleton] at hmem
          exact hp (hmem ▸ mem_map_of_mem hq)
    have hknown : (conflictSetAdd cs p.1.id p.2.id).2 = false := by
      rw [hadd]
      split <;> rfl
    simp only [countPairs, hknown, Bool.false_eq_true, if_false, length_cons]
    rw [ih (fun q hq => hok q (mem_cons_of_mem p hq)) hrest hnew']

theorem countPairs_of_not_cutShort (hok : ∀ p ∈ pairs, Listable p) (h : cutShort cs pairs = false) :
    cs.length + countPairs cs pairs = (retain cs pairs).length := by
  induction pairs generalizing cs with
  | nil => rfl
  | cons p pairs ih =>
    have hp := hok p mem_cons_self
    unfold cutShort at h
    rw [Bool.or_eq_false_iff, decide_eq_false_iff_not] at h
    have hrest := ih (fun q hq => hok q (mem_cons_of_mem p hq)) h.2
    have hadd := conflictSetAdd_of_listable hp cs
    change _ = (retain (conflictSetAdd cs p.1.id p.2.id).1 pairs).length
    rw [← hrest]
    simp only [countPairs]
    by_cases hmem : pairIds p ∈ cs
    · rw [if_pos hmem] at hadd
      simp [hadd]
    · rw [if_neg hmem, if_neg fun hfull => h.1 ⟨hp, hmem, hfull⟩] at hadd
      simp only [hadd, length_append, length_singleton, Bool.false_eq_true, if_false]
      omega

section

variable {registry : List PredicateSpec} {facts : List MemoryRecord}

/-- The pairs of the values of one predicate. -/
def starPairs (registry : List PredicateSpec) : List MemoryRecord → List (MemoryRecord × MemoryRecord)
  | [] => []
  | a :: rest =>
    if (specOf registry a).any fun spec => spec.singleValued then
      (rest.filter fun b => objectsDiffer a.fact b.fact).map fun b => (a, b)
    else []

theorem cardinalityPairs_eq (run : List MemoryRecord) : cardinalityPairs registry run =
    (run.splitBy fun a b => a.fact.predicate = b.fact.predicate).flatMap (starPairs registry) := by
  congr 1

variable {p : MemoryRecord × MemoryRecord}

theorem mem_fst_starPairs {values : List MemoryRecord} (h : p ∈ starPairs registry values) :
    p.1 ∈ values := by
  cases values with
  | nil => cases h
  | cons a rest =>
    simp only [starPairs] at h
    split at h
    · obtain ⟨b, -, rfl⟩ := mem_map.1 h
      exact mem_cons_self
    · cases h

theorem mem_fst_cardinalityPairs (h : p ∈ cardinalityPairs registry run) : p.1 ∈ run := by
  rw [cardinalityPairs_eq] at h
  obtain ⟨values, hvalues, hp⟩ := mem_flatMap.1 h
  rw [← flatten_splitBy (fun a b => decide (a.fact.predicate = b.fact.predicate)) run]
  exact mem_flatten_of_mem hvalues (mem_fst_starPairs hp)

theorem nodup_cardinalityPairs (h : run.Nodup) : (cardinalityPairs registry run).Nodup := by
  rw [cardinalityPairs_eq]
  refine Runs.nodup_flatMap (by rwa [flatten_splitBy]) (fun values _ hnodup => ?_)
    fun values _ p hp => mem_fst_starPairs hp
  cases values with
  | nil => exact nodup_nil
  | cons a rest =>
    simp only [starPairs]
    split
    · refine ((nodup_cons.1 hnodup).2.filter _).map fun b b' hb => ?_
      exact (mk.inj hb).2
    · exact nodup_nil

theorem nodup_mutexPairs (h : l.Nodup) : (mutexPairs registry l).Nodup := by
  induction l with
  | nil => exact nodup_nil
  | cons a l ih =>
    obtain ⟨ha, hl⟩ := nodup_cons.1 h
    refine nodup_append.2 ⟨?_, ih hl, ?_⟩
    · split
      · exact nodup_nil
      · exact (hl.filter _).map fun b b' hb => (mk.inj hb).2
    · -- a pair of the head is no pair of the rest
      rintro p hp q hq rfl
      have hfst : p.1 = a := by
        split at hp
        · cases hp
        · obtain ⟨b, -, rfl⟩ := mem_map.1 hp
          rfl
      have hsub := (mem_mutexPairs.1 hq).1
      exact ha (hfst ▸ hsub.subset mem_cons_self)

/-- A predicate of the registry takes one value and excludes itself. -/
def SelfExclusive (registry : List PredicateSpec) : Prop :=
  ∃ p spec, predicateRegistryGet registry p = some spec ∧ spec.singleValued = true ∧
    spec.name ∈ spec.mutexWith

theorem selfExclusive_of_excludes {a : MemoryRecord} {spec sa sb : PredicateSpec}
    (hpred : a.fact.predicate = b.fact.predicate) (hspec : specOf registry a = some spec)
    (hsv : spec.singleValued = true) (hsa : specOf registry a = some sa)
    (hsb : specOf registry b = some sb) (hex : mutuallyExclusive sa sb = true) :
    SelfExclusive registry := by
  unfold specOf at hspec hsa hsb
  rw [← hpred, hspec] at hsb
  rw [hspec] at hsa
  cases hsa
  cases hsb
  obtain ⟨p, -, hp⟩ := Option.bind_eq_some_iff.1 hspec
  refine ⟨p, spec, hp, hsv, ?_⟩
  simpa [mutuallyExclusive] using hex

theorem nodup_conflictPairs (hreg : ¬SelfExclusive registry)
    (hids : (facts.map MemoryRecord.id).Nodup) : (conflictPairs registry facts).Nodup := by
  have hsorted : (sortBy subjectKey (assertions facts)).Nodup :=
    (perm_sortBy subjectKey _).nodup_iff.2 (hids.of_map.filter _)
  refine Runs.nodup_flatMap (by rwa [flatten_splitBy]) (fun run hrun hnodup => ?_)
    fun run _ p hp => ?_
  · obtain ⟨c, -, rfl⟩ := mem_subjectRuns.1 hrun
    split
    · exact nodup_nil
    · refine nodup_append.2 ⟨nodup_cardinalityPairs hnodup, nodup_mutexPairs hnodup, ?_⟩
      rintro ⟨a, b⟩ hcard q hmutex rfl
      obtain ⟨-, -, -, ⟨-, hpred⟩, -, -, ⟨spec, hspec, hsv⟩, -⟩ := (mem_cardinalityPairs hids).1 hcard
      obtain ⟨-, sa, sb, hsa, hsb, hex⟩ := mem_mutexPairs.1 hmutex
      exact hreg (selfExclusive_of_excludes hpred hspec hsv hsa hsb hex)
  · split at hp
    · cases hp
    · rcases mem_append.1 hp with hp | hp
      · exact mem_fst_cardinalityPairs hp
      · exact (mem_mutexPairs.1 hp).1.subset mem_cons_self

theorem subjectKey_le_of_mem (hids : (facts.map MemoryRecord.id).Nodup) {a : MemoryRecord}
    (h : (a, b) ∈ conflictPairs registry facts) : subjectKey a ≤ subjectKey b := by
  rcases cases_of_mem hids h with ⟨-, hb, hsame, -, hfirst, -⟩ | ⟨⟨s, hsub⟩, -⟩
  · refine Lex.toLex_le_toLex.2 (.inr ⟨by rw [hsame.1], ?_⟩)
    refine Lex.toLex_le_toLex.2 (.inr ⟨by rw [hsame.2], ?_⟩)
    exact hfirst b hb hsame
  · have hpair := (pairwise_sortBy subjectKey (assertions facts)).sublist
      (hsub.trans filter_sublist)
    exact rel_of_pairwise_cons hpair mem_cons_self

theorem key_injective {a : MemoryRecord} (h : subjectKey a = subjectKey b) : a.id = b.id := by
  have := congrArg (fun k => (ofLex (ofLex k).2).2) h
  exact UInt64.toNat_inj.1 this

variable {groups : List (List MemoryRecord)}

theorem ids_of_mem_groups (hids : (groups.flatten.map MemoryRecord.id).Nodup)
    {facts : List MemoryRecord} (h : facts ∈ groups) : (facts.map MemoryRecord.id).Nodup :=
  hids.sublist ((sublist_flatten_of_mem h).map _)

theorem pairIds_injOn (hids : (groups.flatten.map MemoryRecord.id).Nodup)
    {q : MemoryRecord × MemoryRecord} (hp : p ∈ allPairs registry groups)
    (hq : q ∈ allPairs registry groups) (h : pairIds p = pairIds q) : p = q := by
  obtain ⟨a, b⟩ := p
  obtain ⟨c, d⟩ := q
  obtain ⟨g, hg, hab⟩ := mem_flatMap.1 hp
  obtain ⟨g', hg', hcd⟩ := mem_flatMap.1 hq
  have hidsg := ids_of_mem_groups hids hg
  have hidsg' := ids_of_mem_groups hids hg'
  obtain ⟨ha, hb, hne, -⟩ := contradicts_of_mem hidsg hab
  obtain ⟨hc, hd, -⟩ := contradicts_of_mem hidsg' hcd
  have heq {x y : MemoryRecord} (hx : x ∈ assertions g) (hy : y ∈ assertions g')
      (hxy : x.id = y.id) : x = y :=
    inj_on_of_nodup_map hids (mem_flatten_of_mem hg (mem_filter.1 hx).1)
      (mem_flatten_of_mem hg' (mem_filter.1 hy).1) hxy
  have hcases : a.id = c.id ∧ b.id = d.id ∨ a.id = d.id ∧ b.id = c.id := by
    unfold pairIds at h
    split at h <;> split at h <;> simp_all
  rcases hcases with ⟨hac, hbd⟩ | ⟨had, hbc⟩
  · rw [heq ha hc hac, heq hb hd hbd]
  · -- the pair the other way round is not in the order of the scan
    obtain rfl := heq ha hd had
    obtain rfl := heq hb hc hbc
    have hkey := le_antisymm (subjectKey_le_of_mem hidsg hab) (subjectKey_le_of_mem hidsg' hcd)
    exact absurd (eq_of_id hidsg ha hb (key_injective hkey)) hne

theorem nodup_allPairs (hreg : ¬SelfExclusive registry)
    (hids : (groups.flatten.map MemoryRecord.id).Nodup) :
    ((allPairs registry groups).map pairIds).Nodup := by
  refine List.Nodup.map_on (fun p hp q hq h => pairIds_injOn hids hp hq h) ?_
  refine Runs.nodup_flatMap hids.of_map (fun facts hfacts _ => ?_) fun facts hfacts p hp => ?_
  · exact nodup_conflictPairs hreg (ids_of_mem_groups hids hfacts)
  · exact (mem_filter.1 (contradicts_of_mem (ids_of_mem_groups hids hfacts) hp).1).1

theorem listable_of_mem_allPairs (hids : (groups.flatten.map MemoryRecord.id).Nodup)
    (hzero : ∀ r ∈ groups.flatten, r.id ≠ 0) (h : p ∈ allPairs registry groups) : Listable p := by
  obtain ⟨facts, hfacts, hp⟩ := mem_flatMap.1 h
  exact listable_of_mem (ids_of_mem_groups hids hfacts)
    (fun r hr => hzero r (mem_flatten_of_mem hfacts hr)) hp

end

/-! ### Predicates that exclude themselves -/

/-- One of two records with different values of one predicate, about the subject `i + 1`. -/
def valueFact (p : CString) (spec : PredicateSpec) (i v : ℕ) : MemoryRecord :=
  { recordInit with
    id := .ofNat (2 * i + v + 1)
    fact :=
      ⟨if spec.objectIsId then .objId else .objString, .ofNat (i + 1), some p,
        if spec.objectIsId then .ofNat v else 0,
        if spec.objectIsId then none else some (.ofBytes [.ofNat (v + 97)])⟩ }

/-- Two records with different values about each of `n` subjects. -/
def valueFacts (p : CString) (spec : PredicateSpec) (n : ℕ) : List MemoryRecord :=
  (List.range n).flatMap fun i => [valueFact p spec i 0, valueFact p spec i 1]

section

variable {registry : List PredicateSpec} {p : CString} {spec : PredicateSpec} {n : ℕ}

theorem toNat_id_valueFact {i v : ℕ} (h : 2 * i + v + 1 < 2 ^ 64) :
    (valueFact p spec i v).id.toNat = 2 * i + v + 1 := UInt64.toNat_ofNat_of_lt' h

theorem toNat_subject_valueFact {i v : ℕ} (h : i + 1 < 2 ^ 64) :
    (valueFact p spec i v).fact.subject.toNat = i + 1 := UInt64.toNat_ofNat_of_lt' h

theorem mem_valueFacts (h : r ∈ valueFacts p spec n) :
    ∃ i < n, ∃ v < 2, r = valueFact p spec i v := by
  obtain ⟨i, hi, hr⟩ := mem_flatMap.1 h
  rw [mem_pair] at hr
  rcases hr with rfl | rfl
  · exact ⟨i, mem_range.1 hi, 0, by omega, rfl⟩
  · exact ⟨i, mem_range.1 hi, 1, by omega, rfl⟩

theorem assertions_valueFacts : assertions (valueFacts p spec n) = valueFacts p spec n := by
  refine filter_eq_self.2 fun r hr => ?_
  obtain ⟨i, -, v, -, rfl⟩ := mem_valueFacts hr
  unfold valueFact
  cases spec.objectIsId <;> rfl

theorem pairwise_valueFacts {R : MemoryRecord → MemoryRecord → Prop}
    (h : ∀ i v j w, j < n → v < 2 → w < 2 → i < j ∨ i = j ∧ v < w →
      R (valueFact p spec i v) (valueFact p spec j w)) : (valueFacts p spec n).Pairwise R := by
  refine pairwise_flatMap.2 ⟨fun i hi => ?_, ?_⟩
  · rw [pairwise_pair]
    exact h i 0 i 1 (mem_range.1 hi) (by omega) (by omega) (.inr ⟨rfl, by omega⟩)
  · refine pairwise_lt_range.imp_of_mem fun {i j} _ hj hlt a ha b hb => ?_
    rw [mem_pair] at ha hb
    rcases ha with rfl | rfl <;> rcases hb with rfl | rfl <;>
      exact h _ _ _ _ (mem_range.1 hj) (by omega) (by omega) (.inl hlt)

theorem sorted_valueFacts (hn : 2 * n < 2 ^ 64) :
    (valueFacts p spec n).Pairwise fun a b => subjectKey a ≤ subjectKey b := by
  refine pairwise_valueFacts fun i v j w hj hv hw h => Lex.toLex_le_toLex.2 ?_
  rw [toNat_subject_valueFact (by omega), toNat_subject_valueFact (by omega)]
  rcases h with hlt | ⟨rfl, hle⟩
  · exact .inl (by omega)
  · refine .inr ⟨rfl, Lex.toLex_le_toLex.2 (.inr ⟨rfl, ?_⟩)⟩
    rw [toNat_id_valueFact (by omega), toNat_id_valueFact (by omega)]
    omega

theorem nodup_id_valueFacts (hn : 2 * n < 2 ^ 64) :
    ((valueFacts p spec n).map MemoryRecord.id).Nodup := by
  refine pairwise_map.2 (pairwise_valueFacts fun i v j w hj hv hw h heq => ?_)
  have := congrArg UInt64.toNat heq
  rw [toNat_id_valueFact (by omega), toNat_id_valueFact (by omega)] at this
  omega

theorem id_ne_zero_valueFacts (hn : 2 * n < 2 ^ 64) : ∀ r ∈ valueFacts p spec n, r.id ≠ 0 := by
  intro r hr heq
  obtain ⟨i, hi, v, hv, rfl⟩ := mem_valueFacts hr
  have := congrArg UInt64.toNat heq
  rw [toNat_id_valueFact (by omega)] at this
  exact absurd this (by simp)

theorem splitBy_valueFacts (hn : 2 * n < 2 ^ 64) :
    (valueFacts p spec n).splitBy (fun a b => a.fact.subject = b.fact.subject) =
      (range n).map fun i => [valueFact p spec i 0, valueFact p spec i 1] := by
  rw [valueFacts, flatMap_def]
  refine splitBy_flatten ?_ ?_ ?_
  · simp
  · intro run hrun
    obtain ⟨i, -, rfl⟩ := mem_map.1 hrun
    refine isChain_pair.2 ?_
    exact decide_eq_true rfl
  · refine List.Pairwise.isChain (pairwise_map.2 ?_)
    refine pairwise_lt_range.imp_of_mem fun {i j} _ hj hlt => ?_
    have := mem_range.1 hj
    refine ⟨by simp, by simp, decide_eq_false fun heq => ?_⟩
    have := congrArg UInt64.toNat heq
    simp only [getLast_cons_cons, getLast_singleton, head_cons] at this
    rw [toNat_subject_valueFact (by omega), toNat_subject_valueFact (by omega)] at this
    omega

theorem objectsDiffer_valueFact (i : ℕ) :
    objectsDiffer (valueFact p spec i 0).fact (valueFact p spec i 1).fact = true := by
  unfold objectsDiffer valueFact
  cases spec.objectIsId
  · simp; decide
  · simp

theorem pairs_valueFact (hspec : predicateRegistryGet registry p = some spec)
    (hsv : spec.singleValued = true) (hself : spec.name ∈ spec.mutexWith) (i : ℕ) :
    cardinalityPairs registry [valueFact p spec i 0, valueFact p spec i 1] ++
        mutexPairs registry [valueFact p spec i 0, valueFact p spec i 1] =
      [(valueFact p spec i 0, valueFact p spec i 1), (valueFact p spec i 0, valueFact p spec i 1)] := by
  have hof (v : ℕ) : specOf registry (valueFact p spec i v) = some spec := hspec
  have hcard : cardinalityPairs registry [valueFact p spec i 0, valueFact p spec i 1] =
      [(valueFact p spec i 0, valueFact p spec i 1)] := by
    rw [cardinalityPairs_eq, splitBy_of_isChain (by simp)
      (isChain_pair.2 (decide_eq_true rfl))]
    simp [starPairs, hof, hsv, objectsDiffer_valueFact]
  have hmutex : mutexPairs registry [valueFact p spec i 0, valueFact p spec i 1] =
      [(valueFact p spec i 0, valueFact p spec i 1)] := by
    have hof' (v : ℕ) : (valueFact p spec i v).fact.predicate.bind
        (predicateRegistryGet registry) = some spec := hspec
    simp [mutexPairs, hof', mutuallyExclusive, hself]
  rw [hcard, hmutex]
  rfl

theorem conflictPairs_valueFacts (hspec : predicateRegistryGet registry p = some spec)
    (hsv : spec.singleValued = true) (hself : spec.name ∈ spec.mutexWith) (hn : 2 * n < 2 ^ 64) :
    conflictPairs registry (valueFacts p spec n) =
      ((range n).map fun i => (valueFact p spec i 0, valueFact p spec i 1)).flatMap
        fun q => [q, q] := by
  rw [conflictPairs_of_sorted registry (by rw [assertions_valueFacts]; exact sorted_valueFacts hn),
    assertions_valueFacts, splitBy_valueFacts hn, flatMap_map, flatMap_map]
  refine flatMap_congr fun i _ => ?_
  rw [if_neg (by simp [conflictMaxPerSubject]), pairs_valueFact hspec hsv hself]

/-- A pair that is found twice is counted twice if the list is full. -/
theorem countPairs_twice {qs : List (MemoryRecord × MemoryRecord)} (hok : ∀ q ∈ qs, Listable q)
    (hnodup : (qs.map pairIds).Nodup) (hnew : ∀ q ∈ qs, pairIds q ∉ cs)
    (hlen : cs.length ≤ conflictSetMax) :
    countPairs cs (qs.flatMap fun q => [q, q]) =
      qs.length + (cs.length + qs.length - conflictSetMax) := by
  induction qs generalizing cs with
  | nil => simp [countPairs, hlen]
  | cons q qs ih =>
    obtain ⟨hq, hrest⟩ := nodup_cons.1 hnodup
    have hok' := fun x hx => hok x (mem_cons_of_mem q hx)
    have hnew' := fun x hx => hnew x (mem_cons_of_mem q hx)
    have hadd := conflictSetAdd_of_listable (hok q mem_cons_self) cs
    rw [if_neg (hnew q mem_cons_self)] at hadd
    simp only [flatMap_cons, cons_append, nil_append, countPairs, length_cons]
    by_cases hfull : conflictSetMax ≤ cs.length
    · rw [if_pos hfull] at hadd
      simp only [hadd, ih hok' hrest hnew' hlen, Bool.false_eq_true, if_false]
      omega
    · rw [if_neg hfull] at hadd
      have hagain := conflictSetAdd_of_listable (hok q mem_cons_self) (cs ++ [pairIds q])
      rw [if_pos (by simp)] at hagain
      have hnew'' : ∀ x ∈ qs, pairIds x ∉ cs ++ [pairIds q] := by
        intro x hx hmem
        rcases mem_append.1 hmem with hmem | hmem
        · exact hnew' x hx hmem
        · rw [mem_singleton] at hmem
          exact hq (hmem ▸ mem_map_of_mem hx)
      have hlen' : (cs ++ [pairIds q]).length ≤ conflictSetMax := by
        rw [length_append, length_singleton]
        omega
      simp only [hadd, hagain, ih hok' hrest hnew'' hlen', length_append,
        length_singleton, Bool.false_eq_true, if_true, if_false]
      omega

/-- The pairs of more subjects than the list can hold are counted too often. -/
theorem overcounted_valueFacts (hspec : predicateRegistryGet registry p = some spec)
    (hsv : spec.singleValued = true) (hself : spec.name ∈ spec.mutexWith) :
    (conflictGauge registry [valueFacts p spec (conflictSetMax + 1)]).1 = conflictSetMax + 2 ∧
      ((allPairs registry [valueFacts p spec (conflictSetMax + 1)]).map pairIds).toFinset.card ≤
        conflictSetMax + 1 := by
  have hn : 2 * (conflictSetMax + 1) < 2 ^ 64 := by decide
  set groups := [valueFacts p spec (conflictSetMax + 1)] with hgroups
  set qs := (range (conflictSetMax + 1)).map fun i =>
    (valueFact p spec i 0, valueFact p spec i 1) with hqs
  have hpairs : allPairs registry groups = qs.flatMap fun q => [q, q] := by
    rw [hgroups, allPairs, flatMap_singleton, conflictPairs_valueFacts hspec hsv hself hn]
  have hmem {q : MemoryRecord × MemoryRecord} (hq : q ∈ qs) : q ∈ allPairs registry groups := by
    rw [hpairs]
    exact mem_flatMap.2 ⟨q, hq, mem_cons_self⟩
  have hids : (groups.flatten.map MemoryRecord.id).Nodup := by
    simpa [hgroups] using nodup_id_valueFacts hn
  have hzero : ∀ r ∈ groups.flatten, r.id ≠ 0 := by
    simpa [hgroups] using id_ne_zero_valueFacts hn
  have hlen : qs.length = conflictSetMax + 1 := by
    rw [hqs, length_map, length_range]
  have hnodup : qs.Nodup := by
    refine List.Nodup.map_on (fun i hi j hj hij => ?_) nodup_range
    have hi := mem_range.1 hi
    have hj := mem_range.1 hj
    have heq := congrArg (fun q => q.1.id.toNat) hij
    dsimp only at heq
    rw [toNat_id_valueFact (by omega), toNat_id_valueFact (by omega)] at heq
    omega
  rw [conflictGauge_eq, hpairs]
  constructor
  · rw [countPairs_twice (fun q hq => listable_of_mem_allPairs hids hzero (hmem hq))
      (hnodup.map_on fun q hq q' hq' h => pairIds_injOn hids (hmem hq) (hmem hq') h)
      (fun q _ => not_mem_nil) (Nat.zero_le _), hlen, length_nil]
    omega
  · have hset : ((qs.flatMap fun q => [q, q]).map pairIds).toFinset = (qs.map pairIds).toFinset := by
      ext x
      simp [mem_flatMap]
    rw [hset, ← hlen, ← length_map pairIds]
    exact toFinset_card_le _

end

/-- Over facts with ids of their own: the count is the number of distinct pairs, and the length of
the list unless that is truncated, exactly if no predicate that takes one value excludes itself. -/
theorem conflict_gauge_exact_iff (registry : List PredicateSpec) :
    (∀ groups : List (List MemoryRecord), (groups.flatten.map MemoryRecord.id).Nodup →
      (∀ r ∈ groups.flatten, r.id ≠ 0) →
      (conflictGauge registry groups).1 = ((allPairs registry groups).map pairIds).toFinset.card ∧
      (cutShort [] (allPairs registry groups) = false →
        (conflictGauge registry groups).1 = (conflictGauge registry groups).2.length)) ↔
    ¬SelfExclusive registry := by
  constructor
  · rintro hall ⟨p, spec, hspec, hsv, hself⟩
    have hn : 2 * (conflictSetMax + 1) < 2 ^ 64 := by decide
    obtain ⟨hcount, hdistinct⟩ := overcounted_valueFacts hspec hsv hself
    have hexact := (hall [valueFacts p spec (conflictSetMax + 1)]
      (by simpa using nodup_id_valueFacts hn) (by simpa using id_ne_zero_valueFacts hn)).1
    omega
  · intro hreg groups hids hzero
    have hok : ∀ q ∈ allPairs registry groups, Listable q := fun q hq =>
      listable_of_mem_allPairs hids hzero hq
    have hnodup := nodup_allPairs hreg hids
    rw [conflictGauge_eq]
    refine ⟨?_, fun h => ?_⟩
    · rw [toFinset_card_of_nodup hnodup, length_map]
      exact countPairs_of_nodup hok hnodup fun q _ => not_mem_nil
    · simpa using countPairs_of_not_cutShort hok h

/-- A predicate that takes one value and excludes itself. -/
def selfSpec : PredicateSpec := homeSpec [.ofBytes [104]]

/-- One pair more than the list holds: the last one is counted by both scans. -/
theorem self_exclusive_counted_twice :
    ((valueFacts selfSpec.name selfSpec (conflictSetMax + 1)).map MemoryRecord.id).Nodup ∧
      (conflictGauge [selfSpec] [valueFacts selfSpec.name selfSpec (conflictSetMax + 1)]).1 = 1026 ∧
      ((allPairs [selfSpec] [valueFacts selfSpec.name selfSpec (conflictSetMax + 1)]).map
        pairIds).toFinset.card ≤ 1025 :=
  ⟨nodup_id_valueFacts (by decide),
    overcounted_valueFacts rfl rfl (List.mem_singleton.2 rfl)⟩

end AegisDB
