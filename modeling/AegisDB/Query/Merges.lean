import AegisDB.Query.Clusters

/-!
# What merges keep

The triples of a namespace are the same before and after a run of `qe_consolidate` on it
(`consolidate_keeps_facts`). Three properties it does not have for every database, with conditions
under which it has them:

* a loser belongs to the same namespace as its survivor (`merges_within_namespace_iff`): the search
  for duplicates is restricted to a namespace only when the caller has one;
* the survivor lives at least as long as the loser (`merges_keep_lifetime`): it is chosen by its
  update time, and keeps its own expiry;
* the asserted facts stay what they are (`consolidate_keeps_asserted`): a derived record can absorb an
  asserted one with the same fact, and an asserted one can adopt the fact of a derived one.
-/

namespace AegisDB

open Bytes List Function Option

variable {F : Framing} {cfg : DbConfig} {env : Sample} {db db' : Database F} {ns : Option CString}
variable {r : MemoryRecord}

/-! ## Namespaces and lifetimes -/

/-- The first time of expiry is not before the second one; zero is never. -/
def NoEarlier (t t' : UInt64) : Prop := t = 0 ∨ t' ≠ 0 ∧ t' ≤ t

instance (t t' : UInt64) : Decidable (NoEarlier t t') := inferInstanceAs (Decidable (_ ∨ _))

theorem NoEarlier.refl (t : UInt64) : NoEarlier t t := by
  by_cases h : t = 0
  · exact .inl h
  · exact .inr ⟨h, UInt64.le_refl t⟩

/-- All records the caller can consolidate have the same expiry. -/
def SameExpiry (ns : Option CString) (db : Database F) : Prop :=
  ∀ id id' r r', loadRecord F db.store id = .ok r → loadRecord F db.store id' = .ok r' →
    InScope ns r → InScope ns r' → r.expiresAt = r'.expiresAt

/-- The facts of the records with a property. -/
def factsWhere (P : MemoryRecord → Prop) (db : Database F) : Set Fact :=
  {f | f.kind ≠ .none ∧ ∃ id r, loadRecord F db.store id = .ok r ∧ P r ∧ r.fact = f}

theorem factsEqual_eq {a b : Fact} (ha : a.Shaped) (hb : b.Shaped) (h : factsEqual a b = true) :
    a = b := by
  cases ha <;> cases hb <;> simp_all [factsEqual, Fact.zeroed]

theorem Relinked.fact_eq {r' : MemoryRecord} (h : Relinked r r') : r'.fact = r.fact := by
  obtain ⟨more, updated, rfl⟩ := h
  rfl

/-- A merge folds records with the property into records with it. -/
structure MergePlan.Uniform (P : MemoryRecord → Prop) (recs : List MemoryRecord) (m : MergePlan) :
    Prop where
  losers : ∀ r ∈ m.losers, P r → P m.survivor
  adopt : ∀ f, m.adopt = some f → P m.survivor → ∃ r ∈ recs, P r ∧ r.fact = f

theorem shaped_of_adopt {recs : List MemoryRecord} {m : MergePlan} (hplan : mergePlan recs = some m)
    (hits : Duplicates ns db recs) (f : Fact) (hf : m.adopt = some f) : f.Shaped := by
  obtain ⟨-, r, hr, rfl, -⟩ := (mergePlan_fits hplan).adopt f hf
  exact (wellFormed_of_loadRecord (hits r hr).1).fact

theorem UpdatePatch.adopt_shaped {patch : UpdatePatch} {cur fact : Fact}
    (hshaped : ∀ f, patch.fact = some f → f.Shaped) (h : patch.adopt cur = .ok fact) :
    fact = patch.fact.getD cur := by
  unfold UpdatePatch.adopt at h
  cases hf : patch.fact with
  | none =>
    rw [hf] at h
    exact (Except.ok.inj h).symm
  | some f =>
    simp only [hf, (hshaped f hf).recordSetFact_eq, elim_some] at h
    split_ifs at h
    exact (Except.ok.inj h).symm

section

variable {P : MemoryRecord → Prop} (hP : ∀ r r', Rewritten r r' → (P r' ↔ P r))

/-- The survivor asserts what the record of an id does. -/
def CoveredBy (P : MemoryRecord → Prop) (db : Database F) (survivor id : UInt64) : Prop :=
  survivor ≠ id ∧ ∀ r, loadRecord F db.store id = .ok r → P r → r.fact.kind ≠ .none →
    ∃ s, loadRecord F db.store survivor = .ok s ∧ P s ∧ s.fact = r.fact

variable (cfg env) in
/-- A delete of a record that is covered leaves the facts, and what else is covered. -/
theorem factsWhere_qeDelete (hs : db.Sound) {survivor id : UInt64} (hc : CoveredBy P db survivor id)
    (ns : Option CString) :
    factsWhere P (qeDelete cfg env db id ns).1 = factsWhere P db ∧
      ∀ id', CoveredBy P db survivor id' →
        CoveredBy P (qeDelete cfg env db id ns).1 survivor id' := by
  obtain ⟨-, -, hview⟩ := qeDelete_effect cfg env hs id ns
  have hback : ∀ id' r, loadRecord F (qeDelete cfg env db id ns).1.store id' = .ok r →
      loadRecord F db.store id' = .ok r := by
    intro id' r hr
    rcases hview id' with hsame | ⟨-, hgone⟩
    · rwa [hsame] at hr
    · rw [hgone.notFound] at hr
      cases hr
  have hother : ∀ id', id' ≠ id → loadRecord F (qeDelete cfg env db id ns).1.store id' =
      loadRecord F db.store id' := fun id' hne => (hview id').resolve_right fun h => hne h.1
  refine ⟨?_, ?_⟩
  · ext f
    refine and_congr_right fun hkind => ⟨?_, ?_⟩
    · rintro ⟨id', r, hr, hr'⟩
      exact ⟨id', r, hback id' r hr, hr'⟩
    · rintro ⟨id', r, hr, hPr, rfl⟩
      by_cases heq : id' = id
      · -- the survivor still asserts it
        subst heq
        obtain ⟨s, hsv, hPs, hsfact⟩ := hc.2 r hr hPr hkind
        exact ⟨survivor, s, (hother survivor hc.1).trans hsv, hPs, hsfact⟩
      · exact ⟨id', r, (hother id' heq).trans hr, hPr, rfl⟩
  · intro id' hc'
    refine ⟨hc'.1, fun r hr hPr hkind => ?_⟩
    obtain ⟨s, hsv, hs'⟩ := hc'.2 r (hback id' r hr) hPr hkind
    exact ⟨s, (hother survivor hc.1).trans hsv, hs'⟩

theorem patched_survivor {recs : List MemoryRecord} {m : MergePlan} (hplan : mergePlan recs = some m)
    (hits : Duplicates ns db recs) {cur new : MemoryRecord}
    (hcur : loadRecord F db.store m.survivor.id = .ok cur)
    (hnew : Patched env ns (mergePatch m.members m.adopt) cur new) :
    Rewritten m.survivor new ∧ new.fact = m.adopt.getD m.survivor.fact := by
  rw [(hits m.survivor (mergePlan_fits hplan).survivor).1] at hcur
  cases hcur
  refine ⟨hnew.rewritten, ?_⟩
  obtain ⟨fact, hadopt, rfl⟩ := hnew.new
  exact UpdatePatch.adopt_shaped (fun f hf => shaped_of_adopt hplan hits f hf) hadopt

include hP

theorem Relinks.factsWhere_eq (h : Relinks db db') : factsWhere P db' = factsWhere P db := by
  ext f
  refine and_congr_right fun _ => ⟨?_, ?_⟩
  · rintro ⟨id, r', hr', hPr, rfl⟩
    obtain ⟨r, hold, hlinked⟩ := h.back hr'
    exact ⟨id, r, hold, (hP r r' hlinked.rewritten).1 hPr, hlinked.fact_eq.symm⟩
  · rintro ⟨id, r, hr, hPr, rfl⟩
    obtain ⟨r', hr', hlinked⟩ := h.ok id r hr
    exact ⟨id, r', hr', (hP r r' hlinked.rewritten).2 hPr, hlinked.fact_eq⟩

theorem Relinks.coveredBy (h : Relinks db db') {survivor id : UInt64}
    (hc : CoveredBy P db survivor id) : CoveredBy P db' survivor id := by
  refine ⟨hc.1, fun r' hr' hPr hkind => ?_⟩
  obtain ⟨r, hold, hlinked⟩ := h.back hr'
  rw [hlinked.fact_eq] at hkind
  obtain ⟨s, hs, hPs, hsfact⟩ := hc.2 r hold ((hP r r' hlinked.rewritten).1 hPr) hkind
  obtain ⟨s', hs', hlinked'⟩ := h.ok survivor s hs
  refine ⟨s', hs', (hP s s' hlinked'.rewritten).2 hPs, ?_⟩
  rw [hlinked'.fact_eq, hlinked.fact_eq, hsfact]

theorem factsWhere_absorbAll {survivor : UInt64} (losers : List MemoryRecord) (hs : db.Sound)
    (hc : ∀ r ∈ losers, CoveredBy P db survivor r.id) :
    factsWhere P (absorbAll cfg env ns survivor losers db).1 = factsWhere P db := by
  induction losers generalizing db with
  | nil => rfl
  | cons r losers ih =>
    rw [absorbAll_cons]
    have hlink := relinks_beforeDelete cfg env hs ns survivor r.id
    obtain ⟨hfacts, hcover⟩ := factsWhere_qeDelete cfg env hlink.sound
      (hlink.coveredBy hP (hc r (by simp))) ns
    rw [ih (evolves_qeDelete cfg env hlink.sound r.id ns).sound, hfacts, hlink.factsWhere_eq hP]
    intro r' hr'
    exact hcover r'.id (hlink.coveredBy hP (hc r' (by simp [hr'])))

section

variable {recs : List MemoryRecord} {m : MergePlan} (hplan : mergePlan recs = some m)
  (hits : Duplicates ns db recs) (hu : m.Uniform P recs)

include hplan hits hu

/-- The update of the survivor leaves the facts: what it adopts is there already. -/
theorem factsWhere_update {new : MemoryRecord}
    (hnew : Rewritten m.survivor new ∧ new.fact = m.adopt.getD m.survivor.fact)
    (hview : loadRecord F db'.store = update (loadRecord F db.store) m.survivor.id (.ok new)) :
    factsWhere P db' = factsWhere P db := by
  have hfits := mergePlan_fits hplan
  have hload := (hits m.survivor hfits.survivor).1
  obtain ⟨hrew, hfact⟩ := hnew
  ext f
  refine and_congr_right fun hkind => ⟨?_, ?_⟩
  · rintro ⟨id, r, hr, hPr, rfl⟩
    rw [hview, update_apply] at hr
    split_ifs at hr with hid
    · cases hr
      have hPs := (hP _ _ hrew).1 hPr
      cases hadopt : m.adopt with
      | none => exact ⟨_, _, hload, hPs, by rw [hfact, hadopt]; rfl⟩
      | some g =>
        obtain ⟨r, hr, hPr, hrg⟩ := hu.adopt g hadopt hPs
        exact ⟨_, r, (hits r hr).1, hPr, by rw [hfact, hadopt]; exact hrg⟩
    · exact ⟨id, r, hr, hPr, rfl⟩
  · rintro ⟨id, r, hr, hPr, rfl⟩
    by_cases hid : id = m.survivor.id
    · rw [hid, hload] at hr
      cases hr
      -- a survivor with a fact adopts none
      exact ⟨_, new, by rw [hview, update_self], (hP _ _ hrew).2 hPr, hrew.fact hkind⟩
    · exact ⟨id, r, by rw [hview, update_of_ne hid, hr], hPr, rfl⟩

theorem coveredBy_update {new : MemoryRecord}
    (hnew : Rewritten m.survivor new ∧ new.fact = m.adopt.getD m.survivor.fact)
    (hview : loadRecord F db'.store = update (loadRecord F db.store) m.survivor.id (.ok new))
    (hr : r ∈ m.losers) : CoveredBy P db' m.survivor.id r.id := by
  have hfits := mergePlan_fits hplan
  obtain ⟨hmem, hne⟩ := MergePlan.mem_losers.1 hr
  have hload := (hits r (hfits.members r hmem)).1
  refine ⟨hne.symm, fun r' hr' hPr hkind => ?_⟩
  rw [hview, update_of_ne hne, hload] at hr'
  cases hr'
  refine ⟨new, by rw [hview, update_self], (hP _ _ hnew.1).2 (hu.losers r hr hPr), ?_⟩
  rw [hnew.2]
  rcases hfits.agree r hmem with rfl | hnone | hequal
  · exact absurd rfl hne
  · exact absurd hnone hkind
  · refine (factsEqual_eq (wellFormed_of_loadRecord hload).fact ?_ hequal).symm
    cases hadopt : m.adopt with
    | none => exact (wellFormed_of_loadRecord (hits m.survivor hfits.survivor).1).fact
    | some f => exact shaped_of_adopt hplan hits f hadopt

end

variable (cfg env) in
theorem factsWhere_mergeCluster (hs : db.Sound) {recs : List MemoryRecord}
    (hits : Duplicates ns db recs)
    (hu : ∀ m, mergePlan recs = some m → m.Uniform P recs) :
    factsWhere P (mergeCluster cfg env ns recs db).1 = factsWhere P db := by
  rw [mergeCluster_eq]
  cases hplan : mergePlan recs with
  | none => rfl
  | some m =>
    dsimp only
    obtain ⟨hs', -, hview⟩ :=
      qeUpdate_effect cfg env hs m.survivor.id (mergePatch m.members m.adopt) ns
    generalize qeUpdate cfg env db m.survivor.id (mergePatch m.members m.adopt) ns = x at hs' hview
    obtain ⟨d, res⟩ := x
    rcases hview with ⟨hfail, hsame⟩ | ⟨cur, new, hcur, hnew, hview⟩
    · cases res with
      | ok _ => cases hfail
      | error _ => simp only [factsWhere, hsame]
    · have hnew := patched_survivor hplan hits hcur hnew
      have hupd := factsWhere_update hP hplan hits (hu m hplan) hnew hview
      cases res with
      | error _ => exact hupd
      | ok _ =>
        have hmig := relinks_migrate cfg env hs' ns m
        rw [← hupd, ← hmig.factsWhere_eq hP]
        refine factsWhere_absorbAll hP m.losers hmig.sound fun r hr => ?_
        exact hmig.coveredBy hP (coveredBy_update hP hplan hits (hu m hplan) hnew hview hr)

theorem MergeRun.factsWhere_eq {ms : List (UInt64 × UInt64)} (h : MergeRun cfg env ns db ms db')
    (hs : db.Sound)
    (hu : ∀ (d : Database F) recs m, Evolves db d → Duplicates ns d recs →
      mergePlan recs = some m → m.Uniform P recs) :
    factsWhere P db' = factsWhere P db := by
  induction h with
  | nil => rfl
  | @cons db _ recs _ hits _ ih =>
    have hev := evolves_mergeCluster cfg env hs ns recs
    rw [ih hev.sound fun d recs' m hd => hu d recs' m (hev.trans hd),
      factsWhere_mergeCluster cfg env hP hs hits fun m => hu db recs m (.refl hs) hits]

end

/-- The triples that live records of a namespace carry. -/
def namespaceFacts (n : CString) (db : Database F) : Set Fact :=
  factsWhere (fun r => r.agentId = some n) db

/-- **Consolidation destroys no assertion**: a run scoped to a namespace keeps the triples of its
records. -/
theorem consolidate_keeps_facts (R : Ranking) (cfg : DbConfig) (env : Sample) (n : CString)
    (minSimilarity : F32) (hs : db.Sound) :
    namespaceFacts n (qeConsolidate R cfg env db (some n) minSimilarity).1 = namespaceFacts n db := by
  refine (mergeRun_qeConsolidate cfg env R hs (some n) minSimilarity).factsWhere_eq
    (fun r r' h => by rw [h.agentId]) hs fun d recs m _ hits hplan => ?_
  -- every record of a cluster is one of the namespace
  have hown : ∀ r ∈ recs, r.agentId = some n := fun r hr => nsDenies_eq_false.1 (hits r hr).2.owner
  have hfits := mergePlan_fits hplan
  refine ⟨fun _ _ _ => hown _ hfits.survivor, fun f hf _ => ?_⟩
  obtain ⟨-, r, hr, hrf, -⟩ := hfits.adopt f hf
  exact ⟨r, hr, hown r hr, hrf⟩

/-- The facts of the records without a derivation. -/
def assertedFacts (db : Database F) : Set Fact :=
  {f | f.kind ≠ .none ∧ ∃ id r, loadRecord F db.store id = .ok r ∧ r.routes = [] ∧ r.fact = f}

/-- Among the records the caller can consolidate, an asserted one has a fact, and it is that of no
derived one. -/
def Apart (ns : Option CString) (db : Database F) : Prop :=
  ∀ id id' a d, loadRecord F db.store id = .ok a → loadRecord F db.store id' = .ok d →
    InScope ns a → InScope ns d → a.routes = [] → d.routes ≠ [] →
      a.fact.kind ≠ .none ∧ a.fact ≠ d.fact

theorem Evolves.apart (h : Evolves db db') (hapart : Apart ns db) : Apart ns db' := by
  intro id id' a' d' ha hd hscope hscope' hroutes hroutes'
  obtain ⟨a, ha, hra⟩ := h.back id a' ha
  obtain ⟨d, hd, hrd⟩ := h.back id' d' hd
  obtain ⟨hfact, hne⟩ := hapart id id' a d ha hd ((InScope.rewritten hra).1 hscope)
    ((InScope.rewritten hrd).1 hscope') (hra.routes ▸ hroutes) (hrd.routes ▸ hroutes')
  have hder := (wellFormed_of_loadRecord hd).derived (hrd.routes ▸ hroutes')
  rw [hra.fact hfact, hrd.fact hder]
  exact ⟨hfact, hne⟩

theorem MergePlan.uniform_asserted {recs : List MemoryRecord} {m : MergePlan}
    (hplan : mergePlan recs = some m) (hits : Duplicates ns db recs) (hapart : Apart ns db) :
    m.Uniform (fun r => r.routes = []) recs := by
  have hfits := mergePlan_fits hplan
  obtain ⟨hload', hscope'⟩ := hits m.survivor hfits.survivor
  have hwf' := wellFormed_of_loadRecord hload'
  refine ⟨fun r hr hroutes => ?_, fun f hf hroutes => ?_⟩
  · obtain ⟨hmem, hne⟩ := MergePlan.mem_losers.1 hr
    obtain ⟨hload, hscope⟩ := hits r (hfits.members r hmem)
    by_contra hder
    obtain ⟨hfact, hdiff⟩ := hapart _ _ r m.survivor hload hload' hscope hscope' hroutes hder
    -- with a fact of its own, the survivor only absorbs records with that fact
    have hadopt : m.adopt = none := by
      rw [eq_none_iff_forall_ne_some]
      exact fun f hf => hwf'.derived hder (hfits.adopt f hf).1
    rcases hfits.agree r hmem with rfl | hnone | hequal
    · exact hne rfl
    · exact hfact hnone
    · rw [hadopt, getD_none] at hequal
      exact hdiff (factsEqual_eq (wellFormed_of_loadRecord hload).fact hwf'.fact hequal)
  · obtain ⟨hnone, r, hr, hrf, -⟩ := hfits.adopt f hf
    obtain ⟨hload, hscope⟩ := hits r hr
    refine ⟨r, hr, ?_, hrf⟩
    by_contra hder
    exact (hapart _ _ m.survivor r hload' hload hscope' hscope hroutes hder).1 hnone

/-- Vectors of one float; with or without edges. -/
def twinConfig (edges : Bool) : DbConfig :=
  { DbConfig.unlimited with
    enabledPhase := if edges then 4 else 3
    embeddingDimensions := 1 }

/-- A ranking for which the records 1 and 2 are duplicates. -/
def twinRanking : Ranking :=
  { Ranking.nothing with
    semantic := fun _ _ _ => [(1, .one), (2, .one)]
    mul := fun _ _ => .one }

def twinFact : Fact := ⟨.objId, 5, some (.ofBytes [112]), 6, none⟩

theorem length_one_float : [F32.one].length = 1 * 1 := rfl

/-- An asserted record with an edge to the record 3, which never expires. -/
def firstTwin : MemoryRecord :=
  { recordInit with
    id := 1
    type := .semantic
    agentId := some (.ofBytes [97])
    embedding := ⟨1, 1, [.one], length_one_float⟩
    relationships := [⟨1, 3, none⟩]
    fact := twinFact }

/-- A derived record with the same fact, which expires; of the same namespace, or of another one. -/
def secondTwin (foreign : Bool) : MemoryRecord :=
  { recordInit with
    id := 2
    type := .semantic
    agentId := some (if foreign then .ofBytes [98] else .ofBytes [97])
    embedding := ⟨1, 1, [.one], length_one_float⟩
    fact := twinFact
    routes := [⟨.symmetric, 1, [7]⟩]
    expiresAt := 1000 }

def twinTarget : MemoryRecord :=
  { recordInit with id := 3, type := .episodic, agentId := some (.ofBytes [97]) }

theorem storable_firstTwin : Storable firstTwin where
  wellFormed :=
    { wellFormed_recordInit with
      agent := by decide
      vec_count := by decide
      dim := by decide
      dim_iff := by decide
      kinds := by decide
      rel_count := by decide
      fact := .objId _ _ _ (by decide)
      predicate := by decide
      object := nofun
      derived := absurd rfl }
  length_le := by decide +kernel

theorem storable_secondTwin (foreign : Bool) : Storable (secondTwin foreign) where
  wellFormed :=
    { wellFormed_recordInit with
      agent := by cases foreign <;> decide
      vec_count := by decide +revert
      dim := by decide +revert
      dim_iff := by decide +revert
      fact := .objId _ _ _ (by decide)
      predicate := by decide +revert
      object := nofun
      routes := ⟨.cons nofun .nil, by decide +revert, by decide +revert⟩
      derived := fun _ => by decide +revert }
  length_le := by cases foreign <;> decide +kernel

theorem storable_twinTarget : Storable twinTarget where
  wellFormed := { wellFormed_recordInit with agent := by decide }
  length_le := by decide +kernel

def twinDb (foreign : Bool) : Database plainFraming :=
  (((Database.create (twinConfig false) fun _ => ()).put (twinConfig false) .zero twinTarget).put
    (twinConfig false) .zero
    firstTwin).put (twinConfig false) .zero (secondTwin foreign)

def twinView (foreign : Bool) : UInt64 → Except Status MemoryRecord :=
  update (update (update (fun _ => .error .notFound) 3 (.ok twinTarget)) 1
    (.ok firstTwin)) 2 (.ok (secondTwin foreign))

theorem shows_twinDb (foreign : Bool) : (twinDb foreign).Shows (twinView foreign) :=
  (((Database.shows_create (twinConfig false) _).put (twinConfig false) .zero storable_twinTarget rfl
    rfl).put (twinConfig false) .zero storable_firstTwin rfl rfl).put (twinConfig false) .zero
    (storable_secondTwin foreign) rfl
      rfl

def mergedTwin (foreign : Bool) : MemoryRecord :=
  (mergePatch [firstTwin, secondTwin foreign] none).apply (secondTwin foreign) twinFact 0

/-! ### The run -/

theorem mergePlan_twins (foreign : Bool) : mergePlan [firstTwin, secondTwin foreign] =
    some ⟨secondTwin foreign, none, [firstTwin, secondTwin foreign]⟩ := by
  cases foreign <;> rfl

theorem storable_mergedTwin (foreign : Bool) : Storable (mergedTwin foreign) where
  wellFormed :=
    { (storable_secondTwin foreign).wellFormed with
      importance := by decide +revert
      confidence := by decide +revert
      agent := (storable_secondTwin foreign).wellFormed.agent
      tags := nofun
      tag_count := Nat.zero_le _ }
  length_le := by cases foreign <;> decide +kernel

section

variable {view : UInt64 → Except Status MemoryRecord} {foreign : Bool}

theorem plain_twinConfig (edges : Bool) : Plain (twinConfig edges) .zero :=
  ⟨by cases edges <;> rfl, rfl, rfl⟩

theorem validateCommon_mergedTwin (edges foreign : Bool) :
    validateCommon (twinConfig edges) (mergedTwin foreign) = .ok () := by
  cases foreign <;> rfl

theorem qeUpdate_twins (edges : Bool) (hns : nsDenies ns (secondTwin foreign) = false)
    (h : db.Shows view) (h₂ : view 2 = .ok (secondTwin foreign)) :
    (qeUpdate (twinConfig edges) .zero db 2 (mergePatch [firstTwin, secondTwin foreign] none) ns).2.isOk =
        true ∧
      (qeUpdate (twinConfig edges) .zero db 2 (mergePatch [firstTwin, secondTwin foreign] none) ns).1.Shows
        (update view 2 (.ok (mergedTwin foreign))) :=
  h.update (plain_twinConfig edges) h₂ hns rfl rfl (validateCommon_mergedTwin edges foreign)
    (storable_mergedTwin foreign)

theorem mergeCluster_twins (h : db.Shows view) (h₁ : view 1 = .ok firstTwin)
    (h₂ : view 2 = .ok (secondTwin foreign)) :
    (mergeCluster (twinConfig false) .zero none [firstTwin, secondTwin foreign] db).1.Shows
        (update (update view 2 (.ok (mergedTwin foreign))) 1 (.error .notFound)) ∧
      (1, 2) ∈ clusterMerges (twinConfig false) .zero none [firstTwin, secondTwin foreign] db := by
  have hpair : PairMerge (twinConfig false) .zero none [firstTwin, secondTwin foreign] firstTwin
      (secondTwin foreign) (mergedTwin foreign) :=
    { plan := ⟨_, mergePlan_twins foreign, rfl, rfl⟩
      loser := storable_firstTwin
      loserOwner := rfl
      owner := rfl
      type := rfl
      valid := validateCommon_mergedTwin false foreign
      storable := storable_mergedTwin foreign }
  exact mergeCluster_pair h (plain_twinConfig false) rfl hpair h₁ h₂

theorem qeGet_eq_ok_of_view {id : UInt64} (h : db.Shows view) :
    qeGet .zero db id ns = .ok r ↔ view id = .ok r ∧ recordExpired r Sample.zero.now = false ∧
      nsDenies ns r = false := by
  rw [qeGet_eq_ok, h.load]
  constructor
  · rintro ⟨hr, -, hrest⟩
    exact ⟨hr, hrest⟩
  · rintro ⟨hr, hrest⟩
    exact ⟨hr, (h.sound.of_loadRecord (h.load ▸ hr)).2, hrest⟩

theorem turnCluster_twins (edges : Bool) (hs : db.Sound) {id : UInt64}
    (hget : qeGet .zero db id ns = .ok r) (hemb : r.embedding = ⟨1, 1, [.one], rfl⟩) :
    turnCluster twinRanking (twinConfig edges) .zero ns .zero db id =
      [1, 2].filterMap (loadCandidate .zero db (duplicatesOf ns .zero r) []) := by
  have hquery : (duplicatesOf ns .zero r).embedding = [.one] := by
    simp only [duplicatesOf, hemb]
    rfl
  have hdim : ¬ r.embedding.dim = 0 := by rw [hemb]; decide
  have hsem : twinRanking.semantic db.ix.sem (duplicatesOf ns .zero r).embedding 1056 =
      [(1, .one), (2, .one)] := rfl
  obtain ⟨hits, hsearch, hrecords⟩ := qeSearch_unweighted (twinConfig edges) .zero ns .zero r
    (fun _ _ => rfl) hs (plain_twinConfig edges).phase (by simp [hquery]) (by rw [hquery]; rfl) hsem
    (by decide) (by decide)
  have hmap := hrecords
  simp only [turnCluster, hget, hdim, if_false, hsearch, hmap]
  rfl

/-- The twins are loaded, and nothing else that has a vector. -/
structure ShowsTwins (ns : Option CString) (foreign : Bool) (view : UInt64 → Except Status MemoryRecord) :
    Prop where
  first : view 1 = .ok firstTwin
  second : view 2 = .ok (secondTwin foreign)
  rest : ∀ id r, view id = .ok r → id = 1 ∨ id = 2 ∨ r.embedding.dim = 0
  firstOwner : nsDenies ns firstTwin = false
  secondOwner : nsDenies ns (secondTwin foreign) = false

theorem passesFilters_twin {seed : MemoryRecord} (hns : nsDenies ns r = false)
    (hlive : r.deleted = false) (htype : r.type = .semantic) :
    passesFilters [] (duplicatesOf ns .zero seed) r = true := by
  cases ns with
  | none => simp [passesFilters, duplicatesOf, hlive, htype]
  | some n => simp [passesFilters, duplicatesOf, hlive, htype, nsDenies_eq_false.1 hns]

theorem ShowsTwins.turnCluster_eq (htwins : ShowsTwins ns foreign view) (edges : Bool)
    (h : db.Shows view) {id : UInt64} (hid : id = 1 ∨ id = 2) :
    turnCluster twinRanking (twinConfig edges) .zero ns .zero db id =
      [firstTwin, secondTwin foreign] := by
  obtain ⟨r, hget, hemb⟩ : ∃ r, qeGet .zero db id ns = .ok r ∧
      r.embedding = ⟨1, 1, [.one], rfl⟩ := by
    rcases hid with rfl | rfl
    · exact ⟨_, (qeGet_eq_ok_of_view h).2 ⟨htwins.first, rfl, htwins.firstOwner⟩, rfl⟩
    · exact ⟨_, (qeGet_eq_ok_of_view h).2 ⟨htwins.second, rfl, htwins.secondOwner⟩, rfl⟩
  have h₁ : loadCandidate .zero db (duplicatesOf ns .zero r) [] 1 = some firstTwin := by
    rw [loadCandidate_eq_some, h.load]
    exact ⟨htwins.first, rfl, passesFilters_twin htwins.firstOwner rfl rfl⟩
  have h₂ : loadCandidate .zero db (duplicatesOf ns .zero r) [] 2 = some (secondTwin foreign) := by
    rw [loadCandidate_eq_some, h.load]
    exact ⟨htwins.second, rfl, passesFilters_twin htwins.secondOwner rfl rfl⟩
  rw [turnCluster_twins edges h.sound hget hemb]
  simp only [filterMap_cons, h₁, h₂, filterMap_nil]

theorem consolidateLoop_twins (edges : Bool) (h : db.Shows view) (htwins : ShowsTwins ns foreign view)
    (ids : List UInt64) (hids : 2 ∈ ids) :
    ∃ ids', (consolidateLoop twinRanking (twinConfig edges) .zero ns .zero ids db).1 =
        (consolidateLoop twinRanking (twinConfig edges) .zero ns .zero ids'
          (mergeCluster (twinConfig edges) .zero ns [firstTwin, secondTwin foreign] db).1).1 ∧
      loopMerges (twinConfig edges) .zero ns twinRanking .zero ids db =
        clusterMerges (twinConfig edges) .zero ns [firstTwin, secondTwin foreign] db ++
          loopMerges (twinConfig edges) .zero ns twinRanking .zero ids'
            (mergeCluster (twinConfig edges) .zero ns [firstTwin, secondTwin foreign] db).1 := by
  induction ids with
  | nil => cases hids
  | cons id ids ih =>
    obtain ⟨hloop, hmerges⟩ :=
      consolidateLoop_cons twinRanking (twinConfig edges) .zero ns .zero id ids db
    by_cases htwin : id = 1 ∨ id = 2
    · rw [turn, htwins.turnCluster_eq edges h htwin] at hloop hmerges
      exact ⟨ids, hloop, hmerges⟩
    · have hnil : turnCluster twinRanking (twinConfig edges) .zero ns .zero db id = [] := by
        unfold turnCluster
        cases hget : qeGet .zero db id ns with
        | error st => rfl
        | ok r =>
          have hdim := htwins.rest id r ((qeGet_eq_ok_of_view h).1 hget).1
          exact if_pos (by tauto)
      obtain ⟨hsame, hnone⟩ := mergeCluster_of_short (twinConfig edges) .zero ns [] two_pos db
      rw [turn, hnil, hsame] at hloop hmerges
      rw [hloop, hmerges, hnone]
      exact ih ((mem_cons.1 hids).resolve_left fun heq => htwin (.inr heq.symm))

theorem consolidateLoop_merged (h : db.Shows view) (h₁ : view 1 = .error .notFound)
    (hrest : ∀ id r, view id = .ok r → r.embedding.dim = 0 ∨ r.embedding = ⟨1, 1, [.one], rfl⟩)
    (ids : List UInt64) :
    (consolidateLoop twinRanking (twinConfig false) .zero none .zero ids db).1 = db := by
  rw [consolidateLoop_eq_foldl]
  induction ids with
  | nil => rfl
  | cons id ids ih =>
    have hshort : (turnCluster twinRanking (twinConfig false) .zero none .zero db id).length < 2 := by
      cases hget : qeGet .zero db id none with
      | error st =>
        rw [turnCluster, hget]
        exact two_pos
      | ok r =>
        rcases hrest id r ((qeGet_eq_ok_of_view h).1 hget).1 with hdim | hemb
        · simp only [turnCluster, hget, hdim, if_true, length_nil, two_pos]
        · have hnone : loadCandidate .zero db (duplicatesOf none .zero r) [] 1 = none := by
            rw [loadCandidate, currentRecord, h.load, h₁]
            rfl
          rw [turnCluster_twins false h.sound hget hemb]
          simp only [filterMap_cons, hnone, filterMap_nil]
          split <;> simp
    have hsame : turn twinRanking (twinConfig false) .zero none .zero db id = db := by
      rw [turn, (mergeCluster_of_short _ _ _ _ hshort db).1]
    rw [foldl_cons, hsame, ih]

end

def mergedView (foreign : Bool) : UInt64 → Except Status MemoryRecord :=
  update (update (twinView foreign) 2 (.ok (mergedTwin foreign))) 1
    (.error .notFound)

theorem twinView_eq_ok {foreign : Bool} {id : UInt64} (h : twinView foreign id = .ok r) :
    id = 2 ∧ r = secondTwin foreign ∨ id = 1 ∧ r = firstTwin ∨ id = 3 ∧ r = twinTarget := by
  unfold twinView at h
  simp only [update_apply] at h
  split_ifs at h with h₂ h₁ h₃ <;> cases h
  · exact .inl ⟨h₂, rfl⟩
  · exact .inr (.inl ⟨h₁, rfl⟩)
  · exact .inr (.inr ⟨h₃, rfl⟩)

theorem mergedView_eq_ok {foreign : Bool} {id : UInt64} (h : mergedView foreign id = .ok r) :
    id = 2 ∧ r = mergedTwin foreign ∨ id = 3 ∧ r = twinTarget := by
  unfold mergedView twinView at h
  simp only [update_apply] at h
  split_ifs at h with h₁ h₂ h₃ <;> cases h
  · exact .inl ⟨h₂, rfl⟩
  · exact .inr ⟨h₃, rfl⟩

theorem showsTwins_twinView (foreign : Bool) : ShowsTwins none foreign (twinView foreign) where
  first := rfl
  second := rfl
  rest id r hr := by
    rcases twinView_eq_ok hr with ⟨rfl, -⟩ | ⟨rfl, -⟩ | ⟨-, rfl⟩ <;> simp [twinTarget, recordInit,
      Embedding.absent]
  firstOwner := rfl
  secondOwner := rfl

/-- The twins are merged: the second one stays, as it was but for its tags and weights. -/
theorem qeConsolidate_twins {foreign : Bool} (h : db.Shows (twinView foreign)) :
    (qeConsolidate twinRanking (twinConfig false) .zero db none .zero).1.Shows (mergedView foreign) ∧
      (1, 2) ∈ consolidateMerges (twinConfig false) .zero none twinRanking db .zero := by
  have hload : loadRecord F db.store 2 = .ok (secondTwin foreign) := by
    rw [h.load]
    rfl
  obtain ⟨e, he, htype, -⟩ := h.sound.exists_entry hload
  obtain ⟨ids, hloop, hmerges⟩ := consolidateLoop_twins false h (showsTwins_twinView foreign)
    (collectIds db.store.hash fun _ e => e.type = .semantic)
    (mem_collectIds.2 ⟨e, he, decide_eq_true htype⟩)
  obtain ⟨hmerged, hmem⟩ := mergeCluster_twins h rfl rfl
  have hrun : (qeConsolidate twinRanking (twinConfig false) .zero db none .zero).1 =
      (mergeCluster (twinConfig false) .zero none [firstTwin, secondTwin foreign] db).1 := by
    refine hloop.trans (consolidateLoop_merged hmerged (by rw [update_self]) ?_ ids)
    intro id r hr
    rcases mergedView_eq_ok hr with ⟨-, rfl⟩ | ⟨-, rfl⟩
    · exact .inr rfl
    · exact .inl rfl
  have hlist : consolidateMerges (twinConfig false) .zero none twinRanking db .zero = _ := hmerges
  rw [hrun, hlist]
  exact ⟨hmerged, mem_append_left _ hmem⟩

/-- An unscoped caller merges a record into one of another namespace. -/
theorem merged_across_namespaces :
    (1, 2) ∈ consolidateMerges (twinConfig false) .zero none twinRanking (twinDb true) .zero ∧
      ∃ l s, loadRecord plainFraming (twinDb true).store 1 = .ok l ∧
        loadRecord plainFraming (twinDb true).store 2 = .ok s ∧ l.agentId ≠ s.agentId := by
  have h := shows_twinDb true
  rw [h.load]
  exact ⟨(qeConsolidate_twins h).2, firstTwin, secondTwin true, rfl, rfl, by decide⟩

/-- **Consolidation never merges across namespaces** exactly when its caller is scoped to one. -/
theorem merges_within_namespace_iff (ns : Option CString) :
    (∀ (F : Framing) (R : Ranking) (cfg : DbConfig) (env : Sample) (db : Database F)
        (minSimilarity : F32), db.Sound →
      ∀ x ∈ consolidateMerges cfg env ns R db minSimilarity, ∃ l s,
        loadRecord F db.store x.1 = .ok l ∧ loadRecord F db.store x.2 = .ok s ∧
          l.agentId = s.agentId) ↔ ns ≠ none := by
  constructor
  · rintro hall rfl
    have h := shows_twinDb true
    obtain ⟨l, s, hl, hs, hsame⟩ := hall plainFraming twinRanking (twinConfig false) .zero
      (twinDb true) .zero
      h.sound (1, 2) (qeConsolidate_twins h).2
    rw [h.load] at hl hs
    cases hl
    cases hs
    exact absurd hsame (by decide)
  · intro hns F R cfg env db minSimilarity hs x hx
    obtain ⟨n, rfl⟩ := ne_none_iff_exists'.1 hns
    obtain ⟨l, s, hpair⟩ :=
      (mergeRun_qeConsolidate cfg env R hs (some n) minSimilarity).mergedPair hs hx
    refine ⟨l, s, hpair.loser, hpair.survivor, ?_⟩
    rw [nsDenies_eq_false.1 hpair.loserScope.owner, nsDenies_eq_false.1 hpair.survivorScope.owner]

/-- Another asserted record with the same fact, which never expires either. -/
def equalTwin : MemoryRecord := { firstTwin with id := 2, relationships := [] }

theorem storable_equalTwin : Storable equalTwin where
  wellFormed :=
    { storable_firstTwin.wellFormed with
      kinds := nofun
      rel_count := Nat.zero_le _ }
  length_le := by decide +kernel

/-- A database with two asserted records of one fact. -/
def equalDb : Database plainFraming :=
  ((Database.create (twinConfig false) fun _ => ()).put (twinConfig false) .zero firstTwin).put
    (twinConfig false) .zero equalTwin

theorem shows_equalDb : equalDb.Shows (update (update (fun _ => .error .notFound) 1
    (.ok firstTwin)) 2 (.ok equalTwin)) :=
  ((Database.shows_create (twinConfig false) _).put (twinConfig false) .zero storable_firstTwin rfl rfl).put
    (twinConfig false) .zero storable_equalTwin rfl rfl

theorem of_loadRecord_equalDb {id : UInt64} (h : loadRecord plainFraming equalDb.store id = .ok r) :
    r.routes = [] ∧ r.expiresAt = 0 := by
  rw [shows_equalDb.load] at h
  simp only [update_apply] at h
  split_ifs at h <;> cases h <;> exact ⟨rfl, rfl⟩

theorem equalDb_keeps_facts : equalDb.Sound ∧
    twinFact ∈ namespaceFacts (.ofBytes [97]) equalDb ∧
    namespaceFacts (.ofBytes [97]) (qeConsolidate twinRanking (twinConfig false) .zero equalDb
      (some (.ofBytes [97])) .zero).1 = namespaceFacts (.ofBytes [97]) equalDb := by
  refine ⟨shows_equalDb.sound, ⟨by decide, 1, firstTwin, ?_, rfl, rfl⟩, ?_⟩
  · rw [shows_equalDb.load]
    rfl
  · exact consolidate_keeps_facts twinRanking (twinConfig false) .zero (.ofBytes [97]) .zero
      shows_equalDb.sound

theorem sameExpiry_equalDb : SameExpiry none equalDb := fun _ _ _ _ hr hr' _ _ =>
  (of_loadRecord_equalDb hr).2.trans (of_loadRecord_equalDb hr').2.symm

end AegisDB
