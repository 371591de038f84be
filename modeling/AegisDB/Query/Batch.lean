import AegisDB.Query.Effects
import AegisDB.Query.Handlers

/-!
# Batch inserts

`handle_insert_batch` builds a record from every element of a batch before it inserts the first one,
and then inserts them one by one; an insert that fails is left out of the answer. So what the builder
refuses refuses the batch, and what only `qe_insert` refuses (`PassesChecks`) does not.
-/

namespace AegisDB

variable {F : Framing}
variable {st : Status} {ttl : UInt64} {specs : List Json}

section

variable (cfg : DbConfig) (env : Sample) (ns : Option CString) (db : Database F)

/-- `handle_insert` of one record. -/
def insertOne (spec : Json) : Database F × Except Status MemoryRecord :=
  match buildPinned cfg spec ns with
  | .error st => (db, .error st)
  | .ok r => qeInsert cfg env db r (jrStr spec "session_id") (insertTtl spec)

/-- A request without an array of records is the insert of one record. -/
theorem handleInsert_eq_insertOne {req : Json}
    (hreq : ∀ specs, req.item "records" ≠ some (.array specs)) :
    handleInsert cfg env ns req db =
      ((insertOne cfg env ns db req).1, .ofResult .record (insertOne cfg env ns db req).2) := by
  unfold handleInsert insertOne
  split
  · rename_i specs hspecs
    exact absurd hspecs (hreq specs)
  · cases buildPinned cfg req ns <;> rfl

def Status.badInput : Status → Bool
  | .invalidRequest | .payloadTooLarge => true
  | _ => false

/-- A single insert of the element is refused as bad input. -/
def RefusesElement (spec : Json) : Prop :=
  ∃ st, (insertOne cfg env ns db spec).2 = .error st ∧ st.badInput = true

/-- What `qe_insert` checks of a record. -/
structure PassesChecks (r : MemoryRecord) (session : Option CString) : Prop where
  common : validateCommon cfg r = .ok ()
  data : r.data ≠ []
  fact : r.fact.kind ≠ .none → ∀ registry ∈ cfg.predicates, predicateRegistryCheck registry r.fact = true
  session : r.type = .working → cfg.phase 4 = true → session ≠ none

end

section

variable {cfg : DbConfig} {env : Sample} {ns : Option CString} {db : Database F}

variable {r : MemoryRecord}

theorem badInput_of_validateCommon (h : validateCommon cfg r = .error st) : st.badInput = true := by
  unfold validateCommon at h
  split_ifs at h <;> cases h <;> rfl

theorem not_badInput_of_appendAndHash (h : db.appendAndHash cfg env r = .error st) :
    st.badInput = false := by
  unfold Database.appendAndHash at h
  split at h
  · cases h
    rfl
  · dsimp only at h
    split at h
    · cases h
      rfl
    · split at h
      · cases h
        rfl
      · cases h

theorem not_badInput_of_insertPersisted (h : (insertPersisted cfg env db r ttl).2 = .error st) :
    st.badInput = false := by
  unfold insertPersisted at h
  split at h
  · cases h
    rfl
  · dsimp only at h
    split at h
    · rename_i happ
      cases h
      exact not_badInput_of_appendAndHash happ
    · split at h
      · cases h
      · cases h
        rfl

theorem insertWorking_badInput_iff {session : Option CString} :
    (∃ st, (insertWorking env db r session ttl).2 = .error st ∧ st.badInput = true) ↔
      session = none := by
  unfold insertWorking
  constructor
  · rintro ⟨st, h, hbad⟩
    split at h
    · rfl
    · split at h
      · cases h
        cases hbad
      · dsimp only at h
        cases hgot : (workingStoreGet _ _ _ env.now).2 with
        | none =>
          rw [hgot] at h
          cases h
          cases hbad
        | some got =>
          rw [hgot] at h
          cases h
  · rintro rfl
    exact ⟨_, rfl, rfl⟩

/-- The bad input of the query engine is what does not pass its checks. -/
theorem qeInsert_badInput_iff {session : Option CString} :
    (∃ st, (qeInsert cfg env db r session ttl).2 = .error st ∧ st.badInput = true) ↔
      ¬ PassesChecks cfg r session := by
  unfold qeInsert
  cases hcommon : validateCommon cfg r with
  | error st =>
    refine iff_of_true ⟨st, rfl, badInput_of_validateCommon hcommon⟩ fun h => ?_
    rw [h.common] at hcommon
    cases hcommon
  | ok =>
    dsimp only
    by_cases hdata : r.data = []
    · rw [if_pos hdata]
      exact iff_of_true ⟨_, rfl, rfl⟩ fun h => h.data hdata
    rw [if_neg hdata]
    by_cases hfact : r.fact.kind ≠ .none ∧
        cfg.predicates.any fun registry => !predicateRegistryCheck registry r.fact
    · rw [if_pos hfact]
      refine iff_of_true ⟨_, rfl, rfl⟩ fun h => ?_
      obtain ⟨registry, hmem, hcheck⟩ := (Option.any_eq_true _ _).1 hfact.2
      rw [h.fact hfact.1 registry hmem] at hcheck
      cases hcheck
    · rw [if_neg hfact]
      have hpasses : PassesChecks cfg r session ↔
          (r.type = .working → cfg.phase 4 = true → session ≠ none) := by
        refine ⟨fun h => h.session, fun h => ⟨hcommon, hdata, fun hkind registry hmem => ?_, h⟩⟩
        by_contra hcheck
        rw [Bool.not_eq_true] at hcheck
        exact hfact ⟨hkind, (Option.any_eq_true _ _).2 ⟨registry, hmem, by rw [hcheck]; rfl⟩⟩
      rw [hpasses]
      -- what is refused behind the checks is refused for another reason
      have hpersisted (needed : ℕ) : ¬ ∃ st, (if !cfg.phase needed then (db, .error .notReady)
          else if env.memoryFull then (db, .error .memoryLimit)
          else insertPersisted cfg env db r ttl).2 = .error st ∧ st.badInput = true := by
        rintro ⟨st, h, hbad⟩
        split_ifs at h
        · cases h
          cases hbad
        · cases h
          cases hbad
        · rw [not_badInput_of_insertPersisted h] at hbad
          cases hbad
      cases r.type with
      | working =>
        dsimp only
        split_ifs with hphase
        · rw [insertWorking_badInput_iff]
          simp [hphase]
        · simp [hphase, Status.badInput]
      | episodic =>
        refine iff_of_false (hpersisted 1) ?_
        simp
      | semantic =>
        refine iff_of_false (hpersisted 2) ?_
        simp

theorem refusesElement_iff {spec : Json} (hr : buildPinned cfg spec ns = .ok r) :
    RefusesElement cfg env ns db spec ↔ ¬ PassesChecks cfg r (jrStr spec "session_id") := by
  unfold RefusesElement insertOne
  rw [hr]
  exact qeInsert_badInput_iff

/-! ## Building a batch -/

theorem mapM_isOk_iff {α β ε : Type} (f : α → Except ε β) (xs : List α) :
    (∃ ys, xs.mapM f = .ok ys) ↔ ∀ x ∈ xs, ∃ y, f x = .ok y := by
  induction xs with
  | nil => simp [pure, Except.pure]
  | cons x xs ih =>
    rw [List.forall_mem_cons, ← ih, List.mapM_cons]
    cases f x with
    | error e => simp [bind, Except.bind]
    | ok y => cases xs.mapM f <;> simp [bind, Except.bind, pure, Except.pure]

/-- The elements of a batch, each with the record that is built of it. -/
def buildBatch (cfg : DbConfig) (ns : Option CString) (specs : List Json) :
    Except Status (List (Json × MemoryRecord)) :=
  specs.mapM fun spec => (buildPinned cfg spec ns).map fun r => (spec, r)

theorem buildBatch_isOk_iff :
    (∃ inputs, buildBatch cfg ns specs = .ok inputs) ↔
      ∀ spec ∈ specs, ∃ r, buildPinned cfg spec ns = .ok r := by
  unfold buildBatch
  rw [mapM_isOk_iff]
  refine forall₂_congr fun spec _ => ?_
  cases buildPinned cfg spec ns with
  | error st | ok r => simp [Except.map]

/-- A batch that can be built is inserted, and answered without an error. -/
theorem handleInsertBatch_of_ok {inputs : List (Json × MemoryRecord)} (hne : specs ≠ [])
    (hlen : specs.length ≤ maxBatch) (h : buildBatch cfg ns specs = .ok inputs) :
    handleInsertBatch cfg env ns specs db =
      ((insertAll cfg env inputs db).1, .batch (insertAll cfg env inputs db).2) := by
  unfold buildBatch at h
  unfold handleInsertBatch
  rw [if_neg (by simp [hne, hlen]), h]

theorem handleInsertBatch_of_error (h : buildBatch cfg ns specs = .error st) :
    (∃ e, (handleInsertBatch cfg env ns specs db).2 = .error e) ∧
      (handleInsertBatch cfg env ns specs db).1 = db := by
  unfold buildBatch at h
  unfold handleInsertBatch
  rw [h]
  split_ifs <;> exact ⟨⟨_, rfl⟩, rfl⟩

/-- **A batch insert is all or nothing for bad input** if, and only if, the batch is too long, has
an element that is no record, or has only elements that pass the checks. -/
theorem batch_all_or_nothing_iff {req : Json} {specs : List Json}
    (hreq : req.item "records" = some (.array specs)) :
    ((∃ spec ∈ specs, RefusesElement cfg env ns db spec) →
      (∃ e, (handleInsert cfg env ns req db).2 = .error e) ∧
        (handleInsert cfg env ns req db).1 = db) ↔
      maxBatch < specs.length ∨ (∃ spec ∈ specs, ∀ r, buildPinned cfg spec ns ≠ .ok r) ∨
        ∀ spec ∈ specs, ∀ r, buildPinned cfg spec ns = .ok r →
          PassesChecks cfg r (jrStr spec "session_id") := by
  have hhandle : handleInsert cfg env ns req db = handleInsertBatch cfg env ns specs db := by
    unfold handleInsert
    rw [hreq]
  rw [hhandle]
  cases hbuild : buildBatch cfg ns specs with
  | error st =>
    refine iff_of_true (fun _ => handleInsertBatch_of_error hbuild) (.inr (.inl ?_))
    by_contra hall
    have hok : ∃ inputs, buildBatch cfg ns specs = .ok inputs := by
      refine buildBatch_isOk_iff.2 fun spec hspec => ?_
      by_contra hnone
      exact hall ⟨spec, hspec, fun r hr => hnone ⟨r, hr⟩⟩
    obtain ⟨inputs, hok⟩ := hok
    cases hbuild.symm.trans hok
  | ok inputs =>
    have hbuilt := buildBatch_isOk_iff.1 ⟨inputs, hbuild⟩
    constructor
    · intro h
      by_contra hcond
      obtain ⟨hlen, -, hpass⟩ : specs.length ≤ maxBatch ∧ _ ∧
          ¬ ∀ spec ∈ specs, ∀ r, buildPinned cfg spec ns = .ok r →
            PassesChecks cfg r (jrStr spec "session_id") := by
        simpa only [not_or, not_lt] using hcond
      push Not at hpass
      obtain ⟨spec, hspec, r, hr, hfails⟩ := hpass
      obtain ⟨⟨e, he⟩, -⟩ := h ⟨spec, hspec, (refusesElement_iff hr).2 hfails⟩
      rw [handleInsertBatch_of_ok (List.ne_nil_of_mem hspec) hlen hbuild] at he
      cases he
    · rintro (hlen | ⟨spec, hspec, hnone⟩ | hpass) ⟨spec', hspec', hrefused⟩
      · unfold handleInsertBatch
        rw [if_pos (.inr hlen)]
        exact ⟨⟨_, rfl⟩, rfl⟩
      · obtain ⟨r, hr⟩ := hbuilt spec hspec
        exact absurd hr (hnone r)
      · obtain ⟨r, hr⟩ := hbuilt spec' hspec'
        exact absurd (hpass spec' hspec' r hr) ((refusesElement_iff hr).1 hrefused)

end

def episodicBody (data : String) : Json :=
  .object [(.ofString "type", .string (.ofString "episodic")),
    (.ofString "data", .string (.ofString data))]

def episodicInput (data : String) : MemoryRecord :=
  { recordInit with type := .episodic, data := (CString.ofString data).bytes }

theorem buildPinned_episodicBody (data : String) :
    buildPinned .unlimited (episodicBody data) none = .ok (episodicInput data) := rfl

def batchRequest (specs : List Json) : Json := .object [(.ofString "records", .array specs)]

theorem item_batchRequest (specs : List Json) :
    (batchRequest specs).item "records" = some (.array specs) := rfl

def emptyDatabase : Database plainFraming := .create .unlimited fun _ => ()

/-- The batch of one good record: there is nothing to refuse. -/
theorem good_batch_all_or_nothing :
    (batchRequest [episodicBody "x"]).item "records" = some (.array [episodicBody "x"]) ∧
    ((∃ spec ∈ [episodicBody "x"], RefusesElement .unlimited .zero none emptyDatabase spec) →
      (∃ e, (handleInsert .unlimited .zero none (batchRequest [episodicBody "x"])
        emptyDatabase).2 = .error e) ∧
      (handleInsert .unlimited .zero none (batchRequest [episodicBody "x"]) emptyDatabase).1 =
        emptyDatabase) := by
  refine ⟨item_batchRequest _, (batch_all_or_nothing_iff (item_batchRequest _)).2 (.inr (.inr ?_))⟩
  intro spec hspec r hr
  rw [List.mem_singleton] at hspec
  subst hspec
  rw [buildPinned_episodicBody] at hr
  cases hr
  exact ⟨by decide, by decide, absurd rfl, nofun⟩

set_option maxRecDepth 20000 in
/-- The second element has no data; the batch is answered without an error, and the first one is
written. -/
theorem batch_written_in_part :
    RefusesElement .unlimited .zero none emptyDatabase (episodicBody "") ∧
    ∃ r, (handleInsert .unlimited .zero none (batchRequest [episodicBody "x", episodicBody ""])
        emptyDatabase).2 = .batch [r] ∧
      (loadRecord plainFraming (handleInsert .unlimited .zero none
        (batchRequest [episodicBody "x", episodicBody ""]) emptyDatabase).1.store 1).isOk = true := by
  constructor
  · rw [refusesElement_iff (buildPinned_episodicBody "")]
    exact fun h => h.data rfl
  · refine ⟨_, rfl, ?_⟩
    decide +kernel

end AegisDB
