import AegisDB.Query.FilterSearch
import Mathlib.Data.Set.Card

/-!
# A bulk delete is complete and framed

`qe_delete_by_query` snapshots the ids of its candidates and deletes them one by one. No bound is set
to the scan, so the candidates are all the records that meet the filters; each of those the caller
may delete is deleted, and nothing else is touched (`deleteByQuery_erases`).
-/

namespace AegisDB

variable {F : Framing} {R : Ranking} {cfg : DbConfig} {env : Sample} {db : Database F}
  {p : SearchParams} {ns : Option CString}

/-! ## One delete -/

/-- A delete succeeds just when the record is live and is one of the caller's. -/
theorem Database.Sturdy.isOk_qeDelete_iff (h : db.Sturdy) (hphase : cfg.phase 1 = true)
    (hfsync : env.fsyncOk = true) (id : UInt64) :
    (qeDelete cfg env db id ns).2.isOk = true ↔
      ∃ r, loadRecord F db.store id = .ok r ∧ nsDenies ns r = false := by
  constructor
  · intro hok
    obtain ⟨d, res, heq, hstep⟩ := exists_pair (@qeDelete_step F cfg env db id ns)
    simp only [heq] at hok
    cases hstep with
    | refused | failed => cases hok
    | wrote load owner append => exact ⟨_, load, owner⟩
  · rintro ⟨r, load, hns⟩
    obtain ⟨rfl, -⟩ := h.sound.of_loadRecord load
    obtain ⟨-, -, -, hok⟩ := qeDelete_appends cfg env h.sound hphase h.isOpen load
      (h.length_le _ _ load) hns
    rw [hok hfsync]
    rfl

variable (cfg env ns) in
theorem Database.Sturdy.of_qeDelete (h : db.Sturdy) (id : UInt64) :
    (qeDelete cfg env db id ns).1.Sturdy :=
  (h.delete id ns : Tracks cfg db (.client (.delete env id ns)) _).sturdy

theorem Database.Sturdy.store_of_not_isOk (h : db.Sturdy) (hphase : cfg.phase 1 = true)
    (hfsync : env.fsyncOk = true) {id : UInt64}
    (hfail : ¬ (qeDelete cfg env db id ns).2.isOk = true) :
    (qeDelete cfg env db id ns).1.store = db.store := by
  rw [h.isOk_qeDelete_iff hphase hfsync] at hfail
  obtain ⟨d, res, heq, hstep⟩ := exists_pair (@qeDelete_step F cfg env db id ns)
  simp only [heq]
  cases hstep with
  | refused | failed => rfl
  | wrote load owner append => exact absurd ⟨_, load, owner⟩ hfail

theorem loadRecord_qeDelete_of_denied (hs : db.Sound) {id : UInt64}
    (hdeny : ∀ r, loadRecord F db.store id = .ok r → nsDenies ns r = true) (id' : UInt64) :
    loadRecord F (qeDelete cfg env db id' ns).1.store id = loadRecord F db.store id := by
  have hstep : DeleteStep cfg env db id' ns _ _ := qeDelete_step id' ns
  rcases (qeDelete_effect cfg env hs id' ns).2.2 id with hsame | ⟨rfl, -⟩
  · exact hsame
  generalize (qeDelete cfg env db id ns).1 = d at hstep ⊢
  generalize (qeDelete cfg env db id ns).2 = res at hstep
  cases hstep with
  | refused | failed => rfl
  | wrote load owner append => cases (hdeny _ load).symm.trans owner

/-- The ids of the records that were live before, and are not behind. -/
def erased (db db' : Database F) : Set UInt64 :=
  {id | (∃ r, loadRecord F db.store id = .ok r) ∧ ∀ r, loadRecord F db'.store id ≠ .ok r}

theorem mem_erased {db' : Database F} {id : UInt64} : id ∈ erased db db' ↔
    (∃ r, loadRecord F db.store id = .ok r) ∧ ∀ r, loadRecord F db'.store id ≠ .ok r := Iff.rfl

theorem erased_self (db : Database F) : erased db db = ∅ := by
  ext id
  simp only [mem_erased, Set.mem_empty_iff_false, iff_false]
  rintro ⟨⟨r, hr⟩, hne⟩
  exact hne r hr

variable (cfg env ns) in
theorem finite_erased (hs : db.Sound) (ids : List UInt64) :
    (erased db (deleteAll cfg env ns ids db).1).Finite := by
  refine (List.finite_toSet ids).subset ?_
  rintro id ⟨⟨r, hr⟩, hne⟩
  rcases (deleteAll_effect cfg env ids ns hs).2 id with hsame | ⟨hmem, -⟩
  · exact absurd (hsame.trans hr) (hne r)
  · exact hmem

theorem Database.Sturdy.deleteAll_count (h : db.Sturdy) (hphase : cfg.phase 1 = true)
    (hfsync : env.fsyncOk = true) (ids : List UInt64) :
    (deleteAll cfg env ns ids db).2 = (erased db (deleteAll cfg env ns ids db).1).ncard := by
  induction ids generalizing db with
  | nil => rw [deleteAll, erased_self, Set.ncard_empty]
  | cons id ids ih =>
    have h' := h.of_qeDelete cfg env ns id
    have hrest := (deleteAll_effect cfg env ids ns h'.sound).2 id
    have hhead := (qeDelete_effect cfg env h.sound id ns).2.2
    simp only [deleteAll, ih h']
    split_ifs with hok
    · -- the record is erased by the first delete, and no more by the others
      obtain ⟨r, load, hns⟩ := (h.isOk_qeDelete_iff hphase hfsync id).1 hok
      obtain ⟨rfl, -⟩ := h.sound.of_loadRecord load
      have hgone := loadRecord_qeDelete cfg env h.sound hphase h.isOpen load (h.length_le _ _ load) hns
      rw [← Set.ncard_insert_of_notMem (a := r.id) ?_ (finite_erased cfg env ns h'.sound ids)]
      · congr 1
        ext id
        by_cases hid : id = r.id
        · subst hid
          simp only [Set.mem_insert_iff, true_or, true_iff]
          refine ⟨⟨r, load⟩, fun r' hr' => ?_⟩
          rcases hrest with hsame | ⟨-, hnone⟩
          · cases hgone.symm.trans (hsame.symm.trans hr')
          · cases hnone.notFound.symm.trans hr'
        · simp only [Set.mem_insert_iff, hid, false_or, mem_erased,
            (hhead id).resolve_right fun hne => hid hne.1]
      · rintro ⟨⟨r', hr'⟩, -⟩
        cases hgone.symm.trans hr'
    · have hstore := h.store_of_not_isOk hphase hfsync hok
      simp only [erased, hstore]

theorem loadRecord_deleteAll_of_denied (hs : db.Sound) {id : UInt64}
    (hdeny : ∀ r, loadRecord F db.store id = .ok r → nsDenies ns r = true) (ids : List UInt64) :
    loadRecord F (deleteAll cfg env ns ids db).1.store id = loadRecord F db.store id := by
  induction ids generalizing db with
  | nil => rfl
  | cons x ids ih =>
    have hhead : loadRecord F (qeDelete cfg env db x ns).1.store id = loadRecord F db.store id :=
      loadRecord_qeDelete_of_denied hs hdeny x
    refine (ih (qeDelete_effect cfg env hs x ns).1 fun r hr => ?_).trans hhead
    exact hdeny r (hhead.symm.trans hr)

variable (env db p ns) in
/-- A record that the delete is for: it meets the filters, and the caller may delete it. -/
structure Targeted (r : MemoryRecord) : Prop extends Matches env db p [] r where
  owned : ∀ n ∈ ns, r.agentId = some n

theorem owned_iff {r : MemoryRecord} : nsDenies ns r = false ↔ ∀ n ∈ ns, r.agentId = some n := by
  cases ns with
  | none | some n => simp [nsDenies]

variable (R) in
/-- A record that is loaded is one of the ids to be deleted just when it matches. -/
theorem Database.Listed.mem_bulkIds_iff (h : db.Listed) (hp : p.pattern = none) {r : MemoryRecord}
    (load : loadRecord F db.store r.id = .ok r) :
    r.id ∈ bulkIds R env db p ↔ Matches env db p [] r := by
  have hmem : r ∈ filterRecords env db p [] 0 ↔ Matches env db p [] r := by
    rw [h.mem_filterRecords (.inl rfl), and_iff_left_iff_imp]
    intro _ _ pat hpat
    cases hp.symm.trans hpat
  simp only [bulkIds, gatherCandidates_filter, List.map_map, List.mem_map, Function.comp_apply,
    Ranking.unscored, ← hmem]
  constructor
  · rintro ⟨r', hr', hid⟩
    obtain ⟨id, -, hload⟩ := List.mem_filterMap.1 hr'
    have hload := (loadCandidate_eq_some.1 hload).1
    obtain ⟨rfl, -⟩ := h.sound.of_loadRecord hload
    rw [hid, load] at hload
    cases hload
    exact hr'
  · exact fun hr => ⟨r, hr, rfl⟩

theorem qeDeleteByQuery_eq_ok {n : ℕ} (hok : (qeDeleteByQuery R cfg env db p ns).2 = .ok n) :
    cfg.phase 1 = true ∧
      (qeDeleteByQuery R cfg env db p ns).1 = (deleteAll cfg env ns (bulkIds R env db p) db).1 ∧
      (deleteAll cfg env ns (bulkIds R env db p) db).2 = n := by
  unfold qeDeleteByQuery at hok ⊢
  split_ifs at hok ⊢ with hphase hpos
  exact ⟨by simpa using hphase, rfl, Except.ok.inj hok⟩

/-- **A delete by query deletes the records it is for**, and no other; it counts the records that
were live and are not any more. -/
theorem deleteByQuery_erases (h : db.Tracked) (hp : p.pattern = none) (hfsync : env.fsyncOk = true)
    {n : ℕ} (hok : (qeDeleteByQuery R cfg env db p ns).2 = .ok n) :
    (∀ r, ¬ Targeted env (qeDeleteByQuery R cfg env db p ns).1 p ns r) ∧
      (∀ id, (∀ r, loadRecord F db.store id = .ok r → ¬ Targeted env db p ns r) →
        loadRecord F (qeDeleteByQuery R cfg env db p ns).1.store id = loadRecord F db.store id) ∧
      n = (erased db (qeDeleteByQuery R cfg env db p ns).1).ncard := by
  obtain ⟨hphase, heq, hcount⟩ := qeDeleteByQuery_eq_ok hok
  have heffect := (deleteAll_effect cfg env (bulkIds R env db p) ns h.sound).2
  rw [heq]
  refine ⟨fun r hr => ?_, fun id hother => ?_, ?_⟩
  · -- what is left was there before, and what matches was deleted
    rcases heffect r.id with hsame | ⟨-, hgone⟩
    · have load := hsame.symm.trans hr.load
      have hmem := (h.listed.mem_bulkIds_iff R hp load).2 ⟨load, hr.unexpired, hr.passes⟩
      have hgone := loadRecord_deleteAll cfg env h.sound hphase h.isOpen load
        (h.length_le _ _ load) (owned_iff.2 hr.owned) hmem
      cases hgone.symm.trans hr.load
    · cases hgone.notFound.symm.trans hr.load
  · by_cases hdeny : ∀ r, loadRecord F db.store id = .ok r → nsDenies ns r = true
    · exact loadRecord_deleteAll_of_denied h.sound hdeny _
    · push Not at hdeny
      obtain ⟨r, load, hns⟩ := hdeny
      obtain ⟨rfl, -⟩ := h.sound.of_loadRecord load
      refine (heffect r.id).resolve_right fun hgone => ?_
      have hmatch := (h.listed.mem_bulkIds_iff R hp load).1 hgone.1
      exact hother r load ⟨hmatch, owned_iff.1 (by simpa using hns)⟩
  · rw [← hcount]
    exact h.deleteAll_count hphase hfsync _

def anySemantic : SearchParams := { type := some .semantic }

set_option maxRecDepth 20000 in
theorem deleteByQuery_longFact :
    (qeDeleteByQuery .nothing .unlimited .zero longFactDb anySemantic none).2 = .ok 1 := by
  decide +kernel

/-- The only record of a database is deleted, and one is counted. -/
theorem deleteByQuery_erases_one :
    (∀ r, ¬ Targeted .zero
        (qeDeleteByQuery .nothing .unlimited .zero longFactDb anySemantic none).1 anySemantic none r) ∧
      1 = (erased longFactDb
        (qeDeleteByQuery .nothing .unlimited .zero longFactDb anySemantic none).1).ncard := by
  have h := deleteByQuery_erases longFactDb_tracked rfl rfl deleteByQuery_longFact
  exact ⟨h.1, h.2.2⟩

end AegisDB
