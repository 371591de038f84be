import AegisDB.Query.BulkDelete

/-!
# The preview of a purge

`qe_purge_namespace` goes over a snapshot of the live ids. A purge deletes each record of the
namespace, expired or not; its preview counts those that can be read, and an expired record cannot.
So the preview is exact just when no record of the namespace has expired (`purge_preview_iff`).
-/

namespace AegisDB

open List

variable {F : Framing} {cfg : DbConfig} {env : Sample} {db : Database F} {ns : Option CString}

theorem nodup_collectIds (h : HashIndex) (keep : UInt64 → HashEntry → Bool) :
    (collectIds h keep).Nodup :=
  (liveOf_liveEntries h).nodup.sublist (filter_sublist.map _)

/-! ## What is counted -/

/-- The record of an id is live, and is one of the caller's. -/
def ownedBy (db : Database F) (ns : Option CString) (id : UInt64) : Bool :=
  (currentRecord F db.store id).any fun r => !nsDenies ns r

theorem ownedBy_iff {id : UInt64} :
    ownedBy db ns id = true ↔ ∃ r, loadRecord F db.store id = .ok r ∧ nsDenies ns r = false := by
  simp only [ownedBy, Option.any_eq_true, currentRecord_eq_some, Bool.not_eq_true']

theorem ownedBy_congr {db' : Database F} {id : UInt64}
    (h : loadRecord F db'.store id = loadRecord F db.store id) :
    ownedBy db' ns id = ownedBy db ns id := by
  rw [ownedBy, currentRecord, h]
  rfl

theorem Database.Sturdy.deleteAll_countP (h : db.Sturdy) (hphase : cfg.phase 1 = true)
    (hfsync : env.fsyncOk = true) {ids : List UInt64} (hids : ids.Nodup) :
    (deleteAll cfg env ns ids db).2 = ids.countP (ownedBy db ns) := by
  induction ids generalizing db with
  | nil => rfl
  | cons id ids ih =>
    obtain ⟨hid, hids⟩ := nodup_cons.1 hids
    have hhead := (qeDelete_effect cfg env h.sound id ns).2.2
    -- the other records are there as before
    have hrest : ids.countP (ownedBy (qeDelete cfg env db id ns).1 ns) =
        ids.countP (ownedBy db ns) := by
      refine countP_congr fun x hx => ?_
      rw [ownedBy_congr ((hhead x).resolve_right fun hgone => hid (hgone.1 ▸ hx))]
    have hok : (qeDelete cfg env db id ns).2.isOk = ownedBy db ns id := by
      rw [Bool.eq_iff_iff, h.isOk_qeDelete_iff hphase hfsync, ownedBy_iff]
    simp only [deleteAll, ih (h.of_qeDelete cfg env ns id) hids, hrest, hok, countP_cons]
    split <;> omega

theorem isOk_qeGet {id : UInt64} : (qeGet env db id ns).isOk = true ↔
    ∃ r, loadRecord F db.store id = .ok r ∧ r.deleted = false ∧
      recordExpired r env.now = false ∧ nsDenies ns r = false := by
  simp only [← qeGet_eq_ok]
  cases qeGet env db id ns with
  | error st | ok r => simp [Except.isOk, Except.toBool]

/-- Where one test implies another, both count the same just when they agree on the list. -/
theorem countP_eq_countP_iff {α : Type} {p q : α → Bool} {l : List α}
    (h : ∀ a ∈ l, p a = true → q a = true) :
    l.countP p = l.countP q ↔ ∀ a ∈ l, q a = true → p a = true := by
  have hfilter : l.countP p = ((l.filter q).filter p).length := by
    rw [filter_filter, countP_eq_length_filter]
    congr 1
    refine filter_congr fun a ha => ?_
    cases hp : p a with
    | false => rfl
    | true => rw [h a ha hp, Bool.and_self]
  rw [hfilter, countP_eq_length_filter, length_filter_eq_length_iff]
  simp only [mem_filter, and_imp]

/-- **The preview of a purge is exact just when no record of the namespace has expired**, at
whatever times the two run. -/
theorem purge_preview_iff (h : db.Sturdy) (env env' : Sample) (hfsync : env'.fsyncOk = true)
    (hphase : cfg.phase 1 = true) {ns : CString} (hns : ns.bytes ≠ []) :
    (qePurgeNamespace cfg env db (some ns) true).2 =
        (qePurgeNamespace cfg env' db (some ns) false).2 ↔
      ∀ id r, 0 < id → loadRecord F db.store id = .ok r → r.agentId = some ns →
        recordExpired r env.now = false := by
  have hpreview : (qePurgeNamespace cfg env db (some ns) true).2 =
      .ok ((snapshotLiveIds db.store.hash 0).countP fun id => (qeGet env db id (some ns)).isOk) := by
    simp [qePurgeNamespace, hphase, hns]
  have hpurge : (qePurgeNamespace cfg env' db (some ns) false).2 =
      .ok ((snapshotLiveIds db.store.hash 0).countP (ownedBy db (some ns))) := by
    have hids : (snapshotLiveIds db.store.hash 0).Nodup := nodup_collectIds _ _
    rw [← h.deleteAll_countP hphase hfsync hids]
    simp [qePurgeNamespace, hphase, hns]
  have himp : ∀ id ∈ snapshotLiveIds db.store.hash 0,
      (qeGet env db id (some ns)).isOk = true → ownedBy db (some ns) id = true := by
    intro id _ hget
    obtain ⟨r, load, -, -, howner⟩ := isOk_qeGet.1 hget
    exact ownedBy_iff.2 ⟨r, load, howner⟩
  rw [hpreview, hpurge, Except.ok.injEq, countP_eq_countP_iff himp]
  constructor
  · intro hread id r hid load howner
    obtain ⟨e, he, -⟩ := loadRecord_eq_ok.1 load
    have hmem : id ∈ snapshotLiveIds db.store.hash 0 :=
      mem_collectIds.2 ⟨e, he, decide_eq_true hid⟩
    have hget := hread id hmem (ownedBy_iff.2 ⟨r, load, nsDenies_eq_false.2 howner⟩)
    obtain ⟨r', load', -, hexp, -⟩ := isOk_qeGet.1 hget
    cases load.symm.trans load'
    exact hexp
  · intro hfresh id hmem howned
    obtain ⟨r, load, howner⟩ := ownedBy_iff.1 howned
    obtain ⟨e, -, hid⟩ := mem_collectIds.1 hmem
    have hexp := hfresh id r (of_decide_eq_true hid) load (nsDenies_eq_false.1 howner)
    exact isOk_qeGet.2 ⟨r, load, (h.sound.of_loadRecord load).2, hexp, howner⟩

/-- A note of an agent that expires at the time 5. -/
def agedNote : WriteAct :=
  .client (.insert .zero
    { recordInit with type := .episodic, agentId := some (.ofBytes [97]), data := [110] } none 5)

/-- The database behind the insert of the note. -/
def agedDb : Database plainFraming :=
  (run (writeStep .unlimited) (.create .unlimited fun _ => ()) [agedNote]).getD
    (.create .unlimited fun _ => ())

theorem run_agedNote : run (writeStep .unlimited) (.create .unlimited fun _ => ()) [agedNote] =
    some agedDb := rfl

theorem agedDb_sturdy : agedDb.Sturdy := by
  have hstart : (Database.create .unlimited fun _ => () : Database plainFraming).Tracked :=
    Database.create_tracked DbConfig.unlimited _
  refine (hstart.run ?_ run_agedNote).toSturdy
  show 1 + 1 < 2 ^ 64
  omega

set_option maxRecDepth 20000 in
/-- Before the note expires its preview and its purge count the same. -/
theorem agedDb_preview_exact :
    (qePurgeNamespace .unlimited .zero agedDb (some (.ofBytes [97])) true).2 = .ok 1 ∧
      ∀ id r, 0 < id → loadRecord plainFraming agedDb.store id = .ok r →
        r.agentId = some (.ofBytes [97]) → recordExpired r 0 = false := by
  have hpreview : (qePurgeNamespace .unlimited .zero agedDb (some (.ofBytes [97])) true).2 =
      .ok 1 := by decide +kernel
  have hpurge : (qePurgeNamespace .unlimited .zero agedDb (some (.ofBytes [97])) false).2 =
      .ok 1 := by decide +kernel
  exact ⟨hpreview, (purge_preview_iff agedDb_sturdy .zero .zero rfl (by decide) (by decide)).1
    (hpreview.trans hpurge.symm)⟩

set_option maxRecDepth 20000 in
/-- Once the note has expired, and before the sweep, the preview counts nothing and the purge
deletes it. -/
theorem agedDb_preview_short :
    run (writeStep .unlimited) (.create .unlimited fun _ => ()) [agedNote] = some agedDb ∧
      (qePurgeNamespace .unlimited { Sample.zero with now := 10 } agedDb (some (.ofBytes [97]))
        true).2 = .ok 0 ∧
      (qePurgeNamespace .unlimited { Sample.zero with now := 10 } agedDb (some (.ofBytes [97]))
        false).2 = .ok 1 := by
  refine ⟨rfl, ?_, ?_⟩
  · decide +kernel
  · decide +kernel

end AegisDB
