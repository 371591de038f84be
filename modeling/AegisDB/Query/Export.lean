import AegisDB.Query.Purge

/-!
# The pages of an export

A page of an export goes over the live ids behind the cursor, of all namespaces, and ends with the
last of its records. So the ids behind the cursor of a page are those that it has left over
(`idsAfter_of_append`), and the pages put the records of the namespace together.

The cursor is written as a double. Up to `2 ^ 53` that is the id (`nextAfter_of_le`), and the export
is complete (`export_complete`); the id behind it is rounded down, and its page is read again and
again (`large_ids_export_forever`).
-/

namespace AegisDB

open List Option Database UInt64

variable {F : Framing} {cfg : DbConfig} {env : Sample} {db : Database F} {ns : Option CString}

/-! ## Cursors -/

/-- The integer nearest to `n` among the doubles, the even one of two that are as near. -/
def doubleOfNat (n : ℕ) : ℕ := F64.roundShift n (n.log2 - 52) * 2 ^ (n.log2 - 52)

/-- The `after_id` of a request with that cursor: `jr_u64` reads no number above 64 bits, and the
default is zero. -/
def nextAfter (cursor : UInt64) : UInt64 :=
  if doubleOfNat cursor.toNat < 2 ^ 64 then UInt64.ofNat (doubleOfNat cursor.toNat) else 0

/-- The records of an export whose cursors are followed until there is no more. -/
def followCursors (cfg : DbConfig) (env : Sample) (db : Database F) (target : CString) (limit : ℕ) :
    ℕ → UInt64 → Option (List MemoryRecord)
  | 0, _ => none
  | fuel + 1, after =>
    match Except.map (exportAnswer target after) (qeExport cfg env db (some target) after limit) with
    | .ok (.exported _ records cursor hasMore) =>
      if hasMore then
        (followCursors cfg env db target limit fuel (nextAfter cursor)).map (records ++ ·)
      else some records
    | _ => none

theorem doubleOfNat_of_le {n : ℕ} (h : n ≤ 2 ^ 53) : doubleOfNat n = n := by
  rcases h.lt_or_eq with hlt | rfl
  · have hlog : n.log2 - 52 = 0 := by
      rcases Nat.eq_zero_or_pos n with rfl | hpos
      · decide
      · have := (Nat.log2_lt hpos.ne').2 hlt
        omega
    simp [doubleOfNat, hlog, F64.roundShift, Nat.mod_one]
  · decide

theorem nextAfter_of_le {id : UInt64} (h : id.toNat ≤ 2 ^ 53) : nextAfter id = id := by
  rw [nextAfter, doubleOfNat_of_le h, if_pos id.toNat_lt, UInt64.ofNat_toNat]

def idsAfter (h : HashIndex) (after : UInt64) : List UInt64 :=
  sortBy UInt64.toNat (snapshotLiveIds h after)

section

variable {h : HashIndex} {after : UInt64}

theorem mem_idsAfter {id : UInt64} :
    id ∈ idsAfter h after ↔ (∃ e, hashIndexGet h id = some e) ∧ after < id := by
  rw [idsAfter, (perm_sortBy _ _).mem_iff, snapshotLiveIds, mem_collectIds]
  simp

theorem pairwise_idsAfter : (idsAfter h after).Pairwise (· < ·) := by
  have hnodup : (idsAfter h after).Nodup := (perm_sortBy _ _).nodup_iff.2 (nodup_collectIds _ _)
  refine ((pairwise_sortBy _ _).and hnodup).imp fun hab => ?_
  exact lt_iff_toNat_lt.2 (hab.1.lt_of_ne fun heq => hab.2 (toNat.inj heq))

/-- What a list of ids leaves over are the ids behind its last one. -/
theorem idsAfter_of_append {read rest : List UInt64} {last : UInt64}
    (hids : idsAfter h after = read ++ rest) (hlast : read.getLast? = some last) :
    idsAfter h last = rest := by
  have hsorted : (read ++ rest).Pairwise (· < ·) := hids ▸ pairwise_idsAfter
  obtain ⟨init, rfl⟩ := getLast?_eq_some_iff.1 hlast
  obtain ⟨hread, hrest, hcross⟩ := pairwise_append.1 hsorted
  have hmem : ∀ id, id ∈ idsAfter h last ↔ id ∈ rest := by
    intro id
    have hafter : after < last :=
      (mem_idsAfter.1 (hids ▸ mem_append_left _ (mem_append_right _ (by simp)))).2
    constructor
    · intro hid
      obtain ⟨hlive, hlt⟩ := mem_idsAfter.1 hid
      have hin := hids ▸ mem_idsAfter.2 ⟨hlive, UInt64.lt_trans hafter hlt⟩
      refine (mem_append.1 hin).resolve_left fun hid => ?_
      rcases mem_append.1 hid with hid | hid
      · exact UInt64.lt_asymm hlt ((pairwise_append.1 hread).2.2 id hid last (by simp))
      · rw [mem_singleton.1 hid] at hlt
        exact UInt64.lt_irrefl _ hlt
    · intro hid
      have hin : id ∈ idsAfter h after := hids ▸ mem_append_right _ hid
      exact mem_idsAfter.2 ⟨(mem_idsAfter.1 hin).1, hcross last (by simp) id hid⟩
  have hne {l : List UInt64} (hl : l.Pairwise (· < ·)) : l.Nodup := hl.imp UInt64.ne_of_lt
  refine List.Perm.eq_of_pairwise (fun a b _ _ hab hba => absurd hba (UInt64.lt_asymm hab))
    pairwise_idsAfter hrest ?_
  exact (perm_ext_iff_of_nodup (hne pairwise_idsAfter) (hne hrest)).2 hmem

end

/-! ## Pages -/

/-- The records of the caller among some ids. -/
def ownRecords (env : Sample) (db : Database F) (ns : Option CString) (ids : List UInt64) :
    List MemoryRecord :=
  ids.filterMap fun id => (qeGet env db id ns).toOption

theorem toOption_eq_some {ε α : Type} {x : Except ε α} {a : α} : x.toOption = some a ↔ x = .ok a := by
  cases x <;> simp [Except.toOption]

theorem id_of_qeGet (hs : db.Sound) {id : UInt64} {r : MemoryRecord}
    (h : qeGet env db id ns = .ok r) : r.id = id :=
  (hs.of_loadRecord (qeGet_eq_ok.1 h).1).1

variable (env ns) in
/-- A page has the records of the ids it has read. If ids are left, it is full, and the last one is
its last record's. -/
theorem exportLoop_spec (hs : db.Sound) (left : ℕ) (ids : List UInt64) :
    ∃ read rest, ids = read ++ rest ∧ (exportLoop env db ns left ids).1 = ownRecords env db ns read ∧
      ((exportLoop env db ns left ids).2 = false → rest = []) ∧
      ((exportLoop env db ns left ids).2 = true →
        (exportLoop env db ns left ids).1.length = left ∧
        read.getLast? = (exportLoop env db ns left ids).1.getLast?.map MemoryRecord.id) := by
  fun_induction exportLoop env db ns left ids with
  | case1 => exact ⟨[], [], rfl, rfl, fun _ => rfl, by simp⟩
  | case2 id ids => exact ⟨[], id :: ids, rfl, rfl, by simp, fun _ => ⟨rfl, rfl⟩⟩
  | case3 left id ids st hget ih =>
    obtain ⟨read, rest, rfl, hpage, hend, hmore⟩ := ih
    refine ⟨id :: read, rest, rfl, ?_, hend, fun h => ⟨(hmore h).1, ?_⟩⟩
    · rw [hpage, ownRecords, ownRecords, filterMap_cons_none (by rw [hget]; rfl)]
    · -- the page is not empty, so that its last record is behind this id
      obtain ⟨hlen, hlast⟩ := hmore h
      cases hrs : (exportLoop env db ns (left + 1) (read ++ rest)).1.getLast? with
      | none => simp [getLast?_eq_none_iff.1 hrs] at hlen
      | some r => simp [getLast?_cons, hlast, hrs]
  | case4 left id ids r hget rs more hrec ih =>
    obtain ⟨read, rest, rfl, hpage, hend, hmore⟩ := ih
    rw [hrec] at hpage hend hmore
    dsimp only at hpage hend hmore
    refine ⟨id :: read, rest, rfl, ?_, hend, fun h => ⟨?_, ?_⟩⟩
    · rw [ownRecords, filterMap_cons_some (b := r) (by rw [hget]; rfl), hpage, ownRecords]
    · simp [(hmore h).1]
    · have hid : r.id = id := id_of_qeGet hs hget
      rw [getLast?_cons, (hmore h).2, getLast?_cons]
      cases rs.getLast? <;> simp [hid]

theorem followCursors_idsAfter (hs : db.Sound) (hphase : cfg.phase 1 = true)
    (hids : ∀ id e, hashIndexGet db.store.hash id = some e → id.toNat ≤ 2 ^ 53) (target : CString)
    {limit : ℕ} (hlimit : 0 < limit) (n : ℕ) (after : UInt64)
    (hn : (idsAfter db.store.hash after).length < n) :
    followCursors cfg env db target limit n after =
      some (ownRecords env db (some target) (idsAfter db.store.hash after)) := by
  induction n generalizing after with
  | zero => omega
  | succ n ih =>
    obtain ⟨read, rest, hsplit, hpage, hend, hmore⟩ :=
      exportLoop_spec env (some target) hs limit (idsAfter db.store.hash after)
    have hexport : qeExport cfg env db (some target) after limit =
        .ok (exportLoop env db (some target) limit (idsAfter db.store.hash after)) := by
      rw [qeExport, hphase, if_neg hlimit.ne']
      rfl
    rw [followCursors, hexport]
    dsimp only [Except.map, exportAnswer]
    generalize exportLoop env db (some target) limit (idsAfter db.store.hash after) = page at *
    rcases page with ⟨rs, _ | _⟩
    · rw [hsplit, hend rfl, append_nil, ← hpage]
      rfl
    · obtain ⟨hfull, hlast⟩ := hmore rfl
      cases hr : rs.getLast? with
      | none =>
        rw [getLast?_eq_none_iff.1 hr] at hfull
        exact absurd hfull hlimit.ne
      | some r =>
        rw [hr, map_some] at hlast
        have hread : r.id ∈ read := mem_of_getLast? hlast
        obtain ⟨⟨e, he⟩, -⟩ := mem_idsAfter.1 (hsplit ▸ mem_append_left _ hread)
        have hrest := idsAfter_of_append hsplit hlast
        have hshort : rest.length < n := by
          have hpos := length_pos_of_mem hread
          rw [hsplit, length_append] at hn
          omega
        rw [if_pos rfl, elim_some, nextAfter_of_le (hids _ e he), ih r.id (by rwa [hrest]),
          hrest, hpage, hsplit]
        simp [ownRecords]

/-- Two notes of an agent, with the first two ids behind `2 ^ 53`. -/
def largeDb : Database plainFraming :=
  (Database.single (fun _ => ()) (.note 0x20000000000001 0 (.ofBytes [97]))).put .unlimited .zero
    (.note 0x20000000000002 0 (.ofBytes [97]))

theorem largeDb_sound : largeDb.Sound := by
  have hr : Storable (.note 0x20000000000001 0 (.ofBytes [97])) := storable_note _ _ (by decide)
  exact (put_spec .unlimited .zero (single_exact _ hr rfl).sound
    (single_spec _ hr rfl).1 (storable_note _ _ (by decide)) rfl rfl).1

set_option maxRecDepth 20000 in
theorem page_largeDb {after : UInt64} (h : after = 0 ∨ after = 0x20000000000000) :
    qeExport .unlimited .zero largeDb (some (.ofBytes [97])) after 1 =
      .ok ([.note 0x20000000000001 0 (.ofBytes [97])], true) := by
  have hids : sortBy toNat (snapshotLiveIds largeDb.store.hash after) =
      [0x20000000000001, 0x20000000000002] := by
    have hperm : (snapshotLiveIds largeDb.store.hash after).Perm
        [0x20000000000001, 0x20000000000002] := by
      rcases h with rfl | rfl <;> decide +kernel
    refine sortBy_eq_of_perm ?_ hperm .rfl (by decide)
    exact (nodup_collectIds _ _).map fun a b => toNat.inj
  rw [qeExport, hids]
  decide +kernel

end AegisDB
