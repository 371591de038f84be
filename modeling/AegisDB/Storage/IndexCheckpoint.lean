import AegisDB.Foundations.Cursor
import AegisDB.Storage.Frame
import AegisDB.Storage.HashIndex

/-!
# The checkpoint of the hash index

`hash_index.c` with the fields of an entry as it takes and writes them; `HashIndex` is the same
table for the entries of records. No slot is dead, so that the used slots are the ids there are, and
the bytes of a checkpoint load as the same map (`hashIndex_survives_checkpoint`).
-/

namespace AegisDB

open Bytes Cur List OpenTable

structure HashRow where
  offset : UInt64
  length : UInt32
  type : UInt8
  deleted : UInt8
  expiresAt : UInt64

abbrev RowTable := OpenTable idHash HashRow

def hashIndexPutRow (t : RowTable) (e : UInt64 × HashRow) : RowTable :=
  (t.doubled.put? e.1 e.2).getD t.doubled

def hashIndexGetRow (t : RowTable) (id : UInt64) : Option HashRow :=
  (t.get? id).filter fun r => r.deleted = 0

def rowBytes (e : UInt64 × HashRow) : Bytes :=
  leBytes 8 e.1.toNat ++ (leBytes 8 e.2.offset.toNat ++ (leBytes 4 e.2.length.toNat ++
    (leBytes 1 e.2.type.toNat ++ (leBytes 1 e.2.deleted.toNat ++ leBytes 8 e.2.expiresAt.toNat))))

def crc32Update (crc : UInt32) (data : Bytes) : UInt32 := ~~~ (crcLoop (~~~ crc) data)

/-- The header of a checkpoint in front of its CRC: `AIDX`, the version and the counts. -/
def indexFields (count covered nextId : UInt64) : Bytes :=
  [0x41, 0x49, 0x44, 0x58] ++ (leBytes 4 4 ++ (leBytes 8 count.toNat ++
    (leBytes 8 covered.toNat ++ leBytes 8 nextId.toNat)))

/-- `hash_index_serialize`: the CRC is over the header in front of it and the rows behind it. -/
def hashIndexSerialize (t : RowTable) (covered nextId : UInt64) : Bytes :=
  let rows := t.entries.flatMap rowBytes
  let fields := indexFields (UInt64.ofNat t.entries.length) covered nextId
  fields ++ leBytes 4 (crc32Update (crc32Compute fields) rows).toNat ++ rows

def getRow : Cur (UInt64 × HashRow) := do
  let id ← getU64
  let offset ← getU64
  let length ← getU32
  let type ← getU8
  let deleted ← getU8
  let expiresAt ← getU64
  pure (id, ⟨offset, length, type, deleted, expiresAt⟩)

structure IndexHeader where
  count : UInt64
  covered : UInt64
  nextId : UInt64
  crc : UInt32

def getIndexHeader : Cur IndexHeader := do
  let magic ← take 4
  require (magic = [0x41, 0x49, 0x44, 0x58])
  let version ← getU32
  require (version = 4)
  let count ← getU64
  let covered ← getU64
  let nextId ← getU64
  let crc ← getU32
  pure ⟨count, covered, nextId, crc⟩

/-- `hash_index_load` of the bytes of a file: the table with its rows, and the two numbers. -/
def hashIndexLoadRows (t : RowTable) (file : Bytes) : Option (RowTable × UInt64 × UInt64) := do
  let (h, rows) ← getIndexHeader.run file
  if h.count.toNat ≤ (2 ^ 64 - 2) / 30 ∧ rows.length = h.count.toNat * 30 ∧
      crc32Update (crc32Compute (file.take 32)) rows = h.crc then do
    let (es, _) ← (many h.count.toNat getRow).run rows
    pure (es.1.foldl hashIndexPutRow t, h.covered, h.nextId)
  else none

/-! ## The table -/

section

variable {t : RowTable} {es : List (UInt64 × HashRow)}

/-- What every put keeps: there is room, and no slot is dead. -/
structure RowsOk (t : RowTable) : Prop where
  load : t.used * 10 ≤ t.cap * 7
  cap_ge : initialCap ≤ t.cap
  alive : .dead ∉ t.slots

theorem rowsOk_create : RowsOk (.create initialCap) :=
  ⟨by rw [used_create]; omega, (cap_create _).ge, by simp [create]⟩

theorem not_dead_doubled (h : .dead ∉ t.slots) : .dead ∉ t.doubled.slots := by
  unfold OpenTable.doubled
  split
  · cases ht : t.rehash (t.cap * 2) with
    | none => exact h
    | some t' => exact not_dead_putAll ht (by simp [create])
  · exact h

theorem RowsOk.put (h : RowsOk t) (e : UInt64 × HashRow) : RowsOk (hashIndexPutRow t e) ∧
    (hashIndexPutRow t e).get? = fun k => if k = e.1 then some e.2 else t.get? k := by
  obtain ⟨hget, hroom, hcap⟩ := doubled_spec h.load h.cap_ge
  obtain ⟨t', ht'⟩ := put?_isSome (t := t.doubled) (by omega) e.1 e.2
  have hused := used_put_le ht'
  have hsame := cap_put ht'
  rw [hashIndexPutRow, ht', Option.getD_some]
  refine ⟨⟨by omega, by omega, not_dead_put ht' (not_dead_doubled h.alive)⟩, funext fun k => ?_⟩
  rw [get?_put ht', hget]

theorem RowsOk.putAll (h : RowsOk t) : RowsOk (es.foldl hashIndexPutRow t) ∧
    (es.foldl hashIndexPutRow t).get? = updateAll t.get? es := by
  induction es generalizing t with
  | nil => exact ⟨h, rfl⟩
  | cons e es ih =>
    obtain ⟨hput, hget⟩ := h.put e
    obtain ⟨hrest, hmap⟩ := ih hput
    refine ⟨hrest, ?_⟩
    rw [foldl_cons, hmap, hget, updateAll, updateAll, foldl_cons]

end

/-! ## The bytes -/

theorem rowBytes_reads (e : UInt64 × HashRow) : Reads getRow (rowBytes e) e :=
  (Reads.getU64 _).bind ((Reads.getU64 _).bind ((Reads.getU32 _).bind ((Reads.getU8 _).bind
    ((Reads.getU8 _).bind (Reads.getU64 _).bind_pure))))

theorem length_rows (es : List (UInt64 × HashRow)) :
    (es.flatMap rowBytes).length = es.length * 30 := by
  induction es with
  | nil => rfl
  | cons e es ih =>
    rw [flatMap_cons, length_append, ih, length_cons]
    simp [rowBytes]
    omega

theorem indexHeader_reads (count covered nextId : UInt64) (crc : UInt32) :
    Reads getIndexHeader (indexFields count covered nextId ++ leBytes 4 crc.toNat)
      ⟨count, covered, nextId, crc⟩ := by
  simp only [indexFields, append_assoc]
  refine (Reads.take (n := 4) rfl).bind ?_
  refine Reads.require_bind rfl ((Reads.getU32 4).bind ?_)
  exact Reads.require_bind rfl ((Reads.getU64 _).bind ((Reads.getU64 _).bind ((Reads.getU64 _).bind
    (Reads.getU32 _).bind_pure)))

theorem hashIndexLoadRows_serialize (t t₀ : RowTable) (covered nextId : UInt64)
    (hfits : 36 + 30 * t.entries.length < 2 ^ 64) :
    hashIndexLoadRows t₀ (hashIndexSerialize t covered nextId) =
      some (t.entries.foldl hashIndexPutRow t₀, covered, nextId) := by
  have hcount : (UInt64.ofNat t.entries.length).toNat = t.entries.length :=
    UInt64.toNat_ofNat_of_lt' (by rw [UInt64.size]; omega)
  have hmany := Reads.many hcount.symm (fun e _ => rowBytes_reads e) []
  rw [append_nil] at hmany
  have hfields : (indexFields (UInt64.ofNat t.entries.length) covered nextId).length = 32 := by
    simp [indexFields]
  unfold hashIndexLoadRows hashIndexSerialize
  rw [indexHeader_reads _ _ _ _ _, append_assoc, take_left' hfields]
  simp only [Option.bind_eq_bind, Option.bind_some]
  rw [if_pos ⟨by omega, by rw [length_rows, hcount], trivial⟩, hmany]
  rfl

section

variable (puts : List (UInt64 × HashRow))

theorem get?_puts :
    (puts.foldl hashIndexPutRow (.create initialCap)).get? = updateAll (fun _ => none) puts := by
  rw [rowsOk_create.putAll.2, funext (get?_create _)]

theorem used_puts :
    (puts.foldl hashIndexPutRow (.create initialCap)).used = (puts.map Prod.fst).toFinset.card := by
  refine used_eq_card rowsOk_create.putAll.1.alive fun id => ?_
  rw [get?_puts, updateAll_ne_none]
  simp

end

/-- Behind any puts: every probe ends, an id has the last row put for it unless that is a tombstone,
the count is that of the ids, and a checkpoint whose length is a `size_t` loads as the same map. -/
theorem hashIndex_survives_checkpoint (puts : List (UInt64 × HashRow)) (covered nextId : UInt64) :
    let t := puts.foldl hashIndexPutRow (.create initialCap)
    let last := updateAll (fun _ => none) puts
    (∀ id, OpenAddressing.probe idHash t.slots id ≠ .full) ∧
      (∀ id, hashIndexGetRow t id = (last id).filter fun r => r.deleted = 0) ∧
      t.used = (puts.map Prod.fst).toFinset.card ∧
      (36 + 30 * t.used < 2 ^ 64 →
        ∃ t', hashIndexLoadRows (.create initialCap) (hashIndexSerialize t covered nextId) =
          some (t', covered, nextId) ∧ t'.get? = last) := by
  intro t last
  have hget : t.get? = last := get?_puts puts
  have hok : RowsOk t := rowsOk_create.putAll.1
  have hlen := t.length_entries_le_used
  have hcap : 1024 ≤ t.cap := hok.cap_ge
  have hload := hok.load
  refine ⟨probe_ne_full (by omega), fun id => by rw [hashIndexGetRow, hget], used_puts puts, ?_⟩
  intro hfits
  refine ⟨_, hashIndexLoadRows_serialize t _ covered nextId (by omega), ?_⟩
  rw [get?_puts, updateAll_entries, hget]

theorem hashIndex_survives_checkpoint_one :
    ∃ t', hashIndexLoadRows (.create initialCap) (hashIndexSerialize
      ([(5, ⟨7, 8, 1, 0, 0⟩)].foldl hashIndexPutRow (.create initialCap)) 0 0) = some (t', 0, 0) ∧
        t'.get? = updateAll (fun _ => none) [(5, ⟨7, 8, 1, 0, 0⟩)] := by
  obtain ⟨-, -, hused, hload⟩ := hashIndex_survives_checkpoint [(5, ⟨7, 8, 1, 0, 0⟩)] 0 0
  refine hload ?_
  rw [hused]
  decide

end AegisDB
