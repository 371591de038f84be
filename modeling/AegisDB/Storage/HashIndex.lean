import AegisDB.Foundations.OpenAddressing
import AegisDB.Memory.Record

/-!
# The hash index

The primary index maps a record id to its latest log frame. It is a table with linear probing that
doubles before it is more than seven tenths full; tombstones are entries like any other, only
`hashIndexGet` does not return them.

`HashIndex` carries the load bound, so that putting an entry always succeeds; `lookup_hashIndexPut` says
that the index is a finite map, and `lookup_hashIndexLoad` that a checkpoint of it loads as the same
map.
-/

namespace AegisDB

open OpenTable

def mix64 (x : UInt64) : UInt64 :=
  let x := x ^^^ (x >>> 33)
  let x := x * 0xff51afd7ed558ccd
  let x := x ^^^ (x >>> 33)
  let x := x * 0xc4ceb9fe1a85ec53
  x ^^^ (x >>> 33)

/-- The home of an id; the mask by a power of two less one is the remainder. -/
def idHash (id : UInt64) : ℕ := (mix64 id).toNat

/-- The entry of an id: where its latest frame is, and what the index keeps of the record. -/
structure HashEntry where
  offset : ℕ
  length : ℕ
  type : MemoryType
  deleted : Bool
  expiresAt : UInt64
  deriving DecidableEq

def initialCap : ℕ := 1024

/-- The growth of `hash_index_put`: the table is doubled when one more entry would exceed the load
factor. -/
def OpenTable.doubled {V : Type} (t : OpenTable idHash V) : OpenTable idHash V :=
  if t.cap * 7 < (t.used + 1) * 10 then (t.rehash (t.cap * 2)).getD t else t

theorem OpenTable.doubled_spec {V : Type} {t : OpenTable idHash V} (hload : t.used * 10 ≤ t.cap * 7)
    (hcap : initialCap ≤ t.cap) : t.doubled.get? = t.get? ∧
      (t.doubled.used + 1) * 10 ≤ t.doubled.cap * 7 ∧ initialCap ≤ t.doubled.cap := by
  rw [initialCap] at hcap ⊢
  unfold doubled
  split
  · have hlen := t.length_entries_le_used
    obtain ⟨t', ht', hcap', hused, hget⟩ := t.rehash_spec (n := t.cap * 2) (by omega)
    rw [ht', Option.getD_some]
    exact ⟨hget, by omega, by omega⟩
  · exact ⟨rfl, by omega, hcap⟩

/-- The hash index, never more than seven tenths full. -/
structure HashIndex where
  table : OpenTable idHash HashEntry
  load : table.used * 10 ≤ table.cap * 7
  cap_ge : initialCap ≤ table.cap

namespace HashIndex

/-- The entry of an id, a tombstone included. -/
def lookup (h : HashIndex) (id : UInt64) : Option HashEntry := h.table.get? id

def entries (h : HashIndex) : List (UInt64 × HashEntry) := h.table.entries

theorem mem_entries {h : HashIndex} {id : UInt64} {e : HashEntry} :
    (id, e) ∈ h.entries ↔ h.lookup id = some e := OpenTable.mem_entries

theorem nodup_keys (h : HashIndex) : (h.entries.map Prod.fst).Nodup := h.table.nodup_keys

def grown (h : HashIndex) : OpenTable idHash HashEntry :=
  if h.table.cap * 7 < (h.table.used + 1) * 10 then
    (h.table.rehash (h.table.cap * 2)).getD h.table
  else h.table

theorem grown_spec (h : HashIndex) : h.grown.get? = h.table.get? ∧
    (h.grown.used + 1) * 10 ≤ h.grown.cap * 7 ∧ initialCap ≤ h.grown.cap :=
  doubled_spec h.load h.cap_ge

end HashIndex

def hashIndexCreate : HashIndex :=
  ⟨.create initialCap, by rw [OpenTable.used_create]; omega, (OpenTable.cap_create _).ge⟩

def hashIndexPut (h : HashIndex) (id : UInt64) (e : HashEntry) : HashIndex :=
  match hp : h.grown.put? id e with
  | some t => ⟨t, by
      have := OpenTable.used_put_le hp
      have := h.grown_spec.2.1
      rw [OpenTable.cap_put hp]
      omega, by
      rw [OpenTable.cap_put hp]
      exact h.grown_spec.2.2⟩
  | none => h

/-- `hash_index_get`: the entry of an id that is not a tombstone. -/
def hashIndexGet (h : HashIndex) (id : UInt64) : Option HashEntry :=
  (h.lookup id).filter fun e => !e.deleted

theorem lookup_hashIndexCreate (id : UInt64) : hashIndexCreate.lookup id = none :=
  get?_create _ _

theorem lookup_hashIndexCreate_eq : hashIndexCreate.lookup = fun _ => none :=
  funext lookup_hashIndexCreate

theorem lookup_hashIndexPut (h : HashIndex) (id : UInt64) (e : HashEntry) (id' : UInt64) :
    (hashIndexPut h id e).lookup id' = if id' = id then some e else h.lookup id' := by
  obtain ⟨hget, hload, -⟩ := h.grown_spec
  obtain ⟨t, ht⟩ := put?_isSome (t := h.grown) (by omega) id e
  have hput : (hashIndexPut h id e).table = t := by
    unfold hashIndexPut
    split
    · rename_i t' ht'
      exact Option.some.inj (ht'.symm.trans ht)
    · rename_i hnone
      cases hnone.symm.trans ht
  rw [HashIndex.lookup, hput, get?_put ht, hget]
  rfl

theorem hashIndexGet_eq_some {h : HashIndex} {id : UInt64} {e : HashEntry} :
    hashIndexGet h id = some e ↔ h.lookup id = some e ∧ e.deleted = false := by
  simp [hashIndexGet, Option.filter_eq_some_iff]

/-! ## Checkpoints -/

/-- Put the entries of a checkpoint in their order: the loop of `hash_index_load`. -/
def hashIndexLoad (h : HashIndex) (es : List (UInt64 × HashEntry)) : HashIndex :=
  es.foldl (fun h e => hashIndexPut h e.1 e.2) h

theorem lookup_foldl_put (es : List (UInt64 × HashEntry)) (h : HashIndex) :
    (hashIndexLoad h es).lookup = updateAll h.lookup es := by
  induction es generalizing h with
  | nil => rfl
  | cons e es ih =>
    rw [hashIndexLoad, List.foldl_cons, ← hashIndexLoad, ih, updateAll,
      updateAll, List.foldl_cons]
    congr 1
    exact funext fun id => lookup_hashIndexPut h e.1 e.2 id

/-- The entries of an index, loaded into a fresh one, are the same map. -/
theorem lookup_hashIndexLoad (h : HashIndex) :
    (hashIndexLoad hashIndexCreate h.entries).lookup = h.lookup := by
  rw [lookup_foldl_put, lookup_hashIndexCreate_eq]
  exact h.table.updateAll_entries

end AegisDB
