import AegisDB.Foundations.OpenAddressing

/-!
# Open addressing with growth

A table that doubles before it is more than three quarters full. It starts without any slot, and
never loses a key; so putting an entry cannot fail (`get?_insert`).
-/

namespace AegisDB

open Function

namespace OpenTable

variable {K V : Type} [DecidableEq K] {hash : K → ℕ}

omit [DecidableEq K] in
theorem used_le_cap (t : OpenTable hash V) : t.used ≤ t.cap := List.countP_le_length

def reserve (t : OpenTable hash V) : OpenTable hash V :=
  if t.cap * 3 ≤ t.used * 4 then (t.rehash (if t.cap = 0 then 64 else t.cap * 2)).getD t else t

/-- Put an entry, into a larger table if need be. -/
def insert (t : OpenTable hash V) (k : K) (v : V) : OpenTable hash V :=
  (t.reserve.put? k v).getD t.reserve

theorem reserve_spec (t : OpenTable hash V) :
    t.reserve.get? = t.get? ∧ t.reserve.used < t.reserve.cap := by
  have hle := t.used_le_cap
  unfold reserve
  split
  · rename_i hfull
    have hentries := t.length_entries_le_used
    obtain ⟨t', ht', hcap, hused, hget⟩ :=
      t.rehash_spec (n := if t.cap = 0 then 64 else t.cap * 2) (by split <;> omega)
    rw [ht', Option.getD_some]
    refine ⟨hget, ?_⟩
    rw [hcap]
    split <;> omega
  · exact ⟨rfl, by omega⟩

theorem get?_insert (t : OpenTable hash V) (k : K) (v : V) :
    (t.insert k v).get? = update t.get? k (some v) := by
  obtain ⟨hget, hroom⟩ := t.reserve_spec
  obtain ⟨t', ht'⟩ := put?_isSome hroom k v
  rw [insert, ht', Option.getD_some]
  funext k'
  rw [get?_put ht', update_apply, hget]

end OpenTable

end AegisDB
