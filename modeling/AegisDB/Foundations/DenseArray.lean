import Mathlib.Data.List.Perm.Basic
import Mathlib.Data.List.Nodup

/-!
# Dense arrays

A finite map as an array of entries without holes: a new key goes to the end, an old one keeps its
place, and the last entry moves into the place of one that is removed. The order of the entries means
nothing; `get?_put` and `get?_remove` say that the array is a map.
-/

namespace AegisDB

open List Function Option
open Prod (fst snd)

universe u v

/-- Remove the entry at a place and move the last one there. -/
def swapRemove {α : Type u} (l : List α) (i : ℕ) : List α :=
  match l.getLast? with
  | none => []
  | some last => (if i + 1 = l.length then l else l.set i last).dropLast

theorem swapRemove_perm {α : Type u} {l : List α} {i : ℕ} (hi : i < l.length) :
    (swapRemove l i).Perm (l.eraseIdx i) := by
  obtain ⟨l, x, rfl⟩ : ∃ l' x, l = l' ++ [x] :=
    ⟨_, _, (dropLast_append_getLast (ne_nil_of_length_pos (Nat.zero_lt_of_lt hi))).symm⟩
  rw [length_append, length_singleton] at hi
  rw [swapRemove, getLast?_append_of_ne_nil _ (by simp)]
  simp only [getLast?_singleton, length_append, length_singleton]
  rcases Nat.lt_succ_iff_lt_or_eq.1 hi with hlt | rfl
  · rw [if_neg (by omega), set_append_left _ _ hlt, dropLast_concat,
      eraseIdx_append_of_lt_length hlt]
    exact (set_perm_cons_eraseIdx hlt x).trans (perm_append_singleton x _).symm
  · rw [if_pos rfl, dropLast_concat, eraseIdx_append_of_length_le (Nat.le_refl _)]
    simp

/-! ## Lists of the entries of a map -/

section

variable {K : Type u} {V : Type v}

/-- The list has the entries of the map, each of them once. -/
structure Lists (m : K → Option V) (xs : List (K × V)) : Prop where
  mem_iff : ∀ k v, (k, v) ∈ xs ↔ m k = some v
  nodup : (xs.map fst).Nodup

variable {m : K → Option V} {xs ys : List (K × V)}

theorem Lists.perm (hxs : Lists m xs) (hys : Lists m ys) : xs.Perm ys := by
  rw [perm_ext_iff_of_nodup (hxs.nodup.of_map _) (hys.nodup.of_map _)]
  rintro ⟨k, v⟩
  rw [hxs.mem_iff, hys.mem_iff]

variable [DecidableEq K]

theorem Lists.update (h : Lists m xs) (k : K) (o : Option V) :
    Lists (update m k o)
      (o.toList.map (fun v => (k, v)) ++ xs.filter fun x => decide (x.1 ≠ k)) where
  mem_iff k' v := by
    rw [mem_append, mem_filter, h.mem_iff, decide_eq_true_eq]
    by_cases hk : k' = k
    · subst hk
      simp [mem_toList]
    · simp [hk, Ne.symm hk]
  nodup := by
    rw [map_append, nodup_append]
    refine ⟨?_, h.nodup.sublist ((filter_sublist).map _), ?_⟩
    · cases o <;> simp
    · intro a ha b hb
      obtain ⟨x, hx, rfl⟩ := mem_map.1 ha
      obtain ⟨v, -, rfl⟩ := mem_map.1 hx
      obtain ⟨y, hy, rfl⟩ := mem_map.1 hb
      exact Ne.symm (by simpa using (mem_filter.1 hy).2)

theorem Lists.perm_cons (h : Lists m xs) (k : K) :
    xs.Perm ((m k).toList.map (fun v => (k, v)) ++ xs.filter fun x => decide (x.1 ≠ k)) := by
  have hupdate := h.update k (m k)
  rw [update_eq_self] at hupdate
  exact h.perm hupdate

end

/-! ## Arrays -/

/-- An array of entries with distinct keys. -/
structure DenseArray (K : Type u) (V : Type v) where
  entries : List (K × V)
  nodup : (entries.map fst).Nodup

namespace DenseArray

variable {K : Type u} {V : Type v}

def empty : DenseArray K V := ⟨[], List.nodup_nil⟩

variable {a : DenseArray K V} {k k' : K} {v w : V} {i : ℕ}

theorem perm_cons_eraseIdx {x : K × V} (h : a.entries[i]? = some x) :
    a.entries.Perm (x :: a.entries.eraseIdx i) := by
  obtain ⟨hi, rfl⟩ := List.getElem?_eq_some_iff.1 h
  exact (getElem_cons_eraseIdx_perm hi).symm

theorem nodup_cons_eraseIdx (h : a.entries[i]? = some (k, v)) :
    k ∉ (a.entries.eraseIdx i).map fst ∧ ((a.entries.eraseIdx i).map fst).Nodup := by
  have hnodup := ((perm_cons_eraseIdx h).map fst).nodup_iff.1 a.nodup
  rwa [map_cons, nodup_cons] at hnodup

theorem mem_eraseIdx_iff (h : a.entries[i]? = some (k, v)) :
    (k', w) ∈ a.entries.eraseIdx i ↔ k' ≠ k ∧ (k', w) ∈ a.entries := by
  obtain ⟨hnot, -⟩ := nodup_cons_eraseIdx h
  rw [(perm_cons_eraseIdx h).mem_iff, mem_cons]
  constructor
  · intro hmem
    refine ⟨?_, .inr hmem⟩
    rintro rfl
    exact hnot (mem_map.2 ⟨_, hmem, rfl⟩)
  · rintro ⟨hne, heq | hmem⟩
    · cases heq
      exact absurd rfl hne
    · exact hmem

variable [DecidableEq K]

def place (a : DenseArray K V) (k : K) : Option ℕ := a.entries.findIdx? fun x => decide (x.1 = k)

def get? (a : DenseArray K V) (k : K) : Option V :=
  (a.entries.find? fun x => decide (x.1 = k)).map snd

theorem place_eq_none : a.place k = none ↔ k ∉ a.entries.map fst := by
  unfold place
  rw [findIdx?_eq_none_iff, List.mem_map]
  constructor
  · rintro h ⟨x, hx, rfl⟩
    simpa using h x hx
  · intro h x hx
    simpa using fun heq => h ⟨x, hx, heq⟩

theorem of_place (h : a.place k = some i) : ∃ v, a.entries[i]? = some (k, v) := by
  obtain ⟨hi, hk, -⟩ := findIdx?_eq_some_iff_getElem.1 h
  refine ⟨a.entries[i].2, ?_⟩
  rw [getElem?_eq_getElem hi, ← of_decide_eq_true hk]

theorem get?_eq_some : a.get? k = some v ↔ (k, v) ∈ a.entries := by
  unfold get?
  rw [map_eq_some_iff]
  constructor
  · rintro ⟨x, hx, rfl⟩
    have hk : x.1 = k := by simpa using find?_some hx
    exact hk ▸ mem_of_find?_eq_some hx
  · intro hmem
    obtain ⟨x, hx⟩ : ∃ x, a.entries.find? (fun x => decide (x.1 = k)) = some x :=
      isSome_iff_exists.1 (find?_isSome.2 ⟨_, hmem, by simp⟩)
    have hk : x.1 = k := by simpa using find?_some hx
    have heq := inj_on_of_nodup_map a.nodup (mem_of_find?_eq_some hx) hmem hk
    exact ⟨x, hx, by rw [heq]⟩

theorem get?_eq_none : a.get? k = none ↔ k ∉ a.entries.map fst := by
  rw [eq_none_iff_forall_ne_some, List.mem_map]
  constructor
  · rintro h ⟨x, hx, rfl⟩
    exact h x.2 (get?_eq_some.2 hx)
  · rintro h v hv
    exact h ⟨(k, v), get?_eq_some.1 hv, rfl⟩

@[simp] theorem get?_empty : (empty : DenseArray K V).get? = fun _ => none := rfl

def put (a : DenseArray K V) (k : K) (v : V) : DenseArray K V :=
  match h : a.place k with
  | some i =>
    { entries := a.entries.set i (k, v)
      nodup := by
        obtain ⟨w, hw⟩ := of_place h
        have hi := (List.getElem?_eq_some_iff.1 hw).1
        rw [((List.set_perm_cons_eraseIdx hi (k, v)).map fst).nodup_iff]
        exact List.nodup_cons.2 (nodup_cons_eraseIdx hw) }
  | none =>
    { entries := a.entries ++ [(k, v)]
      nodup := by
        rw [((List.perm_append_singleton (k, v) a.entries).map fst).nodup_iff]
        exact List.nodup_cons.2 ⟨place_eq_none.1 h, a.nodup⟩ }

theorem mem_put : (k', w) ∈ (a.put k v).entries ↔
    (k', w) = (k, v) ∨ k' ≠ k ∧ (k', w) ∈ a.entries := by
  unfold put
  split
  · next i h =>
    obtain ⟨w, hw⟩ := of_place h
    have hi := (List.getElem?_eq_some_iff.1 hw).1
    rw [(set_perm_cons_eraseIdx hi (k, v)).mem_iff, mem_cons, mem_eraseIdx_iff hw]
  · next h =>
    rw [(perm_append_singleton (k, v) a.entries).mem_iff, mem_cons]
    refine or_congr_right (iff_and_self.2 ?_)
    rintro hmem rfl
    exact place_eq_none.1 h (mem_map.2 ⟨_, hmem, rfl⟩)

theorem get?_put (a : DenseArray K V) (k : K) (v : V) :
    (a.put k v).get? = update a.get? k (some v) := by
  funext k'
  apply ext
  intro w
  rw [get?_eq_some, mem_put, update_apply]
  split
  · next h => simp [h, eq_comm]
  · next h => simp [h, get?_eq_some]

def remove (a : DenseArray K V) (k : K) : DenseArray K V :=
  match h : a.place k with
  | none => a
  | some i =>
    { entries := swapRemove a.entries i
      nodup := by
        obtain ⟨w, hw⟩ := of_place h
        have hi := (List.getElem?_eq_some_iff.1 hw).1
        rw [((swapRemove_perm hi).map fst).nodup_iff]
        exact (nodup_cons_eraseIdx hw).2 }

theorem mem_remove : (k', w) ∈ (a.remove k).entries ↔ k' ≠ k ∧ (k', w) ∈ a.entries := by
  unfold remove
  split
  · next h =>
    refine iff_and_self.2 ?_
    rintro hmem rfl
    exact place_eq_none.1 h (mem_map.2 ⟨_, hmem, rfl⟩)
  · next i h =>
    obtain ⟨w, hw⟩ := of_place h
    have hi := (List.getElem?_eq_some_iff.1 hw).1
    rw [(swapRemove_perm hi).mem_iff, mem_eraseIdx_iff hw]

theorem get?_remove (a : DenseArray K V) (k : K) : (a.remove k).get? = update a.get? k none := by
  funext k'
  apply ext
  intro w
  rw [get?_eq_some, mem_remove, update_apply]
  split
  · next h => simp [h]
  · next h => simp [h, get?_eq_some]

end DenseArray

end AegisDB
