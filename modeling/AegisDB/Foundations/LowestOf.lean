import Mathlib.Data.List.Nodup
import Mathlib.Data.List.Perm.Subperm
import Mathlib.Data.Set.Insert

/-!
# The lowest elements of a set

`LowestOf key n S l`: the list `l` is what a set `S` looks like to someone who keeps its `n` lowest
elements, in ascending order of a key. Elements arrive one at a time (`LowestOf.insert`,
`LowestOf.insert_of_mem`), and what is kept depends on the set alone, not on the order of arrival
(`LowestOf.unique`).
-/

namespace AegisDB

open List

variable {α κ : Type*} [LinearOrder κ]

/-- The `n` lowest elements of `S`, in ascending order. -/
structure LowestOf (key : α → κ) (n : ℕ) (S : Set α) (l : List α) : Prop where
  sorted : l.Pairwise fun a b => key a < key b
  subset : ∀ x ∈ l, x ∈ S
  length_le : l.length ≤ n
  above : ∀ x ∈ S, x ∉ l → l.length = n ∧ ∀ y ∈ l, key y < key x

namespace LowestOf

variable {key : α → κ} {n : ℕ} {S : Set α} {l : List α}

theorem empty : LowestOf key n ∅ [] where
  sorted := .nil
  subset := by simp
  length_le := Nat.zero_le n
  above := by simp

theorem nodup (h : LowestOf key n S l) : l.Nodup :=
  h.sorted.imp fun hlt heq => absurd (congrArg key heq) hlt.ne

theorem insert_of_mem (h : LowestOf key n S l) {x : α} (hx : x ∈ l) :
    LowestOf key n (insert x S) l where
  sorted := h.sorted
  subset y hy := Set.mem_insert_of_mem x (h.subset y hy)
  length_le := h.length_le
  above := by
    rintro y (rfl | hy) hnot
    · exact absurd hx hnot
    · exact h.above y hy hnot

theorem pairwise_insert (h : LowestOf key n S l) {x : α} {i : ℕ}
    (hlo : ∀ y ∈ l.take i, key y < key x) (hhi : ∀ y ∈ l.drop i, key x < key y) :
    (l.take i ++ x :: l.drop i).Pairwise fun a b => key a < key b := by
  have hdrop := h.sorted.sublist (l.drop_sublist i)
  refine pairwise_append.2 ⟨h.sorted.sublist (l.take_sublist i), pairwise_cons.2 ⟨hhi, hdrop⟩, ?_⟩
  intro y hy z hz
  rcases mem_cons.1 hz with rfl | hz
  · exact hlo y hy
  · exact (hlo y hy).trans (hhi z hz)

theorem take (hsorted : l.Pairwise fun a b => key a < key b) :
    LowestOf key n {x | x ∈ l} (l.take n) where
  sorted := hsorted.sublist (List.take_sublist n l)
  subset _ hx := List.mem_of_mem_take hx
  length_le := List.length_take_le n l
  above x hx hnot := by
    rw [Set.mem_ofPred_eq, ← take_append_drop n l] at hx
    have hdrop := (mem_append.1 hx).resolve_left hnot
    have hpos := length_pos_of_mem hdrop
    rw [length_drop] at hpos
    rw [← take_append_drop n l] at hsorted
    refine ⟨by rw [length_take]; omega, fun z hz => ?_⟩
    exact (pairwise_append.1 hsorted).2.2 z hz x hdrop

/-- A new element goes to its place, and the last one falls out of a full list. -/
theorem insert (h : LowestOf key n S l) {x : α} {i : ℕ}
    (hlo : ∀ y ∈ l.take i, key y < key x) (hhi : ∀ y ∈ l.drop i, key x < key y) :
    LowestOf key n (insert x S) ((l.take i ++ x :: l.drop i).take n) := by
  have hsorted := h.pairwise_insert hlo hhi
  have hmem : ∀ y, y ∈ l.take i ++ x :: l.drop i ↔ y = x ∨ y ∈ l := by
    intro y
    rw [← take_append_drop i l, mem_append, mem_append, mem_cons, take_append_drop]
    tauto
  have hlen : (l.take i ++ x :: l.drop i).length = l.length + 1 := by
    rw [length_append, length_cons, ← Nat.add_assoc, ← length_append, take_append_drop]
  refine ⟨(take hsorted).sorted, ?_, (take hsorted).length_le, ?_⟩
  · intro y hy
    rcases (hmem y).1 (mem_of_mem_take hy) with rfl | hy
    · exact Set.mem_insert y S
    · exact Set.mem_insert_of_mem x (h.subset y hy)
  · intro y hy hnot
    -- an element outside was outside before, or has just fallen out
    by_cases hin : y ∈ l.take i ++ x :: l.drop i
    · exact (take hsorted).above y hin hnot
    · obtain ⟨hne, hnl⟩ := not_or.1 (mt (hmem y).2 hin)
      obtain ⟨hfull, habove⟩ := h.above y (hy.resolve_left hne) hnl
      refine ⟨by rw [length_take]; omega, fun z hz => ?_⟩
      rcases (hmem z).1 (mem_of_mem_take hz) with rfl | hz'
      · -- the new element is kept, so something above it is in the list, or the list is cut before it
        have hlast : (l.drop i) ≠ [] := by
          intro hnil
          have hi : l.length ≤ i := drop_eq_nil_iff.1 hnil
          rw [hnil, take_of_length_le hi, ← hfull, take_left' rfl] at hz
          exact (lt_irrefl _ (hlo z (by rwa [take_of_length_le hi])))
        obtain ⟨w, hw⟩ := exists_mem_of_ne_nil _ hlast
        exact (hhi w hw).trans (habove w (mem_of_mem_drop hw))
      · exact habove z hz'

theorem subset_of_lowestOf {l' : List α} (h : LowestOf key n S l) (h' : LowestOf key n S l') :
    l ⊆ l' := by
  intro x hx
  by_contra hnot
  obtain ⟨hfull, hbelow⟩ := h'.above x (h.subset x hx) hnot
  -- `l'` is full of elements below `x`; they are all in `l`, with `x`, which is too many
  have hsub : ∀ y ∈ l', y ∈ l := by
    intro y hy
    by_contra hy'
    exact lt_asymm (hbelow y hy) ((h.above y (h'.subset y hy) hy').2 x hx)
  have hcons : (x :: l').Subperm l := by
    refine List.Nodup.subperm (nodup_cons.2 ⟨hnot, h'.nodup⟩) ?_
    exact cons_subset.2 ⟨hx, hsub⟩
  have hle := hcons.length_le
  have := h.length_le
  rw [length_cons] at hle
  omega

theorem unique {l' : List α} (h : LowestOf key n S l) (h' : LowestOf key n S l') : l = l' := by
  have hperm : l.Perm l' := (perm_ext_iff_of_nodup h.nodup h'.nodup).2 fun x =>
    ⟨fun hx => h.subset_of_lowestOf h' hx, fun hx => h'.subset_of_lowestOf h hx⟩
  exact hperm.eq_of_pairwise (fun a b _ _ hab hba => absurd hba hab.asymm) h.sorted h'.sorted

end LowestOf

end AegisDB
