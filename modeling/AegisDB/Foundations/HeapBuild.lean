import AegisDB.Foundations.BoundedHeap
import Mathlib.Data.List.Perm.Subperm

/-!
# The best of many by a heap built in place

The first `n` entries are made a heap from the last parent to the root, and the others are offered to
it one by one. Entries may have the same key, so that which of them are kept is not determined; their
keys are: `sortedKeys_heapBest` says that they are the first `n` of all keys in order.

`take_eq_take_iff` compares two such cuts by the numbers of keys up to a bound.
-/

namespace AegisDB

open List

section

variable {κ : Type} [LinearOrder κ] (key : ℕ → κ)

/-- Make a heap of the first `n` entries, from the last parent to the root. -/
def heapify (n : ℕ) : ℕ → ℕ :=
  (List.range (n / 2)).reverse.foldl (fun h i => siftDown key n n h i) id

/-- The entries that are kept when a heap of the first `n` was offered those up to `m`. -/
def heapBest (n m : ℕ) : List ℕ :=
  entriesOf ((List.range' n (m - n)).foldl (heapStep key n) (heapify key n, n)).1 n

variable {key} {n : ℕ}

theorem heapify_spec (n : ℕ) :
    IsHeap key n (heapify key n) ∧ (entriesOf (heapify key n) n).Perm (range n) := by
  have hfrom : ∀ m ≤ n / 2, ∀ h : ℕ → ℕ,
      (∀ j, 0 < j → j < n → m ≤ (j - 1) / 2 → key (h j) ≤ key (h ((j - 1) / 2))) →
      IsHeap key n ((range m).reverse.foldl (fun h i => siftDown key n n h i) h) ∧
        (entriesOf ((range m).reverse.foldl (fun h i => siftDown key n n h i) h) n).Perm
          (entriesOf h n) := by
    intro m
    induction m with
    | zero => exact fun _ h hh => ⟨fun j hj hjn => hh j hj hjn (Nat.zero_le _), .rfl⟩
    | succ m ih =>
      intro hm h hh
      have hdown : DownFrom key n h m m :=
        ⟨fun j hj hjn hle hne => hh j hj hjn (by omega), fun j hj hjn hp hpos hle => by omega⟩
      obtain ⟨hheap, hperm⟩ := heapFrom_siftDown n hdown le_rfl (by omega) (by omega)
      obtain ⟨hheap', hperm'⟩ := ih (by omega) _ hheap
      rw [range_succ, reverse_append, reverse_singleton, singleton_append, foldl_cons]
      exact ⟨hheap', hperm'.trans hperm⟩
  have hid : entriesOf id n = range n := map_id _
  have hall := hfrom (n / 2) le_rfl id fun j hj hjn hle => by omega
  rwa [hid] at hall

theorem bestOf_heapify (n : ℕ) : BestOf key n n (heapify key n, n) := by
  obtain ⟨hheap, hperm⟩ : IsHeap key n (heapify key n) ∧ _ := heapify_spec n
  have hmem : ∀ x, x ∈ entriesOf (heapify key n) n ↔ x < n := fun x => by
    rw [hperm.mem_iff, mem_range]
  refine ⟨(min_self n).symm, hheap, hperm.nodup_iff.2 nodup_range, fun x => (hmem x).1,
    fun _ x => (hmem x).2, fun x hx hnot => absurd ((hmem x).2 hx) hnot⟩

theorem BestOf.foldl_heapStep {s : (ℕ → ℕ) × ℕ} {i : ℕ} (hs : BestOf key n i s) (d : ℕ) :
    BestOf key n (i + d) ((range' i d).foldl (heapStep key n) s) := by
  induction d with
  | zero => exact hs
  | succ d ih =>
    rw [range'_concat, foldl_append, Nat.one_mul]
    exact ih.step

theorem bestOf_heapBest {m : ℕ} (h : n ≤ m) :
    (heapBest key n m).Nodup ∧ (heapBest key n m).length = n ∧ (∀ x ∈ heapBest key n m, x < m) ∧
      ∀ x < m, x ∉ heapBest key n m → ∀ y ∈ heapBest key n m, key y ≤ key x := by
  have hfirst : BestOf key n n (heapify key n, n) := bestOf_heapify n
  have hbest := hfirst.foldl_heapStep (m - n)
  rw [Nat.add_sub_cancel' h] at hbest
  have hsize := hbest.size
  rw [min_eq_left h] at hsize
  obtain ⟨-, -, hnodup, hlt, -, hle⟩ := hbest
  rw [hsize] at hnodup hlt hle
  exact ⟨hnodup, length_entriesOf _ _, hlt, hle⟩

end

/-! ## The keys of a cut -/

section

variable {α κ : Type} [LinearOrder κ] {key : α → κ}

variable (key) in
def sortedKeys (l : List α) : List κ := (sortBy key l).map key

theorem perm_sortedKeys (l : List α) : (sortedKeys key l).Perm (l.map key) :=
  (perm_sortBy key l).map key

theorem pairwise_sortedKeys (l : List α) : (sortedKeys key l).Pairwise (· ≤ ·) :=
  pairwise_map.2 (pairwise_sortBy key l)

/-- If nothing that is left out has a smaller key, the keys of a selection are the first ones. -/
theorem sortedKeys_eq_take {l s r : List α} (hperm : l.Perm (s ++ r))
    (hle : ∀ x ∈ s, ∀ y ∈ r, key x ≤ key y) :
    sortedKeys key s = (sortedKeys key l).take s.length := by
  have hsplit : sortedKeys key s ++ sortedKeys key r = sortedKeys key l := by
    refine List.Perm.eq_of_pairwise (fun a b _ _ => le_antisymm) ?_ (pairwise_sortedKeys l) ?_
    · refine pairwise_append.2 ⟨pairwise_sortedKeys s, pairwise_sortedKeys r, ?_⟩
      intro a ha b hb
      obtain ⟨x, hx, rfl⟩ := mem_map.1 ((perm_sortedKeys s).mem_iff.1 ha)
      obtain ⟨y, hy, rfl⟩ := mem_map.1 ((perm_sortedKeys r).mem_iff.1 hb)
      exact hle x hx y hy
    · have hkeys := (hperm.map key).symm
      rw [map_append] at hkeys
      exact ((perm_sortedKeys s).append (perm_sortedKeys r)).trans
        (hkeys.trans (perm_sortedKeys l).symm)
  have hlen : (sortedKeys key s).length = s.length := by
    rw [(perm_sortedKeys s).length_eq, length_map]
  rw [← hsplit, ← hlen, take_left]

variable (key) in
/-- A heap of `n` keeps as many entries, and none of the others has a smaller key. -/
theorem heapBest_parts {l : List α} {n : ℕ} (hn : n ≤ l.length) :
    ∃ rest, l.Perm ((heapBest (keyAt key l) n l.length).filterMap (fun i => l[i]?) ++ rest) ∧
      ((heapBest (keyAt key l) n l.length).filterMap fun i => l[i]?).length = n ∧
      ∀ x ∈ (heapBest (keyAt key l) n l.length).filterMap fun i => l[i]?,
        ∀ y ∈ rest, key x ≤ key y := by
  obtain ⟨hnodup, hlen, hlt, hbest⟩ : (heapBest (keyAt key l) n l.length).Nodup ∧ _ :=
    bestOf_heapBest hn
  obtain ⟨rest, hperm, hcount, hle⟩ := parts_of_indices hnodup hlt hbest
  exact ⟨rest, hperm, hcount.trans hlen, hle⟩

theorem sortedKeys_heapBest {l : List α} {n : ℕ} (hn : n ≤ l.length) :
    sortedKeys key ((heapBest (keyAt key l) n l.length).filterMap fun i => l[i]?) =
      (sortedKeys key l).take n := by
  obtain ⟨rest, hperm, hlen, hle⟩ := heapBest_parts key hn
  rw [sortedKeys_eq_take hperm hle, hlen]

end

section

variable {κ : Type} [LinearOrder κ] {l l' : List κ}

theorem countP_take_of_pairwise (h : l.Pairwise (· ≤ ·)) (k : ℕ) (c : κ) :
    (l.take k).countP (fun a => decide (a ≤ c)) = min k (l.countP fun a => decide (a ≤ c)) := by
  induction l generalizing k with
  | nil => simp
  | cons a l ih =>
    obtain ⟨ha, hl⟩ := pairwise_cons.1 h
    cases k with
    | zero => simp
    | succ k =>
      rw [take_succ_cons, countP_cons, countP_cons, ih hl]
      by_cases hac : a ≤ c
      · simp only [hac, decide_true, if_true]
        omega
      · have hnone : (l.countP fun a => decide (a ≤ c)) = 0 := by
          rw [countP_eq_zero]
          exact fun b hb => by simpa using (not_le.1 hac).trans_le (ha b hb)
        simp [hac, hnone]

theorem eq_of_countP_eq (h : l.Pairwise (· ≤ ·)) (h' : l'.Pairwise (· ≤ ·))
    (hcount : ∀ c, (l.countP fun a => decide (a ≤ c)) = l'.countP fun a => decide (a ≤ c)) :
    l = l' := by
  induction l generalizing l' with
  | nil =>
    cases l' with
    | nil => rfl
    | cons b l' => simpa using hcount b
  | cons a l ih =>
    cases l' with
    | nil => simpa using hcount a
    | cons b l' =>
      obtain ⟨ha, hl⟩ := pairwise_cons.1 h
      obtain ⟨hb, hl'⟩ := pairwise_cons.1 h'
      have hfirst : ∀ {x y : κ} {xs ys : List κ}, (∀ z ∈ ys, y ≤ z) →
          ((x :: xs).countP (fun z => decide (z ≤ x)) =
            (y :: ys).countP fun z => decide (z ≤ x)) → y ≤ x := by
        intro x y xs ys hy heq
        by_contra hlt
        have hzero : ((y :: ys).countP fun z => decide (z ≤ x)) = 0 := by
          rw [countP_eq_zero]
          intro z hz
          rcases mem_cons.1 hz with rfl | hz
          · simpa using hlt
          · simpa using (not_le.1 hlt).trans_le (hy z hz)
        rw [hzero] at heq
        simp at heq
      obtain rfl : a = b := le_antisymm (hfirst ha (hcount b).symm) (hfirst hb (hcount a))
      rw [ih hl hl' fun c => by simpa [countP_cons] using hcount c]

/-- Two cuts of sorted lists are the same when they have as many entries up to every bound. -/
theorem take_eq_take_iff (h : l.Pairwise (· ≤ ·)) (h' : l'.Pairwise (· ≤ ·)) (k : ℕ) :
    l.take k = l'.take k ↔ ∀ c, min k (l.countP fun a => decide (a ≤ c)) =
      min k (l'.countP fun a => decide (a ≤ c)) := by
  constructor
  · intro heq c
    rw [← countP_take_of_pairwise h, ← countP_take_of_pairwise h', heq]
  · intro hcount
    refine eq_of_countP_eq (h.sublist (take_sublist k l)) (h'.sublist (take_sublist k l'))
      fun c => ?_
    rw [countP_take_of_pairwise h, countP_take_of_pairwise h', hcount c]

end

end AegisDB
