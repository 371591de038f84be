import Mathlib.Data.List.Sort
import Mathlib.Order.WithBot

/-!
# The best of many by a bounded heap

A heap of at most `n` places keeps the `n` entries of smallest key among all that were offered to it:
its root is the largest key it holds, so that a smaller one replaces the root. The heap is an array of
entries by their places; the places of the tree are numbered row by row, `(i - 1) / 2` being the parent
of `i`.

`selectTop` selects with such a heap of indices, and sorts what it has selected. It is a sort of
everything followed by a cut (`selectTop_eq_take`) as long as no two candidates have the same key.
-/

namespace AegisDB

open List Function Equiv

/-! ## The heap -/

/-- An array with the entries at two places exchanged. -/
def swapAt (h : ℕ → ℕ) (i j : ℕ) : ℕ → ℕ := h ∘ Equiv.swap i j

@[simp] theorem swapAt_left (h : ℕ → ℕ) (i j : ℕ) : swapAt h i j i = h j := by simp [swapAt]

@[simp] theorem swapAt_right (h : ℕ → ℕ) (i j : ℕ) : swapAt h i j j = h i := by simp [swapAt]

theorem swapAt_of_ne (h : ℕ → ℕ) {i j x : ℕ} (hi : x ≠ i) (hj : x ≠ j) : swapAt h i j x = h x := by
  simp [swapAt, swap_apply_of_ne_of_ne hi hj]

/-- The entries at the first `n` places. -/
def entriesOf (h : ℕ → ℕ) (n : ℕ) : List ℕ := (List.range n).map h

theorem mem_entriesOf {h : ℕ → ℕ} {n x : ℕ} : x ∈ entriesOf h n ↔ ∃ t < n, h t = x := by
  simp [entriesOf]

@[simp] theorem length_entriesOf (h : ℕ → ℕ) (n : ℕ) : (entriesOf h n).length = n := by
  simp [entriesOf]

theorem perm_swapAt (h : ℕ → ℕ) {n i j : ℕ} (hi : i < n) (hj : j < n) :
    (entriesOf (swapAt h i j) n).Perm (entriesOf h n) := by
  have hswap : ((range n).map (swap i j)).Perm (range n) := by
    rw [perm_ext_iff_of_nodup (nodup_range.map (swap i j).injective)
      nodup_range]
    intro x
    simp only [mem_map, mem_range]
    constructor
    · rintro ⟨y, hy, rfl⟩
      rw [swap_apply_def]
      split_ifs <;> assumption
    · intro hx
      refine ⟨swap i j x, ?_, swap_apply_self ..⟩
      rw [swap_apply_def]
      split_ifs <;> assumption
  have := hswap.map h
  rwa [map_map] at this

section

variable {κ : Type} [LinearOrder κ] (key : ℕ → κ)

/-- `idx_sift_up`: move the entry at a place up while its key is larger than its parent's. -/
def siftUp : ℕ → (ℕ → ℕ) → ℕ → ℕ → ℕ
  | 0, h, _ => h
  | fuel + 1, h, i =>
    if i = 0 then h
    else if key (h i) ≤ key (h ((i - 1) / 2)) then h
    else siftUp fuel (swapAt h i ((i - 1) / 2)) ((i - 1) / 2)

/-- The place of the largest key among a place and its children. -/
def worstChild (h : ℕ → ℕ) (n i : ℕ) : ℕ :=
  let w := if 2 * i + 1 < n ∧ key (h i) < key (h (2 * i + 1)) then 2 * i + 1 else i
  if 2 * i + 2 < n ∧ key (h w) < key (h (2 * i + 2)) then 2 * i + 2 else w

/-- `idx_sift_down`: move the entry at a place down while a child has a larger key. -/
def siftDown (n : ℕ) : ℕ → (ℕ → ℕ) → ℕ → ℕ → ℕ
  | 0, h, _ => h
  | fuel + 1, h, i =>
    if worstChild key h n i = i then h
    else siftDown n fuel (swapAt h i (worstChild key h n i)) (worstChild key h n i)

/-- No key is larger than that of its parent. -/
def IsHeap (n : ℕ) (h : ℕ → ℕ) : Prop := ∀ j, 0 < j → j < n → key (h j) ≤ key (h ((j - 1) / 2))

variable {key} {n : ℕ} {h : ℕ → ℕ} {i : ℕ}

theorem IsHeap.le_root (hh : IsHeap key n h) {j : ℕ} (hj : j < n) : key (h j) ≤ key (h 0) := by
  induction j using Nat.strongRecOn with
  | _ j ih =>
    rcases Nat.eq_zero_or_pos j with rfl | hpos
    · exact le_rfl
    · exact (hh j hpos hj).trans (ih ((j - 1) / 2) (by omega) (by omega))

variable (key n h i) in
/-- A heap but for the key at one place, which may be too large for its parent. -/
structure UpHeap : Prop where
  except : ∀ j, 0 < j → j < n → j ≠ i → key (h j) ≤ key (h ((j - 1) / 2))
  grand : ∀ j, 0 < j → j < n → (j - 1) / 2 = i → 0 < i → key (h j) ≤ key (h ((i - 1) / 2))

theorem UpHeap.swap (hh : UpHeap key n h i) (hi : 0 < i) (hn : i < n)
    (hlt : key (h ((i - 1) / 2)) < key (h i)) :
    UpHeap key n (swapAt h i ((i - 1) / 2)) ((i - 1) / 2) := by
  have hparent : (i - 1) / 2 < i := by omega
  constructor
  · intro j hj hjn hjp
    by_cases hji : j = i
    · subst hji
      rw [swapAt_left, swapAt_right]
      exact hlt.le
    rw [swapAt_of_ne h hji hjp]
    by_cases hpi : (j - 1) / 2 = i
    · rw [hpi, swapAt_left]
      exact hh.grand j hj hjn hpi hi
    by_cases hpp : (j - 1) / 2 = (i - 1) / 2
    · have hup := hh.except j hj hjn hji
      rw [hpp] at hup
      rw [hpp, swapAt_right]
      exact hup.trans hlt.le
    · rw [swapAt_of_ne h hpi hpp]
      exact hh.except j hj hjn hji
  · intro j hj hjn hjp hpos
    have hup := hh.except ((i - 1) / 2) hpos (by omega) (by omega)
    rw [swapAt_of_ne h (x := ((i - 1) / 2 - 1) / 2) (by omega) (by omega)]
    by_cases hji : j = i
    · subst hji
      rw [swapAt_left]
      exact hup
    · rw [swapAt_of_ne h hji (by omega)]
      have := hh.except j hj hjn hji
      rw [hjp] at this
      exact this.trans hup

theorem isHeap_siftUp (fuel : ℕ) (hh : UpHeap key n h i) (hn : i < n) (hfuel : i ≤ fuel) :
    IsHeap key n (siftUp key fuel h i) ∧ (entriesOf (siftUp key fuel h i) n).Perm (entriesOf h n) := by
  induction fuel generalizing h i with
  | zero =>
    obtain rfl : i = 0 := by omega
    exact ⟨fun j hj hjn => hh.except j hj hjn hj.ne', .rfl⟩
  | succ fuel ih =>
    unfold siftUp
    split
    · rename_i hzero
      exact ⟨fun j hj hjn => hh.except j hj hjn (by omega), .rfl⟩
    · split
      · rename_i hle
        refine ⟨fun j hj hjn => ?_, .rfl⟩
        by_cases hji : j = i
        · subst hji
          exact hle
        · exact hh.except j hj hjn hji
      · rename_i hzero hlt
        obtain ⟨hheap, hperm⟩ := ih (hh.swap (Nat.pos_of_ne_zero hzero) hn (not_le.1 hlt)) (by omega)
          (by omega)
        exact ⟨hheap, hperm.trans (perm_swapAt h hn (by omega))⟩

variable (key n h i) in
/-- A heap but for the key at one place, which may be too small for its children. -/
structure DownHeap : Prop where
  except : ∀ j, 0 < j → j < n → (j - 1) / 2 ≠ i → key (h j) ≤ key (h ((j - 1) / 2))
  grand : ∀ j, 0 < j → j < n → (j - 1) / 2 = i → 0 < i → key (h j) ≤ key (h ((i - 1) / 2))

variable (key) in
/-- The largest key is at least that of the place, and those of its children. -/
theorem le_worstChild (h : ℕ → ℕ) (n i : ℕ) :
    key (h i) ≤ key (h (worstChild key h n i)) ∧
      ∀ j, 0 < j → j < n → (j - 1) / 2 = i → key (h j) ≤ key (h (worstChild key h n i)) := by
  unfold worstChild
  have hchild (j : ℕ) (hj : 0 < j) (hp : (j - 1) / 2 = i) : j = 2 * i + 1 ∨ j = 2 * i + 2 := by omega
  dsimp only
  split_ifs with hl hr hr
  · refine ⟨hl.2.le.trans hr.2.le, fun j hj hjn hp => ?_⟩
    rcases hchild j hj hp with rfl | rfl
    · exact hr.2.le
    · exact le_rfl
  · refine ⟨hl.2.le, fun j hj hjn hp => ?_⟩
    rcases hchild j hj hp with rfl | rfl
    · exact le_rfl
    · exact not_lt.1 fun hlt => hr ⟨hjn, hlt⟩
  · refine ⟨hr.2.le, fun j hj hjn hp => ?_⟩
    rcases hchild j hj hp with rfl | rfl
    · exact (not_lt.1 fun hlt => hl ⟨hjn, hlt⟩).trans hr.2.le
    · exact le_rfl
  · refine ⟨le_rfl, fun j hj hjn hp => ?_⟩
    rcases hchild j hj hp with rfl | rfl
    · exact not_lt.1 fun hlt => hl ⟨hjn, hlt⟩
    · exact not_lt.1 fun hlt => hr ⟨hjn, hlt⟩

/-- If the largest key is not at the place, it is at one of its children. -/
theorem worstChild_ne (hne : worstChild key h n i ≠ i) :
    worstChild key h n i < n ∧ 0 < worstChild key h n i ∧ (worstChild key h n i - 1) / 2 = i := by
  unfold worstChild at hne ⊢
  dsimp only at hne ⊢
  split_ifs at hne ⊢ with hl hr hr
  · exact ⟨hr.1, by omega, by omega⟩
  · exact ⟨hl.1, by omega, by omega⟩
  · exact ⟨hr.1, by omega, by omega⟩
  · exact absurd rfl hne

variable (key n h i) in
/-- A heap from a place on, but for the key at one place. -/
structure DownFrom (m : ℕ) : Prop where
  except : ∀ j, 0 < j → j < n → m ≤ (j - 1) / 2 → (j - 1) / 2 ≠ i →
    key (h j) ≤ key (h ((j - 1) / 2))
  grand : ∀ j, 0 < j → j < n → (j - 1) / 2 = i → 0 < i → m ≤ (i - 1) / 2 →
    key (h j) ≤ key (h ((i - 1) / 2))

theorem DownFrom.swap {m : ℕ} (hh : DownFrom key n h i m) (hm : m ≤ i)
    (hne : worstChild key h n i ≠ i) :
    DownFrom key n (swapAt h i (worstChild key h n i)) (worstChild key h n i) m := by
  obtain ⟨hwn, hwpos, hwi⟩ := worstChild_ne hne
  obtain ⟨hself, hbest⟩ := le_worstChild key h n i
  generalize worstChild key h n i = w at *
  constructor
  · intro j hj hjn hjm hjp
    by_cases hpi : (j - 1) / 2 = i
    · rw [hpi, swapAt_left]
      by_cases hjw : j = w
      · subst hjw
        rw [swapAt_right]
        exact hself
      · rw [swapAt_of_ne h (by omega) hjw]
        exact hbest j hj hjn hpi
    · rw [swapAt_of_ne h hpi hjp]
      by_cases hji : j = i
      · subst hji
        rw [swapAt_left]
        exact hh.grand w hwpos hwn hwi hj hjm
      · rw [swapAt_of_ne h hji (by rintro rfl; exact hpi hwi)]
        exact hh.except j hj hjn hjm hpi
  · intro j hj hjn hjp hpos _
    rw [hwi, swapAt_left, swapAt_of_ne h (by omega) (by omega), ← hjp]
    exact hh.except j hj hjn (by omega) (by omega)

theorem heapFrom_siftDown {m : ℕ} (fuel : ℕ) (hh : DownFrom key n h i m) (hm : m ≤ i) (hn : i < n)
    (hfuel : n ≤ fuel + i) :
    (∀ j, 0 < j → j < n → m ≤ (j - 1) / 2 →
      key (siftDown key n fuel h i j) ≤ key (siftDown key n fuel h i ((j - 1) / 2))) ∧
      (entriesOf (siftDown key n fuel h i) n).Perm (entriesOf h n) := by
  induction fuel generalizing h i with
  | zero => omega
  | succ fuel ih =>
    unfold siftDown
    split
    · rename_i hself
      refine ⟨fun j hj hjn hjm => ?_, .rfl⟩
      by_cases hp : (j - 1) / 2 = i
      · have := (le_worstChild key h n i).2 j hj hjn hp
        rw [hself] at this
        rwa [hp]
      · exact hh.except j hj hjn hjm hp
    · rename_i hne
      obtain ⟨hwn, hwpos, hwi⟩ := worstChild_ne hne
      obtain ⟨hheap, hperm⟩ := ih (hh.swap hm hne) (by omega) hwn (by omega)
      exact ⟨hheap, hperm.trans (perm_swapAt h hn hwn)⟩

theorem isHeap_siftDown (fuel : ℕ) (hh : DownHeap key n h i) (hn : i < n) (hfuel : n ≤ fuel + i) :
    IsHeap key n (siftDown key n fuel h i) ∧
      (entriesOf (siftDown key n fuel h i) n).Perm (entriesOf h n) := by
  have hfrom : DownFrom key n h i 0 :=
    ⟨fun j hj hjn _ => hh.except j hj hjn, fun j hj hjn hp hi _ => hh.grand j hj hjn hp hi⟩
  obtain ⟨hheap, hperm⟩ := heapFrom_siftDown fuel hfrom (Nat.zero_le i) hn hfuel
  exact ⟨fun j hj hjn => hheap j hj hjn (Nat.zero_le _), hperm⟩

variable (key) in
/-- Offer an index to a heap of at most `n` places; the heap comes with the number of places in use. -/
def heapStep (n : ℕ) (s : (ℕ → ℕ) × ℕ) (i : ℕ) : (ℕ → ℕ) × ℕ :=
  if s.2 < n then (siftUp key s.2 (update s.1 s.2 i) s.2, s.2 + 1)
  -- smaller than the largest one kept: it takes the place of the root
  else if key i < key (s.1 0) then (siftDown key s.2 s.2 (update s.1 0 i) 0, s.2)
  else s

variable (key) in
/-- The loop of `select_top`: the indices it has kept when all of them were offered. -/
def heapSelect (n m : ℕ) : List ℕ :=
  let s := (List.range m).foldl (heapStep key n) (fun _ => 0, 0)
  entriesOf s.1 s.2

variable (key) in
/-- The heap holds the best of the indices below `i`. -/
structure BestOf (n i : ℕ) (s : (ℕ → ℕ) × ℕ) : Prop where
  size : s.2 = min n i
  heap : IsHeap key s.2 s.1
  nodup : (entriesOf s.1 s.2).Nodup
  lt : ∀ x ∈ entriesOf s.1 s.2, x < i
  full : s.2 < n → ∀ x < i, x ∈ entriesOf s.1 s.2
  best : ∀ x < i, x ∉ entriesOf s.1 s.2 → ∀ y ∈ entriesOf s.1 s.2, key y ≤ key x

theorem entriesOf_update_last (h : ℕ → ℕ) (k i : ℕ) :
    entriesOf (update h k i) (k + 1) = entriesOf h k ++ [i] := by
  simp only [entriesOf, range_succ, map_append, map_cons, update_self,
    map_nil, append_cancel_right_eq]
  refine map_congr_left fun t ht => update_of_ne ?_ _ _
  have := mem_range.1 ht
  omega

theorem entriesOf_succ (h : ℕ → ℕ) (k : ℕ) :
    entriesOf h (k + 1) = h 0 :: (range k).map fun t => h (t + 1) := by
  simp [entriesOf, range_succ_eq_map, comp_def]

variable {s : (ℕ → ℕ) × ℕ}

theorem BestOf.push (hs : BestOf key n i s) (hlt : s.2 < n) :
    BestOf key n (i + 1) (siftUp key s.2 (update s.1 s.2 i) s.2, s.2 + 1) := by
  obtain ⟨h, k⟩ := s
  have hk : k = i := by
    have := hs.size
    omega
  subst hk
  have hup : UpHeap key (k + 1) (update h k k) k := by
    constructor
    · intro j hj hjn hjk
      rw [update_of_ne hjk, update_of_ne (by omega)]
      exact hs.heap j hj (by dsimp only; omega)
    · intro j hj hjn hp hpos
      omega
  obtain ⟨hheap, hperm⟩ := isHeap_siftUp k hup (Nat.lt_succ_self k) le_rfl
  rw [entriesOf_update_last] at hperm
  have hmem (x : ℕ) : x ∈ entriesOf (siftUp key k (update h k k) k) (k + 1) ↔
      x ∈ entriesOf h k ∨ x = k := by
    rw [hperm.mem_iff, mem_append, mem_singleton]
  have hold (x : ℕ) (hx : x < k + 1) : x ∈ entriesOf (siftUp key k (update h k k) k) (k + 1) := by
    rw [hmem]
    rcases Nat.lt_succ_iff_lt_or_eq.1 hx with hx | rfl
    · exact .inl (hs.full hlt x hx)
    · exact .inr rfl
  refine ⟨by dsimp only at hlt ⊢; omega, hheap, ?_, fun x hx => ?_, fun _ => hold, fun x hx hnot =>
    absurd (hold x hx) hnot⟩
  · rw [hperm.nodup_iff, nodup_append]
    refine ⟨hs.nodup, nodup_singleton k, ?_⟩
    rintro x hx y hy rfl
    rw [mem_singleton] at hy
    exact (hs.lt x hx).ne hy
  · rcases (hmem x).1 hx with hx | rfl
    · exact (hs.lt x hx).trans (Nat.lt_succ_self k)
    · exact Nat.lt_succ_self x

theorem BestOf.keep (hs : BestOf key n i s) (hfull : ¬ s.2 < n) (hle : key (s.1 0) ≤ key i) :
    BestOf key n (i + 1) s := by
  refine ⟨?_, hs.heap, hs.nodup, fun x hx => (hs.lt x hx).trans (Nat.lt_succ_self i),
    fun h => absurd h hfull, fun x hx hnot y hy => ?_⟩
  · have := hs.size
    omega
  · rcases Nat.lt_succ_iff_lt_or_eq.1 hx with hx | rfl
    · exact hs.best x hx hnot y hy
    · obtain ⟨t, ht, rfl⟩ := mem_entriesOf.1 hy
      exact (hs.heap.le_root ht).trans hle

theorem BestOf.replace (hs : BestOf key n i s) (hfull : ¬ s.2 < n) (hlt : key i < key (s.1 0)) :
    BestOf key n (i + 1) (siftDown key s.2 s.2 (update s.1 0 i) 0, s.2) := by
  obtain ⟨h, k⟩ := s
  have hsize : k = min n (i + 1) := by
    have := hs.size
    dsimp only at this hfull
    omega
  cases k with
  | zero =>
    have hnil (h' : ℕ → ℕ) : entriesOf h' 0 = [] := rfl
    exact ⟨hsize, fun j _ hj => absurd hj (Nat.not_lt_zero j), by simp [hnil], by simp [hnil],
      fun hn => absurd hn hfull, by simp [hnil]⟩
  | succ k =>
    have hdown : DownHeap key (k + 1) (update h 0 i) 0 := by
      constructor
      · intro j hj hjn hp
        rw [update_of_ne hj.ne', update_of_ne hp]
        exact hs.heap j hj hjn
      · intro j _ _ _ hpos
        exact absurd hpos (lt_irrefl 0)
    obtain ⟨hheap, hperm⟩ := isHeap_siftDown (k + 1) hdown (Nat.succ_pos k) le_rfl
    have htail : (List.range k).map (fun t => update h 0 i (t + 1)) =
        (List.range k).map fun t => h (t + 1) :=
      map_congr_left fun t _ => update_of_ne (Nat.succ_ne_zero t) _ _
    rw [entriesOf_succ (update h 0 i), update_self, htail] at hperm
    have hnodup := hs.nodup
    have hlt' := hs.lt
    have hbest := hs.best
    have hroot (y : ℕ) (hy : y ∈ entriesOf h (k + 1)) : key y ≤ key (h 0) := by
      obtain ⟨t, ht, rfl⟩ := mem_entriesOf.1 hy
      exact hs.heap.le_root ht
    rw [entriesOf_succ h] at hnodup hlt' hbest hroot
    generalize (List.range k).map (fun t => h (t + 1)) = tail at *
    obtain ⟨-, htailNodup⟩ := nodup_cons.1 hnodup
    refine ⟨hsize, hheap, ?_, fun x hx => ?_, fun hn => absurd hn hfull, fun x hx hnot y hy => ?_⟩
    · rw [hperm.nodup_iff, nodup_cons]
      exact ⟨fun hi => (hlt' i (mem_cons_of_mem _ hi)).ne rfl, htailNodup⟩
    · rcases mem_cons.1 (hperm.mem_iff.1 hx) with rfl | hx
      · exact Nat.lt_succ_self x
      · exact (hlt' x (mem_cons_of_mem _ hx)).trans (Nat.lt_succ_self i)
    · rw [hperm.mem_iff, mem_cons, not_or] at hnot
      have hxi : x < i := lt_of_le_of_ne (Nat.le_of_lt_succ hx) hnot.1
      -- `x` was not kept, or it is the root that was replaced
      have hge : key (h 0) ≤ key x := by
        by_cases hxr : x = h 0
        · rw [hxr]
        · exact hbest x hxi (by simp [hxr, hnot.2]) (h 0) (by simp)
      rcases mem_cons.1 (hperm.mem_iff.1 hy) with rfl | hy
      · exact hlt.le.trans hge
      · exact (hroot y (mem_cons_of_mem _ hy)).trans hge

theorem BestOf.step (hs : BestOf key n i s) : BestOf key n (i + 1) (heapStep key n s i) := by
  unfold heapStep
  split_ifs with hroom hlt
  · exact hs.push hroom
  · exact hs.replace hroom hlt
  · exact hs.keep hroom (not_lt.1 hlt)

variable (key n) in
theorem bestOf_foldl (m : ℕ) :
    BestOf key n m ((range m).foldl (heapStep key n) (fun _ => 0, 0)) := by
  induction m with
  | zero =>
    exact ⟨by simp, fun j _ hj => absurd hj (Nat.not_lt_zero j), by simp [entriesOf],
      by simp [entriesOf], by simp, by simp⟩
  | succ m ih =>
    rw [range_succ, foldl_append]
    exact ih.step

end

/-! ## Select and sort -/

section

variable {α κ : Type} [LinearOrder κ] (key : α → κ)

/-- `qsort` by a key. -/
def sortBy (l : List α) : List α := l.mergeSort fun a b => decide (key a ≤ key b)

/-- The key of the candidate with an index. -/
def keyAt (cands : List α) (i : ℕ) : WithBot κ := cands[i]?.map key

/-- `select_top`: the `n` candidates of smallest key, sorted. -/
def selectTop (cands : List α) (n : ℕ) : List α :=
  if cands.length ≤ n then sortBy key cands
  else
    sortBy key ((heapSelect (keyAt key cands) n cands.length).filterMap fun i => cands[i]?)

theorem perm_sortBy (l : List α) : (sortBy key l).Perm l := mergeSort_perm l _

theorem pairwise_sortBy (l : List α) : (sortBy key l).Pairwise fun a b => key a ≤ key b := by
  have hsorted : (sortBy key l).Pairwise fun a b => decide (key a ≤ key b) = true :=
    pairwise_mergeSort
      (fun a b c hab hbc => by simpa using (of_decide_eq_true hab).trans (of_decide_eq_true hbc))
      (fun a b => by simpa using le_total (key a) (key b)) l
  exact hsorted.imp of_decide_eq_true

variable {key}

theorem mem_of_mem_selectTop {cands : List α} {n : ℕ} {a : α} (h : a ∈ selectTop key cands n) :
    a ∈ cands := by
  unfold selectTop at h
  split at h
  · exact (perm_sortBy key cands).mem_iff.1 h
  · obtain ⟨i, -, hi⟩ := mem_filterMap.1 ((perm_sortBy key _).mem_iff.1 h)
    exact mem_of_getElem? hi

variable {l : List α}

/-- Lists with the same elements are sorted alike, when no two of them have the same key. -/
theorem sortBy_eq_of_perm {l' : List α} (hnodup : (l.map key).Nodup) (h : l.Perm l') {s : List α}
    (hs : s.Perm l') (hsorted : s.Pairwise fun a b => key a ≤ key b) :
    sortBy key l = s := by
  have hperm := (perm_sortBy key l).trans (h.trans hs.symm)
  refine hperm.eq_of_pairwise ?_ (pairwise_sortBy key l) hsorted
  intro a b ha hb hab hba
  exact inj_on_of_nodup_map hnodup ((perm_sortBy key l).mem_iff.1 ha)
    ((perm_sortBy key l).mem_iff.1 (hperm.mem_iff.2 hb)) (le_antisymm hab hba)

theorem filterMap_range_getElem? (l : List α) (n : ℕ) :
    (range n).filterMap (fun i => l[i]?) = l.take n := by
  induction n with
  | zero => rfl
  | succ n ih =>
    rw [range_succ, filterMap_append, ih, take_add_one]
    cases hn : l[n]? <;> simp [hn]

theorem perm_filterMap_indices {kept : List ℕ} (l : List α) (hnodup : kept.Nodup)
    (hlt : ∀ i ∈ kept, i < l.length) :
    l.Perm (kept.filterMap (fun i => l[i]?) ++
      ((range l.length).filter (· ∉ kept)).filterMap fun i => l[i]?) := by
  have hkept : kept.Perm ((range l.length).filter (· ∈ kept)) := by
    refine (perm_ext_iff_of_nodup hnodup (nodup_range.filter _)).2 fun i => ?_
    simpa using hlt i
  have hperm : (kept ++ (range l.length).filter (· ∉ kept)).Perm (range l.length) := by
    refine (hkept.append_right _).trans ?_
    simpa using filter_append_perm (fun i => decide (i ∈ kept)) (range l.length)
  have hl := hperm.filterMap fun i => l[i]?
  rw [filterMap_range_getElem?, take_length, filterMap_append] at hl
  exact hl.symm

/-- Indices whose keys are the smallest select as many entries, and no other has a smaller key. -/
theorem parts_of_indices {kept : List ℕ} (hnodup : kept.Nodup) (hlt : ∀ i ∈ kept, i < l.length)
    (hbest : ∀ i < l.length, i ∉ kept → ∀ j ∈ kept, keyAt key l j ≤ keyAt key l i) :
    ∃ rest, l.Perm (kept.filterMap (fun i => l[i]?) ++ rest) ∧
      (kept.filterMap fun i => l[i]?).length = kept.length ∧
      ∀ x ∈ kept.filterMap fun i => l[i]?, ∀ y ∈ rest, key x ≤ key y := by
  refine ⟨_, perm_filterMap_indices l hnodup hlt, ?_, ?_⟩
  · rw [length_filterMap_eq_countP, countP_eq_length.2]
    intro i hi
    rw [getElem?_eq_getElem (hlt i hi)]
    rfl
  · intro x hx y hy
    obtain ⟨i, hi, hix⟩ := mem_filterMap.1 hx
    obtain ⟨j, hj, hjy⟩ := mem_filterMap.1 hy
    rw [mem_filter, mem_range, decide_eq_true_eq] at hj
    have hle := hbest j hj.1 hj.2 i hi
    simp only [keyAt, hix, hjy, Option.map_some] at hle
    exact WithBot.coe_le_coe.1 hle

/-- `select_top` keeps as many candidates as it should, and none of the others has a smaller key. -/
theorem selectTop_parts (key : α → κ) (l : List α) (n : ℕ) :
    ∃ rest, l.Perm (selectTop key l n ++ rest) ∧ (selectTop key l n).length = min n l.length ∧
      (∀ x ∈ selectTop key l n, ∀ y ∈ rest, key x ≤ key y) ∧
      (selectTop key l n).Pairwise fun a b => key a ≤ key b := by
  unfold selectTop
  split_ifs with hall
  · refine ⟨[], ?_, ?_, by simp, pairwise_sortBy key l⟩
    · rw [append_nil]
      exact (perm_sortBy key l).symm
    · rw [(perm_sortBy key l).length_eq, min_eq_right hall]
  · have hheap := bestOf_foldl (keyAt key l) n l.length
    obtain ⟨rest, hperm, hlen, hle⟩ := parts_of_indices hheap.nodup hheap.lt hheap.best
    have hsort := perm_sortBy key
      ((heapSelect (keyAt key l) n l.length).filterMap fun i => l[i]?)
    refine ⟨rest, hperm.trans (hsort.symm.append_right rest), ?_,
      fun x hx => hle x (hsort.mem_iff.1 hx), pairwise_sortBy key _⟩
    exact hsort.length_eq.trans (hlen.trans ((length_entriesOf _ _).trans hheap.size))

theorem length_selectTop (key : α → κ) (l : List α) (n : ℕ) :
    (selectTop key l n).length = min n l.length := by
  obtain ⟨-, -, hlen, -⟩ := selectTop_parts key l n
  exact hlen

theorem selectTop_eq_take {cands : List α} (hnodup : (cands.map key).Nodup) (n : ℕ) :
    selectTop key cands n = (sortBy key cands).take n := by
  obtain ⟨rest, hperm, hlen, hle, hsorted⟩ := selectTop_parts key cands n
  have hrest := perm_sortBy key rest
  have hall : sortBy key cands = selectTop key cands n ++ sortBy key rest := by
    refine sortBy_eq_of_perm hnodup hperm (hrest.append_left _) ?_
    refine pairwise_append.2 ⟨hsorted, pairwise_sortBy key rest, fun x hx y hy => ?_⟩
    exact hle x hx y (hrest.mem_iff.1 hy)
  have hcount := congrArg List.length hall
  rw [length_append, (perm_sortBy key cands).length_eq] at hcount
  rcases le_total n cands.length with hn | hn
  · rw [hall, take_left' (by omega)]
  · rw [take_of_length_le ((perm_sortBy key cands).length_eq.trans_le hn), hall,
      length_eq_zero_iff.1 (show (sortBy key rest).length = 0 by omega), append_nil]

theorem selectTop_eq_of_perm {l' : List α} (hnodup : (l.map key).Nodup) (h : l.Perm l') (n : ℕ) :
    selectTop key l n = selectTop key l' n := by
  rw [selectTop_eq_take hnodup, selectTop_eq_take ((h.map key).nodup_iff.1 hnodup),
    sortBy_eq_of_perm hnodup h (perm_sortBy key l') (pairwise_sortBy key l')]

variable [DecidableEq α]

theorem mem_eraseReps_loop {x a : α} {acc : List α} :
    x ∈ eraseRepsBy.loop (· == ·) a l acc ↔ x ∈ acc ∨ x = a ∨ x ∈ l := by
  induction l generalizing a acc with
  | nil => simp [eraseRepsBy.loop, or_comm]
  | cons b l ih =>
    unfold eraseRepsBy.loop
    split
    · rename_i heq
      rw [ih, beq_iff_eq.1 heq]
      simp
    · rw [ih, mem_cons, mem_cons]
      tauto

theorem mem_eraseReps {x : α} : x ∈ l.eraseReps ↔ x ∈ l := by
  cases l with
  | nil => exact Iff.rfl
  | cons a l => exact mem_eraseReps_loop.trans (by simp)

/-- What was kept is below the last entry, and that is not above what is to come. -/
theorem pairwise_eraseReps_loop (hkey : Injective key) {a : α} {acc : List α}
    (hl : (a :: l).Pairwise fun x y => key x ≤ key y)
    (hacc : (a :: acc).Pairwise fun x y => key y < key x) :
    (eraseRepsBy.loop (· == ·) a l acc).Pairwise fun x y => key x < key y := by
  induction l generalizing a acc with
  | nil => exact pairwise_reverse.2 hacc
  | cons b l ih =>
    obtain ⟨hle, htail⟩ := pairwise_cons.1 hl
    unfold eraseRepsBy.loop
    split
    · rename_i heq
      cases beq_iff_eq.1 heq
      exact ih htail hacc
    · rename_i hne
      have hlt : key a < key b := (hle b mem_cons_self).lt_of_ne fun h => by simp [hkey h] at hne
      refine ih htail (pairwise_cons.2 ⟨fun x hx => ?_, hacc⟩)
      rcases mem_cons.1 hx with rfl | hx
      · exact hlt
      · exact ((pairwise_cons.1 hacc).1 x hx).trans hlt

theorem pairwise_eraseReps_sortBy (hkey : Injective key) (l : List α) :
    (sortBy key l).eraseReps.Pairwise fun x y => key x < key y := by
  have hsorted := pairwise_sortBy key l
  cases h : sortBy key l with
  | nil => exact List.Pairwise.nil
  | cons a l =>
    rw [h] at hsorted
    exact pairwise_eraseReps_loop hkey hsorted (pairwise_singleton _ _)

theorem nodup_eraseReps_sortBy (hkey : Injective key) (l : List α) :
    (sortBy key l).eraseReps.Nodup :=
  (pairwise_eraseReps_sortBy hkey l).imp fun hxy hne => hxy.ne (congrArg key hne)

theorem mem_eraseReps_sortBy {x : α} : x ∈ (sortBy key l).eraseReps ↔ x ∈ l :=
  mem_eraseReps.trans (perm_sortBy key l).mem_iff

/-- The sorted list of the elements of a list does not depend on their order and number. -/
theorem eraseReps_sortBy_congr (hkey : Injective key) {l' : List α}
    (h : ∀ x, x ∈ l ↔ x ∈ l') : (sortBy key l).eraseReps = (sortBy key l').eraseReps := by
  have hlt (l : List α) := pairwise_eraseReps_sortBy hkey l
  refine List.Perm.eq_of_pairwise (fun a b _ _ hab hba => absurd hab hba.asymm) (hlt l) (hlt l') ?_
  exact (perm_ext_iff_of_nodup (nodup_eraseReps_sortBy hkey l)
    (nodup_eraseReps_sortBy hkey l')).2 fun x =>
      mem_eraseReps_sortBy.trans ((h x).trans mem_eraseReps_sortBy.symm)

end

end AegisDB
