import Mathlib.Data.List.Sort
import Mathlib.Data.List.TakeWhile

/-!
# Sorted arrays

Binary search in an array whose first elements have a property and whose other elements do not:
`partitionPoint` is the number of the first ones (`partitionPoint_drop`).

`KeyedArray` is an array strictly sorted by a key of its elements. Its operations are those of a finite
map from keys to elements, stated through the members of the array: `mem_put`, `mem_erase`,
`at?_eq_some`; two arrays with the same members are equal.

`SortedBag` is an array sorted by a key that may hold an element several times. Its operations are
those of a multiset (`perm_insert`, `perm_remove`), and its windows are filters of the array.
-/

namespace AegisDB

open List Function

/-! ## Binary search -/

namespace SortedArray

variable {α : Type} {p : α → Bool} {xs : List α}

/-- The loop of a binary search between `lo` and `hi`. -/
def searchLoop (p : α → Bool) (xs : List α) : ℕ → ℕ → ℕ → ℕ
  | 0, lo, _ => lo
  | fuel + 1, lo, hi =>
    if lo < hi then
      let mid := lo + (hi - lo) / 2
      match xs[mid]? with
      | none => lo
      | some x => if p x then searchLoop p xs fuel (mid + 1) hi else searchLoop p xs fuel lo mid
    else lo

/-- The first place from `lo` on, before `hi`, whose element does not satisfy `p`. -/
def partitionPoint (p : α → Bool) (xs : List α) (lo hi : ℕ) : ℕ := searchLoop p xs (hi - lo) lo hi

/-- Behind an element that does not satisfy `p` there is none that does. -/
def Parted (p : α → Bool) (xs : List α) : Prop := xs.Pairwise fun a b => p b = true → p a = true

theorem searchLoop_eq {m : ℕ} (fuel lo hi : ℕ)
    (hbelow : ∀ (i : ℕ) x, lo ≤ i → i < m → xs[i]? = some x → p x = true)
    (habove : ∀ (i : ℕ) x, m ≤ i → xs[i]? = some x → p x = false)
    (hlo : lo ≤ m) (hm : m ≤ hi) (hhi : hi ≤ xs.length) (hfuel : hi - lo ≤ fuel) :
    searchLoop p xs fuel lo hi = m := by
  induction fuel generalizing lo hi with
  | zero =>
    unfold searchLoop
    omega
  | succ fuel ih =>
    unfold searchLoop
    split
    · have hlt : lo + (hi - lo) / 2 < xs.length := by omega
      simp only [getElem?_eq_getElem hlt]
      generalize hmid : lo + (hi - lo) / 2 = mid at hlt ⊢
      have hget := getElem?_eq_getElem hlt
      split
      · rename_i hp
        have hmm : mid < m := by
          by_contra hge
          rw [habove mid _ (by omega) hget] at hp
          cases hp
        exact ih _ _ (fun i x hi' => hbelow i x (by omega)) (by omega) hm hhi (by omega)
      · rename_i hp
        have hmm : m ≤ mid := by
          by_contra hlt'
          exact hp (hbelow mid _ (by omega) (by omega) hget)
        exact ih _ _ hbelow hlo hmm (by omega) (by omega)
    · omega

theorem Parted.not_of_mem_dropWhile (h : Parted p xs) {x : α} (hx : x ∈ xs.dropWhile p) :
    p x = false := by
  induction xs with
  | nil => cases hx
  | cons y xs ih =>
    obtain ⟨hy, hxs⟩ := pairwise_cons.1 h
    rw [dropWhile_cons] at hx
    split at hx
    · exact ih hxs hx
    · rename_i hpy
      rcases mem_cons.1 hx with rfl | hx
      · simpa using hpy
      · by_contra hpx
        exact hpy (hy x hx (by simpa using hpx))

theorem getElem?_of_lt_takeWhile {i : ℕ} {x : α} (hi : i < (xs.takeWhile p).length)
    (hx : xs[i]? = some x) : p x = true := by
  have hsplit : (xs.takeWhile p)[i]? = some x := by
    rw [← hx]
    conv_rhs => rw [← takeWhile_append_dropWhile (p := p) (l := xs)]
    rw [getElem?_append_left hi]
  exact mem_takeWhile_imp (mem_of_getElem? hsplit)

theorem mem_dropWhile_of_le {i : ℕ} {x : α} (hi : (xs.takeWhile p).length ≤ i)
    (hx : xs[i]? = some x) : x ∈ xs.dropWhile p := by
  rw [← takeWhile_append_dropWhile (l := xs), getElem?_append_right hi] at hx
  exact mem_of_getElem? hx

/-- The search finds where the elements with the property end, from where it starts on. -/
theorem partitionPoint_drop {lo : ℕ} (h : Parted p (xs.drop lo)) (hlo : lo ≤ xs.length) :
    partitionPoint p xs lo xs.length = lo + ((xs.drop lo).takeWhile p).length := by
  have hle : ((xs.drop lo).takeWhile p).length ≤ xs.length - lo := by
    simpa using (takeWhile_sublist (l := xs.drop lo) p).length_le
  refine searchLoop_eq _ _ _ (fun i x hi hlt hx => ?_) (fun i x hi hx => ?_) (by omega) (by omega)
    le_rfl le_rfl
  · have hx' : (xs.drop lo)[i - lo]? = some x := by rwa [getElem?_drop, Nat.add_sub_cancel' hi]
    exact getElem?_of_lt_takeWhile (by omega) hx'
  · have hx' : (xs.drop lo)[i - lo]? = some x := by
      rwa [getElem?_drop, Nat.add_sub_cancel' (by omega)]
    exact h.not_of_mem_dropWhile (mem_dropWhile_of_le (by omega) hx')

theorem partitionPoint_zero (h : Parted p xs) :
    partitionPoint p xs 0 xs.length = (xs.takeWhile p).length := by
  have hdrop : Parted p (xs.drop 0) := by simpa using h
  simpa using partitionPoint_drop hdrop (Nat.zero_le _)

theorem Parted.takeWhile_eq_filter (h : Parted p xs) : xs.takeWhile p = xs.filter p := by
  conv_rhs => rw [← takeWhile_append_dropWhile (p := p) (l := xs), filter_append]
  have hdrop : (xs.dropWhile p).filter p = [] :=
    filter_eq_nil_iff.2 fun x hx => by simp [h.not_of_mem_dropWhile hx]
  rw [hdrop, append_nil, filter_eq_self.2 fun x hx => mem_takeWhile_imp hx]

/-- Make room at a place and store an element there. -/
def insertAt (xs : List α) (i : ℕ) (x : α) : List α := xs.take i ++ x :: xs.drop i

def removeAt (xs : List α) (i : ℕ) : List α := xs.take i ++ xs.drop (i + 1)

theorem insertAt_append (lo hi : List α) (x : α) :
    insertAt (lo ++ hi) lo.length x = lo ++ x :: hi := by
  simp [insertAt]

theorem removeAt_append (lo hi : List α) (x : α) :
    removeAt (lo ++ x :: hi) lo.length = lo ++ hi := by
  simp [removeAt, drop_append]

theorem pairwise_insert {r : α → α → Prop} {lo hi : List α} {x : α} (h : (lo ++ hi).Pairwise r)
    (hlo : ∀ a ∈ lo, r a x) (hhi : ∀ a ∈ hi, r x a) : (lo ++ x :: hi).Pairwise r := by
  obtain ⟨h₁, h₂, h₁₂⟩ := pairwise_append.1 h
  refine pairwise_append.2 ⟨h₁, pairwise_cons.2 ⟨hhi, h₂⟩, fun a ha b hb => ?_⟩
  rcases mem_cons.1 hb with rfl | hb
  · exact hlo a ha
  · exact h₁₂ a ha b hb

variable {κ : Type} [LinearOrder κ] {key : α → κ}

/-- The first place whose key is not below `k`. -/
def lowerBound (key : α → κ) (xs : List α) (k : κ) : ℕ :=
  partitionPoint (fun a => decide (key a < k)) xs 0 xs.length

/-- A sorted array is a part below a key and a part from it on, and the search finds the border. -/
theorem lowerBound_spec (h : xs.Pairwise fun a b => key a ≤ key b) (k : κ) :
    ∃ lo hi, xs = lo ++ hi ∧ lowerBound key xs k = lo.length ∧ (∀ a ∈ lo, key a < k) ∧
      ∀ a ∈ hi, k ≤ key a := by
  have hparted : Parted (fun a => decide (key a < k)) xs := by
    refine h.imp fun hab hb => ?_
    rw [decide_eq_true_eq] at hb ⊢
    exact hab.trans_lt hb
  refine ⟨_, _, takeWhile_append_dropWhile.symm, partitionPoint_zero hparted,
    fun a ha => ?_, fun a ha => ?_⟩
  · simpa using mem_takeWhile_imp ha
  · simpa using hparted.not_of_mem_dropWhile ha

end SortedArray

open SortedArray

structure KeyedArray {α κ : Type} [LinearOrder κ] (key : α → κ) where
  items : List α
  sorted : items.Pairwise fun a b => key a < key b

namespace KeyedArray

variable {α κ : Type} [LinearOrder κ] {key : α → κ}

def empty : KeyedArray key := ⟨[], List.Pairwise.nil⟩

def slot (t : KeyedArray key) (k : κ) : ℕ := lowerBound key t.items k

def at? (t : KeyedArray key) (k : κ) : Option α := (t.items[t.slot k]?).filter fun a => key a = k

/-- How a key cuts the array: the elements below it, its own one, and those above it. -/
structure Cut (t : KeyedArray key) (k : κ) (lo : List α) (own : Option α) (hi : List α) : Prop where
  items_eq : t.items = lo ++ (own.toList ++ hi)
  slot_eq : t.slot k = lo.length
  below : ∀ a ∈ lo, key a < k
  own_key : ∀ a ∈ own, key a = k
  above : ∀ a ∈ hi, k < key a

theorem exists_cut (t : KeyedArray key) (k : κ) : ∃ lo own hi, Cut t k lo own hi := by
  obtain ⟨lo, hi, heq, hslot, hlo, hhi⟩ := lowerBound_spec (t.sorted.imp fun h => h.le) k
  have hsorted := t.sorted
  rw [heq] at hsorted
  obtain ⟨-, hsorted, -⟩ := pairwise_append.1 hsorted
  cases hi with
  | nil => exact ⟨lo, none, [], heq, hslot, hlo, by simp, by simp⟩
  | cons b hi =>
    obtain ⟨hb, -⟩ := pairwise_cons.1 hsorted
    by_cases hk : key b = k
    · exact ⟨lo, some b, hi, heq, hslot, hlo, by simpa using hk, fun a ha => hk ▸ hb a ha⟩
    · have hlt : k < key b := lt_of_le_of_ne (hhi b (by simp)) (Ne.symm hk)
      refine ⟨lo, none, b :: hi, heq, hslot, hlo, by simp, fun a ha => ?_⟩
      rcases mem_cons.1 ha with rfl | ha
      · exact hlt
      · exact hlt.trans (hb a ha)

variable {t : KeyedArray key} {lo hi : List α} {own : Option α}

theorem Cut.at?_eq {k : κ} (h : Cut t k lo own hi) : t.at? k = own := by
  rw [at?, h.slot_eq, h.items_eq, getElem?_append_right le_rfl, Nat.sub_self]
  cases own with
  | some a => simpa using h.own_key a rfl
  | none =>
    cases hi with
    | nil => rfl
    | cons b hi => simpa using (h.above b (by simp)).ne'

theorem Cut.mem {k : κ} (h : Cut t k lo own hi) {x : α} :
    x ∈ t.items ∧ key x ≠ k ↔ x ∈ lo ++ hi := by
  rw [h.items_eq]
  simp only [mem_append, Option.mem_toList]
  constructor
  · rintro ⟨hx | hx | hx, hk⟩
    · exact .inl hx
    · exact absurd (h.own_key x hx) hk
    · exact .inr hx
  · rintro (hx | hx)
    · exact ⟨.inl hx, (h.below x hx).ne⟩
    · exact ⟨.inr (.inr hx), (h.above x hx).ne'⟩

theorem Cut.sorted {k : κ} (h : Cut t k lo own hi) :
    (lo ++ hi).Pairwise fun a b => key a < key b := by
  refine List.Pairwise.sublist ?_ (h.items_eq ▸ t.sorted)
  exact (List.Sublist.refl lo).append (sublist_append_right _ _)

theorem at?_eq_some {k : κ} {a : α} : t.at? k = some a ↔ a ∈ t.items ∧ key a = k := by
  obtain ⟨lo, own, hi, h⟩ := t.exists_cut k
  rw [h.at?_eq]
  constructor
  · rintro rfl
    exact ⟨by simp [h.items_eq], h.own_key a rfl⟩
  · rintro ⟨ha, rfl⟩
    by_contra hown
    rw [h.items_eq] at ha
    rcases mem_append.1 ha with ha | ha
    · exact lt_irrefl _ (h.below a ha)
    · rcases mem_append.1 ha with ha | ha
      · exact hown (by simpa using ha)
      · exact lt_irrefl _ (h.above a ha)

/-! ## Changing the array -/

/-- The items after storing an element: in the place of the one with its key, or in a new place. -/
def putItems (t : KeyedArray key) (a : α) : List α :=
  match t.at? (key a) with
  | some _ => t.items.set (t.slot (key a)) a
  | none => insertAt t.items (t.slot (key a)) a

theorem Cut.putItems_eq {a : α} (h : Cut t (key a) lo own hi) : t.putItems a = lo ++ a :: hi := by
  rw [putItems, h.at?_eq, h.slot_eq, h.items_eq]
  cases own with
  | some b => simp
  | none => exact insertAt_append lo hi a

def put (t : KeyedArray key) (a : α) : KeyedArray key := ⟨t.putItems a, by
  obtain ⟨lo, own, hi, h⟩ := t.exists_cut (key a)
  rw [h.putItems_eq]
  exact pairwise_insert h.sorted h.below h.above⟩

theorem Cut.put_items {a : α} (h : Cut t (key a) lo own hi) :
    (t.put a).items = lo ++ a :: hi := h.putItems_eq

theorem mem_put {a x : α} : x ∈ (t.put a).items ↔ x = a ∨ x ∈ t.items ∧ key x ≠ key a := by
  obtain ⟨lo, own, hi, h⟩ := t.exists_cut (key a)
  rw [h.mem, h.put_items]
  simp only [mem_append, mem_cons]
  tauto

/-- The items without the element of a key. -/
def eraseItems (t : KeyedArray key) (k : κ) : List α :=
  match t.at? k with
  | some _ => removeAt t.items (t.slot k)
  | none => t.items

theorem Cut.eraseItems_eq {k : κ} (h : Cut t k lo own hi) : t.eraseItems k = lo ++ hi := by
  rw [eraseItems, h.at?_eq, h.slot_eq, h.items_eq]
  cases own with
  | some b => exact removeAt_append lo hi b
  | none => rfl

def erase (t : KeyedArray key) (k : κ) : KeyedArray key := ⟨t.eraseItems k, by
  obtain ⟨lo, own, hi, h⟩ := t.exists_cut k
  rw [h.eraseItems_eq]
  exact h.sorted⟩

theorem Cut.erase_items {k : κ} (h : Cut t k lo own hi) :
    (t.erase k).items = lo ++ hi := h.eraseItems_eq

theorem mem_erase {k : κ} {x : α} : x ∈ (t.erase k).items ↔ x ∈ t.items ∧ key x ≠ k := by
  obtain ⟨lo, own, hi, h⟩ := t.exists_cut k
  rw [h.mem, h.erase_items]

theorem nodup (t : KeyedArray key) : t.items.Nodup := by
  refine t.sorted.imp fun h hab => ?_
  subst hab
  exact lt_irrefl _ h

theorem ext_mem {u : KeyedArray key} (h : ∀ x, x ∈ t.items ↔ x ∈ u.items) : t = u := by
  have hperm : t.items.Perm u.items := (perm_ext_iff_of_nodup t.nodup u.nodup).2 h
  have hitems : t.items = u.items := by
    refine hperm.eq_of_pairwise (fun a b _ _ hab hba => ?_) t.sorted u.sorted
    exact absurd (hab.trans hba) (lt_irrefl _)
  cases t
  cases u
  simpa using hitems

theorem perm_put {a : α} (h : t.at? (key a) = none) : (t.put a).items.Perm (a :: t.items) := by
  obtain ⟨lo, own, hi, hc⟩ := t.exists_cut (key a)
  obtain rfl : own = none := hc.at?_eq.symm.trans h
  rw [hc.put_items, hc.items_eq]
  simp [perm_middle]

theorem perm_erase {k : κ} {a : α} (h : t.at? k = some a) :
    t.items.Perm (a :: (t.erase k).items) := by
  obtain ⟨lo, own, hi, hc⟩ := t.exists_cut k
  obtain rfl : own = some a := hc.at?_eq.symm.trans h
  rw [hc.erase_items, hc.items_eq]
  simp [perm_middle]

end KeyedArray

/-! ## Sorted bags -/

structure SortedBag {α κ : Type} [LinearOrder κ] (key : α → κ) where
  items : List α
  sorted : items.Pairwise fun a b => key a ≤ key b

namespace SortedBag

variable {α κ : Type} [LinearOrder κ] {key : α → κ}

def empty : SortedBag key := ⟨[], List.Pairwise.nil⟩

/-- Store an element in front of those that are not below it. -/
def insert (t : SortedBag key) (a : α) : SortedBag key :=
  ⟨insertAt t.items (lowerBound key t.items (key a)) a, by
    obtain ⟨lo, hi, heq, hslot, hlo, hhi⟩ := lowerBound_spec t.sorted (key a)
    rw [hslot, heq, insertAt_append]
    exact pairwise_insert (heq ▸ t.sorted) (fun b hb => (hlo b hb).le) hhi⟩

theorem perm_insert (t : SortedBag key) (a : α) : (t.insert a).items.Perm (a :: t.items) := by
  obtain ⟨lo, hi, heq, hslot, -, -⟩ := lowerBound_spec t.sorted (key a)
  change (insertAt t.items (lowerBound key t.items (key a)) a).Perm _
  rw [hslot, heq, insertAt_append]
  exact perm_middle

/-- The items without one occurrence of an element. -/
def removeItems [DecidableEq α] (t : SortedBag key) (a : α) : List α :=
  if t.items[lowerBound key t.items (key a)]? = some a then
    removeAt t.items (lowerBound key t.items (key a))
  else t.items

theorem removeItems_sublist [DecidableEq α] (t : SortedBag key) (a : α) :
    (t.removeItems a).Sublist t.items := by
  unfold removeItems removeAt
  split
  · conv_rhs => rw [← take_append_drop (lowerBound key t.items (key a)) t.items]
    exact (List.Sublist.refl _).append (drop_sublist_drop_left _ (Nat.le_succ _))
  · exact List.Sublist.refl _

def remove [DecidableEq α] (t : SortedBag key) (a : α) : SortedBag key :=
  ⟨t.removeItems a, t.sorted.sublist (t.removeItems_sublist a)⟩

theorem items_remove [DecidableEq α] (hkey : Injective key) (t : SortedBag key) (a : α) :
    (t.remove a).items = t.items.erase a := by
  obtain ⟨lo, hi, heq, hslot, hlo, hhi⟩ := lowerBound_spec t.sorted (key a)
  have hnot : a ∉ lo := fun ha => lt_irrefl _ (hlo a ha)
  have hsorted := t.sorted
  rw [heq] at hsorted
  obtain ⟨-, hsorted, -⟩ := pairwise_append.1 hsorted
  change t.removeItems a = _
  rw [removeItems, hslot, heq, getElem?_append_right le_rfl, Nat.sub_self,
    erase_append_right _ hnot]
  cases hi with
  | nil => simp
  | cons b hi =>
    by_cases hb : b = a
    · subst hb
      simp [removeAt_append]
    · -- an occurrence further on would have the key of `b`
      have hmem : a ∉ b :: hi := by
        intro ha
        rcases mem_cons.1 ha with rfl | ha
        · exact hb rfl
        · have hle := (pairwise_cons.1 hsorted).1 a ha
          exact hb (hkey (le_antisymm hle (hhi b (by simp))))
      rw [if_neg (by simpa using hb), erase_of_not_mem hmem]

theorem ext_perm (hkey : Injective key) {t u : SortedBag key}
    (h : t.items.Perm u.items) : t = u := by
  have hitems : t.items = u.items :=
    h.eq_of_pairwise (fun a b _ _ hab hba => hkey (le_antisymm hab hba)) t.sorted u.sorted
  cases t
  cases u
  simpa using hitems

/-- From the place of a key on there are the elements that are not below it. -/
theorem drop_lowerBound (t : SortedBag key) (k : κ) :
    t.items.drop (lowerBound key t.items k) = t.items.filter fun a => decide (k ≤ key a) := by
  obtain ⟨lo, hi, heq, hslot, hlo, hhi⟩ := lowerBound_spec t.sorted k
  have hlo' : lo.filter (fun a => decide (k ≤ key a)) = [] :=
    filter_eq_nil_iff.2 fun a ha => by simpa using hlo a ha
  have hhi' : hi.filter (fun a => decide (k ≤ key a)) = hi :=
    filter_eq_self.2 fun a ha => by simpa using hhi a ha
  rw [hslot, heq, drop_left, filter_append, hlo', hhi', nil_append]

theorem lowerBound_le (t : SortedBag key) (k : κ) : lowerBound key t.items k ≤ t.items.length := by
  obtain ⟨lo, hi, heq, hslot, -, -⟩ := lowerBound_spec t.sorted k
  rw [hslot, heq]
  simp

end SortedBag

end AegisDB
