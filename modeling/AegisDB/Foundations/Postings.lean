import AegisDB.Foundations.SortedArray

/-!
# Posting tables and intern tables

`Postings` files elements under keys: every key has an array of the elements filed under it, sorted
and without repetition. A key with nothing under it and an absent key are the same, so that a table
that reclaims its empty slots is modelled as well as one that keeps them. What an operation does is
said through `Holds`, and two tables that hold the same are equal (`Postings.ext_holds`).

`InternTable` numbers names in the order in which they are first seen, from one on, up to a limit.
Nothing is ever taken out, so that a number keeps its meaning (`InternTable.find?_of_le`).
-/

namespace AegisDB

open List Function KeyedArray

/-! ## Posting tables -/

structure Postings (K : Type) {α κ : Type} [LinearOrder κ] (key : α → κ) where
  slot : K → KeyedArray key

namespace Postings

variable {K α κ : Type} [LinearOrder κ] {key : α → κ}

def empty : Postings K key := ⟨fun _ => .empty⟩

def under (t : Postings K key) (k : K) : List α := (t.slot k).items

def Holds (t : Postings K key) (k : K) (a : α) : Prop := a ∈ t.under k

@[simp] theorem not_holds_empty (k : K) (a : α) : ¬ (empty : Postings K key).Holds k a := by
  simp [Holds, under, empty, KeyedArray.empty]

variable {t : Postings K key}

theorem ext_holds {u : Postings K key} (h : ∀ k a, t.Holds k a ↔ u.Holds k a) : t = u := by
  have hslot : t.slot = u.slot := funext fun k => ext_mem (h k)
  cases t
  cases u
  simpa using hslot

theorem nodup_under (t : Postings K key) (k : K) : (t.under k).Nodup := (t.slot k).nodup

variable [DecidableEq K]

def add (t : Postings K key) (k : K) (a : α) : Postings K key :=
  ⟨update t.slot k ((t.slot k).put a)⟩

/-- Take out what is filed under a key with a given key of its own. -/
def remove (t : Postings K key) (k : K) (x : κ) : Postings K key :=
  ⟨update t.slot k ((t.slot k).erase x)⟩

/-- Take out all that is filed under a key. -/
def clear (t : Postings K key) (k : K) : Postings K key := ⟨update t.slot k .empty⟩

theorem holds_add' {k j : K} {a b : α} :
    (t.add k a).Holds j b ↔ (j = k ∧ b = a) ∨ t.Holds j b ∧ ¬ (j = k ∧ key b = key a) := by
  by_cases hj : j = k
  · subst hj
    simp [Holds, under, add, mem_put]
  · simp [Holds, under, add, hj]

theorem holds_add (hkey : Injective key) {k j : K} {a b : α} :
    (t.add k a).Holds j b ↔ (j = k ∧ b = a) ∨ t.Holds j b := by
  rw [holds_add', hkey.eq_iff]
  constructor
  · rintro (h | h)
    · exact .inl h
    · exact .inr h.1
  · rintro (h | h)
    · exact .inl h
    · by_cases hab : j = k ∧ b = a
      · exact .inl hab
      · exact .inr ⟨h, hab⟩

theorem holds_remove {k j : K} {x : κ} {b : α} :
    (t.remove k x).Holds j b ↔ t.Holds j b ∧ ¬ (j = k ∧ key b = x) := by
  by_cases hj : j = k
  · subst hj
    simp [Holds, under, remove, mem_erase]
  · simp [Holds, under, remove, hj]

theorem holds_clear {k j : K} {b : α} : (t.clear k).Holds j b ↔ t.Holds j b ∧ j ≠ k := by
  by_cases hj : j = k
  · subst hj
    simp [Holds, under, clear, KeyedArray.empty]
  · simp [Holds, under, clear, hj]

theorem holds_foldl_add (hkey : Injective key) {ks : List K} {j : K} {a b : α} :
    (ks.foldl (fun t k => t.add k a) t).Holds j b ↔ (j ∈ ks ∧ b = a) ∨ t.Holds j b := by
  induction ks generalizing t with
  | nil => simp
  | cons k ks ih =>
    rw [foldl_cons, ih, holds_add hkey, mem_cons]
    tauto

theorem holds_foldl_remove {ks : List K} {j : K} {x : κ} {b : α} :
    (ks.foldl (fun t k => t.remove k x) t).Holds j b ↔ t.Holds j b ∧ ¬ (j ∈ ks ∧ key b = x) := by
  induction ks generalizing t with
  | nil => simp
  | cons k ks ih =>
    rw [foldl_cons, ih, holds_remove, mem_cons]
    tauto

end Postings

/-! ## Intern tables -/

/-- Names in the order in which they were first seen. -/
structure InternTable (K : Type) where
  /-- The name at place `i` has the number `i + 1`. -/
  names : List K
  nodup : names.Nodup

namespace InternTable

variable {K : Type} [DecidableEq K]

def empty : InternTable K := ⟨[], List.nodup_nil⟩

def find? (t : InternTable K) (k : K) : Option ℕ :=
  if k ∈ t.names then some (t.names.idxOf k + 1) else none

def name? (t : InternTable K) : ℕ → Option K
  | 0 => none
  | i + 1 => t.names[i]?

/-- The table with a name behind the others. -/
def push (t : InternTable K) (k : K) (h : k ∉ t.names) : InternTable K :=
  ⟨t.names ++ [k], by
    rw [List.nodup_append]
    refine ⟨t.nodup, List.nodup_singleton k, fun a ha b hb => ?_⟩
    rw [List.mem_singleton.1 hb]
    rintro rfl
    exact h ha⟩

/-- The number of a name, which gets one while the table is below its limit. -/
def intern (t : InternTable K) (limit : ℕ) (k : K) : InternTable K × Option ℕ :=
  if h : k ∈ t.names then (t, t.find? k)
  else if limit ≤ t.names.length then (t, none)
  else (t.push k h, some (t.names.length + 1))

variable {t : InternTable K}

theorem find?_eq_some {k : K} {i : ℕ} : t.find? k = some i ↔ t.name? i = some k := by
  unfold find?
  cases i with
  | zero => simp [name?]
  | succ i =>
    simp only [name?, Option.ite_none_right_eq_some, Option.some.injEq, Nat.add_right_cancel_iff]
    constructor
    · rintro ⟨hk, rfl⟩
      rw [getElem?_eq_getElem (idxOf_lt_length_iff.2 hk), getElem_idxOf]
    · intro h
      obtain ⟨hlt, rfl⟩ := List.getElem?_eq_some_iff.1 h
      exact ⟨getElem_mem hlt, t.nodup.idxOf_getElem i hlt⟩

theorem find?_eq_none {k : K} : t.find? k = none ↔ k ∉ t.names := by
  simp [find?]

theorem find?_injective {k k' : K} {i : ℕ} (h : t.find? k = some i) (h' : t.find? k' = some i) :
    k = k' := by
  rw [find?_eq_some] at h h'
  exact Option.some.inj (h.symm.trans h')

def Le (t u : InternTable K) : Prop := ∃ more, u.names = t.names ++ more

theorem find?_of_le {u : InternTable K} (h : t.Le u) {k : K} {i : ℕ} (hi : t.find? k = some i) :
    u.find? k = some i := by
  obtain ⟨more, hu⟩ := h
  rw [find?_eq_some] at hi ⊢
  cases i with
  | zero => cases hi
  | succ i =>
    have hlt : i < t.names.length := (List.getElem?_eq_some_iff.1 hi).1
    rw [name?, hu, getElem?_append_left hlt]
    exact hi

theorem le_intern (t : InternTable K) (limit : ℕ) (k : K) : t.Le (t.intern limit k).1 := by
  unfold intern
  split
  · exact ⟨[], by simp⟩
  · split
    · exact ⟨[], by simp⟩
    · exact ⟨[k], rfl⟩

theorem find?_intern (t : InternTable K) (limit : ℕ) (k : K) :
    (t.intern limit k).1.find? k = (t.intern limit k).2 := by
  unfold intern
  split
  · rfl
  · rename_i h
    split
    · exact find?_eq_none.2 h
    · rw [find?_eq_some]
      simp [name?, push]

theorem mem_names_intern {limit : ℕ} {k k' : K} (h : k' ∈ (t.intern limit k).1.names) :
    k' ∈ t.names ∨ k' = k := by
  unfold intern at h
  split at h
  · exact .inl h
  · split at h
    · exact .inl h
    · exact (mem_append.1 h).imp_right mem_singleton.1

omit [DecidableEq K] in
theorem Le.length_le {u : InternTable K} (h : t.Le u) : t.names.length ≤ u.names.length := by
  obtain ⟨more, hu⟩ := h
  simp [hu]

omit [DecidableEq K] in
theorem Le.trans {u v : InternTable K} (h : t.Le u) (h' : u.Le v) : t.Le v := by
  obtain ⟨more, hu⟩ := h
  obtain ⟨more', hv⟩ := h'
  exact ⟨more ++ more', by rw [hv, hu, append_assoc]⟩

theorem intern_eq_none {limit : ℕ} {k : K} :
    (t.intern limit k).2 = none ↔ k ∉ t.names ∧ limit ≤ t.names.length := by
  unfold intern
  by_cases h : k ∈ t.names
  · simp [h, find?]
  · by_cases hl : limit ≤ t.names.length <;> simp [h, hl]

end InternTable

end AegisDB
