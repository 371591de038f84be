import Mathlib.Algebra.Ring.Nat
import Mathlib.Data.List.Basic

/-!
# Rings of numbered entries

A ring of slots: the entry pushed as the `k`-th is put under `k % cap`, where it replaces the one that
was there, and may be taken out again. Entries carry their number modulo `2 ^ 64`. As long as the ring
has at most that many slots, two entries in it never have the same number (`RingOf.eq_of_tag`), and a
push replaces the entry whose number is `cap` less (`RingOf.mem_push`).
-/

namespace AegisDB

open UInt64

universe u

variable {α : Type u}

/-- A ring of `cap` slots behind `n` pushes. -/
structure RingOf (tag : α → UInt64) (cap n : ℕ) (slots : List (Option α)) : Prop where
  length : slots.length = cap
  entry : ∀ p x, slots[p]? = some (some x) →
    ∃ k, k < n ∧ n ≤ k + cap ∧ k % cap = p ∧ tag x = UInt64.ofNat (k + 1)

namespace RingOf

variable {tag : α → UInt64} {cap n : ℕ} {slots slots' : List (Option α)}

theorem empty (tag : α → UInt64) (cap : ℕ) : RingOf tag cap 0 (List.replicate cap none) where
  length := List.length_replicate
  entry p x h := by
    rw [List.getElem?_replicate] at h
    split_ifs at h
    cases h

theorem mono (h : RingOf tag cap n slots) (hlen : slots'.length = slots.length)
    (hsub : ∀ (p : ℕ) (x : α), slots'[p]? = some (some x) → slots[p]? = some (some x)) :
    RingOf tag cap n slots' :=
  ⟨hlen.trans h.length, fun p x hx => h.entry p x (hsub p x hx)⟩

theorem ofNat_inj {k k' : ℕ} (h : ofNat k = ofNat k') (hle : k ≤ k')
    (hlt : k' < k + 2 ^ 64) : k = k' := by
  have hmod := congrArg toNat h
  rw [toNat_ofNat', toNat_ofNat'] at hmod
  omega

section

variable (h : RingOf tag cap n slots)

include h

theorem eq_of_tag (hcap : cap ≤ 2 ^ 64) {p q : ℕ} {x y : α} (hx : slots[p]? = some (some x))
    (hy : slots[q]? = some (some y)) (htag : tag x = tag y) :
    p = q := by
  obtain ⟨k, hk, hk', hp, hkx⟩ := h.entry p x hx
  obtain ⟨j, hj, hj', hq, hjy⟩ := h.entry q y hy
  rw [hkx, hjy] at htag
  have hkj : k = j := by
    rcases Nat.le_total k j with hle | hle
    · have := ofNat_inj htag (by omega) (by omega)
      omega
    · have := ofNat_inj htag.symm (by omega) (by omega)
      omega
  rw [← hp, ← hq, hkj]

theorem tag_replaced (hcap : cap ≤ 2 ^ 64) {p : ℕ} {x : α} (hx : slots[p]? = some (some x)) :
    p = n % cap ↔ tag x + ofNat cap = ofNat (n + 1) := by
  obtain ⟨k, hk, hk', rfl, htag⟩ := h.entry p x hx
  have hsum : tag x + ofNat cap = ofNat (k + 1 + cap) := by
    rw [htag, ← ofNat_add]
  rw [hsum]
  constructor
  · intro hmod
    -- the two numbers differ by a multiple of `cap` below `cap`
    have hk'' : k + cap = n := by
      have hdiff := Nat.sub_mod_eq_zero_of_mod_eq hmod.symm
      by_contra hne
      rw [Nat.mod_eq_of_lt (by omega)] at hdiff
      omega
    rw [show k + 1 + cap = n + 1 by omega]
  · intro heq
    have := ofNat_inj heq.symm (by omega) (by omega)
    rw [show n = k + cap by omega, Nat.add_mod_right]

theorem push (hpos : 0 < cap) {x : α} (hx : tag x = ofNat (n + 1)) :
    RingOf tag cap (n + 1) (slots.set (n % cap) (some x)) where
  length := (List.length_set).trans h.length
  entry p y hy := by
    rw [List.getElem?_set] at hy
    split_ifs at hy with hp hlt
    · cases hy
      exact ⟨n, Nat.lt_succ_self n, by omega, hp, hx⟩
    · obtain ⟨k, hk, hk', hkp, htag⟩ := h.entry p y hy
      have hne : k + cap ≠ n := by
        rintro rfl
        rw [Nat.add_mod_right] at hp
        exact hp hkp
      exact ⟨k, by omega, by omega, hkp, htag⟩

theorem mem_push (hpos : 0 < cap) (hcap : cap ≤ 2 ^ 64) {x y : α} :
    some y ∈ slots.set (n % cap) (some x) ↔
      y = x ∨ some y ∈ slots ∧ tag y + .ofNat cap ≠ .ofNat (n + 1) := by
  have hplace : n % cap < slots.length := by
    rw [h.length]
    exact Nat.mod_lt n hpos
  simp only [List.mem_iff_getElem?, List.getElem?_set]
  constructor
  · rintro ⟨p, hp⟩
    split_ifs at hp with hplace'
    · exact .inl (Option.some.inj (Option.some.inj hp)).symm
    · refine .inr ⟨⟨p, hp⟩, fun htag => hplace' ?_⟩
      exact ((h.tag_replaced hcap hp).2 htag).symm
  · rintro (rfl | ⟨⟨p, hp⟩, htag⟩)
    · exact ⟨n % cap, by rw [if_pos rfl, if_pos hplace]⟩
    · refine ⟨p, ?_⟩
      rw [if_neg fun heq => htag ((h.tag_replaced hcap hp).1 heq.symm), hp]

end

end RingOf

end AegisDB
