import AegisDB.Foundations.SortedArray
import Mathlib.Data.List.SplitBy

/-!
# Runs of a sorted list

A list that is sorted by a key, split where the key changes: each run holds all the elements of one
key, in their order (`mem_splitBy_sorted`).
-/

namespace AegisDB

open SortedArray List

variable {α κ : Type} [LinearOrder κ] {f : α → κ} {r : α → α → Bool}

namespace Runs

theorem filter_append_filter {a : α} {l : List α} (h : (a :: l).Pairwise fun x y => f x ≤ f y) :
    (a :: l).filter (fun x => f x = f a) ++ (a :: l).filter (fun x => f x ≠ f a) = a :: l := by
  have hmin : ∀ x ∈ a :: l, f a ≤ f x := by
    intro x hx
    rcases mem_cons.1 hx with rfl | hx
    · exact le_rfl
    · exact rel_of_pairwise_cons h hx
  have hparted : Parted (fun x => decide (f x = f a)) (a :: l) := by
    refine h.imp_of_mem fun hx _ hxy hy => ?_
    rw [decide_eq_true_eq] at hy ⊢
    exact le_antisymm (hy ▸ hxy) (hmin _ hx)
  have hdrop : (a :: l).dropWhile (fun x => decide (f x = f a)) =
      (a :: l).filter fun x => f x ≠ f a := by
    conv_rhs => rw [← takeWhile_append_dropWhile (p := fun x => decide (f x = f a))
      (l := a :: l), filter_append]
    have htake : ((a :: l).takeWhile fun x => decide (f x = f a)).filter (fun x => f x ≠ f a) = [] :=
      filter_eq_nil_iff.2 fun x hx => by simpa using mem_takeWhile_imp hx
    rw [htake, nil_append, filter_eq_self.2 fun x hx => ?_]
    simpa using hparted.not_of_mem_dropWhile hx
  rw [← hparted.takeWhile_eq_filter, ← hdrop, takeWhile_append_dropWhile]

theorem splitBy_cons {a : α} {l : List α}
    (hr : ∀ x ∈ a :: l, ∀ y ∈ a :: l, r x y = decide (f x = f y))
    (h : (a :: l).Pairwise fun x y => f x ≤ f y) :
    (a :: l).splitBy r =
      (a :: l).filter (fun x => f x = f a) :: ((a :: l).filter fun x => f x ≠ f a).splitBy r := by
  have hne : (a :: l).filter (fun x => f x = f a) ≠ [] :=
    ne_nil_of_mem (mem_filter.2 ⟨mem_cons_self, by simp⟩)
  have hchain : ((a :: l).filter fun x => f x = f a).IsChain fun x y => r x y = true := by
    refine List.Pairwise.isChain (pairwise_of_forall_mem_list fun x hx y hy => ?_)
    obtain ⟨hx, hfx⟩ := mem_filter.1 hx
    obtain ⟨hy, hfy⟩ := mem_filter.1 hy
    rw [hr x hx y hy, decide_eq_true_eq, of_decide_eq_true hfx, of_decide_eq_true hfy]
  conv_lhs => rw [← filter_append_filter h]
  rw [splitBy_append, splitBy_of_isChain hne hchain]
  · rfl
  · intro x hx y hy
    obtain ⟨hx, hfx⟩ := mem_filter.1 (mem_of_mem_getLast? hx)
    obtain ⟨hy, hfy⟩ := mem_filter.1 (mem_of_mem_head? hy)
    rw [hr x hx y hy, decide_eq_false_iff_not, of_decide_eq_true hfx]
    exact fun heq => of_decide_eq_true hfy heq.symm

theorem mem_splitBy_sorted {l : List α} (hr : ∀ x ∈ l, ∀ y ∈ l, r x y = decide (f x = f y))
    (h : l.Pairwise fun x y => f x ≤ f y) {run : List α} :
    run ∈ l.splitBy r ↔ ∃ a ∈ l, run = l.filter fun x => f x = f a := by
  -- by induction on the length, since the other runs are those of a shorter list
  induction hn : l.length using Nat.strong_induction_on generalizing l with
  | _ n ih =>
    cases l with
    | nil => simp
    | cons a l =>
      rw [splitBy_cons hr h, mem_cons]
      have hlt : ((a :: l).filter fun x => f x ≠ f a).length < n := by
        rw [← hn]
        refine length_filter_lt_length_iff_exists.2 ⟨a, mem_cons_self, ?_⟩
        simp
      have hrest (b : α) (hb : f b ≠ f a) :
          ((a :: l).filter fun x => f x ≠ f a).filter (fun x => f x = f b) =
            (a :: l).filter fun x => f x = f b := by
        rw [filter_filter]
        refine filter_congr fun x _ => ?_
        by_cases hx : f x = f b
        · simp [hx, hb]
        · simp [hx]
      have hsub : ∀ x ∈ (a :: l).filter (fun x => f x ≠ f a), x ∈ a :: l := fun x hx =>
        (mem_filter.1 hx).1
      rw [ih _ hlt (fun x hx y hy => hr x (hsub x hx) y (hsub y hy))
        (h.sublist filter_sublist) rfl]
      constructor
      · rintro (rfl | ⟨b, hb, rfl⟩)
        · exact ⟨a, mem_cons_self, rfl⟩
        · obtain ⟨hmem, hne⟩ := mem_filter.1 hb
          exact ⟨b, hmem, hrest b (of_decide_eq_true hne)⟩
      · rintro ⟨b, hb, rfl⟩
        by_cases heq : f b = f a
        · rw [heq]
          exact .inl rfl
        · exact .inr ⟨b, mem_filter.2 ⟨hb, decide_eq_true heq⟩, (hrest b heq).symm⟩

/-- What each of some disjoint lists gives, marked by one of its elements, is given once. -/
theorem nodup_flatMap {β : Type} {L : List (List α)} {g : List α → List (α × β)}
    (hL : L.flatten.Nodup) (hnodup : ∀ l ∈ L, l.Nodup → (g l).Nodup)
    (hmem : ∀ l ∈ L, ∀ p ∈ g l, p.1 ∈ l) : (L.flatMap g).Nodup := by
  obtain ⟨hlists, hdisjoint⟩ := nodup_flatten.1 hL
  refine List.nodup_flatMap.2 ⟨fun l hl => hnodup l hl (hlists l hl), ?_⟩
  refine hdisjoint.imp_of_mem fun {l l'} hl hl' hdisj p hp hp' => ?_
  exact hdisj (hmem l hl p hp) (hmem l' hl' p hp')

end Runs

end AegisDB
