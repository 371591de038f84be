import Mathlib.Data.List.Basic

/-!
# The terminated pieces of a stream

A stream of symbols, one of which ends a piece. `terminated` lists the pieces that have been ended;
what stands behind the last separator is no piece yet. The pieces of a stream are found one after
the other by looking for the first separator, and do not depend on where the stream was cut into
chunks: `terminated_flatten_append`.
-/

namespace AegisDB

open List

universe u

variable {α : Type u} [DecidableEq α] (sep : α)

/-- The pieces of a stream that a separator ends, without it. -/
def terminated : List α → List (List α)
  | [] => []
  | x :: xs => if x = sep then [] :: terminated xs else (terminated xs).modifyHead (List.cons x)

variable {sep}

theorem terminated_eq_nil {xs : List α} (h : sep ∉ xs) : terminated sep xs = [] := by
  induction xs with
  | nil => rfl
  | cons x xs ih =>
    obtain ⟨hx, hxs⟩ : sep ≠ x ∧ sep ∉ xs := by simpa using h
    rw [terminated, if_neg (Ne.symm hx), ih hxs]
    rfl

theorem terminated_append_cons {xs : List α} (h : sep ∉ xs) (ys : List α) :
    terminated sep (xs ++ sep :: ys) = xs :: terminated sep ys := by
  induction xs with
  | nil => exact if_pos rfl
  | cons x xs ih =>
    obtain ⟨hx, hxs⟩ : sep ≠ x ∧ sep ∉ xs := by simpa using h
    rw [cons_append, terminated, if_neg (Ne.symm hx), ih hxs]
    rfl

theorem terminated_flatten_append {pieces : List (List α)} (h : ∀ p ∈ pieces, sep ∉ p)
    (xs : List α) :
    terminated sep ((pieces.map (· ++ [sep])).flatten ++ xs) = pieces ++ terminated sep xs := by
  induction pieces with
  | nil => rfl
  | cons p pieces ih =>
    have ih := ih fun q hq => h q (mem_cons_of_mem _ hq)
    simp only [map_cons, flatten_cons, append_assoc, cons_append, nil_append]
    rw [terminated_append_cons (h p mem_cons_self), ih]

/-- Where the first separator stands, the stream falls into a piece and the rest. -/
theorem eq_append_of_idxOf {xs : List α} {i : ℕ} (h : xs.idxOf? sep = some i) :
    xs = xs.take i ++ sep :: xs.drop (i + 1) ∧ sep ∉ xs.take i := by
  induction xs generalizing i with
  | nil => simp at h
  | cons x xs ih =>
    rw [idxOf?_cons] at h
    by_cases hx : x = sep
    · simp only [hx, BEq.rfl, if_true, Option.some.injEq] at h
      subst h
      simp [hx]
    · simp only [beq_iff_eq, hx, if_false, Option.map_eq_some_iff] at h
      obtain ⟨j, hj, rfl⟩ := h
      obtain ⟨heq, hnot⟩ := ih hj
      constructor
      · rw [take_succ_cons, drop_succ_cons, cons_append, ← heq]
      · rw [take_succ_cons, mem_cons]
        exact not_or.2 ⟨Ne.symm hx, hnot⟩

theorem not_mem_of_idxOf {xs : List α} (h : xs.idxOf? sep = none) : sep ∉ xs := by
  simpa using h

end AegisDB
