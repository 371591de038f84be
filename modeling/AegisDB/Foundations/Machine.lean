import Mathlib.Data.List.Basic

/-!
# Machines and their runs

A machine is a partial step function: `step s a` is `none` where the action `a` is not enabled. A run
is a list of actions. `run_invariant` is the induction over runs: a property that every step keeps,
when the step meets a condition, holds behind every run all of whose steps meet it.
-/

namespace AegisDB

open List Option

universe u v

variable {S : Type u} {A : Type v} (step : S → A → Option S)

/-- The state behind a list of actions, if each of them is enabled in its turn. -/
def run : S → List A → Option S
  | s, [] => some s
  | s, a :: as => (step s a).bind fun s' => run s' as

/-- Every step of the run meets a condition on the state before it and the action. -/
def Along (P : S → A → Prop) : S → List A → Prop
  | _, [] => True
  | s, a :: as => P s a ∧ ∀ s', step s a = some s' → Along P s' as

instance decidableAlong (P : S → A → Prop) [∀ s a, Decidable (P s a)] :
    ∀ s as, Decidable (Along step P s as)
  | _, [] => .isTrue trivial
  | s, a :: as =>
    match h : step s a with
    | none => decidable_of_iff (P s a) ⟨fun hp => ⟨hp, by simp [h]⟩, And.left⟩
    | some s' =>
      haveI := decidableAlong P s' as
      decidable_of_iff (P s a ∧ Along step P s' as)
        ⟨fun hp => ⟨hp.1, fun t ht => by cases h.symm.trans ht; exact hp.2⟩,
          fun hp => ⟨hp.1, hp.2 s' h⟩⟩

variable {step}

@[simp] theorem run_nil (s : S) : run step s [] = some s := rfl

variable {as : List A}

theorem run_cons_eq_some {s t : S} {a : A} :
    run step s (a :: as) = some t ↔ ∃ s', step s a = some s' ∧ run step s' as = some t :=
  bind_eq_some_iff

theorem run_append (s : S) (as bs : List A) :
    run step s (as ++ bs) = (run step s as).bind fun s' => run step s' bs := by
  induction as generalizing s with
  | nil => rfl
  | cons a as ih =>
    rw [cons_append, run, run]
    cases step s a with
    | none => rfl
    | some s' => exact ih s'

theorem run_concat_eq_some {s t : S} {a : A} :
    run step s (as ++ [a]) = some t ↔ ∃ s', run step s as = some s' ∧ step s' a = some t := by
  simp [run_append, run, bind_eq_some_iff]

variable {P : S → A → Prop}

theorem along_concat {s : S} {a : A} :
    Along step P s (as ++ [a]) ↔ Along step P s as ∧ ∀ s', run step s as = some s' → P s' a := by
  induction as generalizing s with
  | nil => simp [Along]
  | cons b as ih =>
    simp only [cons_append, Along, ih, run, bind_eq_some_iff]
    constructor
    · rintro ⟨hp, h⟩
      exact ⟨⟨hp, fun s' hs => (h s' hs).1⟩, fun t ⟨s', hs, ht⟩ => (h s' hs).2 t ht⟩
    · rintro ⟨⟨hp, h⟩, ht⟩
      exact ⟨hp, fun s' hs => ⟨h s' hs, fun t hr => ht t ⟨s', hs, hr⟩⟩⟩

theorem along_of_forall (h : ∀ s a, P s a) (s : S) (as : List A) : Along step P s as := by
  induction as generalizing s with
  | nil => trivial
  | cons a as ih => exact ⟨h s a, fun s' _ => ih s'⟩

theorem along_of_forall_mem {P : A → Prop} (h : ∀ a ∈ as, P a) (s : S) :
    Along step (fun _ a => P a) s as := by
  induction as generalizing s with
  | nil => trivial
  | cons a as ih =>
    exact ⟨h a mem_cons_self, fun s' _ => ih (fun b hb => h b (mem_cons_of_mem a hb)) s'⟩

theorem Along.and {Q : S → A → Prop} {s : S} (hP : Along step P s as) (hQ : Along step Q s as) :
    Along step (fun s a => P s a ∧ Q s a) s as := by
  induction as generalizing s with
  | nil => trivial
  | cons a as ih => exact ⟨⟨hP.1, hQ.1⟩, fun s' hs' => ih (hP.2 s' hs') (hQ.2 s' hs')⟩

theorem run_invariant {I : S → Prop} (hstep : ∀ s a s', I s → P s a → step s a = some s' → I s')
    {s t : S} (hs : I s) (hP : Along step P s as) (hr : run step s as = some t) : I t := by
  induction as generalizing s with
  | nil =>
    cases hr
    exact hs
  | cons a as ih =>
    obtain ⟨s', h, hr⟩ := run_cons_eq_some.1 hr
    exact ih (hstep s a s' hs hP.1 h) (hP.2 s' h) hr

theorem run_invariant_of_step {I : S → Prop} (hstep : ∀ s a s', I s → step s a = some s' → I s')
    {s t : S} (hs : I s) (hr : run step s as = some t) : I t := by
  exact run_invariant (P := fun _ _ => True) (fun s a s' h _ => hstep s a s' h) hs
    (along_of_forall (fun _ _ => trivial) s as) hr

/-- When a step keeps `I` exactly if it meets `P`, a run does exactly if its steps do. The steps may
be known to meet a condition `Q`. -/
theorem forall_prefix_iff_along_of_run {Q : S → A → Prop} {I : S → Prop}
    (hstep : ∀ s a s', I s → Q s a → step s a = some s' → (I s' ↔ P s a)) {s t : S}
    (hQ : Along step Q s as) (hr : run step s as = some t) :
    (∀ pre, pre <+: as → ∀ t, run step s pre = some t → I t) ↔ I s ∧ Along step P s as := by
  induction as generalizing s with
  | nil =>
    constructor
    · exact fun h => ⟨h [] (prefix_refl _) s rfl, trivial⟩
    · rintro ⟨hs, -⟩ pre hpre t ht
      rw [prefix_nil.1 hpre] at ht
      cases ht
      exact hs
  | cons a as ih =>
    obtain ⟨s', hs', hr⟩ := run_cons_eq_some.1 hr
    have ih := ih (hQ.2 s' hs') hr
    have hnext : Along step P s (a :: as) ↔ P s a ∧ Along step P s' as :=
      ⟨fun h => ⟨h.1, h.2 s' hs'⟩, fun h => ⟨h.1, fun t ht => by cases hs'.symm.trans ht; exact h.2⟩⟩
    rw [hnext]
    constructor
    · intro h
      have hs : I s := h [] nil_prefix s rfl
      have htail := ih.1 fun pre hpre t ht =>
        h (a :: pre) (cons_prefix_cons.2 ⟨rfl, hpre⟩) t (run_cons_eq_some.2 ⟨s', hs', ht⟩)
      exact ⟨hs, (hstep s a s' hs hQ.1 hs').1 htail.1, htail.2⟩
    · rintro ⟨hs, hP, hPs⟩ pre hpre t ht
      cases pre with
      | nil =>
        cases ht
        exact hs
      | cons b pre =>
        obtain ⟨rfl, htail⟩ := cons_prefix_cons.1 hpre
        obtain ⟨u, hu, ht⟩ := run_cons_eq_some.1 ht
        cases hs'.symm.trans hu
        exact ih.2 ⟨(hstep s b s' hs hQ.1 hs').2 hP, hPs⟩ pre htail t ht

theorem exists_run_of_total (htotal : ∀ s a, ∃ s', step s a = some s') (s : S) (as : List A) :
    ∃ t, run step s as = some t := by
  induction as generalizing s with
  | nil => exact ⟨s, rfl⟩
  | cons a as ih =>
    obtain ⟨s', hs'⟩ := htotal s a
    obtain ⟨t, ht⟩ := ih s'
    exact ⟨t, run_cons_eq_some.2 ⟨s', hs', ht⟩⟩

theorem forall_prefix_iff_along {Q : S → A → Prop} {I : S → Prop}
    (htotal : ∀ s a, ∃ s', step s a = some s')
    (hstep : ∀ s a s', I s → Q s a → step s a = some s' → (I s' ↔ P s a)) {s : S}
    (hQ : Along step Q s as) :
    (∀ pre, pre <+: as → ∀ t, run step s pre = some t → I t) ↔ I s ∧ Along step P s as := by
  obtain ⟨t, ht⟩ := exists_run_of_total htotal s as
  exact forall_prefix_iff_along_of_run hstep hQ ht

end AegisDB
