import AegisDB.Inference.Pass
import Mathlib.Data.Finset.Prod
import Mathlib.Order.Bounds.Basic

/-!
# Inference passes reach the closure

What a pass concludes is written as records, which the next pass reads as facts. The triples of the
facts grow with every pass that concludes something (`card_triples_lt`) and never leave the finite
set of triples over the ids and predicates there are (`mem_tripleSpace`), so some pass concludes
nothing. The triples are then the least set that contains the asserted ones and is closed under the
rules (`passes_reach_closure`).
-/

namespace AegisDB

open List

/-! ## Sets of triples that are closed under the rules -/

/-- The declared rules conclude nothing new from a set of triples. -/
structure ClosedUnder (registry : List PredicateSpec) (S : Set FactTriple) : Prop where
  symmetric : ∀ {a b : UInt64} {p : CString} {spec : PredicateSpec}, ⟨a, p, .id b⟩ ∈ S →
    predicateRegistryGet registry p = some spec → spec.symmetric = true → ⟨b, p, .id a⟩ ∈ S
  inverse : ∀ {a b : UInt64} {p q : CString} {spec : PredicateSpec}, ⟨a, p, .id b⟩ ∈ S →
    predicateRegistryGet registry p = some spec → spec.inverseOf = some q → ⟨b, q, .id a⟩ ∈ S
  transitive : ∀ {a b c : UInt64} {p : CString} {spec : PredicateSpec}, ⟨a, p, .id b⟩ ∈ S →
    ⟨b, p, .id c⟩ ∈ S → predicateRegistryGet registry p = some spec → spec.transitive = true →
      ⟨a, p, .id c⟩ ∈ S

def triples (facts : List InferFact) : Finset FactTriple := (facts.map InferFact.triple).toFinset

@[simp] theorem mem_triples {facts : List InferFact} {t : FactTriple} :
    t ∈ triples facts ↔ t ∈ facts.map InferFact.triple := mem_toFinset

theorem triple_mem_triples {facts : List InferFact} {f : InferFact} (hf : f ∈ facts) :
    f.triple ∈ triples facts := mem_triples.2 (mem_map_of_mem hf)

variable {registry : List PredicateSpec} {facts : List InferFact}

theorem ClosedUnder.triple_mem {S : Set FactTriple} (hS : ClosedUnder registry S)
    (hfacts : ∀ f ∈ facts, f.triple ∈ S) {c : Firing} (hc : Fires registry facts c) :
    c.triple ∈ S := by
  cases hc with
  | @symmetric f o spec hf ho hspec hrule =>
    refine hS.symmetric ?_ hspec hrule
    rw [← ho]
    exact hfacts f hf
  | @inverse f o spec q hf ho hspec hrule =>
    refine hS.inverse ?_ hspec hrule
    rw [← ho]
    exact hfacts f hf
  | @transitive f g o d spec hf ho hspec hrule hg hsubject hpredicate hobject =>
    refine hS.transitive (b := o) ?_ ?_ hspec hrule
    · rw [← ho]
      exact hfacts f hf
    · rw [← hsubject, ← hpredicate, ← hobject]
      exact hfacts g hg

theorem exists_fact {t : FactTriple} (ht : t ∈ triples facts) : ∃ f ∈ facts, f.triple = t :=
  mem_map.1 (mem_triples.1 ht)

theorem closedUnder_triples (h : ∀ c, Fires registry facts c → c.triple ∈ triples facts) :
    ClosedUnder registry (triples facts : Set FactTriple) where
  symmetric ht hspec hrule := by
    obtain ⟨f, hf, heq⟩ := exists_fact ht
    have hfires := h _ (.symmetric hf (by rw [heq]) (by rw [heq]; exact hspec) hrule)
    simp only [heq] at hfires
    exact hfires
  inverse ht hspec hrule := by
    obtain ⟨f, hf, heq⟩ := exists_fact ht
    have hfires := h _ (.inverse hf (by rw [heq]) (by rw [heq]; exact hspec) hrule)
    simp only [heq] at hfires
    exact hfires
  transitive ht ht' hspec hrule := by
    obtain ⟨f, hf, heq⟩ := exists_fact ht
    obtain ⟨g, hg, heq'⟩ := exists_fact ht'
    have hfires := h _ (.transitive hf (by rw [heq]) (by rw [heq]; exact hspec) hrule hg
      (by rw [heq']) (by rw [heq, heq']) (by rw [heq']))
    simp only [heq] at hfires
    exact hfires

/-- The ids of a triple: its subject, and its object if that is one. -/
def FactTriple.ids (t : FactTriple) : Finset UInt64 :=
  match t.object with
  | .id o => {t.subject, o}
  | .str _ => {t.subject}

/-- The ids that occur in a set of triples. -/
def idSpace (base : Finset FactTriple) : Finset UInt64 := base.biUnion FactTriple.ids

/-- The predicates that occur in a set of triples or are declared as an inverse. -/
def predicateSpace (registry : List PredicateSpec) (base : Finset FactTriple) : Finset CString :=
  base.image FactTriple.predicate ∪ (registry.filterMap PredicateSpec.inverseOf).toFinset

/-- The triples over the ids and predicates there are, and those of the base. -/
def tripleSpace (registry : List PredicateSpec) (base : Finset FactTriple) : Finset FactTriple :=
  base ∪ ((idSpace base ×ˢ predicateSpace registry base) ×ˢ idSpace base).image fun x =>
    ⟨x.1.1, x.1.2, .id x.2⟩

theorem mem_tripleSpace_id {base : Finset FactTriple} {a b : UInt64} {p : CString} :
    ⟨a, p, .id b⟩ ∈ tripleSpace registry base ↔
      a ∈ idSpace base ∧ p ∈ predicateSpace registry base ∧ b ∈ idSpace base := by
  simp only [tripleSpace, Finset.mem_union, Finset.mem_image, Finset.mem_product, Prod.exists,
    FactTriple.mk.injEq, ObjectKey.id.injEq]
  constructor
  · rintro (hmem | ⟨a', p', b', ⟨⟨ha, hp⟩, hb⟩, rfl, rfl, rfl⟩)
    · refine ⟨?_, ?_, ?_⟩
      · exact Finset.mem_biUnion.2 ⟨_, hmem, by simp [FactTriple.ids]⟩
      · exact Finset.mem_union_left _ (Finset.mem_image.2 ⟨_, hmem, rfl⟩)
      · exact Finset.mem_biUnion.2 ⟨_, hmem, by simp [FactTriple.ids]⟩
    · exact ⟨ha, hp, hb⟩
  · rintro ⟨ha, hp, hb⟩
    exact .inr ⟨a, p, b, ⟨⟨ha, hp⟩, hb⟩, rfl, rfl, rfl⟩

theorem closedUnder_tripleSpace (registry : List PredicateSpec) (base : Finset FactTriple) :
    ClosedUnder registry (tripleSpace registry base : Set FactTriple) where
  symmetric ht _ _ := by
    obtain ⟨ha, hp, hb⟩ := mem_tripleSpace_id.1 ht
    exact mem_tripleSpace_id.2 ⟨hb, hp, ha⟩
  inverse ht hspec hrule := by
    obtain ⟨ha, -, hb⟩ := mem_tripleSpace_id.1 ht
    have hq := mem_filterMap.2 ⟨_, mem_of_find?_eq_some hspec, hrule⟩
    exact mem_tripleSpace_id.2 ⟨hb, Finset.mem_union_right _ (mem_toFinset.2 hq), ha⟩
  transitive ht ht' _ _ := by
    obtain ⟨ha, hp, -⟩ := mem_tripleSpace_id.1 ht
    obtain ⟨-, -, hc⟩ := mem_tripleSpace_id.1 ht'
    exact mem_tripleSpace_id.2 ⟨ha, hp, hc⟩

/-! ## Passes -/

/-- The fact of the record a conclusion is written to. -/
def conclusionFact (id : UInt64) (c : InferConclusion) : InferFact :=
  ⟨id, c.triple, derivationDepth (c.routes.map InferRoute.toDerivRoute), c.confidence⟩

theorem map_triple_zipWith {ids : List UInt64} {items : List InferConclusion}
    (h : ids.length = items.length) :
    (zipWith conclusionFact ids items).map InferFact.triple = items.map InferConclusion.triple := by
  rw [← map_uncurry_zip_eq_zipWith, map_map]
  conv_rhs => rw [← map_snd_zip h.ge, map_map]
  rfl

/-- Each pass reads the facts, and its conclusions are facts of the next one. No cap ends a pass,
and no conclusion is refused for its depth. -/
structure Passes (mul : F32 → F32 → F32) (registry : Option (List PredicateSpec))
    (opts : ℕ → InferOpts) (facts : ℕ → List InferFact) : Prop where
  distinct : ∀ n, ((facts n).map InferFact.recordId).Nodup
  written : ∀ n, ∃ ids : List UInt64,
    ids.length = (inferRun mul registry (facts n) (opts n)).items.length ∧
      (facts (n + 1)).Perm
        (facts n ++ List.zipWith conclusionFact ids (inferRun mul registry (facts n) (opts n)).items)
  uncapped : ∀ n, (inferRun mul registry (facts n) (opts n)).truncated = false
  shallow : ∀ n c, Fires (registry.getD []) (facts n) c → c.triple ∉ (facts n).map InferFact.triple →
    ∃ x, Fires (registry.getD []) (facts n) x ∧ x.Supports (opts n).depthLimit c.triple

namespace Passes

variable {mul : F32 → F32 → F32} {reg : Option (List PredicateSpec)} {opts : ℕ → InferOpts}
  {run : ℕ → List InferFact}

section

variable (h : Passes mul reg opts run)

include h

theorem exact (n : ℕ) :
    PassExact mul (opts n) (reg.getD []) (run n) (inferRun mul reg (run n) (opts n)).items := by
  have hcap := h.uncapped n
  rw [(inferRun_eq mul reg (run n) (opts n)).2] at hcap
  rw [(inferRun_eq mul reg (run n) (opts n)).1]
  exact passExact_passEnd (h.distinct n) hcap

theorem mem_triples_succ (n : ℕ) (t : FactTriple) :
    t ∈ triples (run (n + 1)) ↔
      t ∈ triples (run n) ∨ Concludable (opts n) (reg.getD []) (run n) t := by
  obtain ⟨ids, hlen, hperm⟩ := h.written n
  rw [← (h.exact n).concludes, mem_triples, mem_triples, (hperm.map _).mem_iff, map_append,
    mem_append, map_triple_zipWith hlen]

theorem triples_subset_succ (n : ℕ) : triples (run n) ⊆ triples (run (n + 1)) :=
  fun t ht => (h.mem_triples_succ n t).2 (.inl ht)

theorem base_subset (n : ℕ) : triples (run 0) ⊆ triples (run n) := by
  induction n with
  | zero => exact Finset.Subset.refl _
  | succ n ih => exact ih.trans (h.triples_subset_succ n)

/-- **Soundness**: the passes stay inside every closed set that holds the asserted triples. -/
theorem subset_closed {S : Set FactTriple} (hbase : (triples (run 0) : Set FactTriple) ⊆ S)
    (hS : ClosedUnder (reg.getD []) S) (n : ℕ) :
    (triples (run n) : Set FactTriple) ⊆ S := by
  induction n with
  | zero => exact hbase
  | succ n ih =>
    intro t ht
    rcases (h.mem_triples_succ n t).1 ht with ht | ⟨-, x, hx, rfl, -⟩
    · exact ih ht
    · exact hS.triple_mem (fun f hf => ih (triple_mem_triples hf)) hx

/-- **Completeness**: when a pass concludes nothing, the triples are closed. -/
theorem closed_of_items_eq_nil {n : ℕ} (hnil : (inferRun mul reg (run n) (opts n)).items = []) :
    ClosedUnder (reg.getD []) (triples (run n) : Set FactTriple) := by
  apply closedUnder_triples
  intro c hc
  by_contra hnot
  rw [mem_triples] at hnot
  obtain ⟨x, hx, hsupport⟩ := h.shallow n c hc hnot
  have hmem := ((h.exact n).concludes c.triple).2 ⟨hnot, x, hx, hsupport⟩
  rw [hnil] at hmem
  cases hmem

theorem card_triples_lt {n : ℕ} (hne : (inferRun mul reg (run n) (opts n)).items ≠ []) :
    (triples (run n)).card < (triples (run (n + 1))).card := by
  obtain ⟨c, hc⟩ := exists_mem_of_ne_nil _ hne
  have hnew := ((h.exact n).concludes c.triple).1 (mem_map_of_mem hc)
  apply Finset.card_lt_card
  refine (Finset.ssubset_iff_of_subset (h.triples_subset_succ n)).2 ⟨c.triple, ?_, ?_⟩
  · exact (h.mem_triples_succ n _).2 (.inr hnew)
  · exact fun hmem => hnew.1 (mem_triples.1 hmem)

/-- Among the first passes, as many as there can be triples, one concludes nothing. -/
theorem exists_items_eq_nil : ∃ n, (inferRun mul reg (run n) (opts n)).items = [] := by
  by_contra hnone
  have hgrow : ∀ n, n ≤ (triples (run n)).card := by
    intro n
    induction n with
    | zero => exact Nat.zero_le _
    | succ n ih => exact ih.trans_lt (h.card_triples_lt fun hnil => hnone ⟨n, hnil⟩)
  set space := tripleSpace (reg.getD []) (triples (run 0))
  have hsub : triples (run (space.card + 1)) ⊆ space := by
    refine Finset.coe_subset.1 (h.subset_closed ?_ (closedUnder_tripleSpace _ _) _)
    exact Finset.coe_subset.2 Finset.subset_union_left
  have hle := (hgrow (space.card + 1)).trans (Finset.card_le_card hsub)
  omega

end

end Passes

/-- **Iterated inference reaches the closure**: after finitely many passes nothing is concluded, and
the triples are the least set over the asserted ones that is closed under the rules. -/
theorem passes_reach_closure {mul : F32 → F32 → F32} {reg : Option (List PredicateSpec)}
    {opts : ℕ → InferOpts} {run : ℕ → List InferFact} (h : Passes mul reg opts run) :
    ∃ n, (inferRun mul reg (run n) (opts n)).items = [] ∧
      IsLeast {S : Set FactTriple | (triples (run 0) : Set FactTriple) ⊆ S ∧
        ClosedUnder (reg.getD []) S} (triples (run n)) := by
  obtain ⟨n, hnil⟩ := h.exists_items_eq_nil
  refine ⟨n, hnil, ⟨Finset.coe_subset.2 (h.base_subset n), h.closed_of_items_eq_nil hnil⟩, ?_⟩
  rintro S ⟨hbase, hS⟩
  exact h.subset_closed hbase hS n

/-- The passes on a chain of two links: the first one concludes the third link. -/
def chainRun : ℕ → List InferFact
  | 0 => [linkFact 10 1 2, linkFact 11 2 3]
  | _ + 1 => [linkFact 10 1 2, linkFact 11 2 3, { linkFact 12 1 3 with depth := 1 }]

theorem chainRun_cases {P : List InferFact → Prop} (h₀ : P (chainRun 0)) (h₁ : P (chainRun 1))
    (n : ℕ) : P (chainRun n) := by
  cases n with
  | zero => exact h₀
  | succ n => exact h₁

theorem nodup_chainRun (n : ℕ) : ((chainRun n).map InferFact.recordId).Nodup :=
  chainRun_cases (P := fun facts => (facts.map InferFact.recordId).Nodup) (by decide) (by decide) n

theorem passes_chainRun :
    Passes (fun a _ => a) (some [transitiveSpec]) (fun _ => .budget 0 0) chainRun where
  distinct := nodup_chainRun
  written n := by
    cases n with
    | zero => exact ⟨[12], by decide +kernel, .of_eq (by decide +kernel)⟩
    | succ n =>
      have hnone : (inferRun (fun a _ => a) (some [transitiveSpec]) (chainRun 1)
          (.budget 0 0)).items.length = 0 := by decide +kernel
      exact ⟨[], hnone.symm, .of_eq (append_nil _).symm⟩
  uncapped n := by
    rw [(inferRun_eq _ _ _ _).2]
    refine passEnd_truncated (nodup_chainRun n) ?_ (conclusionsFit_budget _ _ _ _)
    exact chainRun_cases (P := fun facts => (passCandidates [transitiveSpec] facts 0).length ≤ _)
      (by decide) (by decide) n
  shallow n c hc _ := by
    refine ⟨c, hc, rfl, hc.deepest_lt ?_⟩
    exact chainRun_cases (P := fun facts => ∀ f ∈ facts, f.depth < 4) (by decide) (by decide) n

theorem chainRun_reaches_closure :
    ∃ n, (inferRun (fun a _ => a) (some [transitiveSpec]) (chainRun n) (.budget 0 0)).items = [] ∧
      IsLeast {S : Set FactTriple | (triples (chainRun 0) : Set FactTriple) ⊆ S ∧
        ClosedUnder [transitiveSpec] S} (triples (chainRun n)) :=
  passes_reach_closure passes_chainRun

end AegisDB
