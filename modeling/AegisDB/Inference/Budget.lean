import AegisDB.Inference.Closure

/-!
# Passes with a budget

`run_namespace` begins each pass at a cursor, and moves the cursor behind the facts the pass came to
when a cap ended it. A pass can stop between two candidates of one fact; that fact counts as scanned,
and the candidates behind the stop are looked at again only if a later pass has budget left when it
comes to the fact.

So a triple can be starved: `starved_forever` is a set of four facts on which every pass stops right
before the one candidate that is missing. `budgeted_pass_records` says which triples are not.
-/

namespace AegisDB

open List

/-- One pass of `run_namespace` over the facts, from the cursor. -/
def passFrom (mul : F32 → F32 → F32) (registry : List PredicateSpec) (facts : List InferFact)
    (opts : InferOpts) (cursor : UInt64) : InferResult :=
  inferRun mul (some registry) facts { opts with startIndex := cursor.toNat }

def nextCursor (cursor : UInt64) (res : InferResult) : UInt64 :=
  if res.truncated then cursor + UInt64.ofNat res.factsScanned else cursor

/-- The cursor before each of the passes over the same facts. -/
def cursorAt (mul : F32 → F32 → F32) (registry : List PredicateSpec) (facts : List InferFact)
    (opts : InferOpts) (cursor : UInt64) : ℕ → UInt64
  | 0 => cursor
  | k + 1 =>
    let c := cursorAt mul registry facts opts cursor k
    nextCursor c (passFrom mul registry facts opts c)

/-- The `k`-th of the passes over the same facts. -/
def passAt (mul : F32 → F32 → F32) (registry : List PredicateSpec) (facts : List InferFact)
    (opts : InferOpts) (cursor : UInt64) (k : ℕ) : InferResult :=
  passFrom mul registry facts opts (cursorAt mul registry facts opts cursor k)

/-- The closure of the facts is there, but for one triple that a rule concludes. -/
structure MissesOnly (registry : List PredicateSpec) (facts : List InferFact) (opts : InferOpts)
    (t : FactTriple) : Prop where
  closure : IsLeast {S : Set FactTriple | (triples facts : Set FactTriple) ⊆ S ∧
    ClosedUnder registry S} (insert t (triples facts : Set FactTriple))
  concludable : Concludable opts registry facts t

/-- Some candidate for the triple is within the budget wherever the scan begins. -/
def FitsBudget (registry : List PredicateSpec) (facts : List InferFact) (opts : InferOpts)
    (t : FactTriple) : Prop :=
  ∃ (x : Firing) (before behind : List Firing), Fires registry facts x ∧
    x.Supports opts.depthLimit t ∧
    firingsIn registry facts x.premise = before ++ x :: behind ∧
    (passCandidates registry facts 0).length ≤ opts.candidateLimit + behind.length

variable {mul : F32 → F32 → F32} {opts : InferOpts} {registry : List PredicateSpec}
  {facts : List InferFact} {s : PassState}

/-! ## Candidates that are reached -/

/-- The candidate after `pre` is concluded when it is within the budget. -/
theorem passEnd_of_split (hids : (facts.map InferFact.recordId).Nodup)
    (hfit : ConclusionsFit opts registry facts) {x : Firing} {pre post : List Firing}
    (hsplit : passCandidates registry facts opts.startIndex = pre ++ x :: post)
    (hbudget : pre.length + 1 ≤ opts.candidateLimit) (hdepth : x.deepest < opts.depthLimit)
    (hnew : x.triple ∉ facts.map InferFact.triple) :
    x.triple ∈ (passEnd mul registry facts opts).items.map InferConclusion.triple := by
  have hfires : ∀ y ∈ pre ++ x :: post, Fires registry facts y := by
    intro y hy
    rw [← hsplit] at hy
    exact mem_passCandidates.1 hy
  have hto : ∀ y ∈ pre ++ [x], Fires registry facts y := by
    intro y hy
    exact hfires y (by simp only [mem_append, mem_cons] at hy ⊢; tauto)
  have hstart := scanExact_passStart mul opts facts
  have hgo := hstart.not_stop hids hfit (pre ++ [x]) (by simp) hto rfl
    (by simpa [passStart] using hbudget)
  have hexact := hstart.fold hids (pre ++ [x]) (by simp) hto hgo
  obtain ⟨fired, s', hsub, -, hend, hitems⟩ := hexact.foldl_items hids post
    (by simpa using hto) fun y hy => hfires y (by simp [hy])
  rw [passEnd, hsplit, append_cons, foldl_append, ← hitems, hend.concludes]
  exact ⟨hnew, x, hsub (by simp), rfl, hdepth⟩

/-- Wherever the scan begins, no candidate that is behind `x` in the list of its fact comes before
it. -/
theorem passCandidates_split {x : Firing} {before behind : List Firing}
    (hx : x.premise ∈ facts)
    (hplace : firingsIn registry facts x.premise = before ++ x :: behind) (start : ℕ) :
    ∃ pre post, passCandidates registry facts start = pre ++ x :: post ∧
      pre.length + 1 + behind.length ≤ (passCandidates registry facts 0).length := by
  obtain ⟨front, back, hrotate⟩ := append_of_mem
    (mem_rotate.2 hx : x.premise ∈ facts.rotate (start % facts.length))
  have hsplit : passCandidates registry facts start =
      (front.flatMap (firingsIn registry facts) ++ before) ++
        x :: (behind ++ back.flatMap (firingsIn registry facts)) := by
    rw [passCandidates, hrotate, flatMap_append, flatMap_cons, hplace]
    simp
  refine ⟨_, _, hsplit, ?_⟩
  have hlen : (passCandidates registry facts start).length =
      (passCandidates registry facts 0).length :=
    (passCandidates_perm (.refl facts) 0 start).length_eq
  rw [hsplit] at hlen
  simp only [length_append, length_cons] at hlen ⊢
  omega

theorem MissesOnly.eq_of_concludable {t u : FactTriple} (h : MissesOnly registry facts opts t)
    (hu : Concludable opts registry facts u) : u = t := by
  obtain ⟨hnot, x, hx, rfl, -⟩ := hu
  have hmem := h.closure.1.2.triple_mem (fun f hf => .inr (triple_mem_triples hf)) hx
  exact hmem.resolve_right fun hin => hnot (mem_triples.1 hin)

theorem MissesOnly.conclusionsFit {t : FactTriple} (h : MissesOnly registry facts opts t) :
    ConclusionsFit opts registry facts := by
  intro hne ts hnodup hts
  have hsub : ts ⊆ [t] := fun u hu => mem_singleton.2 (h.eq_of_concludable (hts u hu))
  have := (hnodup.subperm hsub).length_le
  rw [length_singleton] at this
  omega

/-- **A pass within the budget starves nothing**: a missing triple is recorded when all candidates
but those behind its own in the list of the same fact fit. -/
theorem budgeted_pass_records {t : FactTriple} (hids : (facts.map InferFact.recordId).Nodup)
    (hmiss : MissesOnly registry facts opts t) (hfits : FitsBudget registry facts opts t)
    (cursor : UInt64) :
    ∃ k, t ∈ (passAt mul registry facts opts cursor k).items.map InferConclusion.triple := by
  obtain ⟨x, before, behind, hx, ⟨rfl, hdepth⟩, hplace, hbudget⟩ := hfits
  obtain ⟨pre, post, hsplit, hpre⟩ := passCandidates_split hx.premise_mem hplace cursor.toNat
  have hfit : ConclusionsFit { opts with startIndex := cursor.toNat } registry facts :=
    hmiss.conclusionsFit
  refine ⟨0, ?_⟩
  rw [passAt, cursorAt, passFrom, (inferRun_eq mul (some registry) facts _).1]
  refine passEnd_of_split hids hfit hsplit ?_ hdepth hmiss.concludable.1
  change _ ≤ opts.candidateLimit
  omega

theorem scanFacts_startIndex (firings : InferFact → List Firing) (start : ℕ) (fs : List InferFact)
    (r : PassState × ℕ) :
    scanFacts mul { opts with startIndex := start } firings fs r = scanFacts mul opts firings fs r := by
  induction fs generalizing r with
  | nil => rfl
  | cons f fs ih =>
    unfold scanFacts
    rw [ih]
    rfl

/-- The place where the scan begins counts modulo the number of the facts. -/
theorem inferRun_mod (start : ℕ) :
    inferRun mul (some registry) facts { opts with startIndex := start } =
      inferRun mul (some registry) facts { opts with startIndex := start % facts.length } := by
  simp only [inferRun, scanFacts_startIndex, Nat.mod_mod]

/-- `1 p 2`, `2 p 3`, `2 p 4` and `1 p 3`; of the closure only `1 p 4` is missing. -/
def starvedFacts : List InferFact :=
  [linkFact 10 1 2, linkFact 11 2 3, linkFact 12 2 4, linkFact 13 1 3]

def starvedTriple : FactTriple := (linkFact 14 1 4).triple

theorem missesOnly_starved (maxCandidates : ℕ) :
    MissesOnly [transitiveSpec] starvedFacts (.budget maxCandidates 0) starvedTriple where
  closure := by
    have hset : insert starvedTriple (triples starvedFacts : Set FactTriple) =
        (triples (linkFact 14 1 4 :: starvedFacts) : Set FactTriple) := by
      ext t
      simp [triples, starvedTriple]
    rw [hset]
    refine ⟨⟨?_, ?_⟩, ?_⟩
    · exact Finset.coe_subset.2 (by decide)
    · apply closedUnder_triples
      intro c hc
      have hall : ∀ c ∈ passCandidates [transitiveSpec] (linkFact 14 1 4 :: starvedFacts) 0,
          c.triple ∈ triples (linkFact 14 1 4 :: starvedFacts) := by decide
      exact hall c (mem_passCandidates.2 hc)
    · rintro S ⟨hbase, hS⟩
      rw [← hset]
      refine Set.insert_subset ?_ hbase
      have hspec : predicateRegistryGet [transitiveSpec] transitiveSpec.name = some transitiveSpec :=
        rfl
      exact hS.transitive (b := 2) (hbase (by decide)) (hbase (by decide)) hspec rfl
  concludable := by
    refine ⟨by decide, ?_⟩
    have hany : ∃ c ∈ passCandidates [transitiveSpec] starvedFacts 0,
        c.triple = starvedTriple ∧ c.deepest < 4 := by decide
    obtain ⟨c, hc, hct⟩ := hany
    exact ⟨c, mem_passCandidates.1 hc, hct⟩

/-- From every second fact on, a pass with a budget of one comes to the first fact last and stops
before its second candidate. -/
theorem starved_pass {cursor : UInt64} (h : cursor.toNat % 4 = 1) :
    (passFrom (fun a _ => a) [transitiveSpec] starvedFacts (.budget 1 0) cursor).items.length = 0 ∧
      (nextCursor cursor
        (passFrom (fun a _ => a) [transitiveSpec] starvedFacts (.budget 1 0) cursor)).toNat % 4 = 1 := by
  have hmod : passFrom (fun a _ => a) [transitiveSpec] starvedFacts (.budget 1 0) cursor =
      inferRun (fun a _ => a) (some [transitiveSpec]) starvedFacts (.budget 1 1) := by
    rw [passFrom, inferRun_mod]
    change inferRun _ _ _ { InferOpts.budget 1 0 with startIndex := cursor.toNat % 4 } = _
    rw [h]
    rfl
  rw [hmod]
  refine ⟨by decide +kernel, ?_⟩
  have hend : (inferRun (fun a _ => a) (some [transitiveSpec]) starvedFacts
      (.budget 1 1)).truncated = true ∧ (inferRun (fun a _ => a) (some [transitiveSpec])
        starvedFacts (.budget 1 1)).factsScanned = 4 := by decide +kernel
  rw [nextCursor, if_pos hend.1, hend.2, UInt64.toNat_add]
  change (cursor.toNat + 4) % 2 ^ 64 % 4 = 1
  omega

theorem starved_cursor (k : ℕ) :
    (cursorAt (fun a _ => a) [transitiveSpec] starvedFacts (.budget 1 0) 1 k).toNat % 4 = 1 := by
  induction k with
  | zero => rfl
  | succ k ih => exact (starved_pass ih).2

/-- With a budget of one candidate, and beginning at the second fact, no pass ever records the missing
triple. -/
theorem starved_forever :
    (starvedFacts.map InferFact.recordId).Nodup ∧
      MissesOnly [transitiveSpec] starvedFacts (.budget 1 0) starvedTriple ∧
      ∀ k, starvedTriple ∉ (passAt (fun a _ => a) [transitiveSpec] starvedFacts (.budget 1 0) 1
        k).items.map InferConclusion.triple := by
  refine ⟨by decide, missesOnly_starved 1, fun k => ?_⟩
  have hnone := (starved_pass (starved_cursor k)).1
  rw [passAt, length_eq_zero_iff.1 hnone]
  exact not_mem_nil

/-- A budget of two is enough. -/
theorem starved_recorded :
    ∃ k, starvedTriple ∈ (passAt (fun a _ => a) [transitiveSpec] starvedFacts (.budget 2 0) 1
      k).items.map InferConclusion.triple := by
  refine budgeted_pass_records (by decide) (missesOnly_starved 2) ?_ 1
  refine ⟨⟨.transitive, starvedTriple, linkFact 10 1 2, some (linkFact 12 2 4)⟩,
    [⟨.transitive, (linkFact 13 1 3).triple, linkFact 10 1 2, some (linkFact 11 2 3)⟩], [], ?_, ?_, ?_,
    ?_⟩
  · exact .transitive (f := linkFact 10 1 2) (g := linkFact 12 2 4) (by decide) rfl rfl rfl
      (by decide) rfl rfl rfl
  · exact ⟨rfl, by decide⟩
  · rfl
  · decide

end AegisDB
