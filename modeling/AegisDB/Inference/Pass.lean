import AegisDB.Inference.Routes

/-!
# What one inference pass concludes

`inferRun_exact`: a pass that no cap ends is sound and complete for one step of the rules.

`ScanExact` relates the state of the scan to the candidates it has been through: the conclusions are
the triples they support, each with the lowest of its routes. Every candidate keeps it
(`ScanExact.step`), so it holds of a pass that no cap ends; and whether a cap ends a pass depends on
the facts and not on their order (`ScanExact.not_stop`, `foldl_examine_caps`).
-/

namespace AegisDB

open List Function Option
open InferConclusion (triple)
open InferFact (recordId)

variable (mul : F32 → F32 → F32)
variable {t : FactTriple}

/-! ## The routes of a conclusion -/

/-- The firing supports a triple within the depth limit. -/
def Firing.Supports (maxDepth : UInt16) (t : FactTriple) (c : Firing) : Prop :=
  c.triple = t ∧ c.deepest < maxDepth

/-- The routes of a set of firings to a triple. -/
def validRoutes (floor : F32) (maxDepth : UInt16) (fired : Set Firing) (t : FactTriple) :
    Set InferRoute :=
  {rt | ∃ c ∈ fired, c.Supports maxDepth t ∧ c.route mul floor = rt}

/-- The routes that are kept are the lowest. -/
def KeepsLowest (routes : Set InferRoute) (kept : List InferRoute) : Prop :=
  LowestOf InferRoute.key derivMaxRoutes routes kept

theorem KeepsLowest.insert {routes : Set InferRoute} {kept : List InferRoute}
    (h : KeepsLowest routes kept) (rt : InferRoute) (hsame : ∀ x ∈ kept, x.key = rt.key → x = rt) :
    KeepsLowest (insert rt routes) (routesInsert kept rt) :=
  LowestOf.placeRoute h rt hsame

theorem KeepsLowest.first (rt : InferRoute) : KeepsLowest {rt} (routesInsert [] rt) := by
  have h := (show KeepsLowest ∅ [] from LowestOf.empty).insert rt (by simp)
  rwa [insert_empty_eq] at h

/-! ## The scan -/

/-- The state of the scan after the firings `fired`, when no cap has fired. -/
structure ScanExact (opts : InferOpts) (facts : List InferFact) (fired : Set Firing)
    (s : PassState) : Prop where
  seen_input : ∀ t, s.seen.get? t = some none ↔ t ∈ facts.map InferFact.triple
  seen_item : ∀ t i, s.seen.get? t = some (some i) ↔
    (s.items.map InferConclusion.triple)[i]? = some t
  concludes : ∀ t, t ∈ s.items.map InferConclusion.triple ↔
    t ∉ facts.map InferFact.triple ∧ ∃ x ∈ fired, x.Supports opts.depthLimit t
  routes : ∀ c ∈ s.items, c = concluded c.triple c.routes ∧
    KeepsLowest (validRoutes mul opts.floor opts.depthLimit fired c.triple) c.routes

variable {mul} {opts : InferOpts} {facts : List InferFact} {fired : Set Firing} {s : PassState}
  {registry : List PredicateSpec}

variable {x : Firing}

theorem validRoutes_insert_of_not {floor : F32} {maxDepth : UInt16} (h : ¬ x.Supports maxDepth t) :
    validRoutes mul floor maxDepth (insert x fired) t = validRoutes mul floor maxDepth fired t := by
  ext rt
  simp [validRoutes, Set.mem_insert_iff, or_and_right, exists_or, h]

theorem validRoutes_insert {floor : F32} {maxDepth : UInt16} (h : x.Supports maxDepth t) :
    validRoutes mul floor maxDepth (insert x fired) t =
      insert (x.route mul floor) (validRoutes mul floor maxDepth fired t) := by
  ext rt
  simp [validRoutes, Set.mem_insert_iff, or_and_right, exists_or, h, eq_comm]

theorem ScanExact.skip (h : ScanExact mul opts facts fired s)
    (hx : x.triple ∈ facts.map InferFact.triple ∨ opts.depthLimit ≤ x.deepest) :
    ScanExact mul opts facts (insert x fired) s where
  seen_input := h.seen_input
  seen_item := h.seen_item
  concludes t := by
    rw [h.concludes]
    refine and_congr_right fun ht => ?_
    have hnot : ¬ x.Supports opts.depthLimit t := by
      rintro ⟨rfl, hlt⟩
      exact hx.elim ht fun hle => absurd hlt (UInt16.not_lt.2 hle)
    simp [Set.mem_insert_iff, or_and_right, exists_or, hnot]
  routes c hc := by
    have hct := ((h.concludes c.triple).1 (mem_map_of_mem hc)).1
    rw [validRoutes_insert_of_not]
    · exact h.routes c hc
    · rintro ⟨heq, hlt⟩
      exact hx.elim (heq ▸ hct) fun hle => absurd hlt (UInt16.not_lt.2 hle)

variable {items : List InferConclusion}

theorem map_triple_modify {i : ℕ} (routes : InferConclusion → List InferRoute)
    (hi : (items.map triple)[i]? = some t) :
    (items.modify i fun cur => concluded t (routes cur)).map triple = items.map triple := by
  apply ext_getElem?
  intro j
  simp only [getElem?_map, getElem?_modify] at hi ⊢
  by_cases hij : i = j
  · subst hij
    obtain ⟨cur, hcur, rfl⟩ := map_eq_some_iff.1 hi
    simp [hcur, concluded]
  · simp [hij]

theorem ScanExact.merge (hids : (facts.map recordId).Nodup)
    (hfired : ∀ y ∈ fired, Fires registry facts y) (h : ScanExact mul opts facts fired s)
    (hx : Fires registry facts x) (hdepth : x.deepest < opts.depthLimit) {i : ℕ}
    (hi : s.seen.get? x.triple = some (some i)) :
    ScanExact mul opts facts (insert x fired)
      { s with items := s.items.modify i fun cur =>
          concluded x.triple (routesInsert cur.routes (x.route mul opts.floor)) } := by
  have hplace := (h.seen_item _ _).1 hi
  have hmap := map_triple_modify
    (fun cur => routesInsert cur.routes (x.route mul opts.floor)) hplace
  refine ⟨h.seen_input, ?_, ?_, ?_⟩
  · intro t j
    rw [hmap, h.seen_item]
  · intro t
    rw [hmap, h.concludes]
    refine and_congr_right fun _ => ⟨fun ⟨y, hy, hyt⟩ => ⟨y, .inr hy, hyt⟩, ?_⟩
    rintro ⟨y, rfl | hy, hyt⟩
    · -- the triple was concluded before
      exact ((h.concludes t).1 (hyt.1 ▸ mem_of_getElem? hplace)).2
    · exact ⟨y, hy, hyt⟩
  · intro c hc
    obtain ⟨j, hj⟩ := mem_iff_getElem?.1 hc
    rw [getElem?_modify] at hj
    by_cases hij : i = j
    · subst hij
      rw [getElem?_map] at hplace
      obtain ⟨cur, hcur, htriple⟩ := Option.map_eq_some_iff.1 hplace
      simp only [hcur, if_true, Option.map_eq_map, Option.map_some, Option.some.injEq] at hj
      subst hj
      obtain ⟨-, hroutes⟩ := h.routes cur (mem_of_getElem? hcur)
      rw [htriple] at hroutes
      refine ⟨rfl, ?_⟩
      rw [concluded, validRoutes_insert ⟨rfl, hdepth⟩]
      apply hroutes.insert _
      intro rt hrt hkey
      obtain ⟨y, hy, -, rfl⟩ := hroutes.subset rt hrt
      exact (hfired y hy).route_eq hids hx hkey
    · simp only [hij, if_false, Option.map_eq_map, Option.map_id'] at hj
      obtain ⟨hc, hroutes⟩ := h.routes c (mem_of_getElem? hj)
      refine ⟨hc, ?_⟩
      rw [validRoutes_insert_of_not]
      · exact hroutes
      · -- another conclusion has another triple
        rintro ⟨heq, -⟩
        have hseen := (h.seen_item x.triple j).2 (by rw [getElem?_map, hj, heq]; rfl)
        rw [hi] at hseen
        exact hij (Option.some.inj (Option.some.inj hseen))

theorem ScanExact.push (h : ScanExact mul opts facts fired s) (hdepth : x.deepest < opts.depthLimit)
    (hnew : s.seen.get? x.triple = none) :
    ScanExact mul opts facts (insert x fired)
      { s with
        items := s.items ++ [concluded x.triple (routesInsert [] (x.route mul opts.floor))]
        seen := s.seen.insert x.triple (some s.items.length) } := by
  have hnotin : x.triple ∉ facts.map InferFact.triple := by
    rw [← h.seen_input, hnew]
    simp
  have hnotitem : x.triple ∉ s.items.map triple := by
    intro hmem
    obtain ⟨j, hj⟩ := mem_iff_getElem?.1 hmem
    rw [← h.seen_item, hnew] at hj
    cases hj
  have hnone : validRoutes mul opts.floor opts.depthLimit fired x.triple = ∅ := by
    refine Set.eq_empty_iff_forall_notMem.2 ?_
    rintro rt ⟨y, hy, hyt, -⟩
    exact hnotitem ((h.concludes x.triple).2 ⟨hnotin, y, hy, hyt⟩)
  refine ⟨?_, ?_, ?_, ?_⟩
  · intro t
    rw [OpenTable.get?_insert, update_apply]
    split_ifs with ht
    · subst ht
      simpa using hnotin
    · exact h.seen_input t
  · intro t j
    have hlen : (s.items.map triple).length = s.items.length := length_map _
    rw [OpenTable.get?_insert, update_apply, map_append, getElem?_append, hlen]
    split_ifs with ht hj hj
    · subst ht
      refine ⟨fun hsome => ?_, fun hsome => absurd (mem_of_getElem? hsome) hnotitem⟩
      cases hsome
      exact absurd hj (lt_irrefl _)
    · subst ht
      cases hk : j - s.items.length with
      | zero => simp [concluded]; omega
      | succ k => simp; omega
    · exact h.seen_item t j
    · rw [h.seen_item, getElem?_eq_none (by omega)]
      constructor
      · intro hnone
        cases hnone
      · intro hsome
        exact absurd (mem_singleton.1 (mem_of_getElem? hsome)) ht
  · intro t
    rw [map_append, mem_append, h.concludes, map_singleton, mem_singleton]
    simp only [Set.mem_insert_iff, or_and_right, exists_or, exists_eq_left]
    constructor
    · rintro (⟨ht, hy⟩ | rfl)
      · exact ⟨ht, .inr hy⟩
      · exact ⟨hnotin, .inl ⟨rfl, hdepth⟩⟩
    · rintro ⟨ht, hxt | hy⟩
      · exact .inr hxt.1.symm
      · exact .inl ⟨ht, hy⟩
  · intro c hc
    rcases mem_append.1 hc with hc | hc
    · have hne : ¬ x.Supports opts.depthLimit c.triple := fun hx =>
        hnotitem (hx.1 ▸ mem_map_of_mem hc)
      rw [validRoutes_insert_of_not hne]
      exact h.routes c hc
    · obtain rfl := mem_singleton.1 hc
      refine ⟨rfl, ?_⟩
      rw [concluded, validRoutes_insert ⟨rfl, hdepth⟩, hnone, insert_empty_eq]
      exact KeepsLowest.first _

inductive Examined (mul : F32 → F32 → F32) (opts : InferOpts) (s : PassState) (x : Firing) :
    PassState → Prop
  | stopped (hs : s.stop = true) : Examined mul opts s x s
  | spent (hs : s.stop = false) (hcap : opts.candidateLimit < s.cands + 1) :
      Examined mul opts s x { s with cands := s.cands + 1, stop := true, truncated := true }
  | deep (hs : s.stop = false) (hcap : s.cands + 1 ≤ opts.candidateLimit)
      (hdepth : opts.depthLimit ≤ x.deepest) :
      Examined mul opts s x { s with cands := s.cands + 1 }
  | known (hs : s.stop = false) (hcap : s.cands + 1 ≤ opts.candidateLimit)
      (hdepth : x.deepest < opts.depthLimit) (hseen : s.seen.get? x.triple = some none) :
      Examined mul opts s x { s with cands := s.cands + 1 }
  | merged (hs : s.stop = false) (hcap : s.cands + 1 ≤ opts.candidateLimit)
      (hdepth : x.deepest < opts.depthLimit) {i : ℕ} (hseen : s.seen.get? x.triple = some (some i)) :
      Examined mul opts s x
        { s with
          cands := s.cands + 1
          items := s.items.modify i fun cur =>
            concluded x.triple (routesInsert cur.routes (x.route mul opts.floor)) }
  | full (hs : s.stop = false) (hcap : s.cands + 1 ≤ opts.candidateLimit)
      (hdepth : x.deepest < opts.depthLimit) (hseen : s.seen.get? x.triple = none)
      (hfull : opts.maxConclusions ≠ 0 ∧ opts.maxConclusions ≤ s.items.length) :
      Examined mul opts s x { s with cands := s.cands + 1, stop := true, truncated := true }
  | pushed (hs : s.stop = false) (hcap : s.cands + 1 ≤ opts.candidateLimit)
      (hdepth : x.deepest < opts.depthLimit) (hseen : s.seen.get? x.triple = none)
      (hroom : ¬ (opts.maxConclusions ≠ 0 ∧ opts.maxConclusions ≤ s.items.length)) :
      Examined mul opts s x
        { s with
          cands := s.cands + 1
          items := s.items ++ [concluded x.triple (routesInsert [] (x.route mul opts.floor))]
          seen := s.seen.insert x.triple (some s.items.length) }

theorem examined_examine (mul : F32 → F32 → F32) (opts : InferOpts) (s : PassState) (x : Firing) :
    Examined mul opts s x (examine mul opts s x) := by
  by_cases hs : s.stop = true
  · rw [examine, if_pos hs]
    exact .stopped hs
  have hgo : s.stop = false := Bool.of_not_eq_true hs
  by_cases hcap : opts.candidateLimit < s.cands + 1
  · rw [examine, if_neg hs, if_pos hcap]
    exact .spent hgo hcap
  have hoffer : examine mul opts s x = offer opts.depthLimit opts.maxConclusions x.triple
      (routeOf mul opts.floor x.rule x.premise x.second).1 x.deepest
      { s with cands := s.cands + 1 } := by
    rw [examine, if_neg hs, if_neg hcap]
    rfl
  by_cases hdepth : opts.depthLimit ≤ x.deepest
  · rw [hoffer, offer, if_pos hdepth]
    exact .deep hgo (not_lt.1 hcap) hdepth
  rw [hoffer, offer, if_neg hdepth]
  have hdepth := UInt16.not_le.1 hdepth
  cases hseen : s.seen.get? x.triple with
  | none =>
    by_cases hfull : opts.maxConclusions ≠ 0 ∧ opts.maxConclusions ≤ s.items.length
    · simp only [if_pos hfull]
      exact .full hgo (not_lt.1 hcap) hdepth hseen hfull
    · simp only [if_neg hfull]
      exact .pushed hgo (not_lt.1 hcap) hdepth hseen hfull
  | some place =>
    cases place with
    | none => exact .known hgo (not_lt.1 hcap) hdepth hseen
    | some i => exact .merged hgo (not_lt.1 hcap) hdepth hseen

theorem ScanExact.step (hids : (facts.map recordId).Nodup)
    (hfired : ∀ y ∈ fired, Fires registry facts y) (h : ScanExact mul opts facts fired s)
    (hx : Fires registry facts x) (hstop : (examine mul opts s x).stop = false) :
    ScanExact mul opts facts (insert x fired) (examine mul opts s x) := by
  have hcount : ScanExact mul opts facts fired { s with cands := s.cands + 1 } :=
    ⟨h.seen_input, h.seen_item, h.concludes, h.routes⟩
  have hstep := examined_examine mul opts s x
  generalize examine mul opts s x = s' at hstep hstop ⊢
  cases hstep with
  | stopped hs => rw [hs] at hstop; cases hstop
  | spent => cases hstop
  | deep _ _ hdepth => exact hcount.skip (.inr hdepth)
  | known _ _ _ hseen => exact hcount.skip (.inl ((h.seen_input _).1 hseen))
  | merged _ _ hdepth hseen => exact hcount.merge hids hfired hx hdepth hseen
  | full => cases hstop
  | pushed _ _ hdepth hseen _ => exact hcount.push hdepth hseen

theorem examine_of_stop {s : PassState} (h : s.stop = true) (x : Firing) :
    examine mul opts s x = s := by
  simp [examine, h]

theorem foldl_examine_of_stop {s : PassState} (h : s.stop = true) (xs : List Firing) :
    xs.foldl (examine mul opts) s = s := by
  induction xs with
  | nil => rfl
  | cons x xs ih => rw [foldl_cons, examine_of_stop h, ih]

theorem ScanExact.fold (hids : (facts.map recordId).Nodup) (xs : List Firing)
    (hfired : ∀ y ∈ fired, Fires registry facts y) (h : ScanExact mul opts facts fired s)
    (hxs : ∀ x ∈ xs, Fires registry facts x)
    (hstop : (xs.foldl (examine mul opts) s).stop = false) :
    ScanExact mul opts facts (fired ∪ {x | x ∈ xs}) (xs.foldl (examine mul opts) s) := by
  induction xs generalizing fired s with
  | nil => simpa using h
  | cons x xs ih =>
    rw [foldl_cons] at hstop ⊢
    have hgo : (examine mul opts s x).stop = false := by
      by_contra hs
      rw [foldl_examine_of_stop (Bool.of_not_eq_false hs)] at hstop
      exact hs hstop
    have hx := hxs x (by simp)
    have hnext := ih (fun y hy => hy.elim (fun hy => hy ▸ hx) (hfired y)) (h.step hids hfired hx hgo)
      (fun y hy => hxs y (by simp [hy])) hstop
    have hset : fired ∪ {y | y ∈ x :: xs} = insert x fired ∪ {y | y ∈ xs} := by
      ext y
      simp only [Set.mem_union, Set.mem_insert_iff, Set.mem_ofPred_eq, mem_cons]
      tauto
    rwa [hset]

/-- Also when a cap ends the scan, its conclusions are those of the candidates up to some point. -/
theorem ScanExact.foldl_items (hids : (facts.map recordId).Nodup) (xs : List Firing)
    (hfired : ∀ y ∈ fired, Fires registry facts y) (h : ScanExact mul opts facts fired s)
    (hxs : ∀ x ∈ xs, Fires registry facts x) :
    ∃ fired' s', fired ⊆ fired' ∧ (∀ y ∈ fired', Fires registry facts y) ∧
      ScanExact mul opts facts fired' s' ∧ s'.items = (xs.foldl (examine mul opts) s).items := by
  induction xs generalizing fired s with
  | nil => exact ⟨fired, s, subset_rfl, hfired, h, rfl⟩
  | cons x xs ih =>
    rw [foldl_cons]
    have hx := hxs x (by simp)
    cases hgo : (examine mul opts s x).stop with
    | false =>
      obtain ⟨fired', s', hsub, hrest⟩ := ih (fun y hy => hy.elim (fun hy => hy ▸ hx) (hfired y))
        (h.step hids hfired hx hgo) fun y hy => hxs y (by simp [hy])
      exact ⟨fired', s', (Set.subset_insert x fired).trans hsub, hrest⟩
    | true =>
      -- the candidate that a cap stops at concludes nothing
      refine ⟨fired, s, subset_rfl, hfired, h, ?_⟩
      rw [foldl_examine_of_stop hgo]
      have hstep := examined_examine mul opts s x
      generalize examine mul opts s x = s' at hstep hgo ⊢
      cases hstep with
      | stopped | spent | full => rfl
      | deep hs | known hs | merged hs | pushed hs =>
        exact absurd (hs.symm.trans hgo) Bool.false_ne_true

theorem scanFacts_fst (firings : InferFact → List Firing) (fs : List InferFact) (s : PassState)
    (n : ℕ) :
    (scanFacts mul opts firings fs (s, n)).1 = (fs.flatMap firings).foldl (examine mul opts) s := by
  induction fs generalizing s n with
  | nil => rfl
  | cons f fs ih =>
    unfold scanFacts
    split_ifs with hs
    · rw [foldl_examine_of_stop hs]
    · rw [ih, flatMap_cons, foldl_append]

/-- What can be concluded from the facts: what fires within the depth limit and is not a fact. -/
def Concludable (opts : InferOpts) (registry : List PredicateSpec) (facts : List InferFact)
    (t : FactTriple) : Prop :=
  t ∉ facts.map InferFact.triple ∧ ∃ x, Fires registry facts x ∧ x.Supports opts.depthLimit t

/-- As many conclusions as there can be are below the cap. -/
def ConclusionsFit (opts : InferOpts) (registry : List PredicateSpec) (facts : List InferFact) :
    Prop :=
  opts.maxConclusions ≠ 0 → ∀ ts : List FactTriple, ts.Nodup →
    (∀ t ∈ ts, Concludable opts registry facts t) → ts.length ≤ opts.maxConclusions

theorem ScanExact.nodup (h : ScanExact mul opts facts fired s) : (s.items.map triple).Nodup := by
  rw [nodup_iff_getElem?_ne_getElem?]
  intro i j hij hj heq
  have ht := getElem?_eq_getElem hj
  have hi := (h.seen_item _ i).2 (heq.trans ht)
  rw [(h.seen_item _ j).2 ht] at hi
  exact hij.ne (some.inj (some.inj hi)).symm

theorem ScanExact.concludable (h : ScanExact mul opts facts fired s)
    (hfired : ∀ y ∈ fired, Fires registry facts y)
    (ht : t ∈ s.items.map triple) : Concludable opts registry facts t := by
  obtain ⟨hnot, x, hx, hxt⟩ := (h.concludes t).1 ht
  exact ⟨hnot, x, hfired x hx, hxt⟩

theorem ScanExact.not_stop (hids : (facts.map recordId).Nodup)
    (hfit : ConclusionsFit opts registry facts) (xs : List Firing)
    (hfired : ∀ y ∈ fired, Fires registry facts y)
    (h : ScanExact mul opts facts fired s) (hxs : ∀ x ∈ xs, Fires registry facts x)
    (hstop : s.stop = false) (hbudget : s.cands + xs.length ≤ opts.candidateLimit) :
    (xs.foldl (examine mul opts) s).stop = false := by
  induction xs generalizing fired s with
  | nil => exact hstop
  | cons x xs ih =>
    rw [length_cons] at hbudget
    rw [foldl_cons]
    have hx := hxs x (by simp)
    have hnext : (examine mul opts s x).stop = false ∧
        (examine mul opts s x).cands = s.cands + 1 := by
      have hstep := examined_examine mul opts s x
      generalize examine mul opts s x = s' at hstep ⊢
      cases hstep with
      | stopped hs => rw [hs] at hstop; cases hstop
      | spent _ hcap => omega
      | deep | known | merged | pushed => exact ⟨hstop, rfl⟩
      | full _ _ hdepth hseen hfull =>
        -- the conclusions so far and the new one are more than the cap
        have hnew : x.triple ∉ s.items.map triple := by
          intro hmem
          obtain ⟨j, hj⟩ := mem_iff_getElem?.1 hmem
          rw [← h.seen_item, hseen] at hj
          cases hj
        have hlen := hfit hfull.1 (x.triple :: s.items.map triple)
          (nodup_cons.2 ⟨hnew, h.nodup⟩) (by
            intro t ht
            rcases mem_cons.1 ht with rfl | ht
            · refine ⟨?_, x, hx, rfl, hdepth⟩
              rw [← h.seen_input, hseen]
              simp
            · exact h.concludable hfired ht)
        simp only [length_cons, length_map] at hlen
        omega
    exact ih (fun y hy => hy.elim (fun hy => hy ▸ hx) (hfired y)) (h.step hids hfired hx hnext.1)
      (fun y hy => hxs y (by simp [hy])) hnext.1 (by omega)

/-- The candidates of a scan without a cap were within the budget, and so were its conclusions. -/
theorem foldl_examine_caps (xs : List Firing) (hstart : s.stop = false →
      s.cands ≤ opts.candidateLimit ∧
        (opts.maxConclusions ≠ 0 → s.items.length ≤ opts.maxConclusions))
    (hstop : (xs.foldl (examine mul opts) s).stop = false) :
    s.cands + xs.length ≤ opts.candidateLimit ∧
      (opts.maxConclusions ≠ 0 →
        (xs.foldl (examine mul opts) s).items.length ≤ opts.maxConclusions) := by
  induction xs generalizing s with
  | nil => exact hstart hstop
  | cons x xs ih =>
    rw [foldl_cons] at hstop ⊢
    have hnext : (examine mul opts s x).stop = false →
        (examine mul opts s x).cands = s.cands + 1 ∧ s.cands + 1 ≤ opts.candidateLimit ∧
          (opts.maxConclusions ≠ 0 → (examine mul opts s x).items.length ≤ opts.maxConclusions) := by
      have hstep := examined_examine mul opts s x
      generalize examine mul opts s x = s' at hstep ⊢
      cases hstep with
      | stopped hs => intro hgo; rw [hs] at hgo; cases hgo
      | spent | full => intro hgo; cases hgo
      | deep hs hcap | known hs hcap => exact fun _ => ⟨rfl, hcap, (hstart hs).2⟩
      | merged hs hcap =>
        refine fun _ => ⟨rfl, hcap, fun hne => ?_⟩
        rw [length_modify]
        exact (hstart hs).2 hne
      | pushed hs hcap _ _ hroom =>
        refine fun _ => ⟨rfl, hcap, fun hne => ?_⟩
        rw [length_append, length_singleton]
        by_contra hlt
        exact hroom ⟨hne, by omega⟩
    have hgo : (examine mul opts s x).stop = false := by
      by_contra hs
      rw [foldl_examine_of_stop (Bool.of_not_eq_false hs)] at hstop
      exact hs hstop
    obtain ⟨hcands, hcap, hitems⟩ := hnext hgo
    obtain ⟨hlen, hend⟩ := ih (fun _ => ⟨by omega, hitems⟩) hstop
    refine ⟨?_, hend⟩
    rw [length_cons]
    omega

/-! ## The result -/

/-- The candidates of a pass, in the order of its scan. -/
def passCandidates (registry : List PredicateSpec) (facts : List InferFact) (start : ℕ) :
    List Firing :=
  (facts.rotate (start % facts.length)).flatMap (firingsIn registry facts)

def passStart (facts : List InferFact) : PassState :=
  ⟨[], (indexFacts facts 0 (.create 0, .create 0)).1, 0, false, false⟩

def passEnd (mul : F32 → F32 → F32) (registry : List PredicateSpec) (facts : List InferFact)
    (opts : InferOpts) : PassState :=
  (passCandidates registry facts opts.startIndex).foldl (examine mul opts) (passStart facts)

theorem firingsIn_nil (facts : List InferFact) (f : InferFact) : firingsIn [] facts f = [] := by
  unfold firingsIn firingsOf
  cases f.triple.object <;> rfl

theorem passEnd_nil (mul : F32 → F32 → F32) (facts : List InferFact) (opts : InferOpts) :
    passEnd mul [] facts opts = passStart facts := by
  have hnone : passCandidates [] facts opts.startIndex = [] :=
    flatMap_eq_nil_iff.2 fun f _ => firingsIn_nil facts f
  rw [passEnd, hnone, foldl_nil]

theorem inferRun_eq (mul : F32 → F32 → F32) (registry : Option (List PredicateSpec))
    (facts : List InferFact) (opts : InferOpts) :
    (inferRun mul registry facts opts).items = (passEnd mul (registry.getD []) facts opts).items ∧
      (inferRun mul registry facts opts).truncated =
        (passEnd mul (registry.getD []) facts opts).truncated := by
  cases registry with
  | none =>
    rw [getD_none, passEnd_nil]
    exact ⟨rfl, rfl⟩
  | some registry =>
    rw [getD_some]
    unfold inferRun
    by_cases hfacts : facts.length = 0
    · rw [length_eq_zero_iff.1 hfacts]
      exact ⟨rfl, rfl⟩
    · have hfirings := (tablesExact_indexFacts facts).firingsOf_eq registry
      simp only [if_neg hfacts]
      rw [scanFacts_fst, hfirings]
      exact ⟨rfl, rfl⟩

theorem mem_passCandidates {start : ℕ} {c : Firing} :
    c ∈ passCandidates registry facts start ↔ Fires registry facts c := by
  simp only [passCandidates, mem_flatMap, mem_rotate]
  constructor
  · rintro ⟨f, hf, hc⟩
    exact ((mem_firingsIn hf).1 hc).1
  · intro hc
    exact ⟨c.premise, hc.premise_mem, (mem_firingsIn hc.premise_mem).2 ⟨hc, rfl⟩⟩

theorem scanExact_passStart (mul : F32 → F32 → F32) (opts : InferOpts) (facts : List InferFact) :
    ScanExact mul opts facts ∅ (passStart facts) := by
  have htables := (tablesExact_indexFacts facts).seen
  refine ⟨?_, ?_, ?_, ?_⟩
  · intro t
    rw [passStart, htables]
    split_ifs with ht <;> simp [ht]
  · intro t i
    rw [passStart, htables]
    split_ifs <;> simp
  · intro t
    simp [passStart]
  · intro c hc
    cases hc

theorem truncated_eq_stop (xs : List Firing) (h : s.truncated = s.stop) :
    (xs.foldl (examine mul opts) s).truncated = (xs.foldl (examine mul opts) s).stop := by
  induction xs generalizing s with
  | nil => exact h
  | cons x xs ih =>
    rw [foldl_cons]
    apply ih
    have hstep := examined_examine mul opts s x
    generalize examine mul opts s x = s' at hstep ⊢
    cases hstep <;> first | exact h | rfl

/-- The conclusions of a pass that no cap ends. -/
structure PassExact (mul : F32 → F32 → F32) (opts : InferOpts) (registry : List PredicateSpec)
    (facts : List InferFact) (items : List InferConclusion) : Prop where
  nodup : (items.map InferConclusion.triple).Nodup
  concludes : ∀ t, t ∈ items.map InferConclusion.triple ↔ Concludable opts registry facts t
  routes : ∀ c ∈ items, LowestOf InferRoute.key derivMaxRoutes
    (validRoutes mul opts.floor opts.depthLimit {x | Fires registry facts x} c.triple) c.routes
  confidence : ∀ c ∈ items, c.confidence = conclusionConfidence c.routes

section

variable (hids : (facts.map recordId).Nodup)

include hids

theorem passExact_passEnd (hgo : (passEnd mul registry facts opts).truncated = false) :
    PassExact mul opts registry facts (passEnd mul registry facts opts).items := by
  have hgo : (passEnd mul registry facts opts).stop = false := (truncated_eq_stop _ rfl).symm.trans hgo
  have h := (scanExact_passStart mul opts facts).fold hids _ (by simp)
    (fun x hx => mem_passCandidates.1 hx) hgo
  have hset : ∅ ∪ {x | x ∈ passCandidates registry facts opts.startIndex} =
      {x | Fires registry facts x} := by
    ext x
    simp [mem_passCandidates]
  rw [hset] at h
  exact ⟨h.nodup, h.concludes, fun c hc => (h.routes c hc).2,
    fun c hc => congrArg InferConclusion.confidence (h.routes c hc).1⟩

theorem caps_of_passEnd (hgo : (passEnd mul registry facts opts).truncated = false) :
    (passCandidates registry facts opts.startIndex).length ≤ opts.candidateLimit ∧
      ConclusionsFit opts registry facts := by
  have hexact := passExact_passEnd hids hgo
  have hgo : (passEnd mul registry facts opts).stop = false := (truncated_eq_stop _ rfl).symm.trans hgo
  obtain ⟨hbudget, hitems⟩ := foldl_examine_caps _ (by simp [passStart]) hgo
  refine ⟨by simpa [passStart] using hbudget, fun hne ts hnodup hts => ?_⟩
  have hsub := hnodup.subperm fun t ht => (hexact.concludes t).2 (hts t ht)
  calc ts.length ≤ ((passEnd mul registry facts opts).items.map triple).length :=
        hsub.length_le
    _ = (passEnd mul registry facts opts).items.length := length_map _
    _ ≤ opts.maxConclusions := hitems hne

theorem passEnd_truncated
    (hbudget : (passCandidates registry facts opts.startIndex).length ≤ opts.candidateLimit)
    (hfit : ConclusionsFit opts registry facts) :
    (passEnd mul registry facts opts).truncated = false := by
  rw [passEnd, truncated_eq_stop _ rfl]
  exact (scanExact_passStart mul opts facts).not_stop hids hfit _ (by simp)
    (fun x hx => mem_passCandidates.1 hx) rfl (by simpa [passStart] using hbudget)

end

variable {facts' : List InferFact}

theorem firingsIn_perm (h : facts'.Perm facts) (f : InferFact) :
    (firingsIn registry facts' f).Perm (firingsIn registry facts f) := by
  unfold firingsIn firingsOf
  cases f.triple.object with
  | str s => exact .refl _
  | id o =>
    cases predicateRegistryGet registry f.triple.predicate with
    | none => exact .refl _
    | some spec =>
      refine .append_left _ ?_
      split_ifs
      · exact (h.filter _).filterMap _
      · exact .refl _

theorem passCandidates_perm (h : facts'.Perm facts) (start start' : ℕ) :
    (passCandidates registry facts' start').Perm (passCandidates registry facts start) := by
  have hrotate := ((facts'.rotate_perm (start' % facts'.length)).trans h).trans
    (facts.rotate_perm (start % facts.length)).symm
  exact hrotate.flatMap fun f _ => firingsIn_perm h f

theorem concludable_perm (h : facts'.Perm facts) {start : ℕ} :
    Concludable { opts with startIndex := start } registry facts' t ↔
      Concludable opts registry facts t := by
  unfold Concludable
  simp only [(h.map InferFact.triple).mem_iff, Fires.congr fun f => h.mem_iff]
  rfl

theorem PassExact.subset_of_perm {items' : List InferConclusion} (start : ℕ)
    (h : PassExact mul opts registry facts items) (hperm : facts'.Perm facts)
    (h' : PassExact mul { opts with startIndex := start } registry facts' items') :
    ∀ c ∈ items, c ∈ items' := by
  intro c hc
  have ht := (h.concludes c.triple).1 (mem_map_of_mem hc)
  obtain ⟨c', hc', htriple⟩ := mem_map.1 ((h'.concludes _).2 ((concludable_perm hperm).2 ht))
  have hroutes : c.routes = c'.routes := by
    refine (h.routes c hc).unique ?_
    have hlow := h'.routes c' hc'
    simp only [htriple, Fires.congr fun f => hperm.mem_iff] at hlow
    exact hlow
  have hconf : c.confidence = c'.confidence := by
    rw [h.confidence c hc, h'.confidence c' hc', hroutes]
  have heq : c = c' := by
    cases c
    cases c'
    simp_all
  rwa [heq]

theorem PassExact.nodup_items (h : PassExact mul opts registry facts items) :
    items.Nodup := h.nodup.of_map _

/-- **One pass is sound and complete**: within its caps it concludes, each once, what is not a fact
and follows by one declared rule from premises below the depth limit, with the lowest of its routes;
the order of the facts and the start of the scan do not matter. -/
theorem inferRun_exact (mul : F32 → F32 → F32) (registry : Option (List PredicateSpec))
    (facts : List InferFact) (opts : InferOpts) (hids : (facts.map recordId).Nodup)
    (hcap : (inferRun mul registry facts opts).truncated = false) :
    PassExact mul opts (registry.getD []) facts (inferRun mul registry facts opts).items ∧
      ∀ (facts' : List InferFact) (start : ℕ), facts'.Perm facts →
        (inferRun mul registry facts' { opts with startIndex := start }).items.Perm
          (inferRun mul registry facts opts).items := by
  rw [(inferRun_eq mul registry facts opts).2] at hcap
  rw [(inferRun_eq mul registry facts opts).1]
  have hexact := passExact_passEnd hids hcap
  refine ⟨hexact, fun facts' start hperm => ?_⟩
  rw [(inferRun_eq mul registry facts' _).1]
  -- the other pass has the same candidates, so that no cap ends it either
  obtain ⟨hbudget, hfit⟩ := caps_of_passEnd hids hcap
  have hids' : (facts'.map recordId).Nodup := (hperm.map _).nodup_iff.2 hids
  have hcap' : (passEnd mul (registry.getD []) facts' { opts with startIndex := start }).truncated =
      false := by
    refine passEnd_truncated hids' ?_ ?_
    · rw [(passCandidates_perm hperm opts.startIndex start).length_eq]
      exact hbudget
    · intro hne ts hnodup hts
      exact hfit hne ts hnodup fun t ht => (concludable_perm hperm).1 (hts t ht)
  have hexact' := passExact_passEnd hids' hcap'
  refine (perm_ext_iff_of_nodup hexact'.nodup_items hexact.nodup_items).2 fun c => ⟨?_, ?_⟩
  · exact hexact'.subset_of_perm opts.startIndex hperm.symm hexact c
  · exact hexact.subset_of_perm start hperm hexact' c

theorem mem_routesInsert {routes : List InferRoute} {rt x : InferRoute}
    (h : x ∈ routesInsert routes rt) : x ∈ routes ∨ x = rt := by
  have hmem : ∀ i, x ∈ routes.take i ++ rt :: routes.drop i → x ∈ routes ∨ x = rt := by
    intro i hx
    rcases mem_append.1 hx with hx | hx
    · exact .inl (mem_of_mem_take hx)
    · rcases mem_cons.1 hx with hx | hx
      · exact .inr hx
      · exact .inl (mem_of_mem_drop hx)
  unfold routesInsert at h
  split at h
  · exact .inl h
  · split_ifs at h
    · exact .inl h
    · exact hmem _ (mem_of_mem_take h)
    · exact hmem _ h

/-- What the conclusions so far are drawn from, and how many there are. -/
structure PassBounds (opts : InferOpts) (facts : List InferFact) (items : List InferConclusion) :
    Prop where
  premises : ∀ c ∈ items, ∀ rt ∈ c.routes, ∀ p ∈ rt.premises, p ∈ facts.map recordId
  length : opts.maxConclusions ≠ 0 → items.length ≤ opts.maxConclusions

theorem Fires.premises_mem (h : Fires registry facts x) (mul : F32 → F32 → F32) (floor : F32) :
    ∀ p ∈ (x.route mul floor).premises, p ∈ facts.map recordId := by
  intro p hp
  rcases mem_cons.1 hp with rfl | hp
  · exact mem_map_of_mem h.premise_mem
  · obtain ⟨g, hg, rfl⟩ := mem_map.1 hp
    exact mem_map_of_mem (h.second_mem (mem_toList.1 hg))

theorem PassBounds.examine {s : PassState} (h : PassBounds opts facts s.items)
    (hx : Fires registry facts x) : PassBounds opts facts (examine mul opts s x).items := by
  have hstep := examined_examine mul opts s x
  generalize AegisDB.examine mul opts s x = s' at hstep ⊢
  have hroute : ∀ rts : List InferRoute, (∀ rt ∈ rts, ∀ p ∈ rt.premises,
      p ∈ facts.map recordId) → ∀ rt ∈ routesInsert rts (x.route mul opts.floor),
        ∀ p ∈ rt.premises, p ∈ facts.map recordId := by
    intro rts hrts rt hrt
    rcases mem_routesInsert hrt with hrt | rfl
    · exact hrts rt hrt
    · exact hx.premises_mem mul opts.floor
  cases hstep with
  | stopped | spent | deep | known | full => exact h
  | @merged _ _ _ i =>
    refine ⟨fun c hc => ?_, fun hne => (length_modify _ _ _).trans_le (h.length hne)⟩
    obtain ⟨j, hj, rfl⟩ := getElem_of_mem hc
    rw [getElem_modify]
    rw [length_modify] at hj
    split_ifs
    · exact hroute _ (h.premises _ (getElem_mem hj))
    · exact h.premises _ (getElem_mem hj)
  | pushed _ _ _ _ hroom =>
    refine ⟨fun c hc => ?_, fun hne => ?_⟩
    · rcases mem_append.1 hc with hc | hc
      · exact h.premises c hc
      · rw [mem_singleton.1 hc]
        exact hroute [] nofun
    · rw [length_append, length_singleton]
      have := h.length hne
      by_contra hlt
      exact hroom ⟨hne, by omega⟩

/-- Whatever cap ends a pass, its conclusions are drawn from its facts, and are as many as allowed. -/
theorem passBounds_inferRun (mul : F32 → F32 → F32) (registry : Option (List PredicateSpec))
    (facts : List InferFact) (opts : InferOpts) :
    PassBounds opts facts (inferRun mul registry facts opts).items := by
  rw [(inferRun_eq mul registry facts opts).1]
  have hstart : PassBounds opts facts (passStart facts).items := ⟨nofun, fun _ => Nat.zero_le _⟩
  exact foldlRecOn _ _ (motive := fun (s : PassState) => PassBounds opts facts s.items) hstart
    fun s hs x hx => hs.examine (mem_passCandidates.1 hx)

/-- The predicate `p`, transitive. -/
def transitiveSpec : PredicateSpec := ⟨⟨[112], by decide⟩, true, false, true, none, false, []⟩

/-- The record `id` says that `a p b`. -/
def linkFact (id a b : UInt64) : InferFact := ⟨id, ⟨a, ⟨[112], by decide⟩, .id b⟩, 0, .one⟩

def InferOpts.budget (maxCandidates startIndex : ℕ) : InferOpts :=
  ⟨0, 0, maxCandidates, startIndex, .zero⟩

theorem conclusionsFit_budget (maxCandidates startIndex : ℕ) (registry : List PredicateSpec)
    (facts : List InferFact) :
    ConclusionsFit (InferOpts.budget maxCandidates startIndex) registry facts :=
  fun hne => absurd rfl hne

theorem inferRun_exact_chain :
    PassExact (fun a _ => a) (.budget 0 0) [transitiveSpec] [linkFact 10 1 2, linkFact 11 2 3]
        (inferRun (fun a _ => a) (some [transitiveSpec]) [linkFact 10 1 2, linkFact 11 2 3]
          (.budget 0 0)).items ∧
      ∀ (facts' : List InferFact) (start : ℕ),
        facts'.Perm [linkFact 10 1 2, linkFact 11 2 3] →
          (inferRun (fun a _ => a) (some [transitiveSpec]) facts'
            { InferOpts.budget 0 0 with startIndex := start }).items.Perm
            (inferRun (fun a _ => a) (some [transitiveSpec]) [linkFact 10 1 2, linkFact 11 2 3]
              (.budget 0 0)).items := by
  have hids : ([linkFact 10 1 2, linkFact 11 2 3].map recordId).Nodup := by decide
  refine inferRun_exact (fun a _ => a) (some [transitiveSpec]) _ _ hids ?_
  rw [(inferRun_eq _ _ _ _).2]
  exact passEnd_truncated hids (by decide) (conclusionsFit_budget _ _ _ _)

end AegisDB
