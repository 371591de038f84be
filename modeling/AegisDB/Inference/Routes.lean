import AegisDB.Foundations.BoundedHeap
import AegisDB.Foundations.LowestOf
import AegisDB.Inference.Run

/-!
# The routes that are kept

`record_add_route` and `routes_insert` both keep the lowest routes of those offered. Each is
`placeRoute` at its own type, which goes from the lowest routes of a set to those of the set with
one more (`LowestOf.placeRoute`). So the list that a sequence of calls builds is a function of the
set offered, and the same for both (`routes_canonical`).
-/

namespace AegisDB

open List DerivRoute InferRoute

section

variable {α : Type*} (f : α → DerivRoute)

/-- A route goes to its place in a sorted list that is cut at the cap. -/
def placeRoute (routes : List α) (rt : α) : List α :=
  match routeSlot (f rt) (routes.map f) with
  | none => routes
  | some i =>
    if derivMaxRoutes ≤ routes.length then
      if derivMaxRoutes ≤ i then routes
      else (routes.take i ++ rt :: routes.drop i).take derivMaxRoutes
    else routes.take i ++ rt :: routes.drop i

variable {f} {S : Set α} {l : List α}

theorem LowestOf.placeRoute (h : LowestOf (fun x => (f x).key) derivMaxRoutes S l) (rt : α)
    (hsame : ∀ x ∈ l, (f x).key = (f rt).key → x = rt) :
    LowestOf (fun x => (f x).key) derivMaxRoutes (Insert.insert rt S) (placeRoute f l rt) := by
  have hsorted : RoutesSorted (l.map f) := routesSorted_iff.2 (pairwise_map.2 h.sorted)
  have hlen := h.length_le
  unfold AegisDB.placeRoute
  split
  · rename_i hslot
    obtain ⟨y, hy, hkey⟩ := exists_of_routeSlot_eq_none hslot
    obtain ⟨x, hx, rfl⟩ := mem_map.1 hy
    exact h.insert_of_mem (hsame x hx hkey ▸ hx)
  · rename_i i hslot
    obtain ⟨hi, hlo, hhi⟩ := routeSlot_spec hsorted hslot
    rw [length_map] at hi
    rw [← map_take] at hlo
    rw [← map_drop] at hhi
    have hins := h.insert (x := rt) (i := i)
      (fun y hy => hlo _ (mem_map_of_mem hy)) (fun y hy => hhi _ (mem_map_of_mem hy))
    split_ifs with hfull hend
    · -- a full list whose routes are all lower
      have hi : i = l.length := by omega
      rwa [hi, take_length, take_left' (by omega)] at hins
    · exact hins
    · rwa [take_of_length_le (by simp; omega)] at hins

theorem map_placeRoute (rt : α) : (placeRoute f l rt).map f = placeRoute id (l.map f) (f rt) := by
  unfold placeRoute
  rw [map_id, length_map, id]
  split
  · rfl
  · split_ifs <;> simp [map_take, map_drop]

end

/-! ## The two functions -/

/-- The routes of a record after a call of `record_add_route`. -/
def AddRoute.routesAfter (routes : List DerivRoute) : AddRoute → List DerivRoute
  | .added kept => kept
  | .redundant | .refused => routes

/-- The routes of a record for which `record_add_route` was called with each of the list. -/
def recordRoutes (offered : List DerivRoute) : List DerivRoute :=
  offered.foldl (fun routes rt =>
    (recordAddRoute routes rt.rule rt.depth rt.premises).routesAfter routes) []

/-- The routes of a conclusion for which `routes_insert` was called with each of the list. -/
def conclusionRoutes (offered : List InferRoute) : List InferRoute := offered.foldl routesInsert []

/-- The lowest of the distinct routes in a list. -/
def lowestRoutes (offered : List DerivRoute) : List DerivRoute :=
  (sortBy DerivRoute.key offered.dedup).take derivMaxRoutes

/-- Routes of one rule with the same premises have the same depth. -/
def DepthsAgree (offered : List DerivRoute) : Prop :=
  ∀ a ∈ offered, ∀ b ∈ offered, a.rule = b.rule → a.premises = b.premises → a.depth = b.depth

theorem routesAfter_recordAddRoute (routes : List DerivRoute) (rt : DerivRoute) :
    (recordAddRoute routes rt.rule rt.depth rt.premises).routesAfter routes =
      if rt.Valid then placeRoute id routes rt else routes := by
  by_cases hvalid : rt.Valid
  · obtain ⟨hrule, hprem, hlen⟩ := id hvalid
    rw [if_pos hvalid, recordAddRoute, if_neg hrule, if_neg (by simp [hprem, hlen])]
    unfold insertRoute placeRoute
    rw [map_id, id]
    cases routeSlot rt routes with
    | none => rfl
    | some i => dsimp only; split_ifs <;> rfl
  · rw [if_neg hvalid]
    unfold recordAddRoute
    split_ifs with hrule hprem
    · rfl
    · rfl
    · exact absurd ⟨hrule, (not_or.1 hprem).1, by omega⟩ hvalid

theorem recordRoutes_eq (offered : List DerivRoute) :
    recordRoutes offered = (offered.filter (·.Valid)).foldl (placeRoute id) [] := by
  rw [foldl_filter, recordRoutes]
  simp only [routesAfter_recordAddRoute, decide_eq_true_eq]

theorem map_conclusionRoutes (offered : List InferRoute) :
    (conclusionRoutes offered).map toDerivRoute =
      (offered.map toDerivRoute).foldl (placeRoute id) [] := by
  rw [foldl_map]
  exact (foldl_hom _ fun l rt => (map_placeRoute (f := toDerivRoute) rt).symm).symm

section

variable {offered : List DerivRoute}

theorem DepthsAgree.key_inj (h : DepthsAgree offered) :
    ∀ a ∈ offered, ∀ b ∈ offered, a.key = b.key → a = b := by
  rintro ⟨⟩ ha ⟨⟩ hb hkey
  obtain ⟨hprem, hrule⟩ := key_eq_iff.1 hkey
  have hdepth := h _ ha _ hb hrule hprem
  simp_all

theorem lowestOf_foldl_placeRoute (h : DepthsAgree offered) :
    LowestOf DerivRoute.key derivMaxRoutes {rt | rt ∈ offered}
      (offered.foldl (placeRoute id) []) := by
  have hinj := h.key_inj
  clear h
  induction offered using reverseRecOn with
  | nil => simpa using LowestOf.empty
  | append_singleton l rt ih =>
    have hl := ih fun a ha b hb => hinj a (by simp [ha]) b (by simp [hb])
    have hset : {x | x ∈ l ++ [rt]} = insert rt {x | x ∈ l} := by
      ext x
      simp [or_comm]
    rw [foldl_concat, hset]
    exact hl.placeRoute (f := id) rt fun x hx =>
      hinj x (mem_append_left _ (hl.subset x hx)) rt (by simp)

theorem lowestOf_lowestRoutes (h : DepthsAgree offered) :
    LowestOf DerivRoute.key derivMaxRoutes {rt | rt ∈ offered} (lowestRoutes offered) := by
  have hperm := perm_sortBy DerivRoute.key offered.dedup
  have hmem : ∀ x, x ∈ sortBy DerivRoute.key offered.dedup ↔ x ∈ offered := fun x =>
    hperm.mem_iff.trans mem_dedup
  have hsorted : (sortBy DerivRoute.key offered.dedup).Pairwise fun a b => a.key < b.key := by
    have hnodup : (sortBy DerivRoute.key offered.dedup).Nodup := hperm.nodup_iff.2 (nodup_dedup _)
    refine ((pairwise_sortBy _ _).and hnodup).imp_of_mem fun ha hb hab => ?_
    exact lt_of_le_of_ne hab.1 fun hkey =>
      hab.2 (h.key_inj _ ((hmem _).1 ha) _ ((hmem _).1 hb) hkey)
  have hset : {rt | rt ∈ offered} = {rt | rt ∈ sortBy DerivRoute.key offered.dedup} := by
    ext x
    exact (hmem x).symm
  rw [hset]
  exact LowestOf.take hsorted

/-- Both functions build the lowest of the routes offered, whatever the order and the repetitions;
`record_add_route` of those it does not refuse. -/
theorem routes_canonical (h : DepthsAgree offered) :
    recordRoutes offered = lowestRoutes (offered.filter (·.Valid)) ∧
      (∀ found : List InferRoute, found.map InferRoute.toDerivRoute = offered →
        (conclusionRoutes found).map InferRoute.toDerivRoute = lowestRoutes offered) ∧
      ∀ other, (∀ rt, rt ∈ other ↔ rt ∈ offered) → lowestRoutes other = lowestRoutes offered := by
  refine ⟨?_, ?_, ?_⟩
  · have hvalid : DepthsAgree (offered.filter (·.Valid)) := fun a ha b hb =>
      h a (mem_of_mem_filter ha) b (mem_of_mem_filter hb)
    rw [recordRoutes_eq]
    exact (lowestOf_foldl_placeRoute hvalid).unique (lowestOf_lowestRoutes hvalid)
  · rintro found rfl
    rw [map_conclusionRoutes]
    exact (lowestOf_foldl_placeRoute h).unique (lowestOf_lowestRoutes h)
  · intro other hsame
    have hother : DepthsAgree other := fun a ha b hb =>
      h a ((hsame a).1 ha) b ((hsame b).1 hb)
    have hset : {rt | rt ∈ other} = {rt | rt ∈ offered} := Set.ext hsame
    exact (hset ▸ lowestOf_lowestRoutes hother).unique (lowestOf_lowestRoutes h)

def fiveRoutes : List DerivRoute := [9, 7, 5, 3, 1].map fun p => ⟨.symmetric, 0, [p]⟩

theorem fiveRoutes_canonical :
    recordRoutes fiveRoutes = [1, 3, 5, 7].map (fun p => ⟨.symmetric, 0, [p]⟩) ∧
      recordRoutes fiveRoutes = lowestRoutes (fiveRoutes.filter (·.Valid)) :=
  ⟨by decide, (routes_canonical (by unfold DepthsAgree; decide)).1⟩

end

end AegisDB
