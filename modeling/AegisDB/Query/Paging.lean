import AegisDB.Query.Effects

/-!
# Pages of a ranked search

A ranked search fetches some hits of its sources, weights those that meet the filters, and returns a
slice of them in the order of their weighted scores. How many hits it fetches depends on the end of
the slice: four for each place and 32 more, and more again while too few of them meet the filters.

A page is a slice of one ranking of all matches if it fetches all hits. So the pages of one size
compose when the sources have no more hits than the first page fetches, and only then: the next hit
may be the best of all by its weight (`pages_compose_iff`).
-/

namespace AegisDB

open List Function Ranking Cand SearchParams UInt64

variable {F : Framing}

/-! ## Sources -/

/-- The source returns the first of a fixed list of hits: at most `n` records, best first. -/
def FixedList (n : ℕ) (source : ℕ → List (UInt64 × F32)) : Prop :=
  ∃ hits : List (UInt64 × F32), (∀ fetch, source fetch = hits.take fetch) ∧
    (hits.map Prod.fst).Nodup ∧ (hits.Pairwise fun x y => y.2.Le x.2) ∧ hits.length ≤ n

/-- The sources of a query return the first of at most `n` hits. -/
structure FixedHits (R : Ranking) (ix : Indexes) (p : SearchParams) (n : ℕ) : Prop where
  semantic : p.embedding ≠ [] → FixedList n (R.semantic ix.sem p.embedding)
  lexical : ∀ lx ∈ ix.lex, ∀ q ∈ p.query, FixedList n (R.lexical lx q)

theorem FixedHits.mono {R : Ranking} {ix : Indexes} {p : SearchParams} {n n' : ℕ}
    (h : FixedHits R ix p n) (hle : n ≤ n') : FixedHits R ix p n' := by
  have hmono {source : ℕ → List (UInt64 × F32)} : FixedList n source → FixedList n' source :=
    fun ⟨hits, htake, hnodup, hsorted, hlen⟩ => ⟨hits, htake, hnodup, hsorted, hlen.trans hle⟩
  exact ⟨fun he => hmono (h.semantic he), fun lx hlx q hq => hmono (h.lexical lx hlx q hq)⟩

variable {source : ℕ → List (UInt64 × F32)}

theorem FixedList.eq_of_le {n : ℕ} (h : FixedList n source) {f f' : ℕ} (hf : n ≤ f) (hf' : n ≤ f') :
    source f = source f' := by
  obtain ⟨hits, htake, -, -, hlen⟩ := h
  rw [htake, htake, take_of_length_le (hlen.trans hf), take_of_length_le (hlen.trans hf')]

theorem FixedList.initial {n : ℕ} (h : FixedList n source) {f f' : ℕ} (hle : f ≤ f') :
    source f <+: source f' := by
  obtain ⟨hits, htake, -⟩ := h
  rw [htake, htake]
  exact take_prefix_take_left hle

theorem FixedList.nodup {n : ℕ} (h : FixedList n source) (f : ℕ) :
    ((source f).map Prod.fst).Nodup := by
  obtain ⟨hits, htake, hnodup, -⟩ := h
  rw [htake, map_take]
  exact hnodup.sublist (take_sublist _ _)

/-- A source that has returned fewer hits than it was asked for has no more. -/
theorem FixedList.eq_of_lt {n : ℕ} (h : FixedList n source) {f f' : ℕ} (hlt : (source f).length < f)
    (hle : f ≤ f') : source f = source f' := by
  obtain ⟨hits, htake, -⟩ := h
  rw [htake, length_take] at hlt
  rw [htake, htake, take_of_length_le (by omega), take_of_length_le (by omega)]

theorem FixedHits.lexicalList {R : Ranking} {ix : Indexes} {p : SearchParams} {n : ℕ}
    (h : FixedHits R ix p n) (hq : p.query ≠ none) :
    FixedList n fun f => (R.lexicalHits ix p f).1 := by
  obtain ⟨q, hq⟩ := Option.ne_none_iff_exists'.1 hq
  simp only [lexicalHits, hq, Option.getD_some]
  cases hlex : ix.lex with
  | none => exact ⟨[], by simp⟩
  | some lx => exact h.lexical lx hlex q hq

theorem SearchParams.embedding_ne_nil {p : SearchParams}
    (h : p.source = .semantic ∨ p.source = .hybrid) : p.embedding ≠ [] := by
  intro hnil
  have hsrc : p.source = .lexical ∨ p.source = .filter := by
    unfold source
    rw [hnil]
    cases p.query.any fun q => q.bytes ≠ []
    · exact .inr rfl
    · exact .inl rfl
  rcases h with h | h <;> simp [h] at hsrc

theorem SearchParams.query_ne_none {p : SearchParams}
    (h : p.source = .lexical ∨ p.source = .hybrid) : p.query ≠ none := by
  intro hnone
  have hsrc : p.source = .semantic ∨ p.source = .filter := by
    unfold source
    rw [hnone]
    cases p.embedding
    · exact .inr rfl
    · exact .inl rfl
  rcases h with h | h <;> simp [h] at hsrc

section

variable {R : Ranking} {ix : Indexes} {p : SearchParams} {sub : List UInt64} {n f f' : ℕ}

theorem FixedHits.candidateIds_eq (h : FixedHits R ix p n) (hf : n ≤ f) (hf' : n ≤ f') :
    (candidateIds R ix p sub f p.source 0).1 = (candidateIds R ix p sub f' p.source 0).1 := by
  have hsem (hsrc : p.source = .semantic ∨ p.source = .hybrid) :
      (R.semanticHits ix p f).1 = (R.semanticHits ix p f').1 := by
    simp only [semanticHits, (h.semantic (embedding_ne_nil hsrc)).eq_of_le hf hf']
  have hlex (hsrc : p.source = .lexical ∨ p.source = .hybrid) :
      (R.lexicalHits ix p f).1 = (R.lexicalHits ix p f').1 :=
    (h.lexicalList (query_ne_none hsrc)).eq_of_le hf hf'
  cases hsrc : p.source with
  | filter => rfl
  | semantic => simp only [candidateIds, hsem (.inl hsrc)]
  | lexical => simp only [candidateIds, hlex (.inl hsrc)]
  | hybrid => simp only [candidateIds, hsem (.inr hsrc), hlex (.inr hsrc)]

theorem mapIdx_initial {α β : Type} {g : ℕ → α → β} {l l' : List α} (h : l <+: l') :
    l.mapIdx g <+: l'.mapIdx g := by
  obtain ⟨t, rfl⟩ := h
  rw [mapIdx_append]
  exact prefix_append _ _

/-- A larger fetch from one source only adds candidates behind the others. -/
theorem FixedHits.candidateIds_initial (h : FixedHits R ix p n) (hsrc : p.source ≠ .hybrid)
    (hle : f ≤ f') :
    (candidateIds R ix p sub f p.source 0).1 <+: (candidateIds R ix p sub f' p.source 0).1 := by
  cases hs : p.source with
  | filter => exact prefix_rfl
  | semantic =>
    have hsem := (h.semantic (embedding_ne_nil (.inl hs))).initial hle
    exact mapIdx_initial (hsem.filter _)
  | lexical =>
    exact mapIdx_initial ((h.lexicalList (query_ne_none (.inl hs))).initial hle)
  | hybrid => exact absurd hs hsrc

theorem FixedHits.candidateIds_exhausted (h : FixedHits R ix p n) (hsrc : p.source ≠ .hybrid)
    (hexhausted : (candidateIds R ix p sub f p.source 0).2 = true) (hle : f ≤ f') :
    (candidateIds R ix p sub f p.source 0).1 = (candidateIds R ix p sub f' p.source 0).1 := by
  cases hs : p.source with
  | filter => rfl
  | semantic =>
    rw [hs] at hexhausted
    have heq := (h.semantic (embedding_ne_nil (.inl hs))).eq_of_lt
      (of_decide_eq_true hexhausted) hle
    simp only [candidateIds, semanticHits, heq]
  | lexical =>
    rw [hs] at hexhausted
    have heq := (h.lexicalList (query_ne_none (.inl hs))).eq_of_lt
      (of_decide_eq_true hexhausted) hle
    simp only [candidateIds, heq]
  | hybrid => exact absurd hs hsrc

theorem mem_of_mem_foldRuns {l : List ScoredId} {x : ScoredId} (h : x ∈ foldRuns l) :
    ∃ y ∈ l, y.id = x.id := by
  induction l generalizing x with
  | nil => cases h
  | cons a l ih =>
    unfold foldRuns at h
    split at h
    · obtain rfl := mem_singleton.1 h
      exact ⟨x, mem_cons_self, rfl⟩
    · rename_i y ys hfold
      split at h
      · rcases mem_cons.1 h with rfl | hx
        · exact ⟨a, mem_cons_self, rfl⟩
        · obtain ⟨z, hz, hid⟩ := ih (hfold ▸ mem_cons_of_mem y hx)
          exact ⟨z, mem_cons_of_mem a hz, hid⟩
      · rcases mem_cons.1 h with rfl | hx
        · exact ⟨x, mem_cons_self, rfl⟩
        · obtain ⟨z, hz, hid⟩ := ih (hfold ▸ hx)
          exact ⟨z, mem_cons_of_mem a hz, hid⟩

/-- The runs of a list in the order of its ids are folded to entries with different ids. -/
theorem pairwise_foldRuns {l : List ScoredId} (h : l.Pairwise fun x y => x.id.toNat ≤ y.id.toNat) :
    (foldRuns l).Pairwise fun x y => x.id.toNat < y.id.toNat := by
  induction l with
  | nil => exact .nil
  | cons a l ih =>
    obtain ⟨ha, hl⟩ := pairwise_cons.1 h
    have hfold := ih hl
    have hle : ∀ x ∈ foldRuns l, a.id.toNat ≤ x.id.toNat := by
      intro x hx
      obtain ⟨y, hy, hid⟩ := mem_of_mem_foldRuns hx
      exact hid ▸ ha y hy
    unfold foldRuns
    split
    · exact pairwise_singleton _ _
    · rename_i y ys hys
      rw [hys] at hfold hle
      obtain ⟨hy, hys'⟩ := pairwise_cons.1 hfold
      split
      · rename_i hid
        exact pairwise_cons.2 ⟨fun x hx => by simpa [mergeRun, hid] using hy x hx, hys'⟩
      · rename_i hne
        have hlt : a.id.toNat < y.id.toNat :=
          lt_of_le_of_ne (hle y mem_cons_self) fun heq => hne (toNat.inj heq)
        refine pairwise_cons.2 ⟨fun x hx => ?_, hfold⟩
        rcases mem_cons.1 hx with rfl | hx
        · exact hlt
        · exact hlt.trans (hy x hx)

theorem nodup_rrfFuse (shits lhits : List (UInt64 × F32)) :
    ((R.rrfFuse shits lhits).map ScoredId.id).Nodup := by
  unfold rrfFuse
  rw [List.Nodup, pairwise_map, pairwise_map]
  refine (pairwise_foldRuns (pairwise_sortBy _ _)).imp fun hlt heq => ?_
  have heq := congrArg toNat heq
  exact absurd heq (Nat.ne_of_lt hlt)

theorem FixedHits.nodup_candidateIds (h : FixedHits R ix p n) (hsrc : p.source ≠ .filter) (f : ℕ) :
    ((candidateIds R ix p sub f p.source 0).1.map ScoredId.id).Nodup := by
  cases hs : p.source with
  | filter => exact absurd hs hsrc
  | semantic =>
    show ((semanticIds _).map ScoredId.id).Nodup
    rw [map_id_semanticIds]
    exact ((h.semantic (embedding_ne_nil (.inl hs))).nodup f).sublist
      ((filter_sublist).map _)
  | lexical =>
    show ((lexicalIds _).map ScoredId.id).Nodup
    rw [map_id_lexicalIds]
    exact (h.lexicalList (query_ne_none (.inl hs))).nodup f
  | hybrid => exact nodup_rrfFuse _ _

end

section

variable {R : Ranking} {env : Sample} {db : Database F} {p : SearchParams} {sub : List UInt64}
  {n f f' : ℕ}

/-- The candidates of a fetch that meet the filters. -/
def fetchedCands (R : Ranking) (env : Sample) (db : Database F) (p : SearchParams)
    (sub : List UInt64) (f : ℕ) : List Cand :=
  (gatherCandidates R env db p sub f p.source 0).1

section

variable (h : FixedHits R db.ix p n)

include h

theorem FixedHits.fetchedCands_eq (hf : n ≤ f) (hf' : n ≤ f') :
    fetchedCands R env db p sub f = fetchedCands R env db p sub f' := by
  simp only [fetchedCands, gatherCandidates, h.candidateIds_eq hf hf']

theorem FixedHits.fetchedCands_initial (hsrc : p.source ≠ .hybrid) (hle : f ≤ f') :
    fetchedCands R env db p sub f <+: fetchedCands R env db p sub f' :=
  (h.candidateIds_initial hsrc hle).filterMap _

theorem FixedHits.fetchedCands_exhausted (hsrc : p.source ≠ .hybrid)
    (hexhausted : (gatherCandidates R env db p sub f p.source 0).2 = true) (hle : f ≤ f') :
    fetchedCands R env db p sub f = fetchedCands R env db p sub f' := by
  simp only [fetchedCands, gatherCandidates, h.candidateIds_exhausted hsrc hexhausted hle]

theorem FixedHits.nodup_fetchedCands (hs : db.Sound) (hsrc : p.source ≠ .filter) (f : ℕ) :
    ((fetchedCands R env db p sub f).map fun c => c.record.id).Nodup := by
  have hnodup : ((candidateIds R db.ix p sub f p.source 0).1.map ScoredId.id).Nodup :=
    h.nodup_candidateIds hsrc f
  rw [List.Nodup, pairwise_map] at hnodup ⊢
  unfold fetchedCands gatherCandidates
  rw [pairwise_filterMap]
  refine hnodup.imp fun {x y} hne c hc d hd => ?_
  have hid {x : ScoredId} {c : Cand} (hc : (loadCandidate env db p sub x.id).map
      (if p.source = .filter then R.unscored else R.scored p.source p env.now x) = some c) :
      c.record.id = x.id := by
    obtain ⟨r, hr, rfl⟩ := Option.map_eq_some_iff.1 hc
    rw [if_neg hsrc]
    exact (hs.of_loadRecord (loadCandidate_eq_some.1 hr).1).1
  rw [hid hc, hid hd]
  exact hne

theorem FixedHits.nodup_scoreKey (hs : db.Sound) (hsrc : p.source ≠ .filter) (f : ℕ) :
    ((fetchedCands R env db p sub f).map scoreKey).Nodup := by
  have hnodup : ((fetchedCands R env db p sub f).map fun c => c.record.id).Nodup :=
    h.nodup_fetchedCands hs hsrc f
  rw [List.Nodup, pairwise_map] at hnodup ⊢
  refine hnodup.imp fun {x y} hne heq => hne ?_
  exact toNat.inj (congrArg (fun k => (ofLex k).2) heq)

end

/-- A search ranks the candidates of a fetch that gives enough of them, exhausts the sources, or is
at its limit. -/
theorem widen_eq (want fuel : ℕ) (hf : f ≤ searchFetchCap) (hfuel : searchFetchCap ≤ f * 4 ^ fuel) :
    ∃ f', f ≤ f' ∧ f' ≤ searchFetchCap ∧
      widen R env db p sub want (fuel + 1) f = fetchedCands R env db p sub f' ∧
      (want ≤ (fetchedCands R env db p sub f').length ∨
        (gatherCandidates R env db p sub f' p.source 0).2 = true ∨ searchFetchCap ≤ f') := by
  induction fuel generalizing f with
  | zero =>
    refine ⟨f, le_rfl, hf, ?_, .inr (.inr (by simpa using hfuel))⟩
    rw [widen]
    exact if_pos (.inr (.inr (by simpa using hfuel)))
  | succ fuel ih =>
    rw [widen]
    by_cases hstop : want ≤ (fetchedCands R env db p sub f).length ∨
        (gatherCandidates R env db p sub f p.source 0).2 = true ∨ searchFetchCap ≤ f
    · exact ⟨f, le_rfl, hf, if_pos hstop, hstop⟩
    · have hnext : searchFetchCap ≤ min (f * 4) searchFetchCap * 4 ^ fuel := by
        rcases le_total (f * 4) searchFetchCap with h | h
        · rw [min_eq_left h]
          rwa [pow_succ', ← mul_assoc] at hfuel
        · rw [min_eq_right h]
          exact Nat.le_mul_of_pos_right _ (Nat.pow_pos (by decide))
      obtain ⟨f', hle, hcap, heq, hor⟩ := ih (min_le_right _ _) hnext
      exact ⟨f', by omega, hcap, (if_neg hstop).trans heq, hor⟩

/-- The first fetch of a search for so many places. -/
def firstFetch (want : ℕ) : ℕ := min (want * 4 + 32) searchFetchCap

variable (R env db p sub) in
theorem widen_firstFetch (want : ℕ) :
    ∃ f', firstFetch want ≤ f' ∧ f' ≤ searchFetchCap ∧
      widen R env db p sub want 5 (firstFetch want) = fetchedCands R env db p sub f' ∧
      (want ≤ (fetchedCands R env db p sub f').length ∨
        (gatherCandidates R env db p sub f' p.source 0).2 = true ∨ searchFetchCap ≤ f') := by
  refine widen_eq want 4 (min_le_right _ _) ?_
  unfold firstFetch searchFetchCap
  omega

theorem FixedHits.widen_of_le (h : FixedHits R db.ix p n) {want : ℕ}
    (hn : n ≤ want * 4 + 32 ∨ searchFetchCap ≤ want * 4 + 32) :
    widen R env db p sub want 5 (firstFetch want) = fetchedCands R env db p sub searchFetchCap := by
  obtain ⟨f, hfirst, hcap, heq, -⟩ := widen_firstFetch R env db p sub want
  rw [heq]
  unfold firstFetch at hfirst
  by_cases hall : searchFetchCap ≤ f
  · rw [le_antisymm hcap hall]
  · have hn : n ≤ want * 4 + 32 := hn.resolve_right (by omega)
    exact h.fetchedCands_eq (by omega) (by omega)

/-- A search of one source for as many places as there are matches ranks all matches. -/
theorem FixedHits.widen_of_covers (h : FixedHits R db.ix p n) (hsrc : p.source ≠ .hybrid) {want : ℕ}
    (hwant : (fetchedCands R env db p sub searchFetchCap).length ≤ want) :
    widen R env db p sub want 5 (firstFetch want) = fetchedCands R env db p sub searchFetchCap := by
  obtain ⟨f, -, hcap, heq, hstop⟩ := widen_firstFetch R env db p sub want
  rw [heq]
  rcases hstop with hlen | hexhausted | hall
  · exact (h.fetchedCands_initial hsrc hcap).eq_of_length
      (le_antisymm (h.fetchedCands_initial hsrc hcap).length_le (hwant.trans hlen))
  · exact h.fetchedCands_exhausted hsrc hexhausted hcap
  · rw [le_antisymm hcap hall]

end

/-! ## Pages -/

def searchRecords (R : Ranking) (cfg : DbConfig) (env : Sample) (db : Database F)
    (p : SearchParams) : List MemoryRecord :=
  match qeSearch R cfg env db p with
  | .error _ => []
  | .ok (hits, _) => hits.map Cand.record

def SearchParams.page (p : SearchParams) (topK offset : ℕ) : SearchParams :=
  { p with topK, offset }

/-- The pages of one size, one behind the other. -/
def pagesOf (R : Ranking) (cfg : DbConfig) (env : Sample) (db : Database F) (p : SearchParams)
    (k : ℕ) : List MemoryRecord :=
  (List.range (maxOffset / k + 1)).flatMap fun j => searchRecords R cfg env db (p.page k (j * k))

/-- There are no more than `top` matches, however many hits are fetched. -/
def Covers (R : Ranking) (cfg : DbConfig) (env : Sample) (db : Database F) (p : SearchParams)
    (top : ℕ) : Prop :=
  ∀ members, resolveSubsume cfg env db p = .ok members →
    ∀ f, (fetchedCands R env db p members.1 f).length ≤ top

/-- The pages list each record at most once, and in the order of a search for all matches. -/
def PagesCompose (R : Ranking) (cfg : DbConfig) (env : Sample) (db : Database F) (p : SearchParams)
    (k : ℕ) : Prop :=
  ((pagesOf R cfg env db p k).map MemoryRecord.id).Nodup ∧
    ∀ top, Covers R cfg env db p top →
      pagesOf R cfg env db p k <+: searchRecords R cfg env db (p.page top 0)

theorem flatMap_slices {α : Type} (l : List α) (k n : ℕ) :
    ((range n).flatMap fun j => (l.take (j * k + k)).drop (j * k)) = l.take (n * k) := by
  induction n with
  | zero => simp
  | succ n ih =>
    rw [range_succ, flatMap_append, ih, flatMap_singleton, Nat.succ_mul]
    conv_rhs => rw [← take_append_drop (n * k) (l.take (n * k + k)), take_take]
    rw [min_eq_left (Nat.le_add_right _ _)]

section

variable {R : Ranking} {cfg : DbConfig} {env : Sample} {db : Database F} {p : SearchParams}
  {sub : List UInt64} {n k : ℕ}

theorem widen_page (topK offset want fuel f : ℕ) :
    widen R env db (p.page topK offset) sub want fuel f = widen R env db p sub want fuel f := by
  induction fuel generalizing f with
  | zero => rfl
  | succ fuel ih =>
    rw [widen, widen, ih]
    rfl

theorem rankedPage_eq (hsrc : p.source ≠ .filter) {top offset : ℕ} (htop : top ≠ 0)
    (hoffset : offset ≤ maxOffset) {cands : List Cand} (hnodup : (cands.map scoreKey).Nodup)
    (hwiden : widen R env db p sub (offset + top) 5 (firstFetch (offset + top)) = cands) :
    rankedPage R cfg env db (p.page top offset) sub =
      ((sortBy scoreKey cands).take (offset + top)).drop offset := by
  have hpage : rankedPage R cfg env db (p.page top offset) sub =
      (selectTop scoreKey cands (offset + top)).drop offset := by
    have hsrc' : (p.page top offset).source ≠ .filter := hsrc
    have htop' : (if (p.page top offset).topK ≠ 0 then (p.page top offset).topK else 10) = top :=
      if_pos htop
    have hoffset' : min (p.page top offset).offset maxOffset = offset := min_eq_left hoffset
    unfold rankedPage
    simp only [if_neg hsrc', htop', hoffset', widen_page]
    rw [show min ((offset + top) * 4 + 32) searchFetchCap = firstFetch (offset + top) from rfl,
      hwiden]
  rw [hpage, selectTop_eq_take hnodup]

/-- The searches for pages are all refused, or all answered with the same members. -/
theorem searchRecords_page (R : Ranking) (cfg : DbConfig) (env : Sample) (db : Database F)
    (p : SearchParams) :
    (∀ top offset, searchRecords R cfg env db (p.page top offset) = []) ∨
      ∃ members, resolveSubsume cfg env db p = .ok members ∧
        ∀ top offset, searchRecords R cfg env db (p.page top offset) =
          (rankedPage R cfg env db (p.page top offset) members.1).map record := by
  cases hsub : resolveSubsume cfg env db p with
  | error st =>
    left
    intro top offset
    have hpage : resolveSubsume cfg env db (p.page top offset) = .error st := hsub
    rw [searchRecords, qeSearch, hpage]
  | ok members =>
    have hpage (top offset : ℕ) : resolveSubsume cfg env db (p.page top offset) = .ok members := hsub
    -- the checks before the search read nothing of the page
    have hchecks (top offset : ℕ) : qeSearch R cfg env db (p.page top offset) =
        if !cfg.phase (if p.embedding ≠ [] then 3 else 2) then .error .notReady
        else if p.embedding ≠ [] ∧ p.embedding.length ≠ cfg.embeddingDimensions then
          .error .invalidRequest
        else if (p.query.any fun q => q.bytes ≠ []) ∧ db.ix.lex.isNone then .error .notReady
        else .ok (rankedPage R cfg env db (p.page top offset) members.1, members.2) := by
      rw [qeSearch, hpage]
      rfl
    by_cases hphase : (!cfg.phase (if p.embedding ≠ [] then 3 else 2)) = true
    · exact .inl fun top offset => by rw [searchRecords, hchecks, if_pos hphase]
    by_cases hdim : p.embedding ≠ [] ∧ p.embedding.length ≠ cfg.embeddingDimensions
    · exact .inl fun top offset => by rw [searchRecords, hchecks, if_neg hphase, if_pos hdim]
    by_cases hlex : (p.query.any fun q => q.bytes ≠ []) = true ∧ db.ix.lex.isNone = true
    · exact .inl fun top offset => by
        rw [searchRecords, hchecks, if_neg hphase, if_neg hdim, if_pos hlex]
    · exact .inr ⟨members, rfl, fun top offset => by
        rw [searchRecords, hchecks, if_neg hphase, if_neg hdim, if_neg hlex]⟩

theorem rankedPage_zero (offset : ℕ) :
    rankedPage R cfg env db (p.page 0 offset) sub = rankedPage R cfg env db (p.page 10 offset) sub := by
  unfold rankedPage
  simp only [widen_page]
  rfl

theorem FixedHits.pagesCompose (h : FixedHits R db.ix p n) (hs : db.Sound)
    (hsrc : p.source ≠ .filter) (hk : 0 < k)
    (hn : n ≤ k * 4 + 32 ∨ searchFetchCap ≤ k * 4 + 32) (hboth : p.source = .hybrid → n ≤ 36) :
    PagesCompose R cfg env db p k := by
  rcases searchRecords_page R cfg env db p with hnone | ⟨members, hsub, hpages⟩
  · have hempty : pagesOf R cfg env db p k = [] := by simp [pagesOf, hnone]
    simp [PagesCompose, hempty]
  have hkeys : ((fetchedCands R env db p members.1 searchFetchCap).map scoreKey).Nodup :=
    h.nodup_scoreKey hs hsrc searchFetchCap
  have hids : ((fetchedCands R env db p members.1 searchFetchCap).map fun c => c.record.id).Nodup :=
    h.nodup_fetchedCands hs hsrc searchFetchCap
  generalize hC : fetchedCands R env db p members.1 searchFetchCap = cands at hkeys hids
  -- every search ranks all candidates
  have hslice {top offset : ℕ} (htop : top ≠ 0) (hoffset : offset ≤ maxOffset)
      (hwiden : widen R env db p members.1 (offset + top) 5 (firstFetch (offset + top)) = cands) :
      searchRecords R cfg env db (p.page top offset) =
        (((sortBy scoreKey cands).map record).take (offset + top)).drop offset := by
    rw [hpages, rankedPage_eq hsrc htop hoffset hkeys hwiden, map_drop, map_take]
  have hall : pagesOf R cfg env db p k =
      ((sortBy scoreKey cands).map record).take ((maxOffset / k + 1) * k) := by
    rw [← flatMap_slices, pagesOf]
    refine flatMap_congr fun j hj => ?_
    have hj : j ≤ maxOffset / k := Nat.lt_succ_iff.1 (mem_range.1 hj)
    refine hslice hk.ne' ((Nat.le_div_iff_mul_le hk).1 hj) ?_
    rw [← hC]
    exact h.widen_of_le (by omega)
  rw [PagesCompose, hall]
  refine ⟨?_, fun top htop => ?_⟩
  · rw [map_take]
    refine List.Nodup.sublist (take_sublist _ _) ?_
    rw [map_map]
    exact ((perm_sortBy scoreKey cands).map _).nodup_iff.2 hids
  · have hlen := htop members hsub searchFetchCap
    rw [hC] at hlen
    -- a search for no places is one for ten
    obtain ⟨top', htop', hle, heq⟩ : ∃ top', top' ≠ 0 ∧ top ≤ top' ∧
        searchRecords R cfg env db (p.page top 0) = searchRecords R cfg env db (p.page top' 0) := by
      rcases Nat.eq_zero_or_pos top with rfl | hpos
      · exact ⟨10, by decide, Nat.zero_le _, by rw [hpages, hpages, rankedPage_zero]⟩
      · exact ⟨top, hpos.ne', le_rfl, rfl⟩
    have hwiden : widen R env db p members.1 (0 + top') 5 (firstFetch (0 + top')) = cands := by
      rw [← hC]
      by_cases hyb : p.source = .hybrid
      · have := hboth hyb
        exact h.widen_of_le (by omega)
      · exact h.widen_of_covers hyb (by rw [hC]; omega)
    have hfull : ((sortBy scoreKey cands).map record).take (0 + top') =
        (sortBy scoreKey cands).map record := by
      apply take_of_length_le
      rw [length_map, (perm_sortBy scoreKey cands).length_eq]
      omega
    rw [heq, hslice htop' (Nat.zero_le _) hwiden, drop_zero, hfull]
    exact take_prefix _ _

end

/-! ## A hit behind the first fetch -/

/-- `0.5F`. -/
def half : F32 := ⟨0x3F000000⟩

def weighted (id : UInt64) (importance : F32) : MemoryRecord :=
  { recordInit with id, type := .episodic, importance, data := [110] }

theorem storable_weighted (id : UInt64) {importance : F32} (h : importance.InUnit) :
    Storable (weighted id importance) where
  wellFormed :=
    { wellFormed_recordInit with
      importance := h
      data := (by decide : 1 ≤ uint32Max) }
  length_le := (by decide : 64 ≤ maxPayload)

/-- One more hit than the first page of size `k` fetches. -/
def crowdHits (k : ℕ) : List (UInt64 × F32) :=
  (List.range (k * 4 + 33)).map fun i => (UInt64.ofNat (i + 1), F32.one)

/-- A semantic source with those hits, and the product of floats where one of them is one. -/
def crowdRanking (k : ℕ) : Ranking :=
  { Ranking.nothing with
    semantic := fun _ _ f => (crowdHits k).take f
    mul := fun x y => if y = .one then x else y }

def vectorConfig : DbConfig := { DbConfig.unlimited with embeddingDimensions := 1 }

/-- Notes of weight one half with the ids from 1 to `k`. -/
def lightNotes : ℕ → Database plainFraming
  | 0 => .create vectorConfig fun _ => ()
  | k + 1 => (lightNotes k).put vectorConfig .zero (weighted (UInt64.ofNat (k + 1)) half)

/-- The notes of the hits: the last of them has weight one. -/
def crowdDb (k : ℕ) : Database plainFraming :=
  (lightNotes (k * 4 + 32)).put vectorConfig .zero (weighted (UInt64.ofNat (k * 4 + 33)) .one)

def vectorQuery : SearchParams := { embedding := [.one] }

theorem toNat_ofNat_of_le {i m : ℕ} (hi : i ≤ m) (hm : m < size) :
    (ofNat i).toNat = i := toNat_ofNat_of_lt' (hi.trans_lt hm)

theorem nodup_ofNat {m : ℕ} (hm : m < size) :
    ((range m).map fun i => ofNat (i + 1)).Nodup := by
  refine nodup_range.map_on fun i hi j hj heq => ?_
  have hi : i + 1 ≤ m := mem_range.1 hi
  have hj : j + 1 ≤ m := mem_range.1 hj
  have heq := congrArg toNat heq
  rw [toNat_ofNat_of_le hi hm, toNat_ofNat_of_le hj hm] at heq
  omega

def lightView (k : ℕ) (id : UInt64) : Except Status MemoryRecord :=
  if id.toNat ≠ 0 ∧ id.toNat ≤ k then .ok (weighted id half) else .error .notFound

theorem shows_lightNotes {k : ℕ} (hk : k < size) : (lightNotes k).Shows (lightView k) := by
  induction k with
  | zero =>
    have hview : lightView 0 = fun _ => .error .notFound := by
      funext id
      exact if_neg fun h => h.1 (Nat.le_zero.1 h.2)
    rw [hview]
    exact Database.shows_create vectorConfig _
  | succ k ih =>
    have hput := (ih (Nat.lt_of_succ_lt hk)).put vectorConfig .zero
      (storable_weighted (ofNat (k + 1)) (by decide : half.InUnit)) rfl rfl
    have hid := toNat_ofNat_of_le (le_refl (k + 1)) hk
    have hview : lightView (k + 1) = update (lightView k) (ofNat (k + 1))
        (.ok (weighted (ofNat (k + 1)) half)) := by
      funext id
      by_cases heq : id = ofNat (k + 1)
      · rw [heq, update_self]
        exact if_pos ⟨by omega, by omega⟩
      · have hne : id.toNat ≠ k + 1 := fun h => heq (toNat.inj (h.trans hid.symm))
        rw [update_of_ne heq, lightView, lightView]
        exact if_congr (by omega) rfl rfl
    rw [hview]
    exact hput

theorem shows_crowdDb {k : ℕ} (hk : k * 4 + 33 < size) :
    (crowdDb k).Shows (update (lightView (k * 4 + 32)) (.ofNat (k * 4 + 33))
      (.ok (weighted (.ofNat (k * 4 + 33)) .one))) :=
  (shows_lightNotes (by omega)).put vectorConfig .zero (storable_weighted _ F32.one_inUnit) rfl rfl

theorem fixedHits_crowd {k : ℕ} (hk : k * 4 + 33 < size) (ix : Indexes) :
    FixedHits (crowdRanking k) ix vectorQuery (k * 4 + 33) where
  semantic _ := by
    refine ⟨crowdHits k, fun f => rfl, ?_, ?_, by simp [crowdHits]⟩
    · rw [crowdHits, map_map]
      exact nodup_ofNat hk
    · rw [crowdHits, pairwise_map]
      exact pairwise_of_forall fun _ _ => (by decide : F32.one.Le F32.one)
  lexical lx _ q hq := by cases hq

section

variable {k : ℕ} {env : Sample}

theorem searchRecords_vectorQuery (R : Ranking) (db : Database F) (top offset : ℕ) :
    searchRecords R vectorConfig env db (vectorQuery.page top offset) =
      (rankedPage R vectorConfig env db (vectorQuery.page top offset) []).map record := rfl

def crowdNote (k i : ℕ) : MemoryRecord :=
  if i = k * 4 + 32 then weighted (UInt64.ofNat (i + 1)) .one
  else weighted (UInt64.ofNat (i + 1)) half

theorem id_crowdNote (k i : ℕ) : (crowdNote k i).id = .ofNat (i + 1) := by
  unfold crowdNote
  split <;> rfl

theorem loadRecord_crowdDb (hk : k * 4 + 33 < size) {i : ℕ} (hi : i < k * 4 + 33) :
    loadRecord plainFraming (crowdDb k).store (ofNat (i + 1)) = .ok (crowdNote k i) := by
  rw [(shows_crowdDb hk).load]
  have hid := toNat_ofNat_of_le (by omega : i + 1 ≤ k * 4 + 33) hk
  by_cases hlast : i = k * 4 + 32
  · rw [hlast, update_self, crowdNote, if_pos rfl]
  · have hne : ofNat (i + 1) ≠ ofNat (k * 4 + 33) := by
      intro heq
      have heq := congrArg toNat heq
      rw [hid, toNat_ofNat_of_le le_rfl hk] at heq
      omega
    rw [update_of_ne hne, lightView, hid, crowdNote, if_neg hlast]
    exact if_pos ⟨by omega, by omega⟩

/-- The entry of the semantic source for a hit. -/
def crowdEntry (i : ℕ) : ScoredId :=
  { id := UInt64.ofNat (i + 1), score := .one, sim := .one, srank := i + 1 }

theorem candidateIds_crowd (ix : Indexes) (f : ℕ) :
    (candidateIds (crowdRanking k) ix vectorQuery [] f .semantic 0).1 =
      (range (min f (k * 4 + 33))).map crowdEntry := by
  have hfilter : (candidateIds (crowdRanking k) ix vectorQuery [] f .semantic 0).1 =
      semanticIds ((crowdHits k).take f) :=
    congrArg semanticIds (filter_eq_self.2 fun _ _ => rfl)
  rw [hfilter, crowdHits, ← map_take, take_range]
  apply ext_getElem
  · simp [semanticIds]
  · intro i hi hi'
    simp [semanticIds, crowdEntry]

/-- The matches of the crowd are its notes, ranked by their importance. -/
theorem mem_crowd (hk : k * 4 + 33 < size) {f : ℕ} {c : Cand} :
    c ∈ fetchedCands (crowdRanking k) .zero (crowdDb k) vectorQuery [] f ↔ ∃ i < min f (k * 4 + 33),
        c = (crowdRanking k).scored .semantic vectorQuery 0 (crowdEntry i) (crowdNote k i) := by
  have hload {i : ℕ} (hi : i < k * 4 + 33) :
      loadCandidate .zero (crowdDb k) vectorQuery [] (crowdEntry i).id = some (crowdNote k i) := by
    rw [loadCandidate, currentRecord]
    show Option.filter _ (loadRecord plainFraming _ (.ofNat (i + 1))).toOption = _
    rw [loadRecord_crowdDb hk hi]
    unfold crowdNote
    split <;> rfl
  have hsrc : vectorQuery.source = .semantic := rfl
  rw [fetchedCands, gatherCandidates, mem_filterMap, hsrc, candidateIds_crowd]
  constructor
  · rintro ⟨x, hx, hc⟩
    obtain ⟨i, hi, rfl⟩ := mem_map.1 hx
    have hi := mem_range.1 hi
    rw [hload (by omega)] at hc
    cases hc
    exact ⟨i, hi, rfl⟩
  · rintro ⟨i, hi, rfl⟩
    refine ⟨crowdEntry i, mem_map.2 ⟨i, mem_range.2 hi, rfl⟩, ?_⟩
    rw [hload (by omega)]
    rfl

theorem scoreKey_crowd_lt {i : ℕ} (hi : i ≠ k * 4 + 32) :
    ((crowdRanking k).scored .semantic vectorQuery 0 (crowdEntry (k * 4 + 32))
        (crowdNote k (k * 4 + 32))).scoreKey <
      ((crowdRanking k).scored .semantic vectorQuery 0 (crowdEntry i) (crowdNote k i)).scoreKey := by
  rw [crowdNote, crowdNote, if_pos rfl, if_neg hi, Prod.Lex.lt_iff]
  exact .inl (by decide : -F32.one.key < -half.key)

theorem length_crowd_le (f : ℕ) :
    (fetchedCands (crowdRanking k) .zero (crowdDb k) vectorQuery [] f).length ≤ k * 4 + 33 := by
  have hlen : (candidateIds (crowdRanking k) (crowdDb k).ix vectorQuery [] f .semantic 0).1.length ≤
      k * 4 + 33 := by
    rw [candidateIds_crowd, length_map, length_range]
    exact min_le_right _ _
  exact (length_filterMap_le _ _).trans hlen

/-- The first page finds as many matches as it wants among its hits. -/
theorem le_length_crowd (hk : k * 4 + 33 < size) :
    k ≤ (fetchedCands (crowdRanking k) .zero (crowdDb k) vectorQuery [] (k * 4 + 32)).length := by
  have hsub : (range k).map (fun i => ofNat (i + 1)) ⊆
      (fetchedCands (crowdRanking k) .zero (crowdDb k) vectorQuery [] (k * 4 + 32)).map
        fun c => c.record.id := by
    intro id hid
    obtain ⟨i, hi, rfl⟩ := mem_map.1 hid
    have hi := mem_range.1 hi
    exact mem_map.2 ⟨_, (mem_crowd hk).2 ⟨i, by omega, rfl⟩, id_crowdNote k i⟩
  have hnodup : ((range k).map fun i => ofNat (i + 1)).Nodup := nodup_ofNat (by omega)
  simpa using (subperm_of_subset hnodup hsub).length_le

/-- The first record of a search for all matches is the last of the hits. -/
theorem head_crowd (hk : k * 4 + 33 < size) (hcap : k * 4 + 33 ≤ searchFetchCap) :
    ∃ rest, searchRecords (crowdRanking k) vectorConfig .zero (crowdDb k)
      (vectorQuery.page (k * 4 + 33) 0) = crowdNote k (k * 4 + 32) :: rest := by
  have h : FixedHits (crowdRanking k) (crowdDb k).ix vectorQuery (k * 4 + 33) :=
    fixedHits_crowd hk _
  have hsrc : vectorQuery.source ≠ .filter := by decide
  have hkeys : ((fetchedCands (crowdRanking k) .zero (crowdDb k) vectorQuery []
      searchFetchCap).map scoreKey).Nodup := h.nodup_scoreKey (shows_crowdDb hk).sound hsrc _
  have hwiden := h.widen_of_covers (by decide) ((length_crowd_le _).trans_eq (Nat.zero_add _).symm)
  rw [searchRecords_vectorQuery, rankedPage_eq hsrc (by omega) (Nat.zero_le _) hkeys hwiden,
    drop_zero, Nat.zero_add]
  -- the best of the candidates
  have hmem := (mem_crowd hk).2 ⟨k * 4 + 32, (by omega : _ < min searchFetchCap _), rfl⟩
  have hperm := perm_sortBy scoreKey
    (fetchedCands (crowdRanking k) .zero (crowdDb k) vectorQuery [] searchFetchCap)
  have hsorted := pairwise_sortBy scoreKey
    (fetchedCands (crowdRanking k) .zero (crowdDb k) vectorQuery [] searchFetchCap)
  rw [← hperm.mem_iff] at hmem
  cases hlist : sortBy scoreKey
      (fetchedCands (crowdRanking k) .zero (crowdDb k) vectorQuery [] searchFetchCap) with
  | nil =>
    rw [hlist] at hmem
    cases hmem
  | cons c cs =>
    rw [hlist] at hmem hsorted hperm
    obtain ⟨i, -, rfl⟩ := (mem_crowd hk).1 (hperm.mem_iff.1 mem_cons_self)
    by_cases hi : i = k * 4 + 32
    · subst hi
      rw [take_succ_cons, map_cons]
      exact ⟨_, rfl⟩
    · rcases mem_cons.1 hmem with heq | hin
      · exact absurd (congrArg scoreKey heq) (scoreKey_crowd_lt hi).ne
      · exact absurd ((pairwise_cons.1 hsorted).1 _ hin) (scoreKey_crowd_lt hi).not_ge

/-- The pages of the crowd do not compose: the first one does not have the best match. -/
theorem not_pagesCompose_crowd (hpos : 0 < k) (hcap : k * 4 + 32 < searchFetchCap) :
    ¬ PagesCompose (crowdRanking k) vectorConfig .zero (crowdDb k) vectorQuery k := by
  have hk : k * 4 + 33 < size := lt_of_le_of_lt hcap (by decide)
  rintro ⟨-, hinitial⟩
  have h : FixedHits (crowdRanking k) (crowdDb k).ix vectorQuery (k * 4 + 33) :=
    fixedHits_crowd hk _
  have hsrc : vectorQuery.source ≠ .filter := by decide
  obtain ⟨rest, hall⟩ := head_crowd hk hcap
  have hlen := le_length_crowd hk
  have hwiden : widen (crowdRanking k) .zero (crowdDb k) vectorQuery [] (0 + k) 5
      (firstFetch (0 + k)) =
        fetchedCands (crowdRanking k) .zero (crowdDb k) vectorQuery [] (k * 4 + 32) := by
    rw [Nat.zero_add, firstFetch, min_eq_left (Nat.le_of_lt hcap), widen]
    exact if_pos (.inl hlen)
  have hkeys : ((fetchedCands (crowdRanking k) .zero (crowdDb k) vectorQuery []
      (k * 4 + 32)).map scoreKey).Nodup := h.nodup_scoreKey (shows_crowdDb hk).sound hsrc _
  have hfirst : searchRecords (crowdRanking k) vectorConfig .zero (crowdDb k)
      (vectorQuery.page k 0) = ((sortBy scoreKey (fetchedCands (crowdRanking k) .zero
        (crowdDb k) vectorQuery [] (k * 4 + 32))).take k).map record := by
    rw [searchRecords_vectorQuery, rankedPage_eq hsrc hpos.ne' (Nat.zero_le _) hkeys hwiden,
      drop_zero, Nat.zero_add]
  have hcovers : Covers (crowdRanking k) vectorConfig .zero (crowdDb k) vectorQuery (k * 4 + 33) := by
    intro members hmembers f
    cases hmembers
    exact length_crowd_le f
  have hpages := hinitial _ hcovers
  rw [hall, pagesOf, range_succ_eq_map, flatMap_cons, Nat.zero_mul, hfirst] at hpages
  have hperm := perm_sortBy scoreKey
    (fetchedCands (crowdRanking k) .zero (crowdDb k) vectorQuery [] (k * 4 + 32))
  cases hlist : sortBy scoreKey
      (fetchedCands (crowdRanking k) .zero (crowdDb k) vectorQuery [] (k * 4 + 32)) with
  | nil =>
    rw [hlist] at hperm
    rw [← hperm.length_eq] at hlen
    exact absurd hlen (Nat.not_le.2 hpos)
  | cons c cs =>
    obtain ⟨k', rfl⟩ := Nat.exists_eq_succ_of_ne_zero hpos.ne'
    rw [hlist, take_succ_cons, map_cons, cons_append, cons_prefix_cons] at hpages
    rw [hlist] at hperm
    obtain ⟨i, hi, rfl⟩ := (mem_crowd hk).1 (hperm.mem_iff.1 mem_cons_self)
    have hid : (crowdNote (k' + 1) i).id = (crowdNote (k' + 1) ((k' + 1) * 4 + 32)).id :=
      congrArg MemoryRecord.id hpages.1
    rw [id_crowdNote, id_crowdNote] at hid
    have hid := congrArg toNat hid
    rw [toNat_ofNat_of_le (by omega : i + 1 ≤ (k' + 1) * 4 + 33) hk,
      toNat_ofNat_of_le le_rfl hk] at hid
    omega

end

end AegisDB
