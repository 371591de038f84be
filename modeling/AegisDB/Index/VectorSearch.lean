import AegisDB.Index.GraphBuild
import Mathlib.Algebra.Order.BigOperators.Group.Finset

/-!
# Searching the semantic index

`semantic_index_search` scores the vectors of the dense array, or those that each shard finds nearest,
and `dedup_topk` keeps the best score of each record and the best records. Scores are taken from any
linear order, and the search of a shard as exact (`Nearest`).

A shard is asked for twice as many vectors as records are wanted. Few records with many vectors can
fill that up: `graphSearch_agrees_iff` says for which vectors the search of the graph has the scores of
the dense search, whatever the query.
-/

namespace AegisDB

open List Function DenseArray OrderDual
open Prod (fst snd)

variable {syn : UInt64}

/-! ## The best score of each record -/

section

variable {κ : Type} [LinearOrder κ]

/-- A turn of the loop of `dedup_topk`: the first score of a record, or a better one. -/
def mergeBest (uni : DenseArray UInt64 κ) (c : UInt64 × κ) : DenseArray UInt64 κ :=
  match uni.get? c.1 with
  | none => uni.put c.1 c.2
  | some score => if score < c.2 then uni.put c.1 c.2 else uni

/-- The records with their best scores, in the order in which they were first seen. -/
def bestScores (cands : List (UInt64 × κ)) : DenseArray UInt64 κ := cands.foldl mergeBest .empty

def Scored.key (c : UInt64 × κ) : κᵒᵈ := OrderDual.toDual c.2

/-- `dedup_topk`: the `topK` best records, or all for zero. -/
def dedupTopk (cands : List (UInt64 × κ)) (topK : ℕ) : List (UInt64 × κ) :=
  let uni := (bestScores cands).entries
  let k := if topK ≠ 0 ∧ topK < uni.length then topK else uni.length
  sortBy Scored.key <|
    if k < uni.length then
      (heapBest (keyAt Scored.key uni) k uni.length).filterMap fun i => uni[i]?
    else uni

theorem get?_mergeBest (uni : DenseArray UInt64 κ) (c : UInt64 × κ) :
    (mergeBest uni c).get? =
      update uni.get? c.1 (some ((uni.get? c.1).elim c.2 fun score => max score c.2)) := by
  unfold mergeBest
  split
  · next h => rw [get?_put, h, Option.elim_none]
  · next score h =>
    rw [h, Option.elim_some]
    split
    · next hlt => rw [get?_put, max_eq_right hlt.le]
    · next hle => rw [max_eq_left (not_lt.1 hle), ← h, update_eq_self]

theorem get?_foldl_mergeBest (cands : List (UInt64 × κ)) (uni : DenseArray UInt64 κ) (id : UInt64)
    (c : κ) :
    (∃ s, (cands.foldl mergeBest uni).get? id = some s ∧ c ≤ s) ↔
      (∃ s, uni.get? id = some s ∧ c ≤ s) ∨ ∃ s, (id, s) ∈ cands ∧ c ≤ s := by
  induction cands generalizing uni with
  | nil => simp
  | cons x cands ih =>
    rw [foldl_cons, ih, get?_mergeBest]
    by_cases hid : id = x.1
    · subst hid
      rw [update_self]
      cases hget : uni.get? x.1 with
      | none =>
        simp only [Option.elim_none, Option.some.injEq, exists_eq_left', mem_cons, reduceCtorEq,
          false_and, exists_false, false_or]
        constructor
        · rintro (h | ⟨s, hs, hle⟩)
          · exact ⟨x.2, .inl rfl, h⟩
          · exact ⟨s, .inr hs, hle⟩
        · rintro ⟨s, hs | hs, hle⟩
          · exact .inl (by rw [← hs]; exact hle)
          · exact .inr ⟨s, hs, hle⟩
      | some t =>
        simp only [Option.elim_some, Option.some.injEq, exists_eq_left', mem_cons, le_max_iff]
        constructor
        · rintro ((h | h) | ⟨s, hs, hle⟩)
          · exact .inl h
          · exact .inr ⟨x.2, .inl rfl, h⟩
          · exact .inr ⟨s, .inr hs, hle⟩
        · rintro (h | ⟨s, hs | hs, hle⟩)
          · exact .inl (.inl h)
          · exact .inl (.inr (by rw [← hs]; exact hle))
          · exact .inr ⟨s, hs, hle⟩
    · have hmem : ∀ s, (id, s) ∈ x :: cands ↔ (id, s) ∈ cands := by
        intro s
        rw [mem_cons, or_iff_right]
        rintro rfl
        exact hid rfl
      simp only [update_of_ne hid, hmem]

/-- The records with a candidate at least as good as a score. -/
def recordsAbove (cands : List (UInt64 × κ)) (c : κ) : Finset UInt64 :=
  ((cands.filter fun x => decide (c ≤ x.2)).map fst).toFinset

variable {cands : List (UInt64 × κ)}

theorem mem_recordsAbove {c : κ} {id : UInt64} :
    id ∈ recordsAbove cands c ↔ ∃ s, (id, s) ∈ cands ∧ c ≤ s := by
  simp [recordsAbove]

/-- As many of the best scores are at least as good as one as there are records above it. -/
theorem countP_bestScores (cands : List (UInt64 × κ)) (c : κ) :
    ((bestScores cands).entries.countP fun x => decide (c ≤ x.2)) =
      (recordsAbove cands c).card := by
  have hnodup : (((bestScores cands).entries.filter fun x => decide (c ≤ x.2)).map
      fst).Nodup :=
    (bestScores cands).nodup.sublist ((filter_sublist).map fst)
  rw [countP_eq_length_filter, ← length_map fst, ← toFinset_card_of_nodup hnodup]
  congr 1
  ext id
  rw [mem_recordsAbove, mem_toFinset]
  have hbest := get?_foldl_mergeBest cands .empty id c
  simp only [get?_empty, reduceCtorEq, false_and, exists_false, false_or] at hbest
  rw [← hbest, mem_map]
  constructor
  · rintro ⟨x, hx, rfl⟩
    rw [mem_filter, decide_eq_true_eq] at hx
    exact ⟨x.2, get?_eq_some.2 hx.1, hx.2⟩
  · rintro ⟨s, hs, hle⟩
    exact ⟨(id, s), mem_filter.2 ⟨get?_eq_some.1 hs, by simpa using hle⟩, rfl⟩

theorem exists_best {id : UInt64} {s : κ} (hs : (id, s) ∈ cands) :
    ∃ t, (id, t) ∈ (bestScores cands).entries ∧ s ≤ t := by
  obtain ⟨t, ht, hst⟩ := (get?_foldl_mergeBest cands .empty id s).2 (.inr ⟨s, hs, le_rfl⟩)
  exact ⟨t, get?_eq_some.1 ht, hst⟩

theorem mem_bestScores {id : UInt64} {s : κ} :
    (id, s) ∈ (bestScores cands).entries ↔
      (id, s) ∈ cands ∧ ∀ s', (id, s') ∈ cands → s' ≤ s := by
  have hmax {t : κ} (ht : (id, t) ∈ (bestScores cands).entries) :
      (id, t) ∈ cands ∧ ∀ s', (id, s') ∈ cands → s' ≤ t := by
    have hle {s' : κ} (hs' : (id, s') ∈ cands) : s' ≤ t := by
      obtain ⟨u, hu, hle⟩ := exists_best hs'
      cases (get?_eq_some.2 ht).symm.trans (get?_eq_some.2 hu)
      exact hle
    rcases (get?_foldl_mergeBest cands .empty id t).1 ⟨t, get?_eq_some.2 ht, le_rfl⟩ with
      ⟨u, hu, -⟩ | ⟨u, hu, htu⟩
    · cases hu
    · exact ⟨le_antisymm htu (hle hu) ▸ hu, fun s' => hle⟩
  refine ⟨hmax, fun ⟨hs, hle⟩ => ?_⟩
  obtain ⟨t, ht, hst⟩ := exists_best hs
  rwa [le_antisymm hst (hle t (hmax ht).1)]

theorem length_bestScores :
    (bestScores cands).entries.length = (cands.map fst).toFinset.card := by
  rw [← length_map fst, ← toFinset_card_of_nodup (bestScores cands).nodup]
  congr 1
  ext id
  simp only [mem_toFinset, mem_map, Prod.exists, exists_and_right, exists_eq_right]
  constructor
  · rintro ⟨s, hs⟩
    exact ⟨s, (mem_bestScores.1 hs).1⟩
  · rintro ⟨s, hs⟩
    obtain ⟨t, ht, -⟩ := exists_best hs
    exact ⟨t, ht⟩

theorem length_bestScores_le {ids : List UInt64} (h : ∀ x ∈ cands, x.1 ∈ ids) :
    (bestScores cands).entries.length ≤ ids.length := by
  rw [length_bestScores]
  refine (Finset.card_le_card fun id hid => ?_).trans ids.toFinset_card_le
  obtain ⟨x, hx, rfl⟩ := mem_map.1 (mem_toFinset.1 hid)
  exact mem_toFinset.2 (h x hx)

/-- The scores of `dedup_topk` are the first of the best scores in order. -/
theorem keys_dedupTopk {topK k : ℕ} (hk : topK ≠ 0 → k = topK)
    (hall : topK = 0 → (bestScores cands).entries.length ≤ k) :
    (dedupTopk cands topK).map Scored.key =
      (sortedKeys Scored.key (bestScores cands).entries).take k := by
  have hlen : (sortedKeys Scored.key (bestScores cands).entries).length =
      (bestScores cands).entries.length := by
    rw [(perm_sortedKeys _).length_eq, length_map]
  change sortedKeys Scored.key _ = _
  generalize (bestScores cands).entries = uni at *
  by_cases hcut : topK ≠ 0 ∧ topK < uni.length
  · rw [if_pos hcut, if_pos hcut.2, sortedKeys_heapBest hcut.2.le, hk hcut.1]
  · rw [if_neg hcut, if_neg (lt_irrefl _), take_of_length_le]
    rw [hlen]
    by_cases h0 : topK = 0
    · exact hall h0
    · rw [hk h0]
      exact not_lt.1 fun hlt => hcut ⟨h0, hlt⟩

theorem length_dedupTopk (cands : List (UInt64 × κ)) {topK : ℕ} (h : topK ≠ 0) :
    (dedupTopk cands topK).length = min topK (bestScores cands).entries.length := by
  have hkeys : (dedupTopk cands topK).map Scored.key = _ :=
    keys_dedupTopk (fun _ => rfl) fun h0 => absurd h0 h
  have hlen := congrArg List.length hkeys
  rwa [length_map, length_take, (perm_sortedKeys _).length_eq, length_map] at hlen

/-- What is returned is a part of the best scores, in order, and no other score is better. -/
theorem dedupTopk_parts (cands : List (UInt64 × κ)) (topK : ℕ) :
    ∃ rest, (bestScores cands).entries.Perm (dedupTopk cands topK ++ rest) ∧
      ((dedupTopk cands topK).Pairwise fun x y => y.2 ≤ x.2) ∧
      ∀ x ∈ dedupTopk cands topK, ∀ y ∈ rest, y.2 ≤ x.2 := by
  unfold dedupTopk
  dsimp only
  generalize (bestScores cands).entries = uni
  by_cases hcut : topK ≠ 0 ∧ topK < uni.length
  · rw [if_pos hcut, if_pos hcut.2]
    obtain ⟨rest, hperm, -, hle⟩ := heapBest_parts Scored.key hcut.2.le
    refine ⟨rest, hperm.trans ((perm_sortBy Scored.key _).symm.append_right rest),
      pairwise_sortBy Scored.key _, fun x hx => hle x ((perm_sortBy Scored.key _).mem_iff.1 hx)⟩
  · rw [if_neg hcut, if_neg (lt_irrefl _)]
    refine ⟨[], ?_, pairwise_sortBy Scored.key _, by simp⟩
    rw [append_nil]
    exact (perm_sortBy Scored.key uni).symm

theorem nodup_dedupTopk (cands : List (UInt64 × κ)) (topK : ℕ) :
    ((dedupTopk cands topK).map fst).Nodup := by
  obtain ⟨rest, hperm, -⟩ := dedupTopk_parts cands topK
  have hnodup := (hperm.map fst).nodup_iff.1 (bestScores cands).nodup
  rw [map_append] at hnodup
  exact (nodup_append.1 hnodup).1

/-- As many records are above every score in both lists of candidates, up to the number that is
wanted. -/
theorem keys_dedupTopk_eq_iff {cands' : List (UInt64 × κ)} {topK k : ℕ} (hk : topK ≠ 0 → k = topK)
    (hall : topK = 0 → (bestScores cands).entries.length ≤ k)
    (hall' : topK = 0 → (bestScores cands').entries.length ≤ k) :
    (dedupTopk cands topK).map Scored.key = (dedupTopk cands' topK).map Scored.key ↔
      ∀ c, min k (recordsAbove cands c).card = min k (recordsAbove cands' c).card := by
  have hcount : ∀ (cands : List (UInt64 × κ)) (c : κᵒᵈ),
      ((sortedKeys Scored.key (bestScores cands).entries).countP fun a => decide (a ≤ c)) =
        (recordsAbove cands (ofDual c)).card := by
    intro cands c
    rw [(perm_sortedKeys _).countP_eq, countP_map, ← countP_bestScores]
    rfl
  rw [keys_dedupTopk hk hall, keys_dedupTopk hk hall',
    take_eq_take_iff (pairwise_sortedKeys _) (pairwise_sortedKeys _)]
  simp only [hcount]
  exact ⟨fun h c => h (toDual c), fun h c => h (ofDual c)⟩

/-! ### The table of slots -/

/-- The doubling of a capacity up to a bound, at most so many times. -/
def doubled (bound : ℕ) : ℕ → ℕ → ℕ
  | 0, cap => cap
  | fuel + 1, cap => if cap < bound then doubled bound fuel (cap * 2) else cap

theorem le_doubled {bound fuel cap : ℕ} (h : bound ≤ cap * 2 ^ fuel) :
    bound ≤ doubled bound fuel cap := by
  induction fuel generalizing cap with
  | zero => simpa [doubled] using h
  | succ fuel ih =>
    unfold doubled
    split_ifs with hlt
    · exact ih (by rwa [mul_assoc, ← pow_succ'])
    · exact not_lt.1 hlt

/-- What the loop of `dedup_topk` works on: the slots `ds`, and the records `uni` with their scores. -/
structure DedupState (κ : Type) where
  /-- The place of a record in `uni`. -/
  ds : OpenTable idHash ℕ
  uni : List (UInt64 × κ)

/-- A turn of the loop of `dedup_topk`; `none` if the search for a slot does not end. -/
def dedupStep (s : DedupState κ) (c : UInt64 × κ) : Option (DedupState κ) :=
  match s.ds.get? c.1 with
  | some idx =>
    some { s with uni := s.uni.modify idx fun x => if x.2 < c.2 then (x.1, c.2) else x }
  | none => (s.ds.put? c.1 s.uni.length).map fun ds => ⟨ds, s.uni ++ [c]⟩

/-- The loop of `dedup_topk`. -/
def dedupLoop (cands : List (UInt64 × κ)) : Option (DedupState κ) :=
  cands.foldlM dedupStep ⟨.create (doubled (cands.length * 2) cands.length 16), []⟩

/-- The slots are an index of the records, which are those of the array. -/
structure DedupState.Indexes (s : DedupState κ) (a : DenseArray UInt64 κ) : Prop where
  uni : s.uni = a.entries
  ds : ∀ id, s.ds.get? id = a.place id

omit [LinearOrder κ] in
theorem place_eq (a : DenseArray UInt64 κ) (id : UInt64) :
    a.place id = (a.entries.map fst).findIdx? fun k => decide (k = id) := by
  rw [place, findIdx?_map]
  rfl

omit [LinearOrder κ] in
theorem entries_put {a : DenseArray UInt64 κ} {id : UInt64} {i : ℕ} (h : a.place id = some i)
    (v : κ) : (a.put id v).entries = a.entries.set i (id, v) := by
  rw [put]
  split
  · next j hj =>
    cases hj.symm.trans h
    rfl
  · next hnone => cases hnone.symm.trans h

theorem DedupState.Indexes.step {s : DedupState κ} {a : DenseArray UInt64 κ} (h : s.Indexes a)
    (c : UInt64 × κ) (hroom : s.ds.used < s.ds.cap) :
    ∃ s', dedupStep s c = some s' ∧ s'.Indexes (mergeBest a c) ∧ s'.ds.cap = s.ds.cap ∧
      s'.ds.used ≤ s.ds.used + 1 := by
  unfold dedupStep
  rw [h.ds]
  cases hplace : a.place c.1 with
  | some i =>
    refine ⟨_, rfl, ?_, rfl, Nat.le_succ _⟩
    obtain ⟨score, hscore⟩ := of_place hplace
    have hget : a.get? c.1 = some score := get?_eq_some.2 (mem_of_getElem? hscore)
    have hentries : (mergeBest a c).entries =
        s.uni.modify i fun x => if x.2 < c.2 then (x.1, c.2) else x := by
      have hi := (List.getElem?_eq_some_iff.1 hscore).1
      rw [h.uni, mergeBest, hget]
      dsimp only
      by_cases hlt : score < c.2
      · rw [if_pos hlt, entries_put hplace]
        ext j : 1
        rw [getElem?_set, getElem?_modify]
        by_cases hj : i = j
        · subst hj
          rw [if_pos rfl, if_pos hi, hscore]
          simp [hlt]
        · simp [hj]
      · rw [if_neg hlt]
        ext j : 1
        rw [getElem?_modify]
        by_cases hj : i = j
        · subst hj
          rw [hscore]
          simp [hlt]
        · simp [hj]
    refine ⟨hentries.symm, fun id => ?_⟩
    rw [h.ds, place_eq, place_eq, hentries, h.uni]
    congr 1
    ext j : 1
    rw [getElem?_map, getElem?_map, getElem?_modify]
    by_cases hj : i = j
    · subst hj
      rw [hscore]
      simp [apply_ite fst]
    · simp [hj]
  | none =>
    obtain ⟨ds, hds⟩ := OpenTable.put?_isSome hroom c.1 s.uni.length
    rw [hds]
    refine ⟨_, rfl, ?_, OpenTable.cap_put hds, OpenTable.used_put_le hds⟩
    have hget : a.get? c.1 = none := get?_eq_none.2 (place_eq_none.1 hplace)
    have hentries : (mergeBest a c).entries = a.entries ++ [c] := by
      rw [mergeBest, hget]
      dsimp only
      rw [put]
      split
      · next j hj => cases hj.symm.trans hplace
      · rfl
    refine ⟨by rw [hentries, h.uni], fun id => ?_⟩
    rw [OpenTable.get?_put hds, place, hentries, findIdx?_append]
    by_cases hid : id = c.1
    · subst hid
      rw [if_pos rfl, h.uni, ← place, hplace]
      simp
    · rw [if_neg hid, h.ds, ← place]
      simp [Ne.symm hid]

theorem dedupLoop_eq (cands : List (UInt64 × κ)) :
    ∃ s, dedupLoop cands = some s ∧ s.uni = (bestScores cands).entries := by
  have hrun : ∀ (rest : List (UInt64 × κ)) (s : DedupState κ) (a : DenseArray UInt64 κ),
      s.Indexes a → s.ds.used + rest.length ≤ s.ds.cap →
        ∃ s', rest.foldlM dedupStep s = some s' ∧ s'.uni = (rest.foldl mergeBest a).entries := by
    intro rest
    induction rest with
    | nil => exact fun s a h _ => ⟨s, rfl, h.uni⟩
    | cons c rest ih =>
      intro s a h hroom
      rw [length_cons] at hroom
      obtain ⟨s', hs', h', hcap, hused⟩ := h.step c (by omega)
      obtain ⟨t, ht, huni⟩ := ih s' _ h' (by omega)
      exact ⟨t, by rw [foldlM_cons, hs']; exact ht, huni⟩
  refine hrun cands _ .empty ⟨rfl, fun id => OpenTable.get?_create _ id⟩ ?_
  have hpow : cands.length < 2 ^ cands.length := Nat.lt_two_pow_self
  have hcap : cands.length * 2 ≤ doubled (cands.length * 2) cands.length 16 := le_doubled (by omega)
  rw [OpenTable.used_create, OpenTable.cap_create]
  omega

/-- **The merge of the hits is exact.** Distinct records are returned with the best of their scores,
in descending order, and no record that is left out has a better one. -/
theorem dedupTopk_exact (cands : List (UInt64 × κ)) {topK : ℕ} (hpos : 1 ≤ topK) :
    (∃ s, dedupLoop cands = some s ∧ s.uni = (bestScores cands).entries) ∧
      (dedupTopk cands topK).length = min topK (cands.map fst).toFinset.card ∧
      ((dedupTopk cands topK).map fst).Nodup ∧
      (∀ id s, (id, s) ∈ dedupTopk cands topK →
        (id, s) ∈ cands ∧ ∀ s', (id, s') ∈ cands → s' ≤ s) ∧
      ((dedupTopk cands topK).Pairwise fun x y => y.2 ≤ x.2) ∧
      ∀ id s, (id, s) ∈ cands → id ∉ (dedupTopk cands topK).map fst →
        ∀ x ∈ dedupTopk cands topK, s ≤ x.2 := by
  obtain ⟨rest, hperm, hsorted, hle⟩ := dedupTopk_parts cands topK
  refine ⟨dedupLoop_eq cands, ?_, nodup_dedupTopk cands topK, fun id s hs => ?_, hsorted,
    fun id s hs hout x hx => ?_⟩
  · rw [length_dedupTopk cands (by omega), length_bestScores]
  · exact mem_bestScores.1 (hperm.mem_iff.2 (mem_append_left _ hs))
  · obtain ⟨t, ht, hst⟩ := exists_best hs
    rcases mem_append.1 (hperm.mem_iff.1 ht) with hin | hin
    · exact absurd (mem_map_of_mem hin) hout
    · exact hst.trans (hle x hx _ hin)

theorem dedupTopk_exact_two :
    (dedupTopk [(1, 3), (2, 5), (1, 7)] 1).length =
      min 1 (([(1, 3), (2, 5), (1, 7)] : List (UInt64 × ℕ)).map fst).toFinset.card :=
  (dedupTopk_exact _ (by decide)).2.1

end

/-! ## The two searches -/

section

variable {κ : Type} [LinearOrder κ] (score : UInt64 → κ)

/-- The vectors of a shard, by their synthetic ids. -/
def shardOf (entries : List UInt64) (nshards shard : ℕ) : List UInt64 :=
  entries.filter fun syn => decide (shardIndex syn nshards = shard)

def scored (syn : UInt64) : UInt64 × κ := (mvRec syn, score syn)

/-- `semantic_index_search` on the dense array. -/
def denseSearch (entries : List UInt64) (topK : ℕ) : List (UInt64 × κ) :=
  dedupTopk (entries.map (scored score)) topK

/-- `want`: all vectors for a `topK` of zero. -/
def wanted (entries : List UInt64) (topK : ℕ) : ℕ := if topK = 0 then entries.length else topK

/-- `fetch`: how many vectors a shard is asked for. -/
def fetchOf (entries : List UInt64) (nshards topK shard : ℕ) : ℕ :=
  min (wanted entries topK * 2) (shardOf entries nshards shard).length

def fetched (hits : ℕ → List UInt64) (entries : List UInt64) (nshards topK : ℕ) :
    List (UInt64 × κ) :=
  (List.range nshards).flatMap fun shard =>
    if fetchOf entries nshards topK shard = 0 then [] else (hits shard).map (scored score)

/-- `semantic_index_search` on the shards, each of which has found `hits`. -/
def graphSearch (hits : ℕ → List UInt64) (entries : List UInt64) (nshards topK : ℕ) :
    List (UInt64 × κ) :=
  if wanted entries topK = 0 then [] else dedupTopk (fetched score hits entries nshards topK) topK

/-- An exact `hnsw_search`: so many of the vectors, and none of the others has a better score. -/
structure Nearest (vectors : List UInt64) (n : ℕ) (hits : List UInt64) : Prop where
  nodup : hits.Nodup
  subset : hits ⊆ vectors
  length : hits.length = n
  best : ∀ x ∈ vectors, x ∉ hits → ∀ y ∈ hits, score x ≤ score y

/-- Fewer records than are wanted own all the vectors a shard is asked for, and another record has
one there. -/
def Crowded (entries : List UInt64) (nshards topK : ℕ) : Prop :=
  ∃ shard < nshards, ∃ ids : Finset UInt64, ids.card < wanted entries topK ∧
    wanted entries topK * 2 ≤
      ((shardOf entries nshards shard).filter fun syn => decide (mvRec syn ∈ ids)).length ∧
    ∃ syn ∈ shardOf entries nshards shard, mvRec syn ∉ ids

variable {score} {entries : List UInt64} {nshards topK : ℕ} {hits : ℕ → List UInt64}

theorem mem_shardOf {shard : ℕ} :
    syn ∈ shardOf entries nshards shard ↔ syn ∈ entries ∧ shardIndex syn nshards = shard := by
  simp [shardOf]

theorem mem_fetched (hhits : ∀ shard < nshards, Nearest score (shardOf entries nshards shard)
      (fetchOf entries nshards topK shard) (hits shard)) {x : UInt64 × κ} :
    x ∈ fetched score hits entries nshards topK ↔
      ∃ shard < nshards, ∃ syn ∈ hits shard, scored score syn = x := by
  unfold fetched
  simp only [mem_flatMap, mem_range]
  constructor
  · rintro ⟨shard, hshard, hx⟩
    split at hx
    · cases hx
    · exact ⟨shard, hshard, mem_map.1 hx⟩
  · rintro ⟨shard, hshard, syn, hsyn, rfl⟩
    refine ⟨shard, hshard, ?_⟩
    have hpos := length_pos_of_mem hsyn
    rw [(hhits shard hshard).length] at hpos
    rw [if_neg hpos.ne']
    exact mem_map_of_mem hsyn

theorem mem_above_dense {c : κ} {id : UInt64} :
    id ∈ recordsAbove (entries.map (scored score)) c ↔
      ∃ syn ∈ entries, mvRec syn = id ∧ c ≤ score syn := by
  rw [mem_recordsAbove]
  constructor
  · rintro ⟨s, hs, hle⟩
    obtain ⟨syn, hsyn, heq⟩ := mem_map.1 hs
    cases heq
    exact ⟨syn, hsyn, rfl, hle⟩
  · rintro ⟨syn, hsyn, rfl, hle⟩
    exact ⟨score syn, mem_map_of_mem hsyn, hle⟩

section

variable (hhits : ∀ shard < nshards, Nearest score (shardOf entries nshards shard)
  (fetchOf entries nshards topK shard) (hits shard))

include hhits

theorem mem_above_fetched {c : κ} {id : UInt64} :
    id ∈ recordsAbove (fetched score hits entries nshards topK) c ↔
      ∃ shard < nshards, ∃ syn ∈ hits shard, mvRec syn = id ∧ c ≤ score syn := by
  rw [mem_recordsAbove]
  constructor
  · rintro ⟨s, hs, hle⟩
    obtain ⟨shard, hshard, syn, hsyn, heq⟩ := (mem_fetched hhits).1 hs
    cases heq
    exact ⟨shard, hshard, syn, hsyn, rfl, hle⟩
  · rintro ⟨shard, hshard, syn, hsyn, rfl, hle⟩
    exact ⟨score syn, (mem_fetched hhits).2 ⟨shard, hshard, syn, hsyn, rfl⟩, hle⟩

theorem above_fetched_subset (c : κ) :
    recordsAbove (fetched score hits entries nshards topK) c ⊆
      recordsAbove (entries.map (scored score)) c := by
  intro id hid
  obtain ⟨shard, hshard, syn, hsyn, heq, hle⟩ := (mem_above_fetched hhits).1 hid
  exact mem_above_dense.2 ⟨syn, (mem_shardOf.1 ((hhits shard hshard).subset hsyn)).1, heq, hle⟩

/-- If a record is missed, those that were found instead crowd a shard. -/
theorem crowded_of_missed (hpos : 0 < nshards) {c : κ}
    (hfew : (recordsAbove (fetched score hits entries nshards topK) c).card <
      wanted entries topK) (hsyn : syn ∈ entries) (hle : c ≤ score syn)
    (hmiss : mvRec syn ∉ recordsAbove (fetched score hits entries nshards topK) c) :
    Crowded entries nshards topK := by
  have hshard := shardIndex_lt syn hpos
  have hnear := hhits _ hshard
  have hmem : syn ∈ shardOf entries nshards (shardIndex syn nshards) := mem_shardOf.2 ⟨hsyn, rfl⟩
  generalize shardIndex syn nshards = shard at *
  have hout : syn ∉ hits shard := fun hin =>
    hmiss ((mem_above_fetched hhits).2 ⟨shard, hshard, syn, hin, rfl, hle⟩)
  have hids : ((hits shard).map mvRec).toFinset ⊆
      recordsAbove (fetched score hits entries nshards topK) c := by
    intro id hid
    obtain ⟨syn', hsyn', rfl⟩ := mem_map.1 (mem_toFinset.1 hid)
    exact (mem_above_fetched hhits).2
      ⟨shard, hshard, syn', hsyn', rfl, hle.trans (hnear.best syn hmem hout syn' hsyn')⟩
  -- not all vectors of the shard were fetched
  have hfull : (hits shard).length = wanted entries topK * 2 := by
    have hlt : (hits shard).length < (shardOf entries nshards shard).length := by
      by_contra hge
      have hperm := (subperm_of_subset hnear.nodup hnear.subset).perm_of_length_le
        (not_lt.1 hge)
      exact hout (hperm.mem_iff.2 hmem)
    have hlen := hnear.length
    unfold fetchOf at hlen
    omega
  refine ⟨shard, hshard, ((hits shard).map mvRec).toFinset, ?_, ?_, syn, hmem, fun hin =>
    hmiss (hids hin)⟩
  · exact (Finset.card_le_card hids).trans_lt hfew
  · rw [← hfull]
    refine (subperm_of_subset hnear.nodup fun syn' hsyn' => ?_).length_le
    rw [mem_filter, decide_eq_true_eq, mem_toFinset]
    exact ⟨hnear.subset hsyn', mem_map_of_mem hsyn'⟩

theorem card_above_eq (hpos : 0 < nshards) (hnot : ¬ Crowded entries nshards topK) (c : κ) :
    min (wanted entries topK) (recordsAbove (fetched score hits entries nshards topK) c).card =
      min (wanted entries topK) (recordsAbove (entries.map (scored score)) c).card := by
  have hsub := above_fetched_subset hhits c
  rcases lt_or_ge (recordsAbove (fetched score hits entries nshards topK) c).card
    (wanted entries topK) with hfew | hmany
  · have heq : recordsAbove (fetched score hits entries nshards topK) c =
        recordsAbove (entries.map (scored score)) c := by
      refine hsub.antisymm fun id hid => ?_
      obtain ⟨syn, hsyn, rfl, hle⟩ := mem_above_dense.1 hid
      by_contra hmiss
      exact hnot (crowded_of_missed hhits hpos hfew hsyn hle hmiss)
    rw [heq]
  · rw [min_eq_left hmany, min_eq_left (hmany.trans (Finset.card_le_card hsub))]

theorem keys_search_eq_iff (hwant : wanted entries topK ≠ 0) :
    (graphSearch score hits entries nshards topK).map Scored.key =
        (denseSearch score entries topK).map Scored.key ↔
      ∀ c, min (wanted entries topK) (recordsAbove (fetched score hits entries nshards topK) c).card =
        min (wanted entries topK) (recordsAbove (entries.map (scored score)) c).card := by
  have hlen : (entries.map mvRec).length = entries.length := length_map _
  have hk : topK ≠ 0 → wanted entries topK = topK := fun h => if_neg h
  have hzero : topK = 0 → wanted entries topK = (entries.map mvRec).length := fun h => by
    rw [hlen, wanted, if_pos h]
  unfold graphSearch denseSearch
  rw [if_neg hwant]
  refine keys_dedupTopk_eq_iff hk (fun h => ?_) fun h => ?_
  · rw [hzero h]
    refine length_bestScores_le fun x hx => ?_
    obtain ⟨shard, hshard, syn, hsyn, rfl⟩ := (mem_fetched hhits).1 hx
    exact mem_map_of_mem (mem_shardOf.1 ((hhits shard hshard).subset hsyn)).1
  · rw [hzero h]
    refine length_bestScores_le fun x hx => ?_
    obtain ⟨syn, hsyn, rfl⟩ := mem_map.1 hx
    exact mem_map_of_mem hsyn

end

theorem nearest_take {vectors : List UInt64} (hnodup : vectors.Nodup) {n : ℕ}
    (hn : n ≤ vectors.length) :
    Nearest score vectors n
      ((sortBy (fun syn => toDual (score syn)) vectors).take n) := by
  have hperm := perm_sortBy (fun syn => toDual (score syn)) vectors
  have hsorted := pairwise_sortBy (fun syn => toDual (score syn)) vectors
  generalize sortBy (fun syn => toDual (score syn)) vectors = sorted at *
  have hsplit := take_append_drop n sorted
  refine ⟨(hperm.nodup_iff.2 hnodup).sublist (take_sublist _ _),
    fun x hx => hperm.mem_iff.1 (mem_of_mem_take hx), ?_, ?_⟩
  · rw [length_take, hperm.length_eq]
    omega
  · intro x hx hout y hy
    rw [← hperm.mem_iff, ← hsplit, mem_append] at hx
    rw [← hsplit] at hsorted
    exact (pairwise_append.1 hsorted).2.2 y hy x (hx.resolve_left hout)

end

/-- Scores that put the vectors of some records in a shard before another vector, and that before all
others. -/
def crowdedScore (entries : List UInt64) (nshards shard : ℕ) (ids : Finset UInt64) (last : UInt64)
    (syn : UInt64) : ℕ :=
  if syn ∈ shardOf entries nshards shard ∧ mvRec syn ∈ ids then 2 else if syn = last then 1 else 0

section

variable {entries : List UInt64} {nshards topK shard : ℕ} {ids : Finset UInt64} {last : UInt64}
  {hits : ℕ → List UInt64}

theorem le_crowdedScore_iff :
    1 ≤ crowdedScore entries nshards shard ids last syn ↔
      syn ∈ shardOf entries nshards shard ∧ mvRec syn ∈ ids ∨ syn = last := by
  unfold crowdedScore
  split_ifs with h h' <;> simp_all

theorem not_mem_hits_of_crowded (hnodup : entries.Nodup) (hmany : wanted entries topK * 2 ≤
      ((shardOf entries nshards shard).filter fun syn => decide (mvRec syn ∈ ids)).length)
    (hnot : mvRec last ∉ ids)
    (hnear : Nearest (crowdedScore entries nshards shard ids last) (shardOf entries nshards shard)
      (fetchOf entries nshards topK shard) (hits shard)) : last ∉ hits shard := by
  intro hin
  have hcrowd : ((shardOf entries nshards shard).filter
      fun syn => decide (mvRec syn ∈ ids)).Nodup := (hnodup.filter _).filter _
  have hlast : crowdedScore entries nshards shard ids last last = 1 := by
    rw [crowdedScore, if_neg fun h => hnot h.2, if_pos rfl]
  -- every vector of the crowd has a better score, so that it was fetched too
  have hsub : last :: (shardOf entries nshards shard).filter (fun syn => decide (mvRec syn ∈ ids)) ⊆
      hits shard := by
    intro syn hsyn
    rcases mem_cons.1 hsyn with rfl | hsyn
    · exact hin
    · rw [mem_filter, decide_eq_true_eq] at hsyn
      by_contra hout
      have hle := hnear.best syn hsyn.1 hout last hin
      rw [hlast, crowdedScore, if_pos hsyn] at hle
      omega
  have hcons := (subperm_of_subset (nodup_cons.2 ⟨fun h => hnot ?_, hcrowd⟩) hsub).length_le
  · rw [length_cons, hnear.length, fetchOf] at hcons
    omega
  · simpa using (mem_filter.1 h).2

theorem keys_ne_of_crowded (hnodup : entries.Nodup) (hshard : shard < nshards)
    (hcard : ids.card < wanted entries topK)
    (hmany : wanted entries topK * 2 ≤
      ((shardOf entries nshards shard).filter fun syn => decide (mvRec syn ∈ ids)).length)
    (hlast : last ∈ shardOf entries nshards shard) (hnot : mvRec last ∉ ids)
    (hhits : ∀ shard' < nshards, Nearest (crowdedScore entries nshards shard ids last)
      (shardOf entries nshards shard') (fetchOf entries nshards topK shard') (hits shard')) :
    (graphSearch (crowdedScore entries nshards shard ids last) hits entries nshards topK).map
        Scored.key ≠
      (denseSearch (crowdedScore entries nshards shard ids last) entries topK).map Scored.key := by
  rw [Ne, keys_search_eq_iff hhits (Nat.ne_zero_of_lt hcard)]
  intro hall
  have hone := hall 1
  have hlt := Finset.card_lt_card <|
    (Finset.ssubset_iff_of_subset (above_fetched_subset hhits 1)).2 ⟨mvRec last, ?_, ?_⟩
  · have hdense : recordsAbove
        (entries.map (scored (crowdedScore entries nshards shard ids last))) 1 ⊆
          insert (mvRec last) ids := by
      intro id hid
      obtain ⟨syn, hsyn, rfl, hle⟩ := mem_above_dense.1 hid
      rcases le_crowdedScore_iff.1 hle with hle | rfl
      · exact Finset.mem_insert_of_mem hle.2
      · exact Finset.mem_insert_self ..
    have hle := (Finset.card_le_card hdense).trans (Finset.card_insert_le _ _)
    omega
  · exact mem_above_dense.2 ⟨last, (mem_shardOf.1 hlast).1, rfl, le_crowdedScore_iff.2 (.inr rfl)⟩
  · intro hin
    obtain ⟨shard', hshard', syn, hsyn, hrec, hscore⟩ := (mem_above_fetched hhits).1 hin
    rcases le_crowdedScore_iff.1 hscore with hcrowd | rfl
    · exact hnot (hrec ▸ hcrowd.2)
    · have heq := (mem_shardOf.1 ((hhits shard' hshard').subset hsyn)).2
      rw [(mem_shardOf.1 hlast).2] at heq
      subst heq
      exact not_mem_hits_of_crowded hnodup hmany hnot (hhits shard hshard) hsyn

end

/-- The records of a search are distinct, and their scores are those of another one. -/
def AgreesWith {κ : Type} (found expected : List (UInt64 × κ)) : Prop :=
  (found.map fst).Nodup ∧ found.map snd = expected.map snd

theorem agreesWith_iff {κ : Type} {found expected : List (UInt64 × κ)}
    (h : (found.map fst).Nodup) :
    AgreesWith found expected ↔ found.map Scored.key = expected.map Scored.key :=
  and_iff_right h

/-- **Graph search and dense search.** Whatever the exact hits of the shards, the graph search
returns as many records with the same scores as the dense search if, and only if, no shard is
crowded. -/
theorem graphSearch_agrees_iff {entries : List UInt64} (hnodup : entries.Nodup) {nshards : ℕ}
    (hpos : 0 < nshards) (topK : ℕ) :
    (∀ (κ : Type) (_ : LinearOrder κ) (score : UInt64 → κ) (hits : ℕ → List UInt64),
      (∀ shard < nshards, Nearest score (shardOf entries nshards shard)
        (fetchOf entries nshards topK shard) (hits shard)) →
      AgreesWith (graphSearch score hits entries nshards topK) (denseSearch score entries topK)) ↔
        ¬ Crowded entries nshards topK := by
  have hdistinct : ∀ (κ : Type) (_ : LinearOrder κ) (score : UInt64 → κ) (hits : ℕ → List UInt64),
      ((graphSearch score hits entries nshards topK).map fst).Nodup := by
    intro κ _ score hits
    unfold graphSearch
    split
    · exact nodup_nil
    · exact nodup_dedupTopk _ _
  constructor
  · rintro hall ⟨shard, hshard, ids, hcard, hmany, last, hlast, hnot⟩
    have hhits : ∀ shard' < nshards, Nearest (crowdedScore entries nshards shard ids last)
        (shardOf entries nshards shard') (fetchOf entries nshards topK shard') _ := fun shard' _ =>
      nearest_take (hnodup.filter _) (min_le_right _ _)
    exact keys_ne_of_crowded hnodup hshard hcard hmany hlast hnot hhits
      ((agreesWith_iff (hdistinct ℕ _ _ _)).1 (hall ℕ _ _ _ hhits))
  · intro hnot κ _ score hits hhits
    rw [agreesWith_iff (hdistinct κ _ score hits)]
    by_cases hwant : wanted entries topK = 0
    · obtain ⟨rfl, hnil⟩ : topK = 0 ∧ entries = [] := by
        unfold wanted at hwant
        split at hwant
        · exact ⟨‹_›, eq_nil_of_length_eq_zero hwant⟩
        · exact absurd hwant ‹_›
      subst hnil
      rw [graphSearch, if_pos hwant]
      simp [denseSearch, dedupTopk, bestScores, DenseArray.empty, sortBy]
    · exact (keys_search_eq_iff hhits hwant).2 (card_above_eq hhits hpos hnot)

/-- An index whose records have at most two vectors is not crowded. -/
theorem not_crowded_of_two {entries : List UInt64} (hnodup : entries.Nodup)
    (htwo : ∀ id, (entries.filter fun syn => decide (mvRec syn = id)).length ≤ 2) (nshards topK : ℕ) :
    ¬ Crowded entries nshards topK := by
  rintro ⟨shard, -, ids, hcard, hmany, -⟩
  have hle : ((shardOf entries nshards shard).filter fun syn => decide (mvRec syn ∈ ids)).length ≤
      ids.card * 2 := by
    have hshard : (shardOf entries nshards shard).Nodup := hnodup.filter _
    rw [← toFinset_card_of_nodup (hshard.filter _), Nat.mul_comm]
    refine Finset.card_le_mul_card_image_of_maps_to (f := mvRec) (fun syn hsyn => ?_) 2 fun id _ => ?_
    · simpa using (mem_filter.1 (mem_toFinset.1 hsyn)).2
    · refine le_trans ?_ (htwo id)
      rw [← toFinset_card_of_nodup (hnodup.filter _)]
      refine Finset.card_le_card fun syn hsyn => ?_
      obtain ⟨hsyn, hid⟩ := Finset.mem_filter.1 hsyn
      have hentry := (mem_shardOf.1 (mem_filter.1 (mem_toFinset.1 hsyn)).1).1
      exact mem_toFinset.2 (mem_filter.2 ⟨hentry, by simpa using hid⟩)
  omega

/-- The synthetic ids of some vectors of one record and the vector of another. -/
def twoRecords (vectors : ℕ) : List UInt64 :=
  (List.range vectors).map (mvSyn 1) ++ [mvSyn 2 0]

theorem twoRecords_agree :
    (twoRecords 2).Nodup ∧
      AgreesWith (graphSearch UInt64.toNat (fun _ => (twoRecords 2).reverse) (twoRecords 2) 1 2)
        (denseSearch UInt64.toNat (twoRecords 2) 2) := by
  have hids : twoRecords 2 = [64, 65, 128] := by decide
  have hnodup : (twoRecords 2).Nodup := by rw [hids]; decide
  refine ⟨hnodup, (graphSearch_agrees_iff hnodup Nat.one_pos 2).2
    (not_crowded_of_two hnodup (fun id => ?_) 1 2) ℕ _ _ _ fun shard hshard => ?_⟩
  · have hrecs : mvRec 64 = 1 ∧ mvRec 65 = 1 ∧ mvRec 128 = 2 := by decide
    by_cases hid : 1 = id
    · rw [hids, ← hid]
      decide
    · simp only [hids, filter_cons, hrecs, hid, decide_false, Bool.false_eq_true, if_false]
      split <;> simp
  · obtain rfl := Nat.lt_one_iff.1 hshard
    have hshard : shardOf (twoRecords 2) 1 0 = twoRecords 2 :=
      filter_eq_self.2 (by simp [shardIndex])
    rw [hshard]
    exact ⟨nodup_reverse.2 hnodup, fun x hx => mem_reverse.1 hx,
      by rw [fetchOf, hshard, hids]; rfl, fun x hx hout => absurd (mem_reverse.2 hx) hout⟩

/-- The nearer, the smaller the synthetic id. -/
def lowFirst (syn : UInt64) : ℕ := 1000 - syn.toNat

/-- Two records are wanted. The four nearest vectors of the shard are of one record, whose fifth is
still nearer than that of the other record. -/
theorem fiveVectors_hide_record :
    Nearest lowFirst (shardOf (twoRecords 5) 1 0) (fetchOf (twoRecords 5) 1 2 0) [64, 65, 66, 67] ∧
      (graphSearch lowFirst (fun _ => [64, 65, 66, 67]) (twoRecords 5) 1 2).length = 1 ∧
      (denseSearch lowFirst (twoRecords 5) 2).length = 2 := by
  have hshard : shardOf (twoRecords 5) 1 0 = [64, 65, 66, 67, 68, 128] := by decide +kernel
  refine ⟨⟨by decide, ?_, by decide +kernel, ?_⟩, ?_, ?_⟩
  · rw [hshard]
    simp
  · rw [hshard]
    intro x hx hout y hy
    have hx : x = 68 ∨ x = 128 := by simp_all
    have hy : y = 64 ∨ y = 65 ∨ y = 66 ∨ y = 67 := by simpa using hy
    rcases hx with rfl | rfl <;> rcases hy with rfl | rfl | rfl | rfl <;> decide
  · rw [graphSearch, if_neg (by decide), length_dedupTopk _ (by decide)]
    decide +kernel
  · rw [denseSearch, length_dedupTopk _ (by decide)]
    decide +kernel

end AegisDB
