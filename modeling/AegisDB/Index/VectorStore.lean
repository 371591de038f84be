import AegisDB.Foundations.DenseArray
import AegisDB.Index.Semantic
import AegisDB.Storage.HashIndex

/-!
# The store of the semantic index

The vectors of `semantic_index.c` under their synthetic ids: a dense array with an entry for each of
them until there are many, and then a graph, split into shards by a hash of the synthetic id. While a
graph is built beside the dense array, `vec_add` and `vec_remove` also write what they do to a journal.

A graph is taken as a map (`Graph`), and so the whole store is one: `VectorStore.toIndex` is the
`SemanticIndex` that it represents, and the operations on the store are those on that index
(`toIndex_add`, `toIndex_remove`).
-/

namespace AegisDB

open List Function

/-- A graph of vectors, as the map that `hnsw_add` and `hnsw_remove` keep. -/
abbrev Graph := UInt64 → Option (List F32)

/-! ## Shards -/

def shardMax : ℕ := 8

/-- `pick_nshards`: the number of shards for `n` vectors, with so many for each and so many
processors. -/
def pickNshards (target cpus n : ℕ) : ℕ :=
  let bySize := n / target
  if bySize < 2 then 1
  else
    let cap := if 0 < cpus ∧ cpus < shardMax then cpus else shardMax
    if bySize < cap then bySize else cap

theorem pickNshards_pos (target cpus n : ℕ) : 0 < pickNshards target cpus n := by
  unfold pickNshards shardMax
  dsimp only
  split_ifs <;> omega

def shardIndex (syn : UInt64) (nshards : ℕ) : ℕ :=
  if 1 < nshards then (mix64 syn).toNat % nshards else 0

theorem shardIndex_lt (syn : UInt64) {nshards : ℕ} (h : 0 < nshards) :
    shardIndex syn nshards < nshards := by
  unfold shardIndex
  split
  · exact Nat.mod_lt _ h
  · exact h

/-- The vector under a synthetic id in the shards. -/
def graphAt (shards : List Graph) : Graph := fun syn =>
  shards[shardIndex syn shards.length]?.bind fun g => g syn

/-- Change what the shard of a synthetic id has under it: `hnsw_add`, or `hnsw_remove`. -/
def graphSet (shards : List Graph) (syn : UInt64) (v : Option (List F32)) : List Graph :=
  shards.modify (shardIndex syn shards.length) fun g => update g syn v

@[simp] theorem length_graphSet (shards : List Graph) (syn : UInt64) (v : Option (List F32)) :
    (graphSet shards syn v).length = shards.length := length_modify ..

theorem graphSet_ne_nil {shards : List Graph} (h : shards ≠ []) (syn : UInt64)
    (v : Option (List F32)) : graphSet shards syn v ≠ [] := by
  rw [← length_pos_iff, length_graphSet]
  exact length_pos_iff.2 h

theorem graphAt_graphSet {shards : List Graph} (h : shards ≠ []) (syn : UInt64)
    (v : Option (List F32)) :
    graphAt (graphSet shards syn v) = update (graphAt shards) syn v := by
  have hpos := length_pos_iff.2 h
  funext syn'
  have hlt := shardIndex_lt syn' hpos
  unfold graphAt
  rw [length_graphSet, graphSet, getElem?_modify, getElem?_eq_getElem hlt]
  by_cases hsyn : syn' = syn
  · subst hsyn
    simp
  · rw [update_of_ne hsyn, getElem?_eq_getElem hlt]
    by_cases hshard : shardIndex syn shards.length = shardIndex syn' shards.length
    · simp [hshard, hsyn]
    · simp [hshard]

/-! ## The store -/

/-- A change of the journal: the vector that was added under a synthetic id, or none for one that was
removed. -/
abbrev SemDelta := UInt64 × Option (List F32)

/-- `SemanticIndex`, with what a build in the background needs. -/
structure VectorStore where
  dim : ℕ
  dense : DenseArray UInt64 (List F32)
  counts : UInt64 → ℕ
  shards : List Graph
  annThreshold : ℕ
  building : Bool
  deltas : List SemDelta

namespace VectorStore

def defaultAnnThreshold : ℕ := 10000

/-- `semantic_index_create`. -/
def create (dim annThreshold : ℕ) : VectorStore where
  dim
  dense := .empty
  counts := fun _ => 0
  shards := []
  annThreshold := if annThreshold = 0 then defaultAnnThreshold else annThreshold
  building := false
  deltas := []

variable (s : VectorStore)

/-- The vector under a synthetic id in the store that counts: the graph, once there is one. -/
def vecs : Graph := if s.shards = [] then s.dense.get? else graphAt s.shards

/-- `delta_push`, when a build is outstanding. -/
def journal (d : SemDelta) : List SemDelta := if s.building then s.deltas ++ [d] else s.deltas

def vecAdd (syn : UInt64) (v : List F32) : VectorStore :=
  if s.shards = [] then { s with dense := s.dense.put syn v, deltas := s.journal (syn, some v) }
  else { s with shards := graphSet s.shards syn (some v) }

def vecRemove (syn : UInt64) : VectorStore :=
  if s.shards = [] then { s with dense := s.dense.remove syn, deltas := s.journal (syn, none) }
  else { s with shards := graphSet s.shards syn none }

def dropVectors (id : UInt64) : VectorStore :=
  (List.range (s.counts id)).foldl (fun s slot => s.vecRemove (mvSyn id slot)) s

/-- Store vectors of a record from a place on. -/
def storeVectors (s : VectorStore) (id : UInt64) : ℕ → List (List F32) → VectorStore
  | _, [] => s
  | slot, v :: vs => storeVectors (s.vecAdd (mvSyn id slot) v) id (slot + 1) vs

/-- `semantic_index_add`. -/
def add (id : UInt64) (e : Embedding) : VectorStore :=
  if e.dim ≠ s.dim ∨ e.vecCount = 0 ∨ mvSlots < e.vecCount then s
  else
    let s := storeVectors (s.dropVectors id) id 0 e.vectors
    { s with counts := update s.counts id e.vecCount }

/-- `semantic_index_remove`. -/
def remove (id : UInt64) : VectorStore :=
  let s := s.dropVectors id
  { s with counts := update s.counts id 0 }

/-- `semantic_index_clear`. -/
def clear : VectorStore :=
  { s with
    dense := .empty
    counts := fun _ => 0
    shards := []
    building := false
    deltas := [] }

def toIndex : SemanticIndex := ⟨s.dim, s.vecs, s.counts⟩

theorem toIndex_vecAdd (syn : UInt64) (v : List F32) :
    (s.vecAdd syn v).toIndex = AegisDB.vecAdd s.toIndex syn v := by
  unfold vecAdd toIndex AegisDB.vecAdd vecs
  split
  · simp [DenseArray.get?_put]
  · next h => simp [graphSet_ne_nil h, graphAt_graphSet h]

theorem toIndex_vecRemove (syn : UInt64) :
    (s.vecRemove syn).toIndex = AegisDB.vecRemove s.toIndex syn := by
  unfold vecRemove toIndex AegisDB.vecRemove vecs
  split
  · simp [DenseArray.get?_remove]
  · next h => simp [graphSet_ne_nil h, graphAt_graphSet h]

theorem toIndex_dropVectors (id : UInt64) :
    (s.dropVectors id).toIndex = AegisDB.dropVectors s.toIndex id := by
  unfold dropVectors AegisDB.dropVectors
  change _ = (range (s.counts id)).foldl _ _
  generalize range (s.counts id) = slots
  induction slots generalizing s with
  | nil => rfl
  | cons slot slots ih => rw [foldl_cons, ih, toIndex_vecRemove, foldl_cons]

theorem toIndex_storeVectors (id : UInt64) (slot : ℕ) (vs : List (List F32)) :
    (s.storeVectors id slot vs).toIndex = AegisDB.storeVectors s.toIndex id slot vs := by
  induction vs generalizing s slot with
  | nil => rfl
  | cons v vs ih => rw [storeVectors, ih, toIndex_vecAdd, AegisDB.storeVectors]

theorem toIndex_add (id : UInt64) (e : Embedding) :
    (s.add id e).toIndex = semanticIndexAdd s.toIndex id e := by
  have hstored := toIndex_storeVectors (s.dropVectors id) id 0 e.vectors
  rw [toIndex_dropVectors] at hstored
  unfold add semanticIndexAdd
  change _ = if e.dim ≠ s.dim ∨ e.vecCount = 0 ∨ mvSlots < e.vecCount then s.toIndex else _
  split
  · rfl
  · rw [← hstored]
    rfl

theorem toIndex_remove (id : UInt64) :
    (s.remove id).toIndex = semanticIndexRemove s.toIndex id := by
  have hdropped := s.toIndex_dropVectors id
  unfold remove semanticIndexRemove
  rw [← hdropped]
  rfl

end VectorStore

end AegisDB
