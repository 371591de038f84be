import AegisDB.Memory.Record
import Mathlib.Data.Nat.Bitwise

/-!
# The semantic index

`semantic_index.c`: the vectors of the records, up to `mvSlots` for a record, each under a synthetic
id that packs the record and the place of the vector. The dense array and the graphs that replace it
when there are many vectors are one map from synthetic ids to vectors here; what a search finds in
them is not modelled.

`SemExact vectors s` says that the index holds exactly the vectors of the records, provided that the
ids leave room for the place (`mvRoom`). It is kept when the vectors of a record come or go.
-/

namespace AegisDB

open List Function

variable {slot : ℕ}

/-- The most vectors of a record: two to the power `MV_SLOT_BITS`. -/
def mvSlots : ℕ := 64

/-- The ids that can be packed with a place. -/
def mvRoom : ℕ := 0x400000000000000

def mvSyn (rec : UInt64) (slot : ℕ) : UInt64 := (rec <<< 6) ||| UInt64.ofNat slot

/-- `SemanticIndex`: its vectors by their synthetic ids, and how many each record has. -/
structure SemanticIndex where
  dim : ℕ
  vecs : UInt64 → Option (List F32)
  /-- `rc`: the number of vectors of a record. -/
  counts : UInt64 → ℕ

def semanticIndexCreate (dim : ℕ) : SemanticIndex := ⟨dim, fun _ => none, fun _ => 0⟩

def vecAdd (s : SemanticIndex) (syn : UInt64) (v : List F32) : SemanticIndex :=
  { s with vecs := update s.vecs syn (some v) }

def vecRemove (s : SemanticIndex) (syn : UInt64) : SemanticIndex :=
  { s with vecs := update s.vecs syn none }

/-- The vectors of a block, one after the other. -/
def Embedding.vectors (e : Embedding) : List (List F32) :=
  (List.range e.vecCount).map fun slot => (e.floats.drop (slot * e.dim)).take e.dim

@[simp] theorem Embedding.length_vectors (e : Embedding) : e.vectors.length = e.vecCount := by
  simp [Embedding.vectors]

theorem Embedding.floats_ne_nil {e : Embedding} : e.floats ≠ [] ↔ e.vecCount ≠ 0 ∧ e.dim ≠ 0 := by
  rw [← length_pos_iff_ne_nil, e.size_eq, Nat.pos_iff_ne_zero, mul_ne_zero_iff]

def dropVectors (s : SemanticIndex) (id : UInt64) : SemanticIndex :=
  (List.range (s.counts id)).foldl (fun s slot => vecRemove s (mvSyn id slot)) s

/-- Store vectors of a record from a place on. -/
def storeVectors (s : SemanticIndex) (id : UInt64) : ℕ → List (List F32) → SemanticIndex
  | _, [] => s
  | slot, v :: vs => storeVectors (vecAdd s (mvSyn id slot) v) id (slot + 1) vs

/-- `semantic_index_add`; vectors of another dimension, none, or too many are refused. -/
def semanticIndexAdd (s : SemanticIndex) (id : UInt64) (e : Embedding) : SemanticIndex :=
  if e.dim ≠ s.dim ∨ e.vecCount = 0 ∨ mvSlots < e.vecCount then s
  else
    let s := storeVectors (dropVectors s id) id 0 e.vectors
    { s with counts := update s.counts id e.vecCount }

def semanticIndexRemove (s : SemanticIndex) (id : UInt64) : SemanticIndex :=
  let s := dropVectors s id
  { s with counts := update s.counts id 0 }

/-! ## Synthetic ids -/

theorem toNat_mvSyn (rec : UInt64) (h : slot < mvSlots) :
    (mvSyn rec slot).toNat = rec.toNat % mvRoom * 64 + slot := by
  have hslot : slot < 2 ^ 6 := h
  have hmod : slot % 2 ^ 64 = slot := Nat.mod_eq_of_lt (by omega)
  have hshift : rec.toNat <<< 6 % 2 ^ 64 = (rec.toNat % 2 ^ 58) <<< 6 := by
    rw [Nat.shiftLeft_eq, Nat.shiftLeft_eq]
    omega
  rw [mvSyn, UInt64.toNat_or, UInt64.toNat_shiftLeft, UInt64.toNat_ofNat']
  change rec.toNat <<< 6 % 2 ^ 64 ||| slot % 2 ^ 64 = _
  rw [hmod, hshift, ← Nat.shiftLeft_add_eq_or_of_lt hslot, Nat.shiftLeft_eq]
  rfl

theorem mvSyn_eq_iff {rec syn : UInt64} (hrec : rec.toNat < mvRoom) (hslot : slot < mvSlots) :
    mvSyn rec slot = syn ↔ rec.toNat = syn.toNat / 64 ∧ slot = syn.toNat % 64 := by
  rw [← UInt64.toNat_inj, toNat_mvSyn rec hslot, Nat.mod_eq_of_lt hrec]
  simp only [mvSlots] at hslot
  omega

/-! ## What the index holds -/

/-- The record of a synthetic id: `mv_rec`. -/
def mvRec (syn : UInt64) : UInt64 := syn >>> 6

theorem toNat_mvRec (syn : UInt64) : (mvRec syn).toNat = syn.toNat / 64 := by
  rw [mvRec, UInt64.toNat_shiftRight, Nat.shiftRight_eq_div_pow]
  rfl

theorem slot_mvSyn (id : UInt64) (hslot : slot < mvSlots) : (mvSyn id slot).toNat % 64 = slot := by
  rw [toNat_mvSyn id hslot]
  simp only [mvSlots] at hslot
  omega

theorem mvRec_mvSyn_iff {id : UInt64} (hslot : slot < mvSlots) :
    mvRec (mvSyn id slot) = id ↔ id.toNat < mvRoom := by
  have hlt : id.toNat % mvRoom < mvRoom := Nat.mod_lt _ (by decide)
  have hdiv : (id.toNat % mvRoom * 64 + slot) / 64 = id.toNat % mvRoom := by
    simp only [mvSlots] at hslot
    omega
  rw [← UInt64.toNat_inj, toNat_mvRec, toNat_mvSyn id hslot, hdiv]
  exact ⟨fun h => h ▸ hlt, Nat.mod_eq_of_lt⟩

/-- The index holds the vectors of the records. -/
structure SemExact (vectors : UInt64 → List (List F32)) (s : SemanticIndex) : Prop where
  counts : ∀ id, s.counts id = (vectors id).length
  vecs : ∀ syn, s.vecs syn = (vectors (mvRec syn))[syn.toNat % 64]?
  slots : ∀ id, (vectors id).length ≤ mvSlots

theorem SemExact.vecs_mvSyn {vectors : UInt64 → List (List F32)} {s : SemanticIndex}
    (h : SemExact vectors s) {id : UInt64} (hid : id.toNat < mvRoom)
    (hslot : slot < mvSlots) : s.vecs (mvSyn id slot) = (vectors id)[slot]? := by
  rw [h.vecs, (mvRec_mvSyn_iff hslot).2 hid, slot_mvSyn id hslot]

theorem semExact_create (dim : ℕ) : SemExact (fun _ => []) (semanticIndexCreate dim) := by
  constructor <;> simp [semanticIndexCreate]

theorem SemExact.unique {vectors : UInt64 → List (List F32)} {s s' : SemanticIndex}
    (h : SemExact vectors s) (h' : SemExact vectors s') (hdim : s.dim = s'.dim) : s = s' := by
  have hvecs : s.vecs = s'.vecs := funext fun syn => by rw [h.vecs, h'.vecs]
  have hcounts : s.counts = s'.counts := funext fun id => by rw [h.counts, h'.counts]
  cases s
  cases s'
  simp_all

@[simp] theorem dim_dropVectors (s : SemanticIndex) (id : UInt64) :
    (dropVectors s id).dim = s.dim := by
  unfold dropVectors
  generalize range (s.counts id) = slots
  induction slots generalizing s with
  | nil => rfl
  | cons slot slots ih => exact ih (vecRemove s (mvSyn id slot))

@[simp] theorem counts_dropVectors (s : SemanticIndex) (id : UInt64) :
    (dropVectors s id).counts = s.counts := by
  unfold dropVectors
  generalize range (s.counts id) = slots
  induction slots generalizing s with
  | nil => rfl
  | cons slot slots ih => exact ih (vecRemove s (mvSyn id slot))

@[simp] theorem counts_storeVectors (s : SemanticIndex) (id : UInt64) (slot : ℕ)
    (vs : List (List F32)) : (storeVectors s id slot vs).counts = s.counts := by
  induction vs generalizing s slot with
  | nil => rfl
  | cons v vs ih => exact ih (vecAdd s (mvSyn id slot) v) (slot + 1)

@[simp] theorem dim_storeVectors (s : SemanticIndex) (id : UInt64) (slot : ℕ)
    (vs : List (List F32)) : (storeVectors s id slot vs).dim = s.dim := by
  induction vs generalizing s slot with
  | nil => rfl
  | cons v vs ih => exact ih (vecAdd s (mvSyn id slot) v) (slot + 1)

@[simp] theorem dim_semanticIndexAdd (s : SemanticIndex) (id : UInt64) (e : Embedding) :
    (semanticIndexAdd s id e).dim = s.dim := by
  unfold semanticIndexAdd
  split <;> simp

@[simp] theorem dim_semanticIndexRemove (s : SemanticIndex) (id : UInt64) :
    (semanticIndexRemove s id).dim = s.dim := dim_dropVectors s id

section

variable {id syn : UInt64}

theorem vecs_foldl_vecRemove {slots : List ℕ} {s : SemanticIndex} :
    (slots.foldl (fun s slot => vecRemove s (mvSyn id slot)) s).vecs syn =
      if ∃ slot ∈ slots, mvSyn id slot = syn then none else s.vecs syn := by
  induction slots generalizing s with
  | nil => simp
  | cons slot slots ih =>
    rw [foldl_cons, ih]
    by_cases h : mvSyn id slot = syn
    · subst h
      simp [vecRemove]
    · simp [h, vecRemove, update_of_ne (Ne.symm h)]

theorem vecs_storeVectors (hid : id.toNat < mvRoom) {s : SemanticIndex}
    {vs : List (List F32)} (hslot : slot + vs.length ≤ mvSlots) :
    (storeVectors s id slot vs).vecs syn =
      if id = mvRec syn ∧ slot ≤ syn.toNat % 64 ∧ syn.toNat % 64 < slot + vs.length then
        vs[syn.toNat % 64 - slot]?
      else s.vecs syn := by
  induction vs generalizing s slot with
  | nil =>
    rw [storeVectors, if_neg]
    rw [length_nil]
    omega
  | cons v vs ih =>
    rw [length_cons] at hslot
    have hsyn : mvSyn id slot = syn ↔ id = mvRec syn ∧ slot = syn.toNat % 64 := by
      rw [mvSyn_eq_iff hid (by omega), ← UInt64.toNat_inj, toNat_mvRec]
    rw [storeVectors, ih (by omega)]
    by_cases hrec : id = mvRec syn
    · simp only [hrec, true_and] at hsyn ⊢
      rcases lt_trichotomy slot (syn.toNat % 64) with hlt | heq | hgt
      · have hne : ¬ mvSyn (mvRec syn) slot = syn := fun h => hlt.ne (hsyn.1 h)
        have hsub : syn.toNat % 64 - slot = syn.toNat % 64 - (slot + 1) + 1 := by omega
        by_cases hlen : syn.toNat % 64 < slot + (vs.length + 1)
        · rw [if_pos (by omega), if_pos (by simp; omega), hsub, getElem?_cons_succ]
        · rw [if_neg (by omega), if_neg (by simp; omega)]
          exact update_of_ne (Ne.symm hne) _ _
      · have he : mvSyn (mvRec syn) slot = syn := hsyn.2 heq
        rw [if_neg (by omega), if_pos (by simp; omega), heq, Nat.sub_self, getElem?_cons_zero]
        rw [← heq, he]
        exact update_self ..
      · have hne : ¬ mvSyn (mvRec syn) slot = syn := fun h => hgt.ne' (hsyn.1 h)
        rw [if_neg (by omega), if_neg (by omega)]
        exact update_of_ne (Ne.symm hne) _ _
    · have hne : ¬ mvSyn id slot = syn := fun h => hrec (hsyn.1 h).1
      rw [if_neg (fun h => hrec h.1), if_neg (fun h => hrec h.1)]
      exact update_of_ne (Ne.symm hne) _ _

end

section

variable {vectors : UInt64 → List (List F32)} {s : SemanticIndex} {id : UInt64}

theorem SemExact.vecs_dropVectors (h : SemExact vectors s)
    (hid : vectors id ≠ [] → id.toNat < mvRoom) (syn : UInt64) :
    (dropVectors s id).vecs syn = (update vectors id [] (mvRec syn))[syn.toNat % 64]? := by
  have hlen := h.slots id
  rw [dropVectors, h.counts, vecs_foldl_vecRemove, h.vecs]
  by_cases hnil : vectors id = []
  · rw [← hnil, update_eq_self, hnil]
    simp
  have hsyn (slot : ℕ) (hslot : slot < (vectors id).length) :
      mvSyn id slot = syn ↔ id = mvRec syn ∧ slot = syn.toNat % 64 := by
    rw [mvSyn_eq_iff (hid hnil) (by omega), ← UInt64.toNat_inj, toNat_mvRec]
  by_cases hrec : mvRec syn = id
  · rw [hrec, update_self, getElem?_nil]
    split
    · rfl
    · rename_i hnot
      refine getElem?_eq_none (not_lt.1 fun hlt => hnot ?_)
      exact ⟨syn.toNat % 64, mem_range.2 hlt, (hsyn _ hlt).2 ⟨hrec.symm, rfl⟩⟩
  · rw [update_of_ne hrec, if_neg]
    rintro ⟨slot, hslot, heq⟩
    exact hrec ((hsyn slot (mem_range.1 hslot)).1 heq).1.symm

theorem SemExact.remove (h : SemExact vectors s) (hid : vectors id ≠ [] → id.toNat < mvRoom) :
    SemExact (update vectors id []) (semanticIndexRemove s id) where
  counts id' := by
    by_cases hid' : id' = id
    · subst hid'
      simp [semanticIndexRemove]
    · simp [semanticIndexRemove, hid', h.counts]
  vecs := h.vecs_dropVectors hid
  slots id' := by
    by_cases hid' : id' = id
    · subst hid'
      simp
    · rw [update_of_ne hid']
      exact h.slots id'

theorem SemExact.add (h : SemExact vectors s) (hid : id.toNat < mvRoom) {e : Embedding}
    (hdim : e.dim = s.dim) (hne : e.vecCount ≠ 0) (hle : e.vecCount ≤ mvSlots) :
    SemExact (update vectors id e.vectors) (semanticIndexAdd s id e) := by
  have hok : ¬ (e.dim ≠ s.dim ∨ e.vecCount = 0 ∨ mvSlots < e.vecCount) := by
    simp [hdim, hne, hle]
  rw [semanticIndexAdd, if_neg hok]
  constructor
  · intro id'
    by_cases hid' : id' = id
    · subst hid'
      simp
    · simp [hid', h.counts]
  · intro syn
    simp only
    rw [vecs_storeVectors hid (by simpa using hle), h.vecs_dropVectors fun _ => hid]
    by_cases hrec : mvRec syn = id
    · simp only [hrec, true_and, Nat.zero_le, Nat.zero_add, Nat.sub_zero, update_self]
      split
      · rfl
      · rename_i hlen
        rw [getElem?_nil, getElem?_eq_none (not_lt.1 hlen)]
    · rw [if_neg (fun h => hrec h.1.symm), update_of_ne hrec, update_of_ne hrec]
  · intro id'
    by_cases hid' : id' = id
    · subst hid'
      simpa using hle
    · rw [update_of_ne hid']
      exact h.slots id'

end

end AegisDB
