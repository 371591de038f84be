import AegisDB.Index.Edges
import AegisDB.Index.Facts
import AegisDB.Index.Lexical
import AegisDB.Index.Semantic
import AegisDB.Index.Time

/-!
# The secondary indexes of a database

What the sites that write do to the six indexes when a record comes (`indexRecord`) and when it goes
(`unindexRecord`, `dropTarget`). The lexical, the edge and the fact index may be disabled.

`Indexed dim live alive ix` says that the indexes list exactly the records of `live`, each index what
it keeps of them, and the edge index only edges to records that are alive. The set of records that are
alive is a parameter of its own: a database being rebuilt knows all of them before it has indexed any.
-/

namespace AegisDB

open Function Option MemoryRecord

structure Indexes where
  time : TimeIndex
  tags : TagIndex
  /-- `db->lex`, `NULL` with `--no-lexical-index`. -/
  lex : Option LexicalIndex
  /-- `db->edges`, `NULL` with `--no-edge-index`. -/
  edges : Option EdgeIndex
  /-- `db->facts`, `NULL` with `--no-fact-index`. -/
  facts : Option FactIndex
  sem : SemanticIndex

/-- The indexes of a database that is opened. -/
def Indexes.create (dim : ℕ) (lex edges facts : Bool) : Indexes where
  time := .empty
  tags := .empty
  lex := if lex then some lexicalIndexCreate else none
  edges := if edges then some edgeIndexCreate else none
  facts := if facts then some factIndexCreate else none
  sem := semanticIndexCreate dim

def dbFactIndexApply (facts : Option FactIndex) (r : MemoryRecord) (add : Bool) : Option FactIndex :=
  facts.map fun f =>
    if r.fact.kind = .none then f
    else if add then factIndexAdd f r.id r.fact
    else factIndexRemove f r.id r.fact

/-- Index a record, and its edges to targets that `keep` holds for: all of them behind an insert,
those to live records when a log is replayed. -/
def indexRecord (keep : UInt64 → Bool) (ix : Indexes) (r : MemoryRecord) : Indexes where
  time := timeIndexAdd ix.time r.created r.id
  tags := r.tags.foldl (fun t tag => tagIndexAdd t tag r.id) ix.tags
  lex := ix.lex.map fun lx => lexicalIndexAdd lx r.id r.data
  edges := ix.edges.map fun e =>
    (r.relationships.filter fun rel => keep rel.toId).foldl
      (fun e rel => edgeIndexAdd e r.id rel.toId rel.kind) e
  facts := dbFactIndexApply ix.facts r true
  sem :=
    if r.embedding.dim ≠ 0 ∧ r.embedding.vecCount ≠ 0 then semanticIndexAdd ix.sem r.id r.embedding
    else ix.sem

/-- Drop a record, with the edges it lists. -/
def unindexRecord (ix : Indexes) (r : MemoryRecord) : Indexes where
  time := timeIndexRemove ix.time r.created r.id
  tags := r.tags.foldl (fun t tag => tagIndexRemove t tag r.id) ix.tags
  lex := ix.lex.map fun lx => lexicalIndexRemove lx r.id r.data
  edges := ix.edges.map fun e =>
    r.relationships.foldl (fun e rel => edgeIndexRemove e r.id rel.toId rel.kind) e
  facts := dbFactIndexApply ix.facts r false
  sem := if r.embedding.dim ≠ 0 then semanticIndexRemove ix.sem r.id else ix.sem

def Indexes.dropTarget (ix : Indexes) (id : UInt64) : Indexes :=
  { ix with edges := ix.edges.map fun e => edgeIndexRemoveTarget e id }

/-! ## What the indexes list -/

/-- The vectors of a record that a semantic index of a dimension takes. -/
def MemoryRecord.semVectors (dim : ℕ) (r : MemoryRecord) : List (List F32) :=
  if r.embedding.dim ≠ 0 ∧ r.embedding.dim = dim ∧ r.embedding.vecCount ≤ mvSlots then
    r.embedding.vectors
  else []

/-- The indexes list the records of `live`, and of their edges those to records that are alive. -/
structure Indexed (dim : ℕ) (live : UInt64 → Option MemoryRecord) (alive : UInt64 → Prop)
    (ix : Indexes) : Prop where
  time : TimeExact (fun id => (live id).map created) ix.time
  tags : TagsExact (fun id => (live id).elim [] MemoryRecord.tags) ix.tags
  lex : ∀ lx ∈ ix.lex, LexExact (fun id => (live id).map data) lx
  edges : ∀ e ∈ ix.edges,
    EdgesExact (fun id => (live id).elim [] relationships) alive e
  facts : ∀ f ∈ ix.facts, FactsExact (fun id => (live id).bind fun r => r.fact.triple) f
  sem : SemExact (fun id => (live id).elim [] (semVectors dim)) ix.sem
  dim_eq : ix.sem.dim = dim

theorem indexed_create (dim : ℕ) (lex edges facts : Bool) (alive : UInt64 → Prop) :
    Indexed dim (fun _ => none) alive (.create dim lex edges facts) where
  time := timeExact_empty
  tags := tagsExact_empty
  lex lx h := by
    obtain ⟨-, h⟩ := ite_none_right_eq_some.1 h
    cases h
    exact lexExact_create
  edges e h := by
    obtain ⟨-, h⟩ := ite_none_right_eq_some.1 h
    cases h
    exact edgesExact_create alive
  facts f h := by
    obtain ⟨-, h⟩ := ite_none_right_eq_some.1 h
    cases h
    exact factsExact_create
  sem := semExact_create dim
  dim_eq := rfl

theorem view_update {β : Type} (f : Option MemoryRecord → β) (live : UInt64 → Option MemoryRecord)
    (id : UInt64) (o : Option MemoryRecord) :
    (fun id' => f (update live id o id')) =
      update (fun id' => f (live id')) id (f o) := comp_update f live id o

theorem view_keep {β : Type} (f : Option MemoryRecord → β) {live : UInt64 → Option MemoryRecord}
    {id : UInt64} {cur : MemoryRecord} (hid : live id = some cur) (new : MemoryRecord)
    (hsame : f (some new) = f (some cur)) :
    (fun id' => f (update live id (some new) id')) = fun id' => f (live id') := by
  rw [view_update, hsame, ← hid]
  exact update_eq_self id fun id' => f (live id')

theorem view_congr {β : Type} (f : Option MemoryRecord → β) (live : UInt64 → Option MemoryRecord)
    (id : UInt64) (r r' : MemoryRecord) (h : f (some r) = f (some r')) :
    (fun id' => f (update live id (some r) id')) = fun id' => f (update live id (some r') id') := by
  rw [view_update, view_update, h]

/-- The intern tables have room for the predicate and for the kinds of a record. -/
structure Indexes.Room (ix : Indexes) (keep : UInt64 → Bool) (r : MemoryRecord) : Prop where
  facts : ∀ f ∈ ix.facts, ∀ t, r.fact.triple = some t →
    (f.preds.intern factMaxPredicates t.predicate).2 ≠ none
  edges : ∀ e ∈ ix.edges, KindsFit e r.id (r.relationships.filter fun rel => keep rel.toId)

section

variable {dim : ℕ} {live : UInt64 → Option MemoryRecord} {alive alive' : UInt64 → Prop}
  {ix : Indexes} {r : MemoryRecord}

theorem Fact.triple_of_kind {fact : Fact} (h : fact.kind = .none) : fact.triple = none := by
  unfold Fact.triple
  rw [h]
  cases fact.predicate <;> rfl

section

variable {facts : Option FactIndex}
  (h : ∀ f ∈ facts, FactsExact (fun id => (live id).bind fun r => r.fact.triple) f)

include h

theorem factsExact_apply_add (hnone : (live r.id).bind (fun r => r.fact.triple) = none)
    (hroom : ∀ f ∈ facts, ∀ t, r.fact.triple = some t →
      (f.preds.intern factMaxPredicates t.predicate).2 ≠ none) :
    ∀ f ∈ dbFactIndexApply facts r true,
      FactsExact (fun id => (update live r.id (some r) id).bind fun r => r.fact.triple) f := by
  intro f hf
  obtain ⟨f, hmem, rfl⟩ := mem_map.1 hf
  rw [view_update (fun o => o.bind fun r => r.fact.triple)]
  split
  · rename_i hkind
    rw [bind_some, Fact.triple_of_kind hkind, ← hnone, update_eq_self]
    exact h f hmem
  · exact (h f hmem).add hnone (hroom f hmem)

theorem factsExact_apply_remove (hid : live r.id = some r) :
    ∀ f ∈ dbFactIndexApply facts r false,
      FactsExact (fun id => (update live r.id none id).bind fun r => r.fact.triple) f := by
  intro f hf
  obtain ⟨f, hmem, rfl⟩ := mem_map.1 hf
  have htriple : (live r.id).bind (fun r => r.fact.triple) = r.fact.triple := by rw [hid]; rfl
  rw [view_update (fun o => o.bind fun r => r.fact.triple)]
  split
  · rename_i hkind
    rw [bind_none, ← Fact.triple_of_kind hkind, ← htriple, update_eq_self]
    exact h f hmem
  · exact (h f hmem).remove htriple

end

theorem semExact_index {s : SemanticIndex}
    (h : SemExact (fun id => (live id).elim [] (semVectors dim)) s) (hdim : s.dim = dim)
    (hid : live r.id = none) (hroom : r.semVectors dim ≠ [] → r.id.toNat < mvRoom) :
    SemExact (fun id => (update live r.id (some r) id).elim [] (semVectors dim))
      (if r.embedding.dim ≠ 0 ∧ r.embedding.vecCount ≠ 0 then semanticIndexAdd s r.id r.embedding
        else s) := by
  rw [view_update (fun o => o.elim [] (semVectors dim))]
  -- a record whose vectors are not taken leaves the index as it was
  have hkeep (hnil : r.semVectors dim = []) :
      SemExact (update (fun id => (live id).elim [] (semVectors dim)) r.id
        (r.semVectors dim)) s := by
    rw [update_eq_self_iff.2 (by rw [hnil, hid]; rfl)]
    exact h
  rw [elim_some]
  split
  · rename_i hne
    by_cases hok : r.embedding.dim = dim ∧ r.embedding.vecCount ≤ mvSlots
    · have hvec : r.semVectors dim = r.embedding.vectors := by
        rw [semVectors, if_pos ⟨hne.1, hok.1, hok.2⟩]
      have hnil : r.semVectors dim ≠ [] := by
        rw [hvec, ← List.length_pos_iff_ne_nil, Embedding.length_vectors]
        exact Nat.pos_of_ne_zero hne.2
      rw [hvec]
      exact h.add (hroom hnil) (hok.1.trans hdim.symm) hne.2 hok.2
    · have hrefused : semanticIndexAdd s r.id r.embedding = s := by
        rw [semanticIndexAdd, if_pos]
        rw [hdim]
        omega
      rw [hrefused]
      refine hkeep ?_
      rw [semVectors, if_neg fun hc => hok hc.2]
  · rename_i hne
    refine hkeep ?_
    rw [semVectors]
    split
    · rename_i hc
      rw [← List.length_eq_zero_iff, Embedding.length_vectors]
      by_contra hcount
      exact hne ⟨hc.1, hcount⟩
    · rfl

theorem semExact_unindex {s : SemanticIndex}
    (h : SemExact (fun id => (live id).elim [] (semVectors dim)) s)
    (hid : live r.id = some r) (hroom : r.semVectors dim ≠ [] → r.id.toNat < mvRoom) :
    SemExact (fun id => (update live r.id none id).elim [] (semVectors dim))
      (if r.embedding.dim ≠ 0 then semanticIndexRemove s r.id else s) := by
  have hvec : (live r.id).elim [] (semVectors dim) = r.semVectors dim := by
    rw [hid]
    rfl
  rw [view_update (fun o => o.elim [] (semVectors dim)), elim_none]
  split
  · exact h.remove (by rwa [hvec])
  · rename_i hzero
    rw [update_eq_self_iff.2]
    · exact h
    · rw [hvec, semVectors, if_neg fun hc => hzero hc.1]

theorem edgesExact_link {e : EdgeIndex} {keep : UInt64 → Bool}
    (h : EdgesExact (fun id => (live id).elim [] relationships) alive e)
    (hid : live r.id = none) (hkeep : ∀ rel ∈ r.relationships, keep rel.toId = true ↔ alive rel.toId)
    (hroom : KindsFit e r.id (r.relationships.filter fun rel => keep rel.toId)) :
    EdgesExact
      (fun id => (update live r.id (some r) id).elim [] relationships) alive
      ((r.relationships.filter fun rel => keep rel.toId).foldl
        (fun e rel => edgeIndexAdd e r.id rel.toId rel.kind) e) := by
  rw [view_update (fun o => o.elim [] relationships)]
  have halive : ∀ rel ∈ r.relationships.filter fun rel => keep rel.toId, alive rel.toId := by
    intro rel hrel
    obtain ⟨hmem, hk⟩ := List.mem_filter.1 hrel
    exact (hkeep rel hmem).1 hk
  refine (h.addAll halive hroom).congr (fun _ => Iff.rfl) ?_
  intro a rel hrel
  by_cases ha : a = r.id
  · subst ha
    simp only [update_self, hid, elim_none, List.nil_append, elim_some,
      List.mem_filter, iff_self_and]
    exact fun hmem => (hkeep rel hmem).2 hrel
  · simp [ha]

section

variable (h : Indexed dim live alive ix)

include h

theorem Indexed.add {keep : UInt64 → Bool} (hid : live r.id = none)
    (hkeep : ∀ rel ∈ r.relationships, keep rel.toId = true ↔ alive rel.toId)
    (hroom : ix.Room keep r) (hsem : r.semVectors dim ≠ [] → r.id.toNat < mvRoom) :
    Indexed dim (update live r.id (some r)) alive (indexRecord keep ix r) where
  time := by
    rw [view_update (Option.map created)]
    exact h.time.add (by simp [hid])
  tags := by
    rw [view_update (fun o => o.elim [] MemoryRecord.tags)]
    exact h.tags.add (by simp [hid]) r.tags
  lex lx hlx := by
    obtain ⟨lx, hmem, rfl⟩ := mem_map.1 hlx
    rw [view_update (Option.map data)]
    exact (h.lex lx hmem).add (by simp [hid]) r.data
  edges e he := by
    obtain ⟨e, hmem, rfl⟩ := mem_map.1 he
    exact edgesExact_link (h.edges e hmem) hid hkeep (hroom.edges e hmem)
  facts := factsExact_apply_add h.facts (by rw [hid]; rfl) hroom.facts
  sem := semExact_index h.sem h.dim_eq hid hsem
  dim_eq := by
    simp only [indexRecord]
    split
    · rw [dim_semanticIndexAdd, h.dim_eq]
    · exact h.dim_eq

theorem Indexed.remove (hid : live r.id = some r)
    (hsem : r.semVectors dim ≠ [] → r.id.toNat < mvRoom) :
    Indexed dim (update live r.id none) alive (unindexRecord ix r) where
  time := by
    rw [view_update (Option.map created)]
    exact h.time.remove (by simp [hid])
  tags := by
    have := h.tags.remove r.id
    simp only [hid, elim_some] at this
    rw [view_update (fun o => o.elim [] MemoryRecord.tags)]
    exact this
  lex lx hlx := by
    obtain ⟨lx, hmem, rfl⟩ := mem_map.1 hlx
    rw [view_update (Option.map data)]
    exact (h.lex lx hmem).remove (by simp [hid])
  edges e he := by
    obtain ⟨e, hmem, rfl⟩ := mem_map.1 he
    have := (h.edges e hmem).removeAll (a := r.id)
    simp only [hid, elim_some] at this
    rw [view_update (fun o => o.elim [] relationships)]
    exact this
  facts := factsExact_apply_remove h.facts hid
  sem := semExact_unindex h.sem hid hsem
  dim_eq := by
    simp only [unindexRecord]
    split
    · rw [dim_semanticIndexRemove, h.dim_eq]
    · exact h.dim_eq

theorem Indexed.congr (halive : ∀ b, alive' b ↔ alive b) : Indexed dim live alive' ix :=
  { h with edges := fun e he => (h.edges e he).congr halive fun _ _ _ => Iff.rfl }

theorem Indexed.dropTarget (a : UInt64) :
    Indexed dim live (fun b => alive b ∧ b ≠ a) (ix.dropTarget a) :=
  { h with
    edges := fun e he => by
      obtain ⟨e, hmem, rfl⟩ := mem_map.1 he
      exact (h.edges e hmem).removeTarget }

theorem Indexed.arrive {a : UInt64}
    (hnew : ∀ id r, live id = some r → ∀ rel ∈ r.relationships, rel.toId ≠ a) :
    Indexed dim live (fun b => alive b ∨ b = a) ix :=
  { h with
    edges := fun e he => (h.edges e he).arrive fun id rel hrel => by
      cases hid : live id with
      | none => simp [hid] at hrel
      | some r => exact hnew id r hid rel (by simpa [hid] using hrel) }

end

end

end AegisDB
