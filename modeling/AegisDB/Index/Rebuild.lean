import AegisDB.Index.Indexes

/-!
# Indexes that are built again

Two sets of indexes that list the same records answer alike (`Indexed.sameAnswers`): the time, the
tag, the lexical and the semantic index are even the same, and the lookups of the fact index and of
the edge index do not depend on the numbers that the names have been interned under.

`Indexed.rebuild` says that indexing all records of a map, one after the other and in any order, lists
them. The intern tables have room for that if those of some indexes that already list the records
have: no other names are interned (`Indexes.Within`).
-/

namespace AegisDB

open List Option InternTable Function KeyedArray

/-! ## Answers -/

theorem eq_of_sorted_of_mem_iff {l l' : List UInt64}
    (h : l.Pairwise fun a b => a.toNat < b.toNat) (h' : l'.Pairwise fun a b => a.toNat < b.toNat)
    (hmem : ∀ x, x ∈ l ↔ x ∈ l') : l = l' :=
  congrArg items (ext_mem (t := (⟨l, h⟩ : IdArray)) (u := ⟨l', h'⟩) hmem)

theorem sorted_collectUnder (f : FactIndex) (posts : List FactPost) (predicate : Option CString) :
    (collectUnder f posts predicate).Pairwise fun a b => a.toNat < b.toNat := by
  unfold collectUnder collectPosts
  split
  · exact sorted _
  · split
    · exact List.Pairwise.nil
    · exact sorted _

theorem sorted_factIndexByPredicate (f : FactIndex) (predicate : Option CString) :
    (factIndexByPredicate f predicate).Pairwise fun a b => a.toNat < b.toNat := by
  unfold factIndexByPredicate
  split
  · exact List.Pairwise.nil
  · exact sorted _

/-- Two fact indexes answer every lookup alike. -/
structure SameFacts (f f' : FactIndex) : Prop where
  bySubject : factIndexBySubject f = factIndexBySubject f'
  byObject : factIndexByObject f = factIndexByObject f'
  byPredicate : factIndexByPredicate f = factIndexByPredicate f'

theorem FactsExact.sameFacts {triples : UInt64 → Option FactTriple} {f f' : FactIndex}
    (h : FactsExact triples f) (h' : FactsExact triples f') : SameFacts f f' where
  bySubject := by
    funext s predicate
    apply eq_of_sorted_of_mem_iff (sorted_collectUnder ..) (sorted_collectUnder ..)
    intro id
    exact h.mem_factIndexBySubject.trans h'.mem_factIndexBySubject.symm
  byObject := by
    funext kind objectId objectStr predicate
    apply congrFun (congrArg Option.map _)
    funext o
    apply eq_of_sorted_of_mem_iff (sorted_collectUnder ..) (sorted_collectUnder ..)
    intro id
    exact (h.mem_collectUnder h.obj).trans (h'.mem_collectUnder h'.obj).symm
  byPredicate := by
    funext predicate
    apply eq_of_sorted_of_mem_iff (sorted_factIndexByPredicate ..) (sorted_factIndexByPredicate ..)
    intro id
    cases predicate with
    | none => exact Iff.rfl
    | some p => exact h.mem_factIndexByPredicate.trans h'.mem_factIndexByPredicate.symm

/-- Two optional indexes are both disabled, or related. -/
def BothOr {α : Type} (R : α → α → Prop) : Option α → Option α → Prop
  | none, none => True
  | some x, some y => R x y
  | _, _ => False

/-- Two sets of indexes answer every query alike, up to the order of the edges of one source. -/
structure SameAnswers (ix ix' : Indexes) : Prop where
  time : ix.time = ix'.time
  tags : ix.tags = ix'.tags
  lex : ix.lex = ix'.lex
  sem : ix.sem = ix'.sem
  edges : BothOr (fun e e' => ∀ b kinds,
    (edgeIndexSources e b kinds).Perm (edgeIndexSources e' b kinds)) ix.edges ix'.edges
  facts : BothOr SameFacts ix.facts ix'.facts

structure SameShape (ix ix' : Indexes) : Prop where
  lex : ix.lex.isSome = ix'.lex.isSome
  edges : ix.edges.isSome = ix'.edges.isSome
  facts : ix.facts.isSome = ix'.facts.isSome

theorem bothOr_of_forall {α : Type} {R : α → α → Prop} {o o' : Option α}
    (hshape : o.isSome = o'.isSome) (h : ∀ x ∈ o, ∀ y ∈ o', R x y) : BothOr R o o' := by
  cases o with
  | none =>
    cases o' with
    | none => trivial
    | some y => cases hshape
  | some x =>
    cases o' with
    | none => cases hshape
    | some y => exact h x rfl y rfl

section

variable {dim : ℕ} {live : UInt64 → Option MemoryRecord} {alive : UInt64 → Prop}
  {ix ix' : Indexes}

theorem Indexed.sameAnswers (h : Indexed dim live alive ix) (h' : Indexed dim live alive ix')
    (hshape : SameShape ix ix') : SameAnswers ix ix' where
  time := h.time.unique h'.time
  tags := h.tags.unique h'.tags
  lex := by
    have hlex : BothOr Eq ix.lex ix'.lex :=
      bothOr_of_forall hshape.lex fun lx hlx lx' hlx' => (h.lex lx hlx).unique (h'.lex lx' hlx')
    revert hlex
    cases ix.lex <;> cases ix'.lex <;> simp [BothOr]
  sem := h.sem.unique h'.sem (h.dim_eq.trans h'.dim_eq.symm)
  edges := bothOr_of_forall hshape.edges fun e he e' he' _ kinds =>
    (h.edges e he).sources_perm (h'.edges e' he') kinds
  facts := bothOr_of_forall hshape.facts fun f hf f' hf' =>
    (h.facts f hf).sameFacts (h'.facts f' hf')

end

/-- The intern tables are below their caps. -/
structure Indexes.BelowCaps (ix : Indexes) : Prop where
  preds : ∀ f ∈ ix.facts, f.preds.names.length < factMaxPredicates
  kinds : ∀ e ∈ ix.edges, e.kinds.names.length < edgeMaxKinds

/-- The names that are interned in `ix` are interned in `big` too. -/
structure Indexes.Within (ix big : Indexes) : Prop where
  preds : ∀ f ∈ ix.facts, ∃ f' ∈ big.facts, f.preds.names ⊆ f'.preds.names
  kinds : ∀ e ∈ ix.edges, ∃ e' ∈ big.edges, e.kinds.names ⊆ e'.kinds.names

/-- The kind of an edge has a length that can be interned. -/
def Relationship.Short (rel : Relationship) : Prop :=
  ∀ k ∈ rel.kind, k.bytes.length ≤ edgeMaxKindLen

theorem kindIntern_ne_unknown {e : EdgeIndex} {rel : Relationship} (hshort : rel.Short)
    (hroom : ∀ k, kindLabel rel.kind = some k →
      k ∈ e.kinds.names ∨ e.kinds.names.length < edgeMaxKinds) :
    (kindIntern e rel.kind).2 ≠ .unknown := by
  unfold kindIntern
  split
  · simp
  · rename_i k hk
    have hlen := hshort k (filter_eq_some_iff.1 hk).1
    rw [if_neg (not_lt.2 hlen)]
    cases hint : (e.kinds.intern edgeMaxKinds k).2 with
    | some i => simp
    | none =>
      obtain ⟨hnot, hfull⟩ := intern_eq_none.1 hint
      exact absurd ((hroom k hk).resolve_left hnot) (not_lt.2 hfull)

theorem mem_names_kindIntern {e : EdgeIndex} {kind : Option CString} {k : CString}
    (h : k ∈ (kindIntern e kind).1.kinds.names) : k ∈ e.kinds.names ∨ kindLabel kind = some k := by
  unfold kindIntern at h
  split at h
  · exact .inl h
  · rename_i k' hk'
    split at h
    · exact .inl h
    · exact (mem_names_intern h).imp_right fun heq => by rw [hk', heq]

/-- The kinds of some edges are among the names of a table that is below its cap. -/
theorem kindsFit_of_names {e big : EdgeIndex} {a : UInt64} {rels : List Relationship}
    (hsub : e.kinds.names ⊆ big.kinds.names) (hcap : big.kinds.names.length < edgeMaxKinds)
    (hshort : ∀ rel ∈ rels, rel.Short)
    (hnamed : ∀ rel ∈ rels, kindLookup big.kinds rel.kind ≠ .unknown) :
    KindsFit e a rels ∧
      (rels.foldl (fun e rel => edgeIndexAdd e a rel.toId rel.kind) e).kinds.names ⊆
        big.kinds.names := by
  induction rels generalizing e with
  | nil => exact ⟨trivial, hsub⟩
  | cons rel rels ih =>
    have hlen := (subperm_of_subset e.kinds.nodup hsub).length_le.trans_lt hcap
    have hsub' : (edgeIndexAdd e a rel.toId rel.kind).kinds.names ⊆ big.kinds.names := by
      intro k hk
      rcases mem_names_kindIntern hk with hk | hk
      · exact hsub hk
      · by_contra hnot
        apply hnamed rel mem_cons_self
        simp only [kindLookup, hk, InternTable.find?_eq_none.2 hnot, elim_none]
    obtain ⟨hfit, hsub''⟩ := ih hsub' (fun r hr => hshort r (mem_cons_of_mem _ hr))
      fun r hr => hnamed r (mem_cons_of_mem _ hr)
    refine ⟨⟨?_, hfit⟩, hsub''⟩
    exact kindIntern_ne_unknown (hshort rel mem_cons_self) fun _ _ => .inr hlen

section

variable {dim : ℕ} {live full : UInt64 → Option MemoryRecord} {alive : UInt64 → Prop}
  {keep : UInt64 → Bool} {ix big : Indexes} {r : MemoryRecord}

/-- The predicates of a fact index are among the names of one that lists the fact. -/
theorem preds_of_names {f big : FactIndex} {triples : UInt64 → Option FactTriple} (fact : Fact)
    {id : UInt64} (hsub : f.preds.names ⊆ big.preds.names)
    (hcap : big.preds.names.length < factMaxPredicates) (hbig : FactsExact triples big)
    (hid : triples id = fact.triple) :
    (∀ t, fact.triple = some t → (f.preds.intern factMaxPredicates t.predicate).2 ≠ none) ∧
      (factIndexAdd f id fact).preds.names ⊆ big.preds.names := by
  have hlen := (subperm_of_subset f.preds.nodup hsub).length_le
  refine ⟨fun t _ hfull => ?_, ?_⟩
  · exact absurd (intern_eq_none.1 hfull).2 (by omega)
  · rw [factIndexAdd_eq]
    cases ht : fact.triple with
    | none => exact hsub
    | some t =>
      have hname : t.predicate ∈ big.preds.names := by
        by_contra hnot
        obtain ⟨i, hi⟩ := hbig.named id t (hid.trans ht)
        rw [InternTable.find?_eq_none.2 hnot] at hi
        cases hi
      have hgrown : (f.preds.intern factMaxPredicates t.predicate).1.names ⊆ big.preds.names := by
        intro k hk
        rcases mem_names_intern hk with hk | rfl
        · exact hsub hk
        · exact hname
      rcases hint : f.preds.intern factMaxPredicates t.predicate with ⟨preds, _ | i⟩ <;>
        rw [hint] at hgrown <;> simp only [hint] <;> exact hgrown

/-- Indexes that already list a record have room for it, and so have those with fewer names. -/
theorem Indexes.Within.add (h : ix.Within big) (hcaps : big.BelowCaps)
    (hbig : Indexed dim full alive big) (hr : full r.id = some r)
    (hkeep : ∀ rel ∈ r.relationships, keep rel.toId = true ↔ alive rel.toId)
    (hshort : ∀ rel ∈ r.relationships, rel.Short) :
    ix.Room keep r ∧ (indexRecord keep ix r).Within big := by
  have hfacts (f : FactIndex) (hf : f ∈ ix.facts) : ∃ f' ∈ big.facts,
      (∀ t, r.fact.triple = some t → (f.preds.intern factMaxPredicates t.predicate).2 ≠ none) ∧
        f.preds.names ⊆ f'.preds.names ∧
        (factIndexAdd f r.id r.fact).preds.names ⊆ f'.preds.names := by
    obtain ⟨f', hf', hsub⟩ := h.preds f hf
    obtain ⟨hroom, hsub'⟩ := preds_of_names r.fact hsub
      (hcaps.preds f' hf') (hbig.facts f' hf') (by rw [hr]; rfl : (full r.id).bind _ = r.fact.triple)
    exact ⟨f', hf', hroom, hsub, hsub'⟩
  have hedges (e : EdgeIndex) (he : e ∈ ix.edges) : ∃ e' ∈ big.edges,
      KindsFit e r.id (r.relationships.filter fun rel => keep rel.toId) ∧
        ((r.relationships.filter fun rel => keep rel.toId).foldl
          (fun e rel => edgeIndexAdd e r.id rel.toId rel.kind) e).kinds.names ⊆ e'.kinds.names := by
    obtain ⟨e', he', hsub⟩ := h.kinds e he
    refine ⟨e', he', kindsFit_of_names hsub (hcaps.kinds e' he') ?_ ?_⟩
    · exact fun rel hrel => hshort rel (mem_of_mem_filter hrel)
    · intro rel hrel
      obtain ⟨hmem, hk⟩ := mem_filter.1 hrel
      exact (hbig.edges e' he').named r.id rel (by rw [hr]; exact hmem) ((hkeep rel hmem).1 hk)
  refine ⟨⟨fun f hf => ?_, fun e he => ?_⟩, ⟨fun f hf => ?_, fun e he => ?_⟩⟩
  · obtain ⟨-, -, hroom, -⟩ := hfacts f hf
    exact hroom
  · obtain ⟨-, -, hfit, -⟩ := hedges e he
    exact hfit
  · obtain ⟨f, hmem, rfl⟩ := Option.mem_map.1 hf
    obtain ⟨f', hf', -, hsub, hsub'⟩ := hfacts f hmem
    refine ⟨f', hf', ?_⟩
    split
    · exact hsub
    · exact hsub'
  · obtain ⟨e, hmem, rfl⟩ := Option.mem_map.1 he
    obtain ⟨e', he', -, hsub⟩ := hedges e hmem
    exact ⟨e', he', hsub⟩

/-- A map of records with those of a list put into it. -/
def putRecords (m : UInt64 → Option MemoryRecord) (rs : List MemoryRecord) :
    UInt64 → Option MemoryRecord :=
  rs.foldl (fun m r => update m r.id (some r)) m

variable {rs : List MemoryRecord}

theorem Indexed.indexAll (h : Indexed dim live alive ix) (hin : ix.Within big)
    (hcaps : big.BelowCaps) (hbig : Indexed dim full alive big)
    (hfull : ∀ r ∈ rs, full r.id = some r) (hnew : ∀ r ∈ rs, live r.id = none)
    (hnodup : (rs.map MemoryRecord.id).Nodup) (hkeep : ∀ b, keep b = true ↔ alive b)
    (hshort : ∀ r ∈ rs, ∀ rel ∈ r.relationships, rel.Short)
    (hsem : ∀ r ∈ rs, r.semVectors dim ≠ [] → r.id.toNat < mvRoom) :
    Indexed dim (putRecords live rs) alive (rs.foldl (indexRecord keep) ix) := by
  induction rs generalizing ix live with
  | nil => exact h
  | cons r rs ih =>
    rw [map_cons, nodup_cons] at hnodup
    obtain ⟨hroom, hin'⟩ := hin.add hcaps hbig (hfull r mem_cons_self)
      (fun rel _ => hkeep rel.toId) (hshort r mem_cons_self)
    have hadd := h.add (hnew r mem_cons_self) (fun rel _ => hkeep rel.toId) hroom
      (hsem r mem_cons_self)
    refine ih hadd hin' (fun x hx => hfull x (mem_cons_of_mem _ hx)) (fun x hx => ?_)
      hnodup.2 (fun x hx => hshort x (mem_cons_of_mem _ hx))
      fun x hx => hsem x (mem_cons_of_mem _ hx)
    have hne : x.id ≠ r.id := fun heq => hnodup.1 (heq ▸ List.mem_map_of_mem hx)
    exact (update_of_ne hne ..).trans (hnew x (mem_cons_of_mem _ hx))

theorem putRecords_apply (hfull : ∀ r ∈ rs, full r.id = some r) (m : UInt64 → Option MemoryRecord)
    (id : UInt64) :
    putRecords m rs id = if id ∈ rs.map MemoryRecord.id then full id else m id := by
  induction rs generalizing m with
  | nil => rfl
  | cons r rs ih =>
    have htail := ih (fun x hx => hfull x (mem_cons_of_mem _ hx))
      (update m r.id (some r))
    by_cases hid : id = r.id
    · subst hid
      rw [putRecords, foldl_cons, ← putRecords, htail]
      simp [hfull r mem_cons_self]
    · rw [putRecords, foldl_cons, ← putRecords, htail]
      simp [hid]

theorem putRecords_eq (hfull : ∀ r ∈ rs, full r.id = some r)
    (hall : ∀ id r, full id = some r → r ∈ rs ∧ r.id = id) :
    putRecords (fun _ => none) rs = full := by
  funext id
  rw [putRecords_apply hfull]
  split
  · rfl
  · rename_i hnot
    cases hid : full id with
    | none => rfl
    | some r =>
      obtain ⟨hmem, rfl⟩ := hall id r hid
      exact absurd (List.mem_map_of_mem hmem) hnot

theorem sameShape_foldl_indexRecord (rs : List MemoryRecord) (ix : Indexes) :
    SameShape ix (rs.foldl (indexRecord keep) ix) := by
  induction rs generalizing ix with
  | nil => exact ⟨rfl, rfl, rfl⟩
  | cons r rs ih =>
    obtain ⟨hlex, hedges, hfacts⟩ := ih (indexRecord keep ix r)
    refine ⟨Eq.trans ?_ hlex, Eq.trans ?_ hedges, Eq.trans ?_ hfacts⟩
    · exact isSome_map.symm
    · exact isSome_map.symm
    · exact isSome_map.symm

theorem sameShape_create (ix : Indexes) (dim : ℕ) :
    SameShape ix (.create dim ix.lex.isSome ix.edges.isSome ix.facts.isSome) where
  lex := by cases ix.lex <;> rfl
  edges := by cases ix.edges <;> rfl
  facts := by cases ix.facts <;> rfl

theorem SameShape.trans {ix ix' ix'' : Indexes} (h : SameShape ix ix') (h' : SameShape ix' ix'') :
    SameShape ix ix'' :=
  ⟨h.lex.trans h'.lex, h.edges.trans h'.edges, h.facts.trans h'.facts⟩

theorem Indexed.rebuild (hbig : Indexed dim full alive big) (hcaps : big.BelowCaps)
    (hfull : ∀ r ∈ rs, full r.id = some r) (hall : ∀ id r, full id = some r → r ∈ rs ∧ r.id = id)
    (hnodup : (rs.map MemoryRecord.id).Nodup) (hkeep : ∀ b, keep b = true ↔ alive b)
    (hshort : ∀ r ∈ rs, ∀ rel ∈ r.relationships, rel.Short)
    (hsem : ∀ r ∈ rs, r.semVectors dim ≠ [] → r.id.toNat < mvRoom) :
    Indexed dim full alive
      (rs.foldl (indexRecord keep)
        (.create dim big.lex.isSome big.edges.isSome big.facts.isSome)) := by
  have hwithin : (Indexes.create dim big.lex.isSome big.edges.isSome big.facts.isSome).Within big := by
    constructor
    · intro f hf
      obtain ⟨hsome, hf⟩ := ite_none_right_eq_some.1 hf
      cases hf
      obtain ⟨f', hf'⟩ := isSome_iff_exists.1 hsome
      exact ⟨f', hf', nil_subset _⟩
    · intro e he
      obtain ⟨hsome, he⟩ := ite_none_right_eq_some.1 he
      cases he
      obtain ⟨e', he'⟩ := isSome_iff_exists.1 hsome
      exact ⟨e', he', nil_subset _⟩
  have := (indexed_create dim big.lex.isSome big.edges.isSome big.facts.isSome alive).indexAll
    hwithin hcaps hbig hfull (fun _ _ => rfl) hnodup hkeep hshort hsem
  rwa [putRecords_eq hfull hall] at this

end

end AegisDB
