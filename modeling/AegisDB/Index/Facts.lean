import AegisDB.Index.Tags

/-!
# The fact index

`fact_index.c`: the records by the subject, by the object and by the predicate of their fact.
Predicates are interned, and one that the intern table does not take is refused with its fact. The
two open-addressed tables and the array of lists by predicate are posting tables here: a slot without
postings is retired by the source, and a string object is compared by its text behind its hash.

`FactTriple` is what the index is about: the subject, the predicate and the object of a fact whose
predicate can be interned. `FactsExact triples f` says that the index lists exactly the triples of
the records. It is kept when a record comes or goes, and the lookups then return the records with a
triple.
-/

namespace AegisDB

open List Function Option Postings KeyedArray

variable {fact : Fact}

def factMaxPredicates : ℕ := 4096

def factMaxPredicateLen : ℕ := 64

/-- What a slot of the object table is for: an id, or a string with its text. -/
inductive ObjectKey
  | id (id : UInt64)
  | str (s : CString)
  deriving DecidableEq

/-- One (predicate, record) posting under a subject or an object. -/
structure FactPost where
  pred : ℕ
  recordId : UInt64
  deriving DecidableEq

/-- What `post_cmp` compares by. -/
def FactPost.key (p : FactPost) : ℕ ×ₗ ℕ := toLex (p.pred, p.recordId.toNat)

theorem FactPost.key_injective : Injective FactPost.key := by
  rintro ⟨p, i⟩ ⟨p', i'⟩ h
  simp only [FactPost.key, EmbeddingLike.apply_eq_iff_eq, Prod.mk.injEq, UInt64.toNat_inj] at h
  rw [h.1, h.2]

/-- `FactIndex`, without its counters. -/
structure FactIndex where
  preds : InternTable CString
  subj : Postings UInt64 FactPost.key
  obj : Postings ObjectKey FactPost.key
  predRecs : Postings ℕ UInt64.toNat

def factIndexCreate : FactIndex := ⟨.empty, .empty, .empty, .empty⟩

def predIntern (f : FactIndex) (p : CString) : FactIndex × Option ℕ :=
  if p.bytes.length = 0 ∨ factMaxPredicateLen < p.bytes.length then (f, none)
  else ({ f with preds := (f.preds.intern factMaxPredicates p).1 },
    (f.preds.intern factMaxPredicates p).2)

def predLookup (f : FactIndex) (p : CString) : Option ℕ :=
  if p.bytes = [] then none else f.preds.find? p

def objectKey (kind : FactKind) (objectId : UInt64) (objectStr : Option CString) :
    Option ObjectKey :=
  match kind with
  | .objId => some (.id objectId)
  | .objString => objectStr.map .str
  | .none => none

/-- The posting of a record in the three tables. -/
def FactIndex.post (f : FactIndex) (id subject : UInt64) (o : ObjectKey) (i : ℕ) : FactIndex :=
  { f with
    subj := f.subj.add subject ⟨i, id⟩
    obj := f.obj.add o ⟨i, id⟩
    predRecs := f.predRecs.add i id }

/-- `fact_index_add`; what it cannot intern it refuses. -/
def factIndexAdd (f : FactIndex) (id : UInt64) (fact : Fact) : FactIndex :=
  match fact.predicate, objectKey fact.kind fact.objectId fact.objectStr with
  | some p, some o =>
    match predIntern f p with
    | (f, some i) => f.post id fact.subject o i
    | (f, none) => f
  | _, _ => f

/-- `fact_index_remove`; the list of the predicate only loses the record when the subject did. -/
def factIndexRemove (f : FactIndex) (id : UInt64) (fact : Fact) : FactIndex :=
  match fact.predicate, objectKey fact.kind fact.objectId fact.objectStr with
  | some p, some o =>
    match predLookup f p with
    | none => f
    | some i =>
      let key := FactPost.key ⟨i, id⟩
      { f with
        subj := f.subj.remove fact.subject key
        obj := f.obj.remove o key
        predRecs :=
          if ((f.subj.slot fact.subject).at? key).isSome then f.predRecs.remove i id.toNat
          else f.predRecs }
  | _, _ => f

/-- `collect`: the records of the postings with a predicate, sorted and without repetition. -/
def collectPosts (posts : List FactPost) (pred : Option ℕ) : List UInt64 :=
  ((posts.filter fun p => pred.all fun i => p.pred = i).foldl
    (fun acc p => acc.put p.recordId) (.empty : IdArray)).items

/-- A lookup in the postings under a subject or an object, narrowed to a predicate. -/
def collectUnder (f : FactIndex) (posts : List FactPost) : Option CString → List UInt64
  | none => collectPosts posts none
  | some p =>
    match predLookup f p with
    | none => []
    | some i => collectPosts posts (some i)

def factIndexBySubject (f : FactIndex) (subject : UInt64) (predicate : Option CString) :
    List UInt64 := collectUnder f (f.subj.under subject) predicate

/-- `fact_index_by_object`; without an object to look for it fails. -/
def factIndexByObject (f : FactIndex) (kind : FactKind) (objectId : UInt64)
    (objectStr : Option CString) (predicate : Option CString) : Option (List UInt64) :=
  (objectKey kind objectId objectStr).map fun o => collectUnder f (f.obj.under o) predicate

def factIndexByPredicate (f : FactIndex) (predicate : Option CString) : List UInt64 :=
  match predicate.bind (predLookup f) with
  | none => []
  | some i => f.predRecs.under i

/-! ## What the index lists -/

structure FactTriple where
  subject : UInt64
  predicate : CString
  object : ObjectKey
  deriving DecidableEq

/-- The triple of a fact, if its predicate has a length that can be interned. -/
def Fact.triple (fact : Fact) : Option FactTriple :=
  match fact.predicate, objectKey fact.kind fact.objectId fact.objectStr with
  | some p, some o =>
    if p.bytes.length = 0 ∨ factMaxPredicateLen < p.bytes.length then none
    else some ⟨fact.subject, p, o⟩
  | _, _ => none

/-- The postings list the triples of the records under one of their positions, with their
predicate. -/
def Listed {K : Type} (triples : UInt64 → Option FactTriple) (preds : InternTable CString)
    (position : FactTriple → K) (table : Postings K FactPost.key) : Prop :=
  ∀ k p, table.Holds k p ↔ ∃ t, triples p.recordId = some t ∧ position t = k ∧
    preds.find? t.predicate = some p.pred

/-- The index lists the triples of the records, and their predicates have a number. -/
structure FactsExact (triples : UInt64 → Option FactTriple) (f : FactIndex) : Prop where
  subj : Listed triples f.preds FactTriple.subject f.subj
  obj : Listed triples f.preds FactTriple.object f.obj
  predRecs : ∀ i id, f.predRecs.Holds i id ↔ ∃ t, triples id = some t ∧
    f.preds.find? t.predicate = some i
  named : ∀ id t, triples id = some t → ∃ i, f.preds.find? t.predicate = some i
  spelled : ∀ id t, triples id = some t → t.predicate.bytes ≠ []

theorem factsExact_create : FactsExact (fun _ => none) factIndexCreate := by
  constructor <;> simp [factIndexCreate, Listed]

/-- Adding a fact: nothing without a triple, and otherwise a posting under its number. -/
theorem factIndexAdd_eq (f : FactIndex) (id : UInt64) (fact : Fact) :
    factIndexAdd f id fact =
      match fact.triple with
      | none => f
      | some t =>
        match f.preds.intern factMaxPredicates t.predicate with
        | (preds, some i) => { f with preds }.post id t.subject t.object i
        | (preds, none) => { f with preds } := by
  unfold factIndexAdd Fact.triple predIntern
  rcases fact.predicate with _ | p
  · rfl
  rcases objectKey fact.kind fact.objectId fact.objectStr with _ | o
  · rfl
  by_cases hlen : p.bytes.length = 0 ∨ factMaxPredicateLen < p.bytes.length
  · simp only [hlen, if_true]
  · simp only [hlen, if_false]
    rcases f.preds.intern factMaxPredicates p with ⟨preds, _ | i⟩ <;> rfl

theorem Fact.predicate_ne_nil_of_triple {t : FactTriple} (h : fact.triple = some t) :
    t.predicate.bytes ≠ [] := by
  unfold Fact.triple at h
  split at h
  · split at h
    · cases h
    · rename_i hlen
      cases h
      intro hnil
      exact hlen (.inl (by rw [hnil]; rfl))
  · cases h

section

variable {triples : UInt64 → Option FactTriple} {f : FactIndex} {id : UInt64} {t : FactTriple} {i : ℕ}

/-- The numbers of the predicates in use stay what they are when the table grows. -/
theorem FactsExact.find?_iff (h : FactsExact triples f) {preds : InternTable CString}
    (hle : f.preds.Le preds) (ht : triples id = some t) :
    f.preds.find? t.predicate = some i ↔ preds.find? t.predicate = some i := by
  obtain ⟨j, hj⟩ := h.named id t ht
  rw [InternTable.find?_of_le hle hj, hj]

theorem FactsExact.grow (h : FactsExact triples f) {preds : InternTable CString}
    (hle : f.preds.Le preds) : FactsExact triples { f with preds } where
  subj k p := (h.subj k p).trans (exists_congr fun _ =>
    and_congr_right fun ht => and_congr_right fun _ => h.find?_iff hle ht)
  obj k p := (h.obj k p).trans (exists_congr fun _ =>
    and_congr_right fun ht => and_congr_right fun _ => h.find?_iff hle ht)
  predRecs j id := (h.predRecs j id).trans (exists_congr fun _ =>
    and_congr_right fun ht => h.find?_iff hle ht)
  named id t ht := (h.named id t ht).imp fun _ => InternTable.find?_of_le hle
  spelled := h.spelled

section

variable {K : Type} [DecidableEq K] {preds : InternTable CString} {position : FactTriple → K}
  {table : Postings K FactPost.key}

theorem Listed.add (h : Listed triples preds position table) (hid : triples id = none)
    (hi : preds.find? t.predicate = some i) :
    Listed (update triples id (some t)) preds position (table.add (position t) ⟨i, id⟩) := by
  rintro k ⟨j, id'⟩
  rw [holds_add FactPost.key_injective, h k]
  by_cases hid' : id' = id
  · subst hid'
    simp [hid, hi, eq_comm]
  · simp [hid']

theorem Listed.remove (h : Listed triples preds position table) (ht : triples id = some t)
    (hi : preds.find? t.predicate = some i) :
    Listed (update triples id none) preds position
      (table.remove (position t) (FactPost.key ⟨i, id⟩)) := by
  rintro k ⟨j, id'⟩
  rw [holds_remove, h k, FactPost.key_injective.eq_iff]
  by_cases hid' : id' = id
  · subst hid'
    simp only [ht, some.injEq, update_self, reduceCtorEq, false_and, exists_false,
      iff_false, not_and, FactPost.mk.injEq, and_true]
    rintro ⟨t', rfl, rfl, hj⟩ hne
    exact hne rfl (some.inj (hj.symm.trans hi))
  · simp [hid']

end

theorem FactsExact.post (h : FactsExact triples f) (hid : triples id = none)
    (hi : f.preds.find? t.predicate = some i) (hne : t.predicate.bytes ≠ []) :
    FactsExact (update triples id (some t)) (f.post id t.subject t.object i) where
  subj := h.subj.add hid hi
  obj := h.obj.add hid hi
  predRecs j id' := by
    rw [FactIndex.post, holds_add uint64_toNat_injective, h.predRecs]
    by_cases hid' : id' = id
    · subst hid'
      simp [hid, hi, eq_comm]
    · simp [hid']
  named id' t' ht' := by
    by_cases hid' : id' = id
    · subst hid'
      rw [update_self, some.injEq] at ht'
      exact ⟨i, ht' ▸ hi⟩
    · rw [update_of_ne hid'] at ht'
      exact h.named id' t' ht'
  spelled id' t' ht' := by
    by_cases hid' : id' = id
    · subst hid'
      rw [update_self, some.injEq] at ht'
      exact ht' ▸ hne
    · rw [update_of_ne hid'] at ht'
      exact h.spelled id' t' ht'

/-- A record comes: its fact is listed unless the intern table is full. -/
theorem FactsExact.add (h : FactsExact triples f) (hid : triples id = none)
    (hroom : ∀ t, fact.triple = some t → (f.preds.intern factMaxPredicates t.predicate).2 ≠ none) :
    FactsExact (update triples id fact.triple) (factIndexAdd f id fact) := by
  rw [factIndexAdd_eq]
  cases ht : fact.triple with
  | none =>
    rw [show (none : Option FactTriple) = triples id from hid.symm, update_eq_self, hid]
    exact h
  | some t =>
    have hle := f.preds.le_intern factMaxPredicates t.predicate
    have hfind := f.preds.find?_intern factMaxPredicates t.predicate
    specialize hroom t ht
    rcases hint : f.preds.intern factMaxPredicates t.predicate with ⟨preds, i⟩
    rw [hint] at hle hfind hroom
    obtain ⟨i, rfl⟩ := ne_none_iff_exists'.1 hroom
    simp only [hint]
    exact (h.grow hle).post hid hfind (Fact.predicate_ne_nil_of_triple ht)

theorem FactsExact.offer (h : FactsExact triples f) (hid : triples id = none) (fact : Fact) :
    ∃ o, (∀ t ∈ o, fact.triple = some t) ∧
      FactsExact (update triples id o) (factIndexAdd f id fact) := by
  by_cases hroom : ∀ t, fact.triple = some t →
      (f.preds.intern factMaxPredicates t.predicate).2 ≠ none
  · exact ⟨fact.triple, fun _ ht => ht, h.add hid hroom⟩
  · push Not at hroom
    obtain ⟨t, ht, hfull⟩ := hroom
    refine ⟨none, by simp, ?_⟩
    have hle := f.preds.le_intern factMaxPredicates t.predicate
    rcases hint : f.preds.intern factMaxPredicates t.predicate with ⟨preds, i⟩
    rw [hint] at hle hfull
    obtain rfl : i = none := hfull
    rw [factIndexAdd_eq, ht, ← hid, update_eq_self]
    simp only [hint]
    exact h.grow hle

theorem Listed.remove_eq_self {K : Type} [DecidableEq K] {preds : InternTable CString}
    {position : FactTriple → K} {table : Postings K FactPost.key}
    (h : Listed triples preds position table) (hid : triples id = none) (k : K) :
    table.remove k (FactPost.key ⟨i, id⟩) = table := by
  refine ext_holds fun k' p => ?_
  rw [holds_remove, FactPost.key_injective.eq_iff, and_iff_left_iff_imp]
  rintro hp ⟨-, rfl⟩
  obtain ⟨t, ht, -⟩ := (h k' _).1 hp
  cases hid.symm.trans ht

theorem at?_isSome_iff {K : Type} {table : Postings K FactPost.key} {k : K} {p : FactPost} :
    ((table.slot k).at? p.key).isSome = true ↔ table.Holds k p := by
  rw [isSome_iff_exists]
  constructor
  · rintro ⟨q, hq⟩
    obtain ⟨hmem, hkey⟩ := at?_eq_some.1 hq
    rwa [FactPost.key_injective hkey] at hmem
  · intro h
    exact ⟨p, at?_eq_some.2 ⟨h, rfl⟩⟩

theorem FactsExact.unpost (h : FactsExact triples f) (ht : triples id = some t)
    (hi : f.preds.find? t.predicate = some i) :
    FactsExact (update triples id none)
      { f with
        subj := f.subj.remove t.subject (FactPost.key ⟨i, id⟩)
        obj := f.obj.remove t.object (FactPost.key ⟨i, id⟩)
        predRecs := f.predRecs.remove i id.toNat } where
  subj := h.subj.remove ht hi
  obj := h.obj.remove ht hi
  predRecs j id' := by
    rw [holds_remove, h.predRecs, UInt64.toNat_inj]
    by_cases hid' : id' = id
    · subst hid'
      simp only [ht, some.injEq, update_self, reduceCtorEq, false_and, exists_false,
        iff_false, not_and, and_true]
      rintro ⟨t', rfl, hj⟩ hne
      exact hne (some.inj (hj.symm.trans hi))
    · simp [hid']
  named id' t' ht' := by
    by_cases hid' : id' = id
    · simp [hid'] at ht'
    · rw [update_of_ne hid'] at ht'
      exact h.named id' t' ht'
  spelled id' t' ht' := by
    by_cases hid' : id' = id
    · simp [hid'] at ht'
    · rw [update_of_ne hid'] at ht'
      exact h.spelled id' t' ht'

theorem Fact.eq_of_triple (h : fact.triple = some t) :
    fact.predicate = some t.predicate ∧
      objectKey fact.kind fact.objectId fact.objectStr = some t.object ∧ fact.subject = t.subject := by
  unfold Fact.triple at h
  split at h
  · split at h
    · cases h
    · cases h
      exact ⟨‹_›, ‹_›, rfl⟩
  · cases h

/-- Nothing is filed for a record without a triple, whatever the lookup of its predicate finds. -/
theorem FactsExact.remove_eq_self (h : FactsExact triples f) (hid : triples id = none)
    (fact : Fact) : factIndexRemove f id fact = f := by
  unfold factIndexRemove
  split
  · split
    · rfl
    · rename_i i _
      have hpost : ((f.subj.slot fact.subject).at? (FactPost.key ⟨i, id⟩)).isSome = false := by
        rw [Bool.eq_false_iff]
        intro hp
        obtain ⟨t, ht, -⟩ := (h.subj _ _).1 (at?_isSome_iff.1 hp)
        cases hid.symm.trans ht
      simp [hpost, h.subj.remove_eq_self hid, h.obj.remove_eq_self hid]
  · rfl

theorem FactsExact.withdraw (h : FactsExact triples f)
    (hid : ∀ t, triples id = some t → fact.triple = some t) :
    FactsExact (update triples id none) (factIndexRemove f id fact) := by
  cases hlisted : triples id with
  | some t =>
    have ht := hid t hlisted
    obtain ⟨hpred, hobj, hsubj⟩ := Fact.eq_of_triple ht
    obtain ⟨i, hi⟩ := h.named id t hlisted
    have hlookup : predLookup f t.predicate = some i := by
      rw [predLookup, if_neg (Fact.predicate_ne_nil_of_triple ht), hi]
    have hpost : ((f.subj.slot t.subject).at? (FactPost.key ⟨i, id⟩)).isSome = true :=
      at?_isSome_iff.2 ((h.subj _ _).2 ⟨t, hlisted, rfl, hi⟩)
    simp only [factIndexRemove, hpred, hobj, hlookup, hsubj, hpost, if_true]
    exact h.unpost hlisted hi
  | none =>
    rw [h.remove_eq_self hlisted, ← hlisted, update_eq_self]
    exact h

theorem FactsExact.remove (h : FactsExact triples f) (hid : triples id = fact.triple) :
    FactsExact (update triples id none) (factIndexRemove f id fact) :=
  h.withdraw fun _ ht => hid.symm.trans ht

end

theorem mem_collectPosts {posts : List FactPost} {pred : Option ℕ} {id : UInt64} :
    id ∈ collectPosts posts pred ↔ ∃ i, (⟨i, id⟩ : FactPost) ∈ posts ∧ ∀ j ∈ pred, i = j := by
  rw [collectPosts]
  rw [← foldl_map (f := FactPost.recordId) (g := fun (acc : IdArray) id => acc.put id)]
  rw [mem_foldl_put]
  simp only [List.mem_map, mem_filter, KeyedArray.empty, not_mem_nil, or_false,
    Option.all_eq_true, decide_eq_true_eq]
  constructor
  · rintro ⟨p, ⟨hp, hpred⟩, rfl⟩
    exact ⟨p.pred, hp, hpred⟩
  · rintro ⟨i, hp, hpred⟩
    exact ⟨⟨i, id⟩, ⟨hp, hpred⟩, rfl⟩

theorem nodup_collectUnder (f : FactIndex) (posts : List FactPost) (predicate : Option CString) :
    (collectUnder f posts predicate).Nodup := by
  unfold collectUnder collectPosts
  split
  · exact nodup _
  · split
    · exact nodup_nil
    · exact nodup _

section

variable {triples : UInt64 → Option FactTriple} {f : FactIndex} {id : UInt64}

theorem FactsExact.predLookup_eq_some (h : FactsExact triples f) {t : FactTriple} {p : CString}
    {i : ℕ} (ht : triples id = some t) (hi : f.preds.find? t.predicate = some i) :
    predLookup f p = some i ↔ t.predicate = p := by
  unfold predLookup
  constructor
  · intro hp
    split at hp
    · cases hp
    · exact InternTable.find?_injective hi hp
  · rintro rfl
    rw [if_neg (h.spelled id t ht), hi]

theorem FactsExact.mem_collectUnder (h : FactsExact triples f) {K : Type} {position : FactTriple → K}
    {table : Postings K FactPost.key} (hl : Listed triples f.preds position table) {k : K}
    {predicate : Option CString} : id ∈ collectUnder f (table.under k) predicate ↔
      ∃ t, triples id = some t ∧ position t = k ∧ ∀ p ∈ predicate, t.predicate = p := by
  have hposts (i : ℕ) : (⟨i, id⟩ : FactPost) ∈ table.under k ↔ ∃ t, triples id = some t ∧
      position t = k ∧ f.preds.find? t.predicate = some i := hl k ⟨i, id⟩
  cases predicate with
  | none =>
    simp only [collectUnder, mem_collectPosts, hposts, not_mem_none, IsEmpty.forall_iff,
      implies_true, and_true]
    constructor
    · rintro ⟨i, t, ht, hk, -⟩
      exact ⟨t, ht, hk⟩
    · rintro ⟨t, ht, hk⟩
      obtain ⟨i, hi⟩ := h.named id t ht
      exact ⟨i, t, ht, hk, hi⟩
  | some p =>
    simp only [mem_some_iff, forall_eq']
    constructor
    · intro hid
      simp only [collectUnder] at hid
      split at hid
      · cases hid
      · obtain ⟨i, hp, hpred⟩ := mem_collectPosts.1 hid
        obtain ⟨t, ht, hk, hi⟩ := (hposts i).1 hp
        obtain rfl := hpred _ rfl
        exact ⟨t, ht, hk, (h.predLookup_eq_some ht hi).1 ‹_›⟩
    · rintro ⟨t, ht, hk, rfl⟩
      obtain ⟨i, hi⟩ := h.named id t ht
      rw [collectUnder, (h.predLookup_eq_some ht hi).2 rfl]
      exact mem_collectPosts.2 ⟨i, (hposts i).2 ⟨t, ht, hk, hi⟩, by simp⟩

theorem FactsExact.mem_factIndexBySubject (h : FactsExact triples f) {s : UInt64}
    {predicate : Option CString} : id ∈ factIndexBySubject f s predicate ↔
      ∃ t, triples id = some t ∧ t.subject = s ∧ ∀ p ∈ predicate, t.predicate = p :=
  h.mem_collectUnder h.subj

theorem FactsExact.mem_factIndexByPredicate (h : FactsExact triples f) {p : CString} :
    id ∈ factIndexByPredicate f (some p) ↔ ∃ t, triples id = some t ∧ t.predicate = p := by
  unfold factIndexByPredicate
  rw [bind_some]
  constructor
  · intro hid
    split at hid
    · cases hid
    · obtain ⟨t, ht, hi⟩ := (h.predRecs _ _).1 hid
      exact ⟨t, ht, (h.predLookup_eq_some ht hi).1 ‹_›⟩
  · rintro ⟨t, ht, rfl⟩
    obtain ⟨i, hi⟩ := h.named id t ht
    rw [(h.predLookup_eq_some ht hi).2 rfl]
    exact (h.predRecs i id).2 ⟨t, ht, hi⟩

end

end AegisDB
