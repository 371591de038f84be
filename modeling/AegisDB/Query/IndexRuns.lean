import AegisDB.Index.Rebuild
import AegisDB.Query.Listing
import AegisDB.Query.Quotas
import AegisDB.Storage.Snapshots

/-!
# The indexes along a run, and those of a rebuild

The second pass of `recovery_run` indexes the live records again, in the order of the buckets of the
hash index, and of their edges those to live records (`recoverIndexes`). The indexes of a database
that has only been written answer as these do, if three things hold of every operation
(`Indexable`): the edges of an inserted record point to live records and have kinds that can be
interned, an update brings no more vectors than a record has slots, and the ids leave room for the
slot. An insert files all of its edges, whether their target is live or not; a vector block that is
too large is refused behind the append, and the old vectors stay.
-/

namespace AegisDB

open List Function Option MemoryRecord UpdatePatch

variable {F : Framing}
variable {r : MemoryRecord}

/-! ## One write -/

section

variable {dim : ℕ} {live : UInt64 → Option MemoryRecord} {alive : UInt64 → Prop} {ix : Indexes}
  {r cur : MemoryRecord} {id : UInt64}

theorem Indexed.clamped (h : Indexed dim (update live id (some r)) alive ix) :
    Indexed dim (update live id (some r.clamped)) alive ix where
  time := by
    rw [view_congr (Option.map created) live id r.clamped r rfl]
    exact h.time
  tags := by
    rw [view_congr (fun o => o.elim [] MemoryRecord.tags) live id r.clamped r rfl]
    exact h.tags
  lex lx hlx := by
    rw [view_congr (Option.map data) live id r.clamped r rfl]
    exact h.lex lx hlx
  edges e he := by
    rw [view_congr (fun o => o.elim [] relationships) live id r.clamped r rfl]
    exact h.edges e he
  facts f hf := by
    rw [view_congr (fun o => o.bind fun r => r.fact.triple) live id r.clamped r rfl]
    exact h.facts f hf
  sem := by
    rw [view_congr (fun o => o.elim [] (semVectors dim)) live id r.clamped r rfl]
    exact h.sem
  dim_eq := h.dim_eq

theorem semExact_reindex {s : SemanticIndex}
    (h : SemExact (fun id => (live id).elim [] (semVectors dim)) s) (hdim : s.dim = dim)
    (hid : live cur.id = some cur) (hroom : cur.id.toNat < mvRoom)
    (hvalid : r.embedding.dim ≠ 0 → r.embedding.dim = dim)
    (hslots : r.embedding.vecCount ≤ mvSlots)
    (habsent : r.embedding.dim = 0 ↔ r.embedding.vecCount = 0) :
    SemExact (fun id => (update live cur.id (some r) id).elim []
        (semVectors dim))
      (if r.embedding.dim ≠ 0 ∧ r.embedding.vecCount ≠ 0 then semanticIndexAdd s cur.id r.embedding
        else if cur.embedding.vecCount ≠ 0 then semanticIndexRemove s cur.id else s) := by
  rw [view_update (fun o => o.elim [] (semVectors dim)), elim_some]
  split
  · rename_i hne
    have hvec : r.semVectors dim = r.embedding.vectors := by
      rw [semVectors, if_pos ⟨hne.1, hvalid hne.1, hslots⟩]
    rw [hvec]
    exact h.add hroom ((hvalid hne.1).trans hdim.symm) hne.2 hslots
  · rename_i hzero
    have hdim0 : r.embedding.dim = 0 := by
      by_contra hne
      exact hzero ⟨hne, fun hcount => hne (habsent.2 hcount)⟩
    have hnil : r.semVectors dim = [] := by
      rw [semVectors, if_neg fun hc => hc.1 hdim0]
    rw [hnil]
    split
    · exact h.remove fun _ => hroom
    · rename_i hcount
      -- a record without vectors has none in the index
      have hcur : cur.semVectors dim = [] := by
        rw [semVectors]
        split
        · rw [← length_eq_zero_iff, Embedding.length_vectors]
          exact not_not.1 hcount
        · rfl
      rw [update_eq_self_iff.2 (by simp [hid, hcur])]
      exact h

theorem Indexes.BelowCaps.fact (h : ix.BelowCaps) (fact : Fact) : ∀ f ∈ ix.facts, ∀ t,
    fact.triple = some t → (f.preds.intern factMaxPredicates t.predicate).2 ≠ none := by
  intro f hf t _ hfull
  exact absurd (InternTable.intern_eq_none.1 hfull).2 (not_le.2 (h.preds f hf))

theorem Indexed.reindex (h : Indexed dim live alive ix) (hcaps : ix.BelowCaps)
    {patch : UpdatePatch} {fact : Fact} {now : UInt64} (hid : live cur.id = some cur)
    (hadopt : patch.adopt cur.fact = .ok fact) (hroom : cur.id.toNat < mvRoom)
    (hvalid : (patch.apply cur fact now).embedding.dim ≠ 0 →
      (patch.apply cur fact now).embedding.dim = dim)
    (hslots : ∀ e ∈ patch.embedding, e.vecCount ≤ mvSlots) :
    Indexed dim (update live cur.id (some (patch.apply cur fact now))) alive
      (reindexRecord ix patch cur (patch.apply cur fact now)) where
  time := (h.filterExact.listed.reindex hid hadopt now).time
  tags := (h.filterExact.listed.reindex hid hadopt now).tags
  lex lx hlx := by
    simp only [reindexRecord] at hlx
    split at hlx
    · obtain ⟨lx, hmem, rfl⟩ := Option.mem_map.1 hlx
      have hgone : LexExact (update _ cur.id none) (lexicalIndexRemove lx cur.id cur.data) :=
        (h.lex lx hmem).remove (by simp [hid])
      have hcome := hgone.add (update_self ..) (patch.apply cur fact now).data
      rw [view_update (Option.map data)]
      rwa [update_idem] at hcome
    · rename_i hdata
      rw [Bool.not_eq_true, isSome_eq_false_iff, isNone_iff_eq_none] at hdata
      rw [view_keep (Option.map data) hid _ (by simp [apply, hdata])]
      exact h.lex lx hlx
  edges e he := by
    rw [view_keep (fun o => o.elim [] relationships) hid
      (patch.apply cur fact now) rfl]
    exact h.edges e he
  facts f hf := by
    simp only [reindexRecord] at hf
    split at hf
    · rename_i hfact
      refine factsExact_apply_add h.facts ?_ (hcaps.fact _) f hf
      exact (congrArg (fun o => Option.bind o _) hid).trans
        (triple_of_adopt hadopt hfact)
    · rename_i hfact
      have heq := fact_of_adopt hadopt (Bool.not_eq_true _ ▸ hfact)
      rw [view_keep (fun o => o.bind fun r => r.fact.triple) hid (patch.apply cur fact now)
        (by simp [apply, heq])]
      exact h.facts f hf
  sem := by
    simp only [reindexRecord]
    cases hemb : patch.embedding with
    | none =>
      rw [view_keep (fun o => o.elim [] (semVectors dim)) hid
        (patch.apply cur fact now) (by simp [semVectors, apply, hemb])]
      exact h.sem
    | some e =>
      have hnew : (patch.apply cur fact now).embedding =
          if e.vecCount * e.dim ≠ 0 then e else .absent := by
        simp [apply, hemb]
      refine semExact_reindex (r := patch.apply cur fact now) h.sem h.dim_eq hid hroom hvalid ?_ ?_
      · rw [hnew]
        split
        · exact hslots e hemb
        · exact Nat.zero_le _
      · rw [hnew]
        split
        · rename_i hne
          exact iff_of_false (right_ne_zero_of_mul hne) (left_ne_zero_of_mul hne)
        · exact Iff.rfl
  dim_eq := by
    simp only [reindexRecord]
    split_ifs <;> simp [h.dim_eq]

theorem Indexed.relate (h : Indexed dim live alive ix) (hcaps : ix.BelowCaps) {toId now : UInt64}
    {kind : Option CString} (hid : live cur.id = some cur) (halive : alive toId)
    (hshort : ∀ k ∈ kind, k.bytes.length ≤ edgeMaxKindLen) :
    Indexed dim (update live cur.id (some (relatedRecord cur cur.id toId kind now))) alive
      { ix with edges := ix.edges.map fun e => edgeIndexAdd e cur.id toId kind } where
  time := by
    rw [view_keep (Option.map created) hid
      (relatedRecord cur cur.id toId kind now) rfl]
    exact h.time
  tags := by
    rw [view_keep (fun o => o.elim [] MemoryRecord.tags) hid
      (relatedRecord cur cur.id toId kind now) rfl]
    exact h.tags
  lex lx hlx := by
    rw [view_keep (Option.map data) hid
      (relatedRecord cur cur.id toId kind now) rfl]
    exact h.lex lx hlx
  edges e he := by
    obtain ⟨e, hmem, rfl⟩ := Option.mem_map.1 he
    have hadd : EdgesExact
        (update _ cur.id ((live cur.id).elim [] relationships ++
          [⟨cur.id, toId, kind⟩])) alive (edgeIndexAdd e cur.id toId kind) :=
      (h.edges e hmem).addEdge halive
        (kindIntern_ne_unknown hshort fun _ _ => .inr (hcaps.kinds e hmem))
    rw [hid] at hadd
    rw [view_update (fun o => o.elim [] relationships)]
    exact hadd
  facts f hf := by
    rw [view_keep (fun o => o.bind fun r => r.fact.triple) hid
      (relatedRecord cur cur.id toId kind now) rfl]
    exact h.facts f hf
  sem := by
    rw [view_keep (fun o => o.elim [] (semVectors dim)) hid
      (relatedRecord cur cur.id toId kind now) rfl]
    exact h.sem
  dim_eq := h.dim_eq

theorem le_foldl_edgeIndexAdd (rels : List Relationship) (e : EdgeIndex) (a : UInt64) :
    e.kinds.Le (rels.foldl (fun e rel => edgeIndexAdd e a rel.toId rel.kind) e).kinds := by
  induction rels generalizing e with
  | nil => exact ⟨[], by simp⟩
  | cons rel rels ih => exact (le_kindIntern e rel.kind).trans (ih _)

/-- The kinds of some edges can be interned if the table is below its cap behind them. -/
theorem kindsFit_of_length {rels : List Relationship} {e : EdgeIndex} {a : UInt64}
    (hshort : ∀ rel ∈ rels, rel.Short)
    (hcap : (rels.foldl (fun e rel => edgeIndexAdd e a rel.toId rel.kind) e).kinds.names.length <
      edgeMaxKinds) : KindsFit e a rels := by
  induction rels generalizing e with
  | nil => trivial
  | cons rel rels ih =>
    have hlen := (le_foldl_edgeIndexAdd (rel :: rels) e a).length_le.trans_lt hcap
    refine ⟨kindIntern_ne_unknown (hshort rel mem_cons_self) fun _ _ => .inr hlen, ?_⟩
    exact ih (fun x hx => hshort x (mem_cons_of_mem _ hx)) hcap

theorem Indexed.insert (h : Indexed dim live alive ix) (hcaps : ix.BelowCaps)
    (hcaps' : (indexRecord (fun _ => true) ix r).BelowCaps) (hid : live r.id = none)
    (hnew : ∀ id cur, live id = some cur → ∀ rel ∈ cur.relationships, rel.toId ≠ r.id)
    (hlinks : ∀ rel ∈ r.relationships, alive rel.toId ∧ rel.Short) (hroom : r.id.toNat < mvRoom) :
    Indexed dim (update live r.id (some r)) (fun b => alive b ∨ b = r.id)
      (indexRecord (fun _ => true) ix r) := by
  refine (h.arrive hnew).add hid (fun rel hrel => ?_) ⟨hcaps.fact r.fact, fun e he => ?_⟩
    fun _ => hroom
  · exact iff_of_true rfl (.inl (hlinks rel hrel).1)
  · refine kindsFit_of_length (fun rel hrel => (hlinks rel (mem_of_mem_filter hrel)).2) ?_
    exact hcaps'.kinds _ (Option.mem_map_of_mem _ he)

end

/-! ## Every write -/

def WriteAct.patch : WriteAct → Option UpdatePatch
  | .client (.update _ _ patch _) => some patch
  | _ => none

/-- The operation leaves the indexes as a rebuild would. -/
structure Indexable (db : Database F) (a : WriteAct) : Prop where
  room : db.nextId.toNat < mvRoom
  links : ∀ input ∈ a.input db, ∀ rel ∈ input.relationships,
    (hashIndexGet db.store.hash rel.toId).isSome = true ∧ rel.Short
  slots : ∀ patch ∈ a.patch, ∀ e ∈ patch.embedding, e.vecCount ≤ mvSlots

/-- The intern tables are below their caps behind the operation. -/
def BelowCapacity (cfg : DbConfig) (db : Database F) (a : WriteAct) : Prop :=
  ∀ db', writeStep cfg db a = some db' → db'.ix.BelowCaps

def Alive (db : Database F) (id : UInt64) : Prop := (currentRecord F db.store id).isSome = true

/-- The log is clean, and the indexes list the live records, whose edges point to given ids and have
kinds that can be interned. -/
structure Database.InStep (cfg : DbConfig) (db : Database F) : Prop extends db.Sturdy where
  clean : ∃ fs, CleanDb F db.store fs
  indexed : Indexed cfg.embeddingDimensions (currentRecord F db.store) (Alive db) db.ix
  caps : db.ix.BelowCaps
  room : db.nextId.toNat ≤ mvRoom
  links : ∀ id r, currentRecord F db.store id = some r → ∀ rel ∈ r.relationships,
    rel.toId.toNat < db.nextId.toNat ∧ rel.Short

section

variable {cfg : DbConfig} {db db' : Database F} {a : WriteAct} {id : UInt64}

/-- In a clean log every entry that is not a tombstone can be loaded. -/
theorem Database.InStep.alive_iff (h : db.InStep cfg) :
    (hashIndexGet db.store.hash id).isSome = true ↔ Alive db id := by
  obtain ⟨fs, hclean⟩ := h.clean
  constructor
  · intro hsome
    obtain ⟨e, he⟩ := isSome_iff_exists.1 hsome
    obtain ⟨p, hp, -, -⟩ := hclean.of_hashIndexGet he
    obtain ⟨hlook, hlive⟩ := hashIndexGet_eq_some.1 he
    rcases h.sound id e hlook hlive with ⟨q, hq, r, hr, -⟩ | hnone
    · have hload : loadRecord F db.store id = .ok r := by
        refine loadRecord_eq_ok.2 ⟨e, he, ?_⟩
        rw [LogFile.read_eq_some.2 ⟨h.isOpen, hq⟩]
        exact hr
      exact isSome_iff_exists.2 ⟨r, currentRecord_eq_some.2 hload⟩
    · have := hnone []
      rw [append_nil, hp] at this
      cases this
  · intro halive
    obtain ⟨r, hr⟩ := isSome_iff_exists.1 halive
    obtain ⟨e, he, -⟩ := loadRecord_eq_ok.1 (currentRecord_eq_some.1 hr)
    rw [he]
    rfl

variable {live : UInt64 → Option MemoryRecord}

theorem isSome_update_some (b : UInt64) :
    (update live id (some r) b).isSome = true ↔ (live b).isSome = true ∨ b = id := by
  by_cases hb : b = id
  · simp [hb]
  · simp [hb]

theorem isSome_update_of_mem {cur : MemoryRecord} (hid : live id = some cur) (r : MemoryRecord)
    (b : UInt64) :
    (update live id (some r) b).isSome = true ↔ (live b).isSome = true := by
  rw [isSome_update_some, or_iff_left_iff_imp]
  rintro rfl
  rw [hid]
  rfl

theorem links_update {P : Relationship → Prop}
    (h : ∀ id r, live id = some r → ∀ rel ∈ r.relationships, P rel)
    (hr : ∀ rel ∈ r.relationships, P rel) :
    ∀ id' r', update live id (some r.clamped) id' = some r' → ∀ rel ∈ r'.relationships, P rel := by
  intro id' r' hr'
  by_cases hid : id' = id
  · rw [hid, update_self] at hr'
    cases hr'
    exact hr
  · rw [update_of_ne hid] at hr'
    exact h id' r' hr'

theorem dim_of_validateCommon (h : validateCommon cfg r = .ok ())
    (hne : r.embedding.dim ≠ 0) : r.embedding.dim = cfg.embeddingDimensions := by
  unfold validateCommon at h
  split_ifs at h with _ _ _ _ _ _ hdim
  by_contra hnot
  exact hdim ⟨hne, hnot⟩

theorem Database.InStep.alive_of_targetOk (h : db.InStep cfg) {ns : Option CString}
    (htarget : targetOk db id ns = true) : Alive db id := by
  unfold targetOk at htarget
  split at htarget
  · split at htarget
    · cases htarget
    · rename_i r hload
      exact isSome_iff_exists.2 ⟨r, currentRecord_eq_some.2 hload⟩
  · exact h.alive_iff.1 htarget

theorem Database.InStep.indexed_step (h : db.InStep cfg) (hact : Indexable db a) {ix : Indexes}
    (hstep : IndexStep cfg db a live ix) (hcaps : ix.BelowCaps) {bound : ℕ}
    (hbound : db.nextId.toNat ≤ bound) :
    Indexed cfg.embeddingDimensions live (fun b => (live b).isSome = true) ix ∧
      ∀ id r, live id = some r → ∀ rel ∈ r.relationships, rel.toId.toNat < bound ∧ rel.Short := by
  have hbelow {b : UInt64} (hb : Alive db b) : b.toNat < db.nextId.toNat := by
    obtain ⟨r, hr⟩ := isSome_iff_exists.1 hb
    exact h.below b r (currentRecord_eq_some.1 hr)
  have hlive {b : UInt64} {r : MemoryRecord} (hr : currentRecord F db.store b = some r) :
      Alive db b := isSome_iff_exists.2 ⟨r, hr⟩
  have hlinks : ∀ id r, currentRecord F db.store id = some r → ∀ rel ∈ r.relationships,
      rel.toId.toNat < bound ∧ rel.Short := fun id r hr rel hrel =>
    (h.links id r hr rel hrel).imp_left (·.trans_le hbound)
  cases hstep with
  | kept => exact ⟨h.indexed, hlinks⟩
  | @insert input copy now ttl intended clone fresh =>
    have hrels : (stampRecord copy db.nextId now ttl).relationships = input.relationships := by
      obtain ⟨fact, -, clone⟩ := bind_eq_some_iff.1 clone
      obtain ⟨routes, -, rfl⟩ := map_eq_some_iff.1 clone
      rfl
    have hnew : ∀ rel ∈ (stampRecord copy db.nextId now ttl).relationships,
        Alive db rel.toId ∧ rel.Short := by
      rw [hrels]
      intro rel hrel
      exact (hact.links input intended rel hrel).imp_left h.alive_iff.1
    constructor
    · refine (Indexed.clamped (h.indexed.insert h.caps hcaps fresh ?_ hnew hact.room)).congr
        isSome_update_some
      intro id cur hcur rel hrel heq
      exact absurd (h.links id cur hcur rel hrel).1 (by rw [heq]; exact lt_irrefl _)
    · exact links_update hlinks fun rel hrel =>
        ⟨(hbelow (hnew rel hrel).1).trans_le hbound, (hnew rel hrel).2⟩
  | @update env patch ns cur fact act load adopt valid =>
    have hslots := hact.slots patch (by rw [act]; rfl)
    have hroom := (hbelow (hlive load)).trans hact.room
    constructor
    · exact (h.indexed.reindex h.caps load adopt hroom (dim_of_validateCommon valid)
        hslots).clamped.congr (isSome_update_of_mem load _)
    · exact links_update hlinks (hlinks cur.id cur load)
  | @relate env toId kind ns cur act load target short =>
    have halive := h.alive_of_targetOk target
    constructor
    · exact (h.indexed.relate h.caps load halive short).clamped.congr (isSome_update_of_mem load _)
    · refine links_update hlinks fun rel hrel => ?_
      rcases mem_append.1 hrel with hrel | hrel
      · exact hlinks cur.id cur load rel hrel
      · rw [mem_singleton.1 hrel]
        exact ⟨(hbelow halive).trans_le hbound, short⟩
  | @delete cur load =>
    constructor
    · refine ((h.indexed.remove load fun _ => ?_).dropTarget cur.id).congr fun b => ?_
      · exact (hbelow (hlive load)).trans hact.room
      · by_cases hb : b = cur.id
        · simp [hb]
        · simp [hb, Alive]
    · intro id r hr
      by_cases hid : id = cur.id
      · rw [hid, update_self] at hr
        cases hr
      · rw [update_of_ne hid] at hr
        exact hlinks id r hr

theorem Database.InStep.step (h : db.InStep cfg) (hact : Indexable db a) (hcap : BelowCapacity cfg db a)
    (hstep : writeStep cfg db a = some db') : db'.InStep cfg := by
  have hroom : db.nextId.toNat + 1 < 2 ^ 64 := by
    have := hact.room
    unfold mvRoom at this
    omega
  have htracks := h.toSturdy.tracks hroom hstep
  obtain ⟨hindexed, hlinks⟩ := h.indexed_step hact htracks.step (hcap db' hstep) htracks.le_nextId
  obtain ⟨fs, hclean⟩ := h.clean
  refine { htracks.sturdy with
    clean := ?_
    indexed := hindexed
    caps := hcap db' hstep
    room := htracks.nextId_le.trans hact.room
    links := hlinks }
  rcases htracks.appends with hsame | ⟨r, hw⟩
  · rw [hsame]
    exact ⟨fs, hclean⟩
  · obtain ⟨n, hclean'⟩ := hw.clean hclean
    exact ⟨_, hclean'⟩

theorem Database.create_inStep (cfg : DbConfig) (nonces : ℕ → F.Nonce) :
    (Database.create cfg nonces).InStep cfg := by
  refine { Database.create_sturdy cfg nonces with
    clean := ⟨[], emptyDb_clean⟩
    indexed := ?_
    caps := ?_
    room := show 1 ≤ mvRoom by decide
    links := ?_ }
  · rw [Database.currentRecord_create]
    exact indexed_create _ true true true _
  · constructor
    · intro f hf
      cases hf
      decide
    · intro e he
      cases he
      decide
  · intro id r hr
    rw [Database.currentRecord_create] at hr
    cases hr

end

/-! ## The rebuild -/

/-- What the second pass of `recovery_run` indexes of a record; without a semantic checkpoint it
takes all vectors of the configured dimension. -/
def recoverRecord (dims : ℕ) (keep : UInt64 → Bool) (ix : Indexes) (r : MemoryRecord) : Indexes :=
  { indexRecord keep ix r with
    sem :=
      if r.embedding.dim = dims ∧ r.embedding.floats ≠ [] ∧ r.embedding.vecCount ≠ 0 then
        semanticIndexAdd ix.sem r.id r.embedding
      else ix.sem }

/-- The second pass of `recovery_run`: index what is live, in the order of the buckets. -/
def recoverIndexes (F : Framing) (dims : ℕ) (ix : Indexes) (got : Recovered) : Indexes :=
  (liveEntries got.hash).foldl
    (fun ix x =>
      match (logRead F got.log x.2.offset).bind recordDecode with
      | none => ix
      | some r => recoverRecord dims (fun id => (hashIndexGet got.hash id).isSome) ix r) ix

/-- The indexes that `recovery_run` builds from the log of a database, with the same indexes
enabled. -/
def Database.rebuilt (cfg : DbConfig) (db : Database F) : Indexes :=
  recoverIndexes F cfg.embeddingDimensions
    (.create cfg.embeddingDimensions db.ix.lex.isSome db.ix.edges.isSome db.ix.facts.isSome)
    (recoveryRun F db.store.log.bytes none)

section

variable {cfg : DbConfig} {db : Database F} {keep : UInt64 → Bool} {dims : ℕ}

theorem recoverRecord_eq {ix : Indexes} (hdim : ix.sem.dim = dims) (r : MemoryRecord) :
    recoverRecord dims keep ix r = indexRecord keep ix r := by
  have hsem : (if r.embedding.dim = dims ∧ r.embedding.floats ≠ [] ∧ r.embedding.vecCount ≠ 0 then
        semanticIndexAdd ix.sem r.id r.embedding else ix.sem) =
      if r.embedding.dim ≠ 0 ∧ r.embedding.vecCount ≠ 0 then
        semanticIndexAdd ix.sem r.id r.embedding else ix.sem := by
    by_cases hd : r.embedding.dim = dims
    · refine if_congr ?_ rfl rfl
      rw [Embedding.floats_ne_nil]
      tauto
    · rw [if_neg fun hc => hd hc.1]
      split
      · rw [semanticIndexAdd, if_pos (.inl fun heq => hd (heq.trans hdim))]
      · rfl
  rw [recoverRecord, hsem]
  rfl

theorem dim_indexRecord (ix : Indexes) (r : MemoryRecord) :
    (indexRecord keep ix r).sem.dim = ix.sem.dim := by
  simp only [indexRecord]
  split
  · exact dim_semanticIndexAdd ..
  · rfl

theorem foldl_recoverRecord (rs : List MemoryRecord) {ix : Indexes} (hdim : ix.sem.dim = dims) :
    rs.foldl (recoverRecord dims keep) ix = rs.foldl (indexRecord keep) ix := by
  induction rs generalizing ix with
  | nil => rfl
  | cons r rs ih =>
    rw [foldl_cons, foldl_cons, recoverRecord_eq hdim]
    exact ih ((dim_indexRecord ix r).trans hdim)

/-- The live records, in the order in which they are indexed again. -/
def rebuiltRecords (db : Database F) : List MemoryRecord :=
  (liveEntries (recoveryRun F db.store.log.bytes none).hash).filterMap fun x =>
    currentRecord F db.store x.1

/-- Recovery of a clean log finds the hash index that the database has. -/
theorem Database.InStep.recoveryRun_eq (h : db.InStep cfg) :
    (recoveryRun F db.store.log.bytes none).log = db.store.log.bytes ∧
      (recoveryRun F db.store.log.bytes none).hash.lookup = db.store.hash.lookup := by
  obtain ⟨fs, hclean⟩ := h.clean
  rw [hclean.bytes, hclean.lookup]
  exact recoveryRun_whole hclean.appendable

theorem Database.InStep.hashIndexGet_recovered (h : db.InStep cfg) (id : UInt64) :
    hashIndexGet (recoveryRun F db.store.log.bytes none).hash id =
      hashIndexGet db.store.hash id := by
  rw [hashIndexGet, hashIndexGet, h.recoveryRun_eq.2]

theorem Database.InStep.rebuilt_eq (h : db.InStep cfg) : db.rebuilt cfg =
    (rebuiltRecords db).foldl
      (indexRecord fun id =>
        (hashIndexGet (recoveryRun F db.store.log.bytes none).hash id).isSome)
      (.create cfg.embeddingDimensions db.ix.lex.isSome db.ix.edges.isSome db.ix.facts.isSome) := by
  have hread : ∀ x ∈ liveEntries (recoveryRun F db.store.log.bytes none).hash,
      (logRead F (recoveryRun F db.store.log.bytes none).log x.2.offset).bind recordDecode =
        currentRecord F db.store x.1 := by
    intro x hx
    have hget : hashIndexGet db.store.hash x.1 = some x.2 := by
      rw [← h.hashIndexGet_recovered]
      exact hashIndexGet_eq_some.2 (((liveOf_liveEntries _).mem_iff x).1 hx)
    have hlog : db.store.log.read F x.2.offset = logRead F db.store.log.bytes x.2.offset :=
      if_pos h.isOpen
    simp only [h.recoveryRun_eq.1, currentRecord, loadRecord, hget, hlog]
    cases (logRead F db.store.log.bytes x.2.offset).bind recordDecode <;> rfl
  rw [← foldl_recoverRecord _ rfl, rebuiltRecords, foldl_filterMap]
  refine foldl_ext _ _ _ fun ix x hx => ?_
  rw [hread x hx]
  cases currentRecord F db.store x.1 <;> rfl

theorem Database.InStep.rebuilt (h : db.InStep cfg) :
    Indexed cfg.embeddingDimensions (currentRecord F db.store) (Alive db) (db.rebuilt cfg) := by
  have hid {id : UInt64} {r : MemoryRecord} (hr : currentRecord F db.store id = some r) :
      r.id = id := (h.sound.of_loadRecord (currentRecord_eq_some.1 hr)).1
  have hrecords : ∀ r ∈ rebuiltRecords db, currentRecord F db.store r.id = some r := by
    intro r hr
    obtain ⟨x, -, hx⟩ := mem_filterMap.1 hr
    rwa [hid hx]
  have hbelow : ∀ r ∈ rebuiltRecords db, r.id.toNat < db.nextId.toNat := fun r hr =>
    h.below r.id r (currentRecord_eq_some.1 (hrecords r hr))
  rw [h.rebuilt_eq]
  refine h.indexed.rebuild h.caps hrecords (fun id r hr => ?_) ?_ (fun b => ?_) ?_ ?_
  · refine ⟨mem_filterMap.2 ?_, hid hr⟩
    obtain ⟨e, he, -⟩ := loadRecord_eq_ok.1 (currentRecord_eq_some.1 hr)
    rw [← h.hashIndexGet_recovered] at he
    exact ⟨(id, e), ((liveOf_liveEntries _).mem_iff _).2 (hashIndexGet_eq_some.1 he), hr⟩
  · have hids : rebuiltRecords db = ((liveEntries
        (recoveryRun F db.store.log.bytes none).hash).map Prod.fst).filterMap
          (currentRecord F db.store) := by
      rw [rebuiltRecords, filterMap_map]
      rfl
    rw [hids, map_filterMap]
    refine (liveOf_liveEntries _).nodup.filterMap fun a b x ha hb => ?_
    obtain ⟨r, hr, rfl⟩ := map_eq_some_iff.1 ha
    obtain ⟨r', hr', heq⟩ := map_eq_some_iff.1 hb
    rw [← hid hr, ← hid hr', heq]
  · rw [h.hashIndexGet_recovered]
    exact h.alive_iff
  · exact fun r hr rel hrel => (h.links r.id r (hrecords r hr) rel hrel).2
  · exact fun r hr _ => (hbelow r hr).trans_le h.room

/-- **The indexes of a database that has been written answer as those of a rebuild do**, in every
run whose operations meet the condition and whose intern tables stay below their caps; and the edge
index holds the edges between live records, under their labels, and no others. -/
theorem indexes_eq_rebuilt {nonces : ℕ → F.Nonce} {as : List WriteAct}
    (hrun : run (writeStep cfg) (.create cfg nonces) as = some db)
    (hindexable : Along (writeStep cfg) Indexable (.create cfg nonces) as)
    (hcap : Along (writeStep cfg) (BelowCapacity cfg) (.create cfg nonces) as) :
    SameAnswers db.ix (db.rebuilt cfg) ∧ ∀ e ∈ db.ix.edges, ∀ b src,
      src ∈ edgeIndexSources e b [] ↔ src.kindUnknown = false ∧ Alive db b ∧
        ∃ r, currentRecord F db.store src.fromId = some r ∧
          ∃ rel ∈ r.relationships, rel.toId = b ∧ src.kind = kindLabel rel.kind := by
  have h : db.InStep cfg := run_invariant
    (fun d a d' hd hact hstep => hd.step hact.1 hact.2 hstep) (Database.create_inStep cfg nonces)
    (hindexable.and hcap) hrun
  constructor
  · refine h.indexed.sameAnswers h.rebuilt ?_
    rw [h.rebuilt_eq]
    exact (sameShape_create db.ix _).trans (sameShape_foldl_indexRecord ..)
  · intro e he b src
    rw [(h.indexed.edges e he).mem_edgeIndexSources]
    constructor
    · rintro ⟨halive, hknown, rel, hrel, hto, hkind, -⟩
      cases hr : currentRecord F db.store src.fromId with
      | none =>
        rw [hr] at hrel
        cases hrel
      | some r =>
        rw [hr] at hrel
        exact ⟨hknown, halive, r, rfl, rel, hrel, hto, hkind⟩
    · rintro ⟨hknown, halive, r, hr, rel, hrel, hto, hkind⟩
      rw [hr]
      exact ⟨halive, hknown, rel, hrel, hto, hkind, .inl rfl⟩

end

def linkedInsert (rels : List Relationship) : WriteAct :=
  .client (.insert .zero
    { recordInit with type := .episodic, data := [120], relationships := rels } none 0)

def linkedDb (rels : List (List Relationship)) : Database plainFraming :=
  (run (writeStep .unlimited) (.create .unlimited fun _ => ()) (rels.map linkedInsert)).getD
    (.create .unlimited fun _ => ())

set_option maxRecDepth 20000 in
/-- The insert files an edge to the record 99, which does not exist, and the rebuild does not. -/
theorem dangling_edge_filed :
    run (writeStep .unlimited) (.create .unlimited fun _ => ()) ([[⟨0, 99, none⟩]].map linkedInsert) =
        some (linkedDb [[⟨0, 99, none⟩]]) ∧
      (linkedDb [[⟨0, 99, none⟩]]).ix.edges.map (fun e => edgeIndexSources e 99 []) =
        some [⟨1, none, false⟩] ∧
      ((linkedDb [[⟨0, 99, none⟩]]).rebuilt .unlimited).edges.map (fun e => edgeIndexSources e 99 []) =
        some [] :=
  ⟨rfl, by decide +kernel, by decide +kernel⟩

theorem belowCaps_of_all {ix : Indexes}
    (hfacts : (ix.facts.all fun f => f.preds.names.length < factMaxPredicates) = true)
    (hedges : (ix.edges.all fun e => e.kinds.names.length < edgeMaxKinds) = true) :
    ix.BelowCaps := by
  simp only [Option.all_eq_true, decide_eq_true_eq] at hfacts hedges
  exact ⟨hfacts, hedges⟩

theorem indexable_linkedInsert {db : Database F} {rels : List Relationship}
    (hroom : db.nextId.toNat < mvRoom)
    (hlive : ∀ rel ∈ rels, (hashIndexGet db.store.hash rel.toId).isSome = true ∧ rel.kind = none) :
    Indexable db (linkedInsert rels) where
  room := hroom
  links input hinput rel hrel := by
    cases hinput
    obtain ⟨hto, hkind⟩ := hlive rel hrel
    refine ⟨hto, fun k hk => ?_⟩
    rw [hkind] at hk
    cases hk
  slots patch hpatch := by cases hpatch

/-- Two notes, the second with an edge to the first. -/
def twoNotes : List (List Relationship) := [[], [⟨0, 1, none⟩]]

set_option maxRecDepth 20000 in
/-- The indexes of two linked notes answer as the rebuilt ones. -/
theorem twoNotes_rebuilt :
    run (writeStep .unlimited) (.create .unlimited fun _ => ()) (twoNotes.map linkedInsert) =
        some (linkedDb twoNotes) ∧
      SameAnswers (linkedDb twoNotes).ix ((linkedDb twoNotes).rebuilt .unlimited) := by
  refine ⟨rfl, (indexes_eq_rebuilt (rfl : run _ _ (twoNotes.map linkedInsert) = _) ?_ ?_).1⟩
  · refine ⟨indexable_linkedInsert (by decide) (by simp), fun d hd => ?_⟩
    cases hd
    refine ⟨indexable_linkedInsert (by decide +kernel) fun rel hrel => ?_, fun _ _ => trivial⟩
    rw [mem_singleton.1 hrel]
    exact ⟨by decide +kernel, rfl⟩
  · refine ⟨fun d hd => ?_, fun d hd => ⟨fun d' hd' => ?_, fun _ _ => trivial⟩⟩
    · cases hd
      exact belowCaps_of_all (by decide +kernel) (by decide +kernel)
    · cases hd
      cases hd'
      exact belowCaps_of_all (by decide +kernel) (by decide +kernel)

end AegisDB
