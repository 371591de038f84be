import AegisDB.Query.Effects
import AegisDB.Query.Maintain

/-!
# What consolidation does to the records

A merge rewrites its survivor, adds edges to it and to the records that were drawn from the losers,
and deletes the losers. `Relinks` and `Evolves` say what the writes before a delete, and all writes of
a run, leave as it was: no record changes its owner, its expiry or its derivation, or comes back.

`consolidateMerges` lists the records a run deletes with the survivor of each; every record that is
gone after the run is in the list (`MergeRun.mem_of_lost`), and losers and survivors are records of
the caller (`MergeRun.mergedPair`).
-/

namespace AegisDB

open Bytes List Function UpdatePatch

variable {F : Framing} {cfg : DbConfig} {env : Sample} {db db' db'' : Database F}
variable {recs : List MemoryRecord}
variable {r' : MemoryRecord} {ms : List (UInt64 × UInt64)}

/-! ## Writes that add edges -/

/-- A later version of a record that only differs in some edges more. -/
def Relinked (r r' : MemoryRecord) : Prop :=
  ∃ more updated, r' = { r with relationships := r.relationships ++ more, updated }

theorem Relinked.refl (r : MemoryRecord) : Relinked r r := ⟨[], r.updated, by simp⟩

variable {r : MemoryRecord}

theorem Relinked.trans {r'' : MemoryRecord} (h : Relinked r r') (h' : Relinked r' r'') :
    Relinked r r'' := by
  obtain ⟨more, _, rfl⟩ := h
  obtain ⟨more', updated, rfl⟩ := h'
  exact ⟨more ++ more', updated, by simp⟩

/-- No record is lost, and none changes but for its edges. -/
structure Relinks (db db' : Database F) : Prop where
  sound : db'.Sound
  isOpen : db.store.log.isOpen = true → db'.store.log.isOpen = true
  error : ∀ id st, loadRecord F db.store id = .error st → loadRecord F db'.store id = .error st
  ok : ∀ id r, loadRecord F db.store id = .ok r →
    ∃ r', loadRecord F db'.store id = .ok r' ∧ Relinked r r'

theorem Relinks.refl (hs : db.Sound) : Relinks db db :=
  ⟨hs, fun h => h, fun _ _ h => h, fun _ r h => ⟨r, h, .refl r⟩⟩

theorem Relinks.trans (h : Relinks db db') (h' : Relinks db' db'') : Relinks db db'' where
  sound := h'.sound
  isOpen hopen := h'.isOpen (h.isOpen hopen)
  error id st hid := h'.error id st (h.error id st hid)
  ok id r hid := by
    obtain ⟨r', hid', hr'⟩ := h.ok id r hid
    obtain ⟨r'', hid'', hr''⟩ := h'.ok id r' hid'
    exact ⟨r'', hid'', hr'.trans hr''⟩

theorem Relinks.back (h : Relinks db db') {id : UInt64} {r' : MemoryRecord}
    (hr' : loadRecord F db'.store id = .ok r') :
    ∃ r, loadRecord F db.store id = .ok r ∧ Relinked r r' := by
  cases hold : loadRecord F db.store id with
  | error st => cases (h.error id st hold).symm.trans hr'
  | ok r =>
    obtain ⟨r'', hr'', hlinked⟩ := h.ok id r hold
    cases hr'.symm.trans hr''
    exact ⟨r, rfl, hlinked⟩

theorem clamped_relatedRecord (h : r.WellFormed) (fromId toId : UInt64) (kind : Option CString)
    (now : UInt64) :
    (relatedRecord r fromId toId kind now).clamped = relatedRecord r fromId toId kind now := by
  rw [MemoryRecord.clamped]
  simp only [relatedRecord, F32.orDefault_of_inUnit h.importance,
    F32.orDefault_of_inUnit h.confidence]

/-- What `qe_relate` has checked when it appends. -/
structure Relates (db : Database F) (fromId toId : UInt64) (kind ns : Option CString)
    (r : MemoryRecord) : Prop where
  load : loadRecord F db.store fromId = .ok r
  owner : nsDenies ns r = false
  target : targetOk db toId ns = true
  short : ∀ k ∈ kind, k.bytes.length ≤ maxRelKindLen
  fresh : (r.relationships.any fun e => relSame e toId kind) = false

variable (cfg env) in
theorem qeRelate_effect (hs : db.Sound) (fromId toId : UInt64) (kind ns : Option CString) :
    (qeRelate cfg env db fromId toId kind ns).1.Sound ∧
      (db.store.log.isOpen = true →
        (qeRelate cfg env db fromId toId kind ns).1.store.log.isOpen = true) ∧
      (loadRecord F (qeRelate cfg env db fromId toId kind ns).1.store = loadRecord F db.store ∨
        ∃ r, Relates db fromId toId kind ns r ∧
          loadRecord F (qeRelate cfg env db fromId toId kind ns).1.store =
            update (loadRecord F db.store) fromId
              (.ok (relatedRecord r fromId toId kind env.now))) := by
  obtain ⟨d, res, heq, hstep⟩ := exists_pair (@qeRelate_step F cfg env db fromId toId kind ns)
  simp only [heq]
  cases hstep with
  | kept => exact ⟨hs, fun h => h, .inl rfl⟩
  | @wrote cur db₁ _ load owner target ne short fresh append =>
    obtain ⟨hid, hlive⟩ := hs.of_loadRecord load
    have hwf := wellFormed_of_loadRecord load
    have hw := Database.wrote_of_appendAndHash
      (formed_relatedRecord hwf.toWireFormed.formed fromId toId kind env.now) append
      { db₁.ix with edges := db₁.ix.edges.map fun e => edgeIndexAdd e fromId toId kind }
    refine ⟨hw.sound hs, fun _ => hw.isOpen, .inr ⟨cur, ⟨load, owner, target, short, fresh⟩, ?_⟩⟩
    funext id
    rw [hw.loadRecord_eq hs, update_apply, clamped_relatedRecord hwf]
    simp only [relatedRecord, hid, hlive, Bool.false_eq_true, if_false]

variable (cfg env) in
theorem relinks_qeRelate (hs : db.Sound) (fromId toId : UInt64) (kind ns : Option CString) :
    Relinks db (qeRelate cfg env db fromId toId kind ns).1 := by
  obtain ⟨hs', hopen, hsame | ⟨cur, ⟨hcur, -⟩, hview⟩⟩ :=
    qeRelate_effect cfg env hs fromId toId kind ns
  · exact ⟨hs', hopen, fun id st h => by rw [hsame, h], fun id r h => ⟨r, by rw [hsame, h], .refl r⟩⟩
  · refine ⟨hs', hopen, ?_, ?_⟩
    · intro id st h
      rw [hview, update_apply]
      split_ifs with hid
      · rw [hid, hcur] at h
        cases h
      · exact h
    · intro id r h
      rw [hview, update_apply]
      split_ifs with hid
      · rw [hid, hcur] at h
        cases h
        exact ⟨_, rfl, [⟨fromId, toId, kind⟩], env.now, rfl⟩
      · exact ⟨r, h, .refl r⟩

theorem relinks_foldl {α : Type} {f : Database F → α → Database F}
    (hf : ∀ (db : Database F) (a : α), db.Sound → Relinks db (f db a)) (l : List α)
    (hs : db.Sound) : Relinks db (l.foldl f db) := by
  induction l generalizing db with
  | nil => exact .refl hs
  | cons a l ih => exact (hf db a hs).trans (ih (hf db a hs).sound)

variable (cfg env) in
theorem relinks_relateAll (hs : db.Sound) (ns : Option CString) (fromId : UInt64)
    (rels : List Relationship) : Relinks db (relateAll cfg env ns fromId rels db) :=
  relinks_foldl (fun _ rel hs => relinks_qeRelate cfg env hs fromId rel.toId rel.kind ns) rels hs

variable (cfg env) in
theorem relinks_repointDependents (hs : db.Sound) (ns : Option CString) (oldId heir : UInt64) :
    Relinks db (repointDependents cfg env ns oldId heir db) := by
  unfold repointDependents
  split
  · exact .refl hs
  · exact relinks_foldl (fun _ src hs => relinks_qeRelate cfg env hs src.fromId heir _ ns) _ hs

/-! ## All writes of a run -/

/-- A later version of a record: it may have more edges, adopt a fact, and change what a merge folds. -/
structure Rewritten (r r' : MemoryRecord) : Prop where
  type : r'.type = r.type
  agentId : r'.agentId = r.agentId
  expiresAt : r'.expiresAt = r.expiresAt
  routes : r'.routes = r.routes
  fact : r.fact.kind ≠ .none → r'.fact = r.fact
  relationships : ∃ more, r'.relationships = r.relationships ++ more

theorem Rewritten.refl (r : MemoryRecord) : Rewritten r r :=
  ⟨rfl, rfl, rfl, rfl, fun _ => rfl, [], (append_nil _).symm⟩

theorem Rewritten.trans {r'' : MemoryRecord} (h : Rewritten r r') (h' : Rewritten r' r'') :
    Rewritten r r'' where
  type := h'.type.trans h.type
  agentId := h'.agentId.trans h.agentId
  expiresAt := h'.expiresAt.trans h.expiresAt
  routes := h'.routes.trans h.routes
  fact hne := by
    have heq := h.fact hne
    exact (h'.fact (heq ▸ hne)).trans heq
  relationships := by
    obtain ⟨more, hmore⟩ := h.relationships
    obtain ⟨more', hmore'⟩ := h'.relationships
    exact ⟨more ++ more', by rw [hmore', hmore, append_assoc]⟩

theorem Relinked.rewritten (h : Relinked r r') : Rewritten r r' := by
  obtain ⟨more, updated, rfl⟩ := h
  exact ⟨rfl, rfl, rfl, rfl, fun _ => rfl, more, rfl⟩

/-- Every record there is was there before. -/
structure Evolves (db db' : Database F) : Prop where
  sound : db'.Sound
  isOpen : db.store.log.isOpen = true → db'.store.log.isOpen = true
  back : ∀ id r', loadRecord F db'.store id = .ok r' →
    ∃ r, loadRecord F db.store id = .ok r ∧ Rewritten r r'

theorem Evolves.refl (hs : db.Sound) : Evolves db db := ⟨hs, fun h => h, fun _ r h => ⟨r, h, .refl r⟩⟩

theorem Evolves.trans (h : Evolves db db') (h' : Evolves db' db'') : Evolves db db'' where
  sound := h'.sound
  isOpen hopen := h'.isOpen (h.isOpen hopen)
  back id r'' hid := by
    obtain ⟨r', hid', hr'⟩ := h'.back id r'' hid
    obtain ⟨r, hid, hr⟩ := h.back id r' hid'
    exact ⟨r, hid, hr.trans hr'⟩

theorem Relinks.evolves (h : Relinks db db') : Evolves db db' where
  sound := h.sound
  isOpen := h.isOpen
  back id r' hid := by
    obtain ⟨r, hold, hr⟩ := h.back hid
    exact ⟨r, hold, hr.rewritten⟩

variable (cfg env) in
theorem evolves_qeDelete (hs : db.Sound) (id : UInt64) (ns : Option CString) :
    Evolves db (qeDelete cfg env db id ns).1 := by
  obtain ⟨hs', hopen, hview⟩ := qeDelete_effect cfg env hs id ns
  refine ⟨hs', hopen, fun id' r' hid => ?_⟩
  rcases hview id' with hsame | ⟨-, hgone⟩
  · exact ⟨r', hsame ▸ hid, .refl r'⟩
  · rw [hgone.notFound] at hid
    cases hid

/-- The record was rewritten by the patch: what `qe_update` appends, as it is loaded again. -/
structure Patched (env : Sample) (ns : Option CString) (patch : UpdatePatch) (cur new : MemoryRecord) :
    Prop where
  owner : nsDenies ns cur = false
  type : cur.type = .semantic
  tags : new.tags.length ≤ maxTags ∧ new.tags.all validTag = true
  new : ∃ fact, patch.adopt cur.fact = .ok fact ∧ new = (patch.apply cur fact env.now).clamped

theorem UpdatePatch.adopt_eq_ok {patch : UpdatePatch} {cur fact : Fact}
    (h : patch.adopt cur = .ok fact) : patch.fact = none ∧ fact = cur ∨ cur.kind = .none := by
  unfold UpdatePatch.adopt at h
  split at h
  · cases h
    exact .inl ⟨‹_›, rfl⟩
  · split_ifs at h with hkind
    exact .inr (not_not.1 hkind)

variable {ns : Option CString}

theorem Patched.rewritten {patch : UpdatePatch} {cur new : MemoryRecord}
    (h : Patched env ns patch cur new) : Rewritten cur new := by
  obtain ⟨fact, hadopt, rfl⟩ := h.new
  refine ⟨rfl, rfl, rfl, rfl, fun hne => ?_, [], (append_nil _).symm⟩
  rcases adopt_eq_ok hadopt with ⟨-, hfact⟩ | hnone
  · exact hfact
  · exact absurd hnone hne

theorem tags_of_validateCommon (h : validateCommon cfg r = .ok ()) :
    r.tags.length ≤ maxTags ∧ r.tags.all validTag = true := by
  unfold validateCommon at h
  split_ifs at h with _ _ _ hlen hall
  exact ⟨not_lt.1 hlen, by simpa using hall⟩

variable (cfg env) in
/-- An update rewrites one record, or changes nothing; when it succeeds, it has rewritten. -/
theorem qeUpdate_effect (hs : db.Sound) (id : UInt64) (patch : UpdatePatch) (ns : Option CString) :
    (qeUpdate cfg env db id patch ns).1.Sound ∧
      (db.store.log.isOpen = true → (qeUpdate cfg env db id patch ns).1.store.log.isOpen = true) ∧
      ((qeUpdate cfg env db id patch ns).2.isOk = false ∧
          loadRecord F (qeUpdate cfg env db id patch ns).1.store = loadRecord F db.store ∨
        ∃ cur new, loadRecord F db.store id = .ok cur ∧ Patched env ns patch cur new ∧
          loadRecord F (qeUpdate cfg env db id patch ns).1.store =
            update (loadRecord F db.store) id (.ok new)) := by
  obtain ⟨d, res, heq, hstep⟩ := exists_pair (@qeUpdate_step F cfg env db id patch ns)
  simp only [heq]
  cases hstep with
  | refused => exact ⟨hs, fun h => h, .inl ⟨rfl, rfl⟩⟩
  | @wrote cur fact db₁ _ load owner type adopt valid append reply =>
    obtain ⟨hid, hlive⟩ := hs.of_loadRecord load
    have hwf := wellFormed_of_loadRecord load
    have hw := Database.wrote_of_appendAndHash
      (formed_apply hwf.toWireFormed.formed adopt env.now) append
      (reindexRecord db₁.ix patch cur (patch.apply cur fact env.now))
    have htags := tags_of_validateCommon valid
    have hnew : Patched env ns patch cur (patch.apply cur fact env.now).clamped :=
      ⟨owner, type, htags, fact, adopt, rfl⟩
    refine ⟨hw.sound hs, fun _ => hw.isOpen, .inr ⟨cur, _, load, hnew, ?_⟩⟩
    funext id'
    rw [hw.loadRecord_eq hs, update_apply]
    simp only [apply, hid, hlive, Bool.false_eq_true, if_false]

variable (cfg env) in
theorem evolves_qeUpdate (hs : db.Sound) (id : UInt64) (patch : UpdatePatch) (ns : Option CString) :
    Evolves db (qeUpdate cfg env db id patch ns).1 := by
  obtain ⟨hs', hopen, ⟨-, hsame⟩ | ⟨cur, new, hcur, hnew, hview⟩⟩ :=
    qeUpdate_effect cfg env hs id patch ns
  · exact ⟨hs', hopen, fun id r h => ⟨r, hsame ▸ h, .refl r⟩⟩
  · refine ⟨hs', hopen, fun id' r' h => ?_⟩
    rw [hview, update_apply] at h
    split_ifs at h with hid
    · cases h
      rw [hid]
      exact ⟨cur, hcur, hnew.rewritten⟩
    · exact ⟨r', h, .refl r'⟩

/-! ## One merge -/

/-- What `merge_cluster` has decided before it writes. -/
structure MergePlan where
  survivor : MemoryRecord
  adopt : Option Fact
  members : List MemoryRecord

/-- The first half of `merge_cluster`; `none` when there is nothing to fold. -/
def mergePlan (recs : List MemoryRecord) : Option MergePlan :=
  match recs.zipIdx with
  | [] => none
  | x :: xs =>
    let (sv, place) := survivorPlace x xs
    let adopt := if sv.fact.kind = .none then adoptedFact (recs.eraseIdx place) else none
    let svFact := adopt.getD sv.fact
    let members := (recs.zipIdx.filter fun x =>
      x.2 = place || x.1.fact.kind = .none || factsEqual x.1.fact svFact).map Prod.fst
    if members.length ≤ 1 then none else some ⟨sv, adopt, members⟩

/-- The records of the plan that are deleted. -/
def MergePlan.losers (m : MergePlan) : List MemoryRecord :=
  m.members.filter fun r => r.id ≠ m.survivor.id

section

variable (cfg : DbConfig) (env : Sample) (ns : Option CString)

/-- The edges of the losers, on the survivor. -/
def MergePlan.migrate (m : MergePlan) (db : Database F) : Database F :=
  m.losers.foldl (fun db r => relateAll cfg env ns m.survivor.id r.relationships db) db

theorem mergeCluster_eq (recs : List MemoryRecord) (db : Database F) :
    mergeCluster cfg env ns recs db =
      match mergePlan recs with
      | none => (db, 0)
      | some m =>
        match qeUpdate cfg env db m.survivor.id (mergePatch m.members m.adopt) ns with
        | (db, .error _) => (db, 0)
        | (db, .ok _) => absorbAll cfg env ns m.survivor.id m.losers (m.migrate cfg env ns db) := by
  unfold mergeCluster mergePlan
  cases recs.zipIdx with
  | nil => rfl
  | cons x xs =>
    dsimp only
    split_ifs <;> rfl

/-- The losers that `absorbAll` deletes, each with the survivor. -/
def absorbMerges (survivor : UInt64) : List MemoryRecord → Database F → List (UInt64 × UInt64)
  | [], _ => []
  | r :: losers, db =>
    let db := (qeRelate cfg env db survivor r.id (some supersedes) ns).1
    let db := repointDependents cfg env ns r.id survivor db
    let after := (qeDelete cfg env db r.id ns).1
    (if (currentRecord F db.store r.id).isSome && (currentRecord F after.store r.id).isNone then
      [(r.id, survivor)] else []) ++ absorbMerges survivor losers after

/-- The records a merge deletes, each with the survivor. -/
def clusterMerges (recs : List MemoryRecord) (db : Database F) : List (UInt64 × UInt64) :=
  match mergePlan recs with
  | none => []
  | some m =>
    match qeUpdate cfg env db m.survivor.id (mergePatch m.members m.adopt) ns with
    | (_, .error _) => []
    | (db, .ok _) => absorbMerges cfg env ns m.survivor.id m.losers (m.migrate cfg env ns db)

/-- The records the loop of `qe_consolidate` deletes, each with the survivor. -/
def loopMerges (R : Ranking) (minSimilarity : F32) :
    List UInt64 → Database F → List (UInt64 × UInt64)
  | [], _ => []
  | id :: ids, db =>
    match qeGet env db id ns with
    | .error _ => loopMerges R minSimilarity ids db
    | .ok r =>
      if r.embedding.dim = 0 then loopMerges R minSimilarity ids db
      else
        match qeSearch R cfg env db (duplicatesOf ns minSimilarity r) with
        | .error _ => loopMerges R minSimilarity ids db
        | .ok (hits, _) =>
          if hits.length < 2 then loopMerges R minSimilarity ids db
          else
            clusterMerges cfg env ns (hits.map fun c => c.record) db ++
              loopMerges R minSimilarity ids
                (mergeCluster cfg env ns (hits.map fun c => c.record) db).1

/-- The records `qe_consolidate` deletes, each with the survivor it was merged into. -/
def consolidateMerges (R : Ranking) (db : Database F) (minSimilarity : F32) :
    List (UInt64 × UInt64) :=
  if !cfg.phase 3 then []
  else loopMerges cfg env ns R minSimilarity
    (collectIds db.store.hash fun _ e => e.type = .semantic) db

end

/-- What the writes of a merge preserve: `qe_relate`, `qe_update` with the folding patch, and
`qe_delete`. -/
structure Preserved (cfg : DbConfig) (env : Sample) (ns : Option CString) (P : Database F → Prop) :
    Prop where
  relate : ∀ db fromId toId kind, P db → P (qeRelate cfg env db fromId toId kind ns).1
  update : ∀ db id members adopt, P db →
    P (qeUpdate cfg env db id (mergePatch members adopt) ns).1
  delete : ∀ db id, P db → P (qeDelete cfg env db id ns).1

namespace Preserved

variable {ns : Option CString} {P : Database F → Prop} (h : Preserved cfg env ns P)

include h

theorem relateAll (fromId : UInt64) (rels : List Relationship) (hdb : P db) :
    P (relateAll cfg env ns fromId rels db) :=
  foldlRecOn rels _ hdb fun db hdb rel _ => h.relate db fromId rel.toId rel.kind hdb

theorem repointDependents (oldId heir : UInt64) (hdb : P db) :
    P (repointDependents cfg env ns oldId heir db) := by
  unfold AegisDB.repointDependents
  split
  · exact hdb
  · exact foldlRecOn _ _ hdb fun db hdb src _ => h.relate db src.fromId heir _ hdb

theorem absorbAll (survivor : UInt64) (losers : List MemoryRecord) (hdb : P db) :
    P (absorbAll cfg env ns survivor losers db).1 := by
  induction losers generalizing db with
  | nil => exact hdb
  | cons r losers ih =>
    refine ih (h.delete _ r.id ?_)
    exact h.repointDependents r.id survivor (h.relate db survivor r.id (some supersedes) hdb)

theorem mergeCluster (recs : List MemoryRecord) (hdb : P db) :
    P (mergeCluster cfg env ns recs db).1 := by
  rw [mergeCluster_eq]
  cases mergePlan recs with
  | none => exact hdb
  | some m =>
    have hupd := h.update db m.survivor.id m.members m.adopt hdb
    dsimp only
    generalize qeUpdate cfg env db m.survivor.id (mergePatch m.members m.adopt) ns = x at hupd
    obtain ⟨d, _ | _⟩ := x
    · exact hupd
    · refine h.absorbAll m.survivor.id m.losers ?_
      exact foldlRecOn _ _ hupd fun db hdb r _ => h.relateAll m.survivor.id r.relationships hdb

theorem consolidate (R : Ranking) (minSimilarity : F32) (hdb : P db) :
    P (qeConsolidate R cfg env db ns minSimilarity).1 := by
  unfold qeConsolidate
  split_ifs
  · exact hdb
  dsimp only
  induction collectIds db.store.hash fun _ e => e.type = .semantic generalizing db with
  | nil => exact hdb
  | cons id ids ih =>
    unfold consolidateLoop
    cases qeGet env db id ns with
    | error st => exact ih hdb
    | ok r =>
      dsimp only
      split_ifs
      · exact ih hdb
      · cases qeSearch R cfg env db (duplicatesOf ns minSimilarity r) with
        | error st => exact ih hdb
        | ok x =>
          dsimp only
          split_ifs
          · exact ih hdb
          · exact ih (h.mergeCluster _ hdb)

end Preserved

variable (cfg env) in
theorem evolves_preserved (ns : Option CString) (db : Database F) :
    Preserved cfg env ns (Evolves db) where
  relate _ fromId toId kind h :=
    h.trans (relinks_qeRelate cfg env h.sound fromId toId kind ns).evolves
  update _ id members adopt h :=
    h.trans (evolves_qeUpdate cfg env h.sound id (mergePatch members adopt) ns)
  delete _ id h := h.trans (evolves_qeDelete cfg env h.sound id ns)

/-! ## A run is a sequence of merges -/

structure InScope (ns : Option CString) (r : MemoryRecord) : Prop where
  type : r.type = .semantic
  owner : nsDenies ns r = false

/-- The records of a cluster are those that are loaded, and the caller's. -/
def Duplicates (ns : Option CString) (db : Database F) (recs : List MemoryRecord) : Prop :=
  ∀ r ∈ recs, loadRecord F db.store r.id = .ok r ∧ InScope ns r

/-- Merge after merge, with what they delete. -/
inductive MergeRun (cfg : DbConfig) (env : Sample) (ns : Option CString) :
    Database F → List (UInt64 × UInt64) → Database F → Prop
  | nil (db : Database F) : MergeRun cfg env ns db [] db
  | cons {db db' : Database F} {recs : List MemoryRecord} {ms : List (UInt64 × UInt64)}
      (hits : Duplicates ns db recs)
      (rest : MergeRun cfg env ns (mergeCluster cfg env ns recs db).1 ms db') :
      MergeRun cfg env ns db (clusterMerges cfg env ns recs db ++ ms) db'

theorem InScope.rewritten (h : Rewritten r r') : InScope ns r' ↔ InScope ns r := by
  constructor
  · intro hr
    exact ⟨h.type ▸ hr.type, by simpa only [nsDenies, h.agentId] using hr.owner⟩
  · intro hr
    exact ⟨h.type.trans hr.type, by simpa only [nsDenies, h.agentId] using hr.owner⟩

theorem inScope_of_passesFilters {sub : List UInt64} {minSimilarity : F32} {seed : MemoryRecord}
    (h : passesFilters sub (duplicatesOf ns minSimilarity seed) r = true) : InScope ns r := by
  simp only [passesFilters, duplicatesOf, Bool.and_eq_true, Option.all_some, decide_eq_true_eq] at h
  refine ⟨h.1.1.1.1.1.2, ?_⟩
  cases ns with
  | none => rfl
  | some n => exact nsDenies_eq_false.2 (by simpa using h.1.1.1.2)

theorem qeSearch_eq_ok {R : Ranking} {p : SearchParams} {hits : List Cand} {cut : Bool}
    (h : qeSearch R cfg env db p = .ok (hits, cut)) : ∃ sub, hits = rankedPage R cfg env db p sub := by
  unfold qeSearch at h
  cases hsub : resolveSubsume cfg env db p with
  | error st => rw [hsub] at h; cases h
  | ok x =>
    rw [hsub] at h
    dsimp only at h
    generalize cfg.phase (if p.embedding ≠ [] then 3 else 2) = ready at h
    split_ifs at h
    cases h
    exact ⟨x.1, rfl⟩

theorem cluster_of_qeSearch {R : Ranking} (hs : db.Sound) {minSimilarity : F32}
    {seed : MemoryRecord} {hits : List Cand} {cut : Bool}
    (h : qeSearch R cfg env db (duplicatesOf ns minSimilarity seed) = .ok (hits, cut)) :
    Duplicates ns db (hits.map fun c => c.record) := by
  intro r hr
  obtain ⟨c, hc, rfl⟩ := mem_map.1 hr
  obtain ⟨sub, rfl⟩ := qeSearch_eq_ok h
  obtain ⟨id, hload, -, hpass⟩ := passes_of_mem_rankedPage hc
  refine ⟨?_, inScope_of_passesFilters hpass⟩
  rw [(hs.of_loadRecord hload).1]
  exact hload

section

variable (cfg env)

theorem relinks_migrate (hs : db.Sound) (ns : Option CString) (m : MergePlan) :
    Relinks db (m.migrate cfg env ns db) :=
  relinks_foldl (fun _ r hs => relinks_relateAll cfg env hs ns m.survivor.id r.relationships)
    m.losers hs

/-- The writes of a merge before it deletes a loser. -/
def beforeDelete (ns : Option CString) (survivor loser : UInt64) (db : Database F) : Database F :=
  repointDependents cfg env ns loser survivor
    (qeRelate cfg env db survivor loser (some supersedes) ns).1

theorem relinks_beforeDelete (hs : db.Sound) (ns : Option CString) (survivor loser : UInt64) :
    Relinks db (beforeDelete cfg env ns survivor loser db) := by
  have h := relinks_qeRelate cfg env hs survivor loser (some supersedes) ns
  exact h.trans (relinks_repointDependents cfg env h.sound ns loser survivor)

theorem absorbAll_cons (ns : Option CString) (survivor : UInt64) (r : MemoryRecord)
    (losers : List MemoryRecord) (db : Database F) :
    (absorbAll cfg env ns survivor (r :: losers) db).1 =
      (absorbAll cfg env ns survivor losers
        (qeDelete cfg env (beforeDelete cfg env ns survivor r.id db) r.id ns).1).1 := rfl

theorem evolves_absorbAll (hs : db.Sound) (ns : Option CString) (survivor : UInt64)
    (losers : List MemoryRecord) : Evolves db (absorbAll cfg env ns survivor losers db).1 :=
  (evolves_preserved cfg env ns db).absorbAll survivor losers (.refl hs)

theorem evolves_mergeCluster (hs : db.Sound) (ns : Option CString) (recs : List MemoryRecord) :
    Evolves db (mergeCluster cfg env ns recs db).1 :=
  (evolves_preserved cfg env ns db).mergeCluster recs (.refl hs)

theorem mergeRun_loop (R : Ranking) (hs : db.Sound) (ns : Option CString) (minSimilarity : F32)
    (ids : List UInt64) :
    MergeRun cfg env ns db (loopMerges cfg env ns R minSimilarity ids db)
      (consolidateLoop R cfg env ns minSimilarity ids db).1 := by
  induction ids generalizing db with
  | nil => exact .nil db
  | cons id ids ih =>
    unfold loopMerges consolidateLoop
    cases qeGet env db id ns with
    | error st => exact ih hs
    | ok r =>
      dsimp only
      split_ifs
      · exact ih hs
      · cases hsearch : qeSearch R cfg env db (duplicatesOf ns minSimilarity r) with
        | error st => exact ih hs
        | ok x =>
          obtain ⟨hits, cut⟩ := x
          dsimp only
          split_ifs
          · exact ih hs
          · refine .cons (cluster_of_qeSearch hs hsearch) (ih ?_)
            exact (evolves_mergeCluster cfg env hs ns _).sound

theorem mergeRun_qeConsolidate (R : Ranking) (hs : db.Sound) (ns : Option CString)
    (minSimilarity : F32) :
    MergeRun cfg env ns db (consolidateMerges cfg env ns R db minSimilarity)
      (qeConsolidate R cfg env db ns minSimilarity).1 := by
  unfold consolidateMerges qeConsolidate
  split_ifs
  · exact .nil db
  · exact mergeRun_loop cfg env R hs ns minSimilarity _

end

theorem MergeRun.evolves (h : MergeRun cfg env ns db ms db') (hs : db.Sound) : Evolves db db' := by
  induction h with
  | nil db => exact .refl hs
  | @cons _ _ recs _ _ _ ih =>
    have hcluster := evolves_mergeCluster cfg env hs ns recs
    exact hcluster.trans (ih hcluster.sound)

theorem survivorPlace_mem (best : MemoryRecord × ℕ) (xs : List (MemoryRecord × ℕ)) :
    survivorPlace best xs ∈ best :: xs := by
  induction xs generalizing best with
  | nil => exact mem_singleton.2 rfl
  | cons x xs ih =>
    rw [survivorPlace]
    have h := ih (if survives x.1 best.1 then x else best)
    rcases mem_cons.1 h with h | h
    · rw [h]
      split_ifs <;> simp
    · simp [h]

/-- The fact with the most votes so far is that of one of the records that were looked at. -/
theorem mem_of_foldl_votes (votes : MemoryRecord → ℕ) {f : Fact} (l : List MemoryRecord)
    (best : ℕ × Option Fact)
    (h : (l.foldl (fun best r => if r.fact.kind ≠ .none ∧ best.1 < votes r then
      (votes r, some r.fact) else best) best).2 = some f) :
    best.2 = some f ∨ ∃ r ∈ l, r.fact = f ∧ f.kind ≠ .none := by
  induction l generalizing best with
  | nil => exact .inl h
  | cons r l ih =>
    rw [foldl_cons] at h
    rcases ih _ h with hbest | ⟨x, hx, hxf⟩
    · split_ifs at hbest with hr
      · cases hbest
        exact .inr ⟨r, mem_cons_self, rfl, hr.1⟩
      · exact .inl hbest
    · exact .inr ⟨x, mem_cons_of_mem r hx, hxf⟩

theorem mem_of_adoptedFact {others : List MemoryRecord} {f : Fact} (h : adoptedFact others = some f) :
    ∃ r ∈ others, r.fact = f ∧ f.kind ≠ .none := by
  have hvotes := mem_of_foldl_votes (fun r => others.countP fun (o : MemoryRecord) =>
    o.fact.kind ≠ .none && factsEqual o.fact r.fact) others (0, none) h
  exact hvotes.resolve_left fun hnone => by cases hnone

structure MergePlan.Fits (m : MergePlan) (recs : List MemoryRecord) : Prop where
  survivor : m.survivor ∈ recs
  members : ∀ r ∈ m.members, r ∈ recs
  agree : ∀ r ∈ m.members, r = m.survivor ∨ r.fact.kind = .none ∨
    factsEqual r.fact (m.adopt.getD m.survivor.fact) = true
  adopt : ∀ f, m.adopt = some f → m.survivor.fact.kind = .none ∧
    ∃ r ∈ recs, r.fact = f ∧ f.kind ≠ .none

theorem mergePlan_fits {m : MergePlan} (h : mergePlan recs = some m) : m.Fits recs := by
  unfold mergePlan at h
  split at h
  · cases h
  · rename_i x xs hrecs
    have hmem := survivorPlace_mem x xs
    rw [← hrecs] at hmem
    generalize survivorPlace x xs = best at h hmem
    obtain ⟨sv, place⟩ := best
    have hsv : recs[place]? = some sv := mem_zipIdx_iff_getElem?.1 hmem
    dsimp only at h
    generalize hadopt : (if sv.fact.kind = .none then adoptedFact (recs.eraseIdx place) else none) =
      adopt at h
    split_ifs at h
    cases h
    refine ⟨mem_of_getElem? hsv, ?_, ?_, ?_⟩
    · intro r hr
      obtain ⟨y, hy, rfl⟩ := mem_map.1 hr
      exact mem_of_getElem? (mem_zipIdx_iff_getElem?.1 (mem_filter.1 hy).1)
    · intro r hr
      obtain ⟨y, hy, rfl⟩ := mem_map.1 hr
      obtain ⟨hy, hkeep⟩ := mem_filter.1 hy
      simp only [Bool.or_eq_true, decide_eq_true_eq] at hkeep
      rcases hkeep with (hplace | hnone) | hequal
      · have hy := mem_zipIdx_iff_getElem?.1 hy
        rw [hplace, hsv] at hy
        exact .inl (Option.some.inj hy).symm
      · exact .inr (.inl hnone)
      · exact .inr (.inr hequal)
    · intro f hf
      have hadopt := hadopt.trans hf
      split_ifs at hadopt with hkind
      obtain ⟨r, hr, hrf⟩ := mem_of_adoptedFact hadopt
      exact ⟨hkind, r, mem_of_mem_eraseIdx hr, hrf⟩

theorem MergePlan.mem_losers {m : MergePlan} :
    r ∈ m.losers ↔ r ∈ m.members ∧ r.id ≠ m.survivor.id := by
  simp [MergePlan.losers]

/-! ## What a run deletes -/

def Lost (db : Database F) (id : UInt64) : Prop := ∀ r, loadRecord F db.store id ≠ .ok r

theorem Evolves.lost (h : Evolves db db') {id : UInt64} (hid : Lost db id) : Lost db' id := by
  intro r' hr'
  obtain ⟨r, hr, -⟩ := h.back id r' hr'
  exact hid r hr

theorem Relinks.not_lost (h : Relinks db db') {id : UInt64} (hid : ¬ Lost db id) : ¬ Lost db' id := by
  intro hlost
  refine hid fun r hr => ?_
  obtain ⟨r', hr', -⟩ := h.ok id r hr
  exact hlost r' hr'

theorem isNone_currentRecord {id : UInt64} :
    (currentRecord F db.store id).isNone = true ↔ Lost db id := by
  rw [Option.isNone_iff_eq_none, Option.eq_none_iff_forall_ne_some, Lost]
  exact forall_congr' fun r => not_congr currentRecord_eq_some

theorem isSome_currentRecord {id : UInt64} :
    (currentRecord F db.store id).isSome = true ↔ ¬ Lost db id := by
  rw [← isNone_currentRecord]
  cases currentRecord F db.store id <;> simp

section

variable {ns : Option CString} {survivor : UInt64}

variable {x : UInt64 × UInt64}

variable (cfg env ns survivor) in
theorem mem_absorbMerges_cons {r : MemoryRecord} {losers : List MemoryRecord} :
    x ∈ absorbMerges cfg env ns survivor (r :: losers) db ↔
      x = (r.id, survivor) ∧ ¬ Lost (beforeDelete cfg env ns survivor r.id db) r.id ∧
        Lost (qeDelete cfg env (beforeDelete cfg env ns survivor r.id db) r.id ns).1 r.id ∨
      x ∈ absorbMerges cfg env ns survivor losers
        (qeDelete cfg env (beforeDelete cfg env ns survivor r.id db) r.id ns).1 := by
  rw [← isSome_currentRecord, ← isNone_currentRecord]
  simp only [absorbMerges, beforeDelete, mem_append, mem_ite_nil_right,
    mem_singleton, Bool.and_eq_true]
  tauto

theorem of_mem_absorbMerges {losers : List MemoryRecord}
    (h : x ∈ absorbMerges cfg env ns survivor losers db) :
    x.2 = survivor ∧ ∃ r ∈ losers, x.1 = r.id := by
  induction losers generalizing db with
  | nil => cases h
  | cons r losers ih =>
    rcases (mem_absorbMerges_cons cfg env ns survivor).1 h with ⟨rfl, -⟩ | h
    · exact ⟨rfl, r, mem_cons_self, rfl⟩
    · obtain ⟨hs, r', hr', hid⟩ := ih h
      exact ⟨hs, r', mem_cons_of_mem r hr', hid⟩

theorem mem_absorbMerges_of_lost (losers : List MemoryRecord) (hs : db.Sound) {id : UInt64}
    (hid : ¬ Lost db id) (hlost : Lost (absorbAll cfg env ns survivor losers db).1 id) :
    (id, survivor) ∈ absorbMerges cfg env ns survivor losers db := by
  induction losers generalizing db with
  | nil => exact absurd hlost hid
  | cons r losers ih =>
    rw [absorbAll_cons] at hlost
    rw [mem_absorbMerges_cons]
    have hlink := relinks_beforeDelete cfg env hs ns survivor r.id
    have hbefore := hlink.not_lost hid
    obtain ⟨hs', -, hview⟩ := qeDelete_effect cfg env hlink.sound r.id ns
    by_cases hgone : Lost (qeDelete cfg env (beforeDelete cfg env ns survivor r.id db) r.id ns).1 id
    · -- the delete of a loser loses no other record
      have heq : id = r.id := by
        rcases hview id with hsame | ⟨heq, -⟩
        · exact absurd (fun r hr => hgone r (hsame.trans hr)) hbefore
        · exact heq
      subst heq
      exact .inl ⟨rfl, hbefore, hgone⟩
    · exact .inr (ih hs' hgone hlost)

variable (cfg env) in
theorem not_lost_qeUpdate (hs : db.Sound) (id : UInt64) (patch : UpdatePatch) (ns : Option CString)
    {id' : UInt64} (hid : ¬ Lost db id') : ¬ Lost (qeUpdate cfg env db id patch ns).1 id' := by
  obtain ⟨-, -, hview⟩ := qeUpdate_effect cfg env hs id patch ns
  refine fun hgone => hid fun r hr => ?_
  rcases hview with ⟨-, hsame⟩ | ⟨cur, new, -, -, hview⟩
  · exact hgone r (by rw [hsame, hr])
  · by_cases heq : id' = id
    · exact hgone new (by rw [hview, heq, update_self])
    · exact hgone r (by rw [hview, update_of_ne heq, hr])

variable (ns) in
theorem mem_clusterMerges_of_lost (hs : db.Sound) {id : UInt64} (hid : ¬ Lost db id)
    (hlost : Lost (mergeCluster cfg env ns recs db).1 id) :
    ∃ s, (id, s) ∈ clusterMerges cfg env ns recs db := by
  rw [mergeCluster_eq] at hlost
  unfold clusterMerges
  cases hplan : mergePlan recs with
  | none =>
    rw [hplan] at hlost
    exact absurd hlost hid
  | some m =>
    rw [hplan] at hlost
    dsimp only at hlost ⊢
    obtain ⟨hs', -⟩ := qeUpdate_effect cfg env hs m.survivor.id (mergePatch m.members m.adopt) ns
    have hupd := not_lost_qeUpdate cfg env hs m.survivor.id (mergePatch m.members m.adopt) ns hid
    generalize qeUpdate cfg env db m.survivor.id (mergePatch m.members m.adopt) ns = x
      at hs' hupd hlost ⊢
    obtain ⟨d, _ | _⟩ := x
    · exact absurd hlost hupd
    · have hmig := relinks_migrate cfg env hs' ns m
      exact ⟨_, mem_absorbMerges_of_lost m.losers hmig.sound (hmig.not_lost hupd) hlost⟩

theorem of_mem_clusterMerges (h : x ∈ clusterMerges cfg env ns recs db) :
    ∃ m, mergePlan recs = some m ∧ x.2 = m.survivor.id ∧ ∃ r ∈ m.losers, x.1 = r.id := by
  unfold clusterMerges at h
  cases hplan : mergePlan recs with
  | none => rw [hplan] at h; cases h
  | some m =>
    rw [hplan] at h
    dsimp only at h
    generalize qeUpdate cfg env db m.survivor.id (mergePatch m.members m.adopt) ns = y at h
    obtain ⟨d, _ | _⟩ := y
    · cases h
    · obtain ⟨hsv, r, hr, hid⟩ := of_mem_absorbMerges h
      exact ⟨m, rfl, hsv, r, hr, hid⟩

structure MergedPair (ns : Option CString) (db : Database F) (x : UInt64 × UInt64)
    (l s : MemoryRecord) : Prop where
  ne : x.1 ≠ x.2
  loser : loadRecord F db.store x.1 = .ok l
  survivor : loadRecord F db.store x.2 = .ok s
  loserScope : InScope ns l
  survivorScope : InScope ns s

theorem mergedPair_of_mem_clusterMerges (hits : Duplicates ns db recs)
    (h : x ∈ clusterMerges cfg env ns recs db) :
    ∃ l s, MergedPair ns db x l s := by
  obtain ⟨m, hplan, hsv, r, hr, hid⟩ := of_mem_clusterMerges h
  obtain ⟨hmem, hne⟩ := MergePlan.mem_losers.1 hr
  have hfits := mergePlan_fits hplan
  obtain ⟨hload, hscope⟩ := hits r (hfits.members r hmem)
  obtain ⟨hload', hscope'⟩ := hits m.survivor hfits.survivor
  refine ⟨r, m.survivor, ?_, ?_, ?_, hscope, hscope'⟩
  · rwa [hid, hsv]
  · rwa [hid]
  · rwa [hsv]

/-- Every loser and every survivor of a run was a record of the caller before it. -/
theorem MergeRun.mergedPair (h : MergeRun cfg env ns db ms db') (hs : db.Sound) (hx : x ∈ ms) :
    ∃ l s, MergedPair ns db x l s := by
  induction h with
  | nil => cases hx
  | @cons db _ recs _ hits _ ih =>
    rcases mem_append.1 hx with hx | hx
    · exact mergedPair_of_mem_clusterMerges hits hx
    · have hev := evolves_mergeCluster cfg env hs ns recs
      obtain ⟨l', s', hpair⟩ := ih hev.sound hx
      obtain ⟨l, hl, hll'⟩ := hev.back x.1 l' hpair.loser
      obtain ⟨s, hsv, hss'⟩ := hev.back x.2 s' hpair.survivor
      exact ⟨l, s, hpair.ne, hl, hsv, (InScope.rewritten hll').1 hpair.loserScope,
        (InScope.rewritten hss').1 hpair.survivorScope⟩

theorem MergeRun.mem_of_lost (h : MergeRun cfg env ns db ms db')
    (hs : db.Sound) {id : UInt64} (hid : ¬ Lost db id) (hlost : Lost db' id) :
    ∃ s, (id, s) ∈ ms := by
  induction h with
  | nil => exact absurd hlost hid
  | @cons db _ recs _ _ _ ih =>
    by_cases hgone : Lost (mergeCluster cfg env ns recs db).1 id
    · obtain ⟨s, hmem⟩ := mem_clusterMerges_of_lost ns hs hid hgone
      exact ⟨s, mem_append_left _ hmem⟩
    · obtain ⟨s, hmem⟩ := ih (evolves_mergeCluster cfg env hs ns recs).sound hgone hlost
      exact ⟨s, mem_append_right _ hmem⟩

end

end AegisDB
