import AegisDB.Query.BreadthFirst
import AegisDB.Query.DeleteByQuery
import AegisDB.Query.Faults
import AegisDB.Query.Paging

/-!
# Deletes that fail

`qe_delete` drops the record from every secondary index and then appends its tombstone. When the
append fails, the hash index still has the record: it is live, `get` returns it and forward edges
lead to it. But no index lists it any more, so no search and no count finds it and no reverse walk
from another record comes to it, until a restart builds the indexes anew
(`failed_delete_hides_record`).
-/

namespace AegisDB

open Bytes List Function Database

variable {F : Framing} {cfg : DbConfig} {env : Sample} {io : Option ℕ}
variable {ix : Indexes} {sub : List UInt64}

/-! ## Queries that return a record -/

/-- The ranked sources return records that their indexes list. -/
structure Ranking.Sound (R : Ranking) : Prop where
  semantic : ∀ s q n x, x ∈ R.semantic s q n → ∃ syn, mvRec syn = x.1 ∧ s.vecs syn ≠ none
  lexical : ∀ lx q n x, x ∈ R.lexical lx q n → ∃ w post, LexPost.id post = x.1 ∧ lx.terms.Holds w post

/-- A query that reads the secondary indexes: a search, a count, or a walk against the edges. -/
inductive RecallQuery
  | search (p : SearchParams)
  | count (p : SearchParams)
  | walk (p : TraverseParams) (reverse : p.direction = .in)

/-- The query returns the record, or counts it. -/
def Recalls (R : Ranking) (cfg : DbConfig) (env : Sample) (db : Database F) (id : UInt64) :
    RecallQuery → Prop
  | .search p => ∃ cands cut, qeSearch R cfg env db p = .ok (cands, cut) ∧
    ∃ c ∈ cands, c.record.id = id
  | .count p => cfg.phase 2 = true ∧ ∃ sub cut, resolveSubsume cfg env db p = .ok (sub, cut) ∧
    ∃ c ∈ (gatherCandidates R env db p sub 0 .filter cfg.queryScanCap).1, c.record.id = id
  | .walk p _ => ∃ nodes capped, qeTraverse cfg env db p = .ok (nodes, capped) ∧
    ∃ n ∈ nodes, n.record.id = id

/-- The query is no walk from the record itself. -/
def RecallQuery.Foreign (id : UInt64) : RecallQuery → Prop
  | .walk p _ => p.startId ≠ id
  | _ => True

section

variable {R : Ranking} {db : Database F} {dim : ℕ} {live : UInt64 → Option MemoryRecord}
  {alive : UInt64 → Prop} {id : UInt64}

variable {p : SearchParams}

theorem FilterExact.live_of_mem_filterIds (hix : FilterExact live ix) {cap : ℕ}
    (h : id ∈ (filterIds ix p sub cap).1) :
    (live id).isSome = true := by
  have hwindow (start stop : UInt64) (h : id ∈ (timeWindow ix.time start stop).map TimeEntry.id) :
      (live id).isSome = true := by
    obtain ⟨r, hr, -⟩ := hix.mem_timeWindow.1 h
    rw [hr]
    rfl
  have hrecent (start stop : UInt64) (h : id ∈ (timeIndexRangeRecent ix.time start stop cap).1) :
      (live id).isSome = true := by
    rw [timeIndexRangeRecent_eq] at h
    split at h
    · rw [map_drop] at h
      exact hwindow start stop (mem_of_mem_drop h)
    · exact hwindow start stop h
  unfold filterIds at h
  cases htime : p.time with
  | some window =>
    simp only [htime] at h
    split at h
    · rw [timeIndexRange_eq] at h
      split at h
      · exact hwindow _ _ h
      · rw [map_take] at h
        exact hwindow _ _ (mem_of_mem_take h)
    · exact hrecent _ _ h
  | none =>
    cases hpat : p.pattern with
    | none =>
      simp only [htime, hpat] at h
      split at h
      · rename_i hne
        obtain ⟨r, hr, -⟩ := (hix.mem_tagIndexQuery hne).1 h
        rw [hr]
        rfl
      · exact hrecent _ _ h
    | some pat =>
      simp only [htime, hpat] at h
      obtain ⟨r, hr, -⟩ := hix.mem_patternIds.1 h
      rw [hr]
      rfl

theorem Indexed.live_of_semanticHits (hR : R.Sound) (hix : Indexed dim live alive ix) {fetch : ℕ}
    {x : UInt64 × F32} (h : x ∈ (R.semanticHits ix p fetch).1) :
    (live x.1).isSome = true := by
  obtain ⟨syn, hrec, hvec⟩ := hR.semantic _ _ _ x (mem_of_mem_filter h)
  rw [hix.sem.vecs, hrec] at hvec
  cases hlive : live x.1 with
  | none => simp [hlive] at hvec
  | some r => rfl

theorem Indexed.live_of_lexicalHits (hR : R.Sound) (hix : Indexed dim live alive ix) {fetch : ℕ}
    {x : UInt64 × F32} (h : x ∈ (R.lexicalHits ix p fetch).1) :
    (live x.1).isSome = true := by
  unfold Ranking.lexicalHits at h
  cases hlex : ix.lex with
  | none =>
    rw [hlex] at h
    cases h
  | some lx =>
    rw [hlex] at h
    obtain ⟨w, post, hid, hpost⟩ := hR.lexical lx _ _ x h
    obtain ⟨text, htext, -⟩ := ((hix.lex lx hlex).terms w post).1 hpost
    rw [hid] at htext
    cases hlive : live x.1 with
    | none => simp [hlive] at htext
    | some r => rfl

theorem mem_ids_of_lexicalIds {hits : List (UInt64 × F32)} {x : ScoredId}
    (h : x ∈ Ranking.lexicalIds hits) : ∃ hit ∈ hits, hit.1 = x.id := by
  have hid := mem_map_of_mem (f := ScoredId.id) h
  rw [map_id_lexicalIds] at hid
  exact mem_map.1 hid

theorem Indexed.live_of_mem_candidateIds (hR : R.Sound) (hix : Indexed dim live alive ix)
    {fetch cap : ℕ} {src : CandSource} {x : ScoredId}
    (h : x ∈ (candidateIds R ix p sub fetch src cap).1) :
    (live x.id).isSome = true := by
  have hsem (y : ScoredId) (h : y ∈ Ranking.semanticIds (R.semanticHits ix p fetch).1) :
      (live y.id).isSome = true := by
    obtain ⟨hit, hhit, hid⟩ := exists_of_mem_semanticIds h
    rw [← hid]
    exact hix.live_of_semanticHits hR hhit
  have hlex (y : ScoredId) (h : y ∈ Ranking.lexicalIds (R.lexicalHits ix p fetch).1) :
      (live y.id).isSome = true := by
    obtain ⟨hit, hhit, hid⟩ := mem_ids_of_lexicalIds h
    rw [← hid]
    exact hix.live_of_lexicalHits hR hhit
  cases src with
  | filter =>
    obtain ⟨id, hid, rfl⟩ := mem_map.1 h
    exact hix.filterExact.live_of_mem_filterIds hid
  | semantic => exact hsem x h
  | lexical => exact hlex x h
  | hybrid =>
    obtain ⟨y, hy, rfl⟩ := mem_map.1 h
    obtain ⟨z, hz, hid⟩ := mem_of_mem_foldRuns hy
    change (live y.id).isSome = true
    rw [← hid]
    rcases mem_append.1 ((mergeSort_perm _ _).mem_iff.1 hz) with hz | hz
    · exact hsem z hz
    · exact hlex z hz

def Database.LoadsOwn (db : Database F) : Prop :=
  ∀ id r, loadRecord F db.store id = .ok r → r.id = id

theorem Indexed.live_of_mem_gather (hR : R.Sound) (hix : Indexed dim live alive db.ix)
    (hown : db.LoadsOwn) {fetch cap : ℕ} {src : CandSource} {c : Cand}
    (h : c ∈ (gatherCandidates R env db p sub fetch src cap).1) :
    (live c.record.id).isSome = true := by
  obtain ⟨x, hx, hc⟩ := mem_filterMap.1 h
  obtain ⟨r, hr, rfl⟩ := Option.map_eq_some_iff.1 hc
  have hid : r.id = x.id := hown x.id r (loadCandidate_eq_some.1 hr).1
  have hlive := hix.live_of_mem_candidateIds hR hx
  rw [← hid] at hlive
  split <;> exact hlive

theorem Indexed.live_of_mem_rankedPage (hR : R.Sound) (hix : Indexed dim live alive db.ix)
    (hown : db.LoadsOwn) {c : Cand} (h : c ∈ rankedPage R cfg env db p sub) :
    (live c.record.id).isSome = true := by
  have hsel := mem_of_mem_drop h
  split at hsel
  · exact hix.live_of_mem_gather hR hown (mem_of_mem_selectTop hsel)
  · obtain ⟨fetch, hc⟩ := mem_of_mem_widen (mem_of_mem_selectTop hsel)
    exact hix.live_of_mem_gather hR hown hc

/-- A walk against the edges comes to listed records only, if it does not start elsewhere. -/
theorem Indexed.not_mem_walkLevels (hix : Indexed dim live alive db.ix) (hown : db.LoadsOwn)
    (hnone : live id = none) {p : TraverseParams} (hdir : p.direction = .in) {left level : ℕ}
    {seen : List UInt64} {frontier : List TravEdge} (hfront : ∀ e ∈ frontier, e.id ≠ id)
    {n : TravNode} (h : n ∈ (walkLevels env db p left level seen frontier).1) :
    n.record.id ≠ id := by
  have hnext (r : MemoryRecord) (e : TravEdge) (hf : Follows db p r e) : e.id ≠ id := by
    rcases hf with ⟨hdir', -⟩ | ⟨-, idx, hedges, he⟩
    · exact absurd hdir hdir'
    · obtain ⟨-, rel, hrel, -⟩ := (hix.edges idx hedges).mem_inEdges.1 he
      rintro rfl
      rw [hnone] at hrel
      cases hrel
  obtain ⟨level, e, hne, hv⟩ := exists_visit_of_mem_walkLevels hfront hnext h
  rwa [hown e.id n.record (visit_eq_some hv).1]

/-- A record that the indexes do not list is returned by walks from itself at most. -/
theorem Indexed.not_recalls (hR : R.Sound) (hix : Indexed dim live alive db.ix)
    (hown : db.LoadsOwn) (hnone : live id = none) {q : RecallQuery} (hq : q.Foreign id) :
    ¬ Recalls R cfg env db id q := by
  have hlisted {c : Cand} (hc : (live c.record.id).isSome = true) : c.record.id ≠ id := by
    rintro rfl
    rw [hnone] at hc
    cases hc
  cases q with
  | search p =>
    rintro ⟨cands, cut, hres, c, hc, hid⟩
    unfold qeSearch at hres
    split at hres
    · cases hres
    · split_ifs at hres <;> cases hres <;>
        exact hlisted (hix.live_of_mem_rankedPage hR hown hc) hid
  | count p =>
    rintro ⟨-, sub, cut, -, c, hc, hid⟩
    exact hlisted (hix.live_of_mem_gather hR hown hc) hid
  | walk p hdir =>
    rintro ⟨nodes, capped, hres, n, hn, hid⟩
    unfold qeTraverse at hres
    split_ifs at hres
    have hwalk := Except.ok.inj hres
    have hn' : n ∈ (walkLevels env db p (p.depth + 1) 0 []
      [⟨p.startId, 0, none, false, false⟩]).1 := by rw [hwalk]; exact hn
    refine hix.not_mem_walkLevels hown hnone hdir ?_ hn' hid
    intro e he
    obtain rfl := mem_singleton.1 he
    exact hq

end

/-! ## The state behind a failed delete -/

/-- The delete comes to its tombstone, and the tombstone cannot be encoded or appended. -/
structure TombstoneFails (cfg : DbConfig) (env : Sample) (io : Option ℕ) (s : UsageDb F)
    (id : UInt64) (ns : Option CString) (cur : MemoryRecord) : Prop where
  phase : cfg.phase 1 = true
  load : loadRecord F s.store id = .ok cur
  owner : nsDenies ns cur = false
  fails : ¬ s.Takes cfg env io (tombstone cur env.now)

theorem Database.Unchanged.loadRecord_eq {db db' : Database F} (h : db.Unchanged db') :
    loadRecord F db'.store = loadRecord F db.store := by
  funext id
  unfold loadRecord LogFile.read
  rw [h.hash, h.bytes, h.isOpen]

section

variable {s : UsageDb F} {id : UInt64} {ns : Option CString} {cur : MemoryRecord}

/-- The state with the record out of the indexes. -/
def UsageDb.torn (s : UsageDb F) (cur : MemoryRecord) : Database F :=
  { s.toDatabase with ix := (unindexRecord s.ix cur).dropTarget cur.id }

theorem TombstoneFails.unchanged (h : TombstoneFails cfg env io s id ns cur)
    (hlive : cur.deleted = false) :
    (∃ st, (qeDeleteIo cfg env io s id ns).2 = .error st) ∧
      (s.torn cur).Unchanged (qeDeleteIo cfg env io s id ns).1.toDatabase := by
  have hfails : ¬ (s.torn cur).Takes cfg env io (tombstone cur env.now) := fun ha =>
    h.fails ⟨ha.encoded, ha.isOpen, ha.written⟩
  unfold qeDeleteIo
  simp only [h.phase, h.load, hlive, h.owner, Bool.not_true, Bool.or_self, Bool.false_eq_true,
    if_false, UsageDb.commit]
  rcases happ : (s.torn cur).appendAndHashIo cfg env io (tombstone cur env.now) with ⟨db, st | _⟩
  · unfold UsageDb.torn at happ
    rw [happ]
    exact ⟨⟨st, rfl⟩, appendAndHashIo_error happ⟩
  · exact absurd (appendAndHashIo_ok_iff.1 (by rw [happ])) hfails

theorem mem_walkLevels_start {db : Database F} {p : TraverseParams} {left : ℕ} {e : TravEdge}
    {n : TravNode} (h : visit env db p.agentFilter 0 e = some n) :
    n ∈ (walkLevels env db p (left + 1) 0 [] [e]).1 := by
  have hsome : (hashIndexGet db.store.hash e.id).isSome = true := by
    obtain ⟨entry, hentry, -⟩ := loadRecord_eq_ok.1 (visit_eq_some h).1
    rw [hentry]
    rfl
  have hresolved : (resolveFrontier db.store [] [e]).2.1 = [e] := by
    simp [resolveFrontier, traverseMaxNodes, hsome]
  have hnode : n ∈ (resolveFrontier db.store [] [e]).2.1.filterMap
      (visit env db p.agentFilter 0) := by
    rw [hresolved, mem_filterMap]
    exact ⟨e, mem_singleton_self e, h⟩
  rw [walkLevels_succ]
  dsimp only
  split
  · exact hnode
  · exact mem_append_left _ hnode

/-- A walk from the record itself shows it, whatever the indexes list. -/
theorem recalls_walk_self {R : Ranking} {db db' : Database F} {p : TraverseParams}
    {hdir : p.direction = .in} (hload : loadRecord F db'.store = loadRecord F db.store)
    (hown : db.LoadsOwn) (hedges : db'.ix.edges.isNone = db.ix.edges.isNone)
    (hstart : p.startId = id) (h : Recalls R cfg env db id (.walk p hdir)) :
    Recalls R cfg env db' id (.walk p hdir) := by
  obtain ⟨nodes, capped, hres, n, hn, hid⟩ := h
  unfold qeTraverse at hres
  split_ifs at hres with hphase hnone
  have hn' : n ∈ (walkLevels env db p (p.depth + 1) 0 []
    [⟨p.startId, 0, none, false, false⟩]).1 := by rw [Except.ok.inj hres]; exact hn
  obtain ⟨level, e, -, hv⟩ := exists_visit_of_mem_walkLevels (P := fun _ => True)
    (fun _ _ => trivial) (fun _ _ _ => trivial) hn'
  have he : e.id = p.startId := by
    rw [← hown e.id n.record (visit_eq_some hv).1, hid, hstart]
  have hvisit : visit env db' p.agentFilter 0 ⟨p.startId, 0, none, false, false⟩ =
      some ⟨n.record, 0, ⟨p.startId, 0, none, false, false⟩⟩ := by
    obtain ⟨r, hr, hnode⟩ := Option.map_eq_some_iff.1 hv
    have hrec : n.record = r := by rw [← hnode]
    unfold visit currentRecord
    rw [hload, ← he]
    unfold currentRecord at hr
    rw [hr, hrec]
    rfl
  have hmem : ⟨n.record, 0, ⟨p.startId, 0, none, false, false⟩⟩ ∈
      (walkLevels env db' p (p.depth + 1) 0 [] [⟨p.startId, 0, none, false, false⟩]).1 :=
    mem_walkLevels_start hvisit
  have hwalk : qeTraverse cfg env db' p =
      .ok (walkLevels env db' p (p.depth + 1) 0 [] [⟨p.startId, 0, none, false, false⟩]) := by
    unfold qeTraverse
    rw [hedges, if_neg hphase, if_neg hnone]
  exact ⟨_, _, hwalk, _, hmem, hid⟩

/-- In a database whose indexes list the live records, a delete that fails at its tombstone leaves
the record live, and the queries return it as before exactly if none has returned it, but for walks
from the record itself. -/
theorem failed_delete_kept_iff {R : Ranking} (hR : R.Sound) {dim : ℕ} {alive : UInt64 → Prop}
    (hs : s.Sound) (hix : Indexed dim (currentRecord F s.store) alive s.ix)
    (hroom : cur.semVectors dim ≠ [] → id.toNat < mvRoom)
    (h : TombstoneFails cfg env io s id ns cur) :
    (loadRecord F (qeDeleteIo cfg env io s id ns).1.store id = .ok cur ∧
      ∀ later q, Recalls R cfg later s.toDatabase id q →
        Recalls R cfg later (qeDeleteIo cfg env io s id ns).1.toDatabase id q) ↔
    ∀ later q, q.Foreign id → ¬ Recalls R cfg later s.toDatabase id q := by
  obtain ⟨hid, hlive⟩ := Sound.of_loadRecord hs h.load
  have hkept := (h.unchanged hlive).2
  have hload : loadRecord F (qeDeleteIo cfg env io s id ns).1.store = loadRecord F s.store :=
    hkept.loadRecord_eq
  have hown : s.toDatabase.LoadsOwn := fun x r hx => (Sound.of_loadRecord hs hx).1
  have hown' : (qeDeleteIo cfg env io s id ns).1.toDatabase.LoadsOwn := fun x r hx =>
    hown x r (by rw [← hload]; exact hx)
  have hcur : currentRecord F s.store cur.id = some cur := by
    rw [hid]
    exact currentRecord_eq_some.2 h.load
  have hix' : Indexed dim (update (currentRecord F s.store) cur.id none)
      (fun b => alive b ∧ b ≠ cur.id) (qeDeleteIo cfg env io s id ns).1.ix := by
    rw [hkept.ix]
    exact (hix.remove hcur (fun hsem => by rw [hid]; exact hroom hsem)).dropTarget cur.id
  have hhidden (later : Sample) (q : RecallQuery) (hq : q.Foreign id) :
      ¬ Recalls R cfg later (qeDeleteIo cfg env io s id ns).1.toDatabase id q := by
    refine hix'.not_recalls hR hown' ?_ hq
    rw [hid, update_self]
  constructor
  · intro hall later q hq hbefore
    exact hhidden later q hq (hall.2 later q hbefore)
  · intro hnone
    refine ⟨by rw [hload, h.load], fun later q hbefore => ?_⟩
    cases q with
    | search p => exact absurd hbefore (hnone later _ trivial)
    | count p => exact absurd hbefore (hnone later _ trivial)
    | walk p hdir =>
      by_cases hstart : p.startId = id
      · refine recalls_walk_self hload hown ?_ hstart hbefore
        rw [hkept.ix]
        change (Option.map _ (Option.map _ s.ix.edges)).isNone = _
        simp
      · exact absurd hbefore (hnone later _ hstart)

end

def draftUsage : UsageDb plainFraming := ⟨draftDb, none⟩

def byDraftTag : SearchParams := { tags := [.ofString "draft"] }

set_option maxRecDepth 20000 in
/-- The disk is full when the tombstone is written: the record is live, but is not found by its tag any
more. -/
theorem failed_delete_hides_record :
    qeCount .nothing .unlimited .zero draftUsage.toDatabase byDraftTag = .ok (1, false) ∧
      (qeDeleteIo .unlimited .zero (some 0) draftUsage 1 none).2 = .error .internal ∧
      (qeGet .zero (qeDeleteIo .unlimited .zero (some 0) draftUsage 1 none).1.toDatabase 1 none).isOk =
        true ∧
      qeCount .nothing .unlimited .zero
        (qeDeleteIo .unlimited .zero (some 0) draftUsage 1 none).1.toDatabase byDraftTag =
          .ok (0, false) :=
  ⟨by decide +kernel, by decide +kernel, by decide +kernel, by decide +kernel⟩

/-- The indexes of a database with one record that has no edges, no fact and no vectors. -/
theorem Database.single_indexed (nonces : ℕ → F.Nonce) {r : MemoryRecord} (hr : Storable r)
    (hlive : r.deleted = false) (hrels : r.relationships = []) (hfact : r.fact.triple = none)
    (hsem : r.semVectors 0 = []) :
    Indexed 0 (currentRecord F (single nonces r).store) (fun _ => True)
      (single nonces r).ix := by
  obtain ⟨-, -, hix, hload⟩ := put_spec .unlimited .zero
    (create_sound .unlimited nonces) rfl hr hlive rfl
  have hcur : currentRecord F (single nonces r).store = update (fun _ => none) r.id (some r) := by
    funext id
    unfold currentRecord single
    rw [hload]
    by_cases hid : id = r.id
    · rw [hid, update_self, update_self]
      rfl
    · rw [update_of_ne hid, update_of_ne hid, loadRecord_create]
      rfl
  rw [hcur, single, hix]
  refine (indexed_create 0 true true true fun _ => True).add rfl ?_ ⟨?_, ?_⟩ ?_
  · intro rel hrel
    rw [hrels] at hrel
    cases hrel
  · intro f _ t ht
    rw [hfact] at ht
    cases ht
  · intro e _
    rw [hrels]
    exact trivial
  · intro h
    exact absurd hsem h

theorem nothing_sound : Ranking.nothing.Sound :=
  ⟨fun _ _ _ _ h => (not_mem_nil h).elim, fun _ _ _ _ h => (not_mem_nil h).elim⟩

set_option maxRecDepth 20000 in
/-- The count by the tag has returned the record. -/
theorem draft_not_kept :
    TombstoneFails .unlimited .zero (some 0) draftUsage 1 none taggedDraft ∧
      ¬ (loadRecord plainFraming
          (qeDeleteIo .unlimited .zero (some 0) draftUsage 1 none).1.store 1 = .ok taggedDraft ∧
        ∀ later q, Recalls .nothing .unlimited later draftUsage.toDatabase 1 q →
          Recalls .nothing .unlimited later
            (qeDeleteIo .unlimited .zero (some 0) draftUsage 1 none).1.toDatabase 1 q) := by
  have hload := loadRecord_single (F := plainFraming) (fun _ => ()) taggedDraft_storable rfl
  have hsound := (single_exact (F := plainFraming) (fun _ => ()) taggedDraft_storable rfl).sound
  have hix := single_indexed (F := plainFraming) (fun _ => ()) taggedDraft_storable rfl rfl
    rfl rfl
  rw [← draftDb] at hload hsound hix
  have hfails : TombstoneFails .unlimited .zero (some 0) draftUsage 1 none taggedDraft :=
    ⟨rfl, hload, rfl, fun h => by cases h.written⟩
  refine ⟨hfails, ?_⟩
  rw [failed_delete_kept_iff nothing_sound hsound hix (fun _ => by decide) hfails]
  intro hnone
  refine hnone .zero (.count byDraftTag) trivial ⟨rfl, [], false, rfl, ?_⟩
  decide +kernel

end AegisDB
