import AegisDB.Index.Indexes
import AegisDB.Storage.Compaction

/-!
# Recovery of the semantic index

The checkpoint of the semantic index holds the nodes of the graph as of a covered prefix of the log.
`recovery_run` loads them, counts the vectors of each record from the places of its nodes, replaces
the vectors of every live record whose latest frame is behind the prefix, and at the end drops the
records that are not live any more. Without a checkpoint it indexes the vectors of every live record.

Both leave the vectors that the frames of the log stand for (`replayVectors`), as long as the ids of
the records leave room for the places: a synthetic id keeps only the lower 58 bits of the id of the
record (`checkpoint_recovers_iff`).
-/

namespace AegisDB

open Bytes List Function MemoryRecord
open Prod (fst snd)

variable {F : Framing}
variable {d : ℕ × Bytes} {log : Bytes} {n : F.Nonce}

/-! ## The vectors of a log -/

/-- A frame replaces the vectors of its record. -/
def applyVectors (dims : ℕ) (m : UInt64 → List (List F32)) (d : ℕ × Bytes) :
    UInt64 → List (List F32) :=
  match recordDecode d.2 with
  | none => m
  | some r => update m r.id (if r.deleted then [] else r.semVectors dims)

theorem applyVectors_of_decode {dims : ℕ} {m : UInt64 → List (List F32)} {r : MemoryRecord}
    (h : recordDecode d.2 = some r) :
    applyVectors dims m d = update m r.id (if r.deleted then [] else r.semVectors dims) := by
  rw [applyVectors, h]

/-- The vectors of the live records of some frames. -/
def replayVectors (dims : ℕ) (ds : List (ℕ × Bytes)) : UInt64 → List (List F32) :=
  ds.foldl (applyVectors dims) fun _ => []

/-- The frame is the latest one of an id: its entry is in the hash index, and its vectors count. -/
structure LatestFrame (dims : ℕ) (ds : List (ℕ × Bytes)) (id : UInt64) (d : ℕ × Bytes)
    (r : MemoryRecord) : Prop where
  decode : recordDecode d.2 = some r
  id_eq : r.id = id
  entry : replay ds id = some (entryOf r d.1 d.2.length)
  vectors : replayVectors dims ds id = if r.deleted then [] else r.semVectors dims

section

variable {dims : ℕ} {ds es : List (ℕ × Bytes)} {id : UInt64}

theorem replayVectors_append (ds es : List (ℕ × Bytes)) :
    replayVectors dims (ds ++ es) = es.foldl (applyVectors dims) (replayVectors dims ds) :=
  foldl_append

variable (dims) in
/-- Behind some frames, the latest frame of an id is one of the new ones, or nothing has changed. -/
theorem latestFrame_append (ds es : List (ℕ × Bytes)) (id : UInt64) :
    (∃ d ∈ es, ∃ r, LatestFrame dims (ds ++ es) id d r) ∨
      replay (ds ++ es) id = replay ds id ∧
        replayVectors dims (ds ++ es) id = replayVectors dims ds id := by
  induction es using reverseRecOn with
  | nil => simp
  | append_singleton es d ih =>
    rw [← append_assoc]
    have hreplay : replay (ds ++ es ++ [d]) = applyFrame (replay (ds ++ es)) d := replay_append _ _
    have hvecs : replayVectors dims (ds ++ es ++ [d]) =
        applyVectors dims (replayVectors dims (ds ++ es)) d := replayVectors_append _ _
    -- the last frame is of the id, or it leaves the id alone
    by_cases hd : ∃ r, recordDecode d.2 = some r ∧ r.id = id
    · obtain ⟨r, hr, rfl⟩ := hd
      refine .inl ⟨d, by simp, r, hr, rfl, ?_, ?_⟩
      · rw [hreplay, applyFrame_of_decode (o := d.1) hr, update_self]
      · rw [hvecs, applyVectors_of_decode hr, update_self]
    · have hkeep : applyFrame (replay (ds ++ es)) d id = replay (ds ++ es) id ∧
          applyVectors dims (replayVectors dims (ds ++ es)) d id =
            replayVectors dims (ds ++ es) id := by
        unfold applyFrame applyVectors
        cases hr : recordDecode d.2 with
        | none => exact ⟨rfl, rfl⟩
        | some r =>
          have hne : id ≠ r.id := fun heq => hd ⟨r, hr, heq.symm⟩
          exact ⟨update_of_ne hne _ _, update_of_ne hne _ _⟩
      rcases ih with ⟨d', hd', r, h⟩ | ⟨hsame, hsame'⟩
      · refine .inl ⟨d', mem_append_left _ hd', r, h.decode, h.id_eq, ?_, ?_⟩
        · rw [hreplay, hkeep.1, h.entry]
        · rw [hvecs, hkeep.2, h.vectors]
      · right
        rw [hreplay, hvecs, hkeep.1, hkeep.2]
        exact ⟨hsame, hsame'⟩

variable (dims) in
theorem latestFrame_of_replay (h : (replay ds id).isSome = true ∨ replayVectors dims ds id ≠ []) :
    ∃ d ∈ ds, ∃ r, LatestFrame dims ds id d r := by
  rcases latestFrame_append dims [] ds id with hlatest | ⟨hnone, hnil⟩
  · exact hlatest
  · rw [nil_append] at hnone hnil
    rcases h with h | h
    · rw [hnone] at h
      cases h
    · exact absurd hnil h

end

/-- The content of `memory.sem`. -/
structure SemCheckpoint where
  /-- The live nodes of the graph, in the order in which `hnsw_foreach_live` visits them. -/
  nodes : List (UInt64 × List F32)
  covered : ℕ

/-- `rc_rebuild_cb`: the count of a record covers the place of the node. -/
def rcRebuild (counts : UInt64 → ℕ) (node : UInt64 × List F32) : UInt64 → ℕ :=
  if counts (mvRec node.1) < node.1.toNat % 64 + 1 then
    update counts (mvRec node.1) (node.1.toNat % 64 + 1)
  else counts

def semanticIndexLoad (dims : ℕ) (c : SemCheckpoint) : SemanticIndex where
  dim := dims
  vecs syn := (c.nodes.find? fun node => node.1 = syn).map snd
  counts := c.nodes.foldl rcRebuild fun _ => 0

/-- `semantic_index_save`: the nodes are those of the graph, each once. -/
structure SavedAs (s : SemanticIndex) (nodes : List (UInt64 × List F32)) : Prop where
  nodup : (nodes.map fst).Nodup
  mem_iff : ∀ syn v, (syn, v) ∈ nodes ↔ s.vecs syn = some v

section

variable {dims : ℕ} {s : SemanticIndex} {nodes : List (UInt64 × List F32)}
  {vectors : UInt64 → List (List F32)}

theorem vecs_semanticIndexLoad (h : SavedAs s nodes) (covered : ℕ) :
    (semanticIndexLoad dims ⟨nodes, covered⟩).vecs = s.vecs := by
  funext syn
  change (nodes.find? fun node => node.1 = syn).map snd = s.vecs syn
  cases hfind : nodes.find? fun node => node.1 = syn with
  | none =>
    rw [List.find?_eq_none] at hfind
    cases hv : s.vecs syn with
    | none => rfl
    | some v => simpa using hfind (syn, v) ((h.mem_iff syn v).2 hv)
  | some node =>
    obtain ⟨syn', v⟩ := node
    have hsyn : syn' = syn := by simpa using find?_some hfind
    subst hsyn
    exact ((h.mem_iff syn' v).1 (mem_of_find?_eq_some hfind)).symm

/-- The count of a record is behind the places of its nodes, and not further. -/
theorem lt_foldl_rcRebuild_iff (nodes : List (UInt64 × List F32)) (counts : UInt64 → ℕ)
    (id : UInt64) (k : ℕ) :
    k < nodes.foldl rcRebuild counts id ↔
      k < counts id ∨ ∃ node ∈ nodes, mvRec node.1 = id ∧ k ≤ node.1.toNat % 64 := by
  induction nodes generalizing counts with
  | nil => simp
  | cons node nodes ih =>
    have hhead : k < rcRebuild counts node id ↔
        k < counts id ∨ mvRec node.1 = id ∧ k ≤ node.1.toNat % 64 := by
      unfold rcRebuild
      by_cases hid : mvRec node.1 = id
      · subst hid
        simp only [true_and]
        split
        · rw [update_self]
          omega
        · omega
      · simp only [hid, false_and, or_false]
        split
        · rw [update_of_ne (Ne.symm hid)]
        · rfl
    rw [foldl_cons, ih, hhead, or_assoc]
    simp

/-- A checkpoint of an index that is exact is loaded as that index. -/
theorem SemExact.load (h : SemExact vectors s) (hroom : ∀ id, vectors id ≠ [] → id.toNat < mvRoom)
    (hsaved : SavedAs s nodes) (covered : ℕ) :
    SemExact vectors (semanticIndexLoad dims ⟨nodes, covered⟩) where
  counts id := by
    refine eq_of_forall_lt_iff fun k => (lt_foldl_rcRebuild_iff nodes _ id k).trans ?_
    constructor
    · -- a node of the record is at the place of a vector
      rintro (hzero | ⟨⟨syn, v⟩, hmem, hrec, hle⟩)
      · cases hzero
      · have hv := (hsaved.mem_iff syn v).1 hmem
        rw [h.vecs, hrec] at hv
        exact hle.trans_lt (List.getElem?_eq_some_iff.1 hv).1
    · -- and each vector has its node
      intro hk
      have hid := hroom id (ne_nil_of_length_pos (Nat.zero_lt_of_lt hk))
      have hslot := hk.trans_le (h.slots id)
      have hv := h.vecs_mvSyn hid hslot
      rw [getElem?_eq_getElem hk] at hv
      refine .inr ⟨_, (hsaved.mem_iff _ _).2 hv, (mvRec_mvSyn_iff hslot).2 hid, ?_⟩
      exact (slot_mvSyn id hslot).ge
  vecs syn := by rw [vecs_semanticIndexLoad hsaved, h.vecs]
  slots := h.slots

end

/-! ## The second pass -/

/-- The record has vectors of the configured dimension. -/
def MemoryRecord.Usable (dims : ℕ) (r : MemoryRecord) : Prop :=
  r.embedding.dim = dims ∧ r.embedding.floats ≠ [] ∧ r.embedding.vecCount ≠ 0

instance (dims : ℕ) (r : MemoryRecord) : Decidable (r.Usable dims) :=
  inferInstanceAs (Decidable (_ ∧ _))

/-- What the second pass does with the vectors of a live record at `off`; `covered` is the end of a
loaded checkpoint. -/
def recoverVectors (dims : ℕ) (covered : Option ℕ) (off : ℕ) (s : SemanticIndex)
    (r : MemoryRecord) : SemanticIndex :=
  if r.Usable dims ∧ covered.all (fun c => c ≤ off) = true then semanticIndexAdd s r.id r.embedding
  else if covered.any (fun c => c ≤ off) then semanticIndexRemove s r.id
  else s

/-- The second pass over some entries of the hash index. -/
def recoverPass (F : Framing) (dims : ℕ) (covered : Option ℕ) (log : Bytes)
    (entries : List (UInt64 × HashEntry)) (s : SemanticIndex) : SemanticIndex :=
  entries.foldl (fun s x =>
    match (logRead F log x.2.offset).bind recordDecode with
    | none => s
    | some r => recoverVectors dims covered x.2.offset s r) s

/-- `semantic_index_reconcile`; `recs` are the records with a count, in the order of the buckets. -/
def semanticIndexReconcile (recs : List UInt64) (keep : UInt64 → Bool) (s : SemanticIndex) :
    SemanticIndex :=
  recs.foldl (fun s id => if keep id then s else semanticIndexRemove s id) s

/-- The index behind the second pass, with a checkpoint that is loaded. -/
def recoverLoaded (F : Framing) (dims : ℕ) (got : Recovered) (c : SemCheckpoint) : SemanticIndex :=
  recoverPass F dims (some c.covered) got.log (liveEntries got.hash) (semanticIndexLoad dims c)

/-- The semantic index that `recovery_run` leaves; a missing checkpoint, or one that covers more
than the log, is ignored. -/
def recoverSemantic (F : Framing) (dims : ℕ) (got : Recovered) (sem : Option SemCheckpoint)
    (recs : List UInt64) : SemanticIndex :=
  match sem.filter fun c => c.covered ≤ got.log.length with
  | none => recoverPass F dims none got.log (liveEntries got.hash) (semanticIndexCreate dims)
  | some c =>
    semanticIndexReconcile recs (fun id => (hashIndexGet got.hash id).isSome)
      (recoverLoaded F dims got c)

section

variable {dims : ℕ} {s : SemanticIndex} {vectors : UInt64 → List (List F32)} {r : MemoryRecord}

/-- With as many vectors as there are places, the usable records are those with vectors. -/
theorem MemoryRecord.usable_iff (h : r.embedding.vecCount ≤ mvSlots) :
    r.Usable dims ↔ r.semVectors dims ≠ [] := by
  have hvecs : r.embedding.vectors ≠ [] ↔ r.embedding.vecCount ≠ 0 := by
    rw [← length_pos_iff_ne_nil, Embedding.length_vectors, Nat.pos_iff_ne_zero]
  unfold MemoryRecord.Usable semVectors
  rw [Embedding.floats_ne_nil]
  split
  · rw [hvecs]
    tauto
  · simp only [ne_eq, not_true_eq_false, iff_false]
    tauto

theorem MemoryRecord.semVectors_of_usable (h : r.embedding.vecCount ≤ mvSlots)
    (hr : r.Usable dims) : r.semVectors dims = r.embedding.vectors := by
  have hne := (usable_iff h).1 hr
  unfold semVectors at hne ⊢
  split at hne
  · rename_i hc
    rw [if_pos hc]
  · exact absurd rfl hne

/-- The vectors of a record in the place of those that the index has of it. -/
theorem SemExact.assign (h : SemExact vectors s) (hdim : s.dim = dims)
    (hslots : r.embedding.vecCount ≤ mvSlots) (hroom : r.Usable dims → r.id.toNat < mvRoom)
    (hroom' : vectors r.id ≠ [] → r.id.toNat < mvRoom) :
    SemExact (update vectors r.id (r.semVectors dims))
      (if r.Usable dims then semanticIndexAdd s r.id r.embedding else semanticIndexRemove s r.id) := by
  split
  · rename_i hr
    rw [semVectors_of_usable hslots hr]
    exact h.add (hroom hr) (hr.1.trans hdim.symm) hr.2.2 hslots
  · rename_i hr
    rw [usable_iff hslots, not_not] at hr
    rw [hr]
    exact h.remove hroom'

/-- What the second pass finds for an entry: its record. The vectors to be are the record's if the
frame is behind the checkpoint, and else those that were loaded. -/
structure ReadsEntry (F : Framing) (dims : ℕ) (covered : Option ℕ) (log : Bytes)
    (loaded target : UInt64 → List (List F32)) (x : UInt64 × HashEntry) (r : MemoryRecord) :
    Prop where
  read : (logRead F log x.2.offset).bind recordDecode = some r
  id_eq : r.id = x.1
  slots : r.embedding.vecCount ≤ mvSlots
  room : x.1.toNat < mvRoom
  behind : covered.all (fun c => c ≤ x.2.offset) = true → target x.1 = r.semVectors dims
  before : covered.all (fun c => c ≤ x.2.offset) = false → target x.1 = loaded x.1
  empty : covered = none → loaded x.1 = []

theorem SemExact.recoverVectors {covered : Option ℕ} {target : UInt64 → List (List F32)}
    {x : UInt64 × HashEntry} (h : SemExact vectors s) (hdim : s.dim = dims)
    (hx : ReadsEntry F dims covered log vectors target x r) :
    SemExact (update vectors x.1 (target x.1))
      (recoverVectors dims covered x.2.offset s r) := by
  have hroom : r.id.toNat < mvRoom := hx.id_eq ▸ hx.room
  have hassign := h.assign hdim hx.slots (fun _ => hroom) fun _ => hroom
  rw [hx.id_eq] at hassign
  unfold AegisDB.recoverVectors
  cases hall : covered.all fun c => c ≤ x.2.offset with
  | false =>
    -- the frame is before the end of the checkpoint
    have hany : covered.any (fun c => c ≤ x.2.offset) = false := by
      cases covered with
      | none => rfl
      | some c => exact hall
    rw [if_neg (by simp), hany, if_neg (by simp), hx.before hall, update_eq_self]
    exact h
  | true =>
    rw [hx.behind hall]
    by_cases hr : r.Usable dims
    · rw [if_pos hr] at hassign
      rwa [if_pos ⟨hr, rfl⟩, hx.id_eq]
    · rw [if_neg hr] at hassign
      rw [if_neg fun hc => hr hc.1]
      cases covered with
      | none =>
        rw [usable_iff hx.slots, not_not] at hr
        rw [Option.any_none, if_neg (by simp), hr, ← hx.empty rfl, update_eq_self]
        exact h
      | some c =>
        have hany : (some c).any (fun c => decide (c ≤ x.2.offset)) = true := hall
        rwa [if_pos hany, hx.id_eq]

theorem dim_recoverVectors (covered : Option ℕ) (off : ℕ) (s : SemanticIndex) (r : MemoryRecord) :
    (AegisDB.recoverVectors dims covered off s r).dim = s.dim := by
  unfold AegisDB.recoverVectors
  split
  · exact dim_semanticIndexAdd ..
  · split
    · exact dim_semanticIndexRemove ..
    · rfl

/-- The second pass leaves the vectors to be for its entries, and the loaded ones elsewhere. -/
theorem SemExact.recoverPass {covered : Option ℕ} {target : UInt64 → List (List F32)}
    {entries : List (UInt64 × HashEntry)} (h : SemExact vectors s) (hdim : s.dim = dims)
    (hnodup : (entries.map fst).Nodup)
    (hread : ∀ x ∈ entries, ∃ r, ReadsEntry F dims covered log vectors target x r) :
    SemExact (fun id => if id ∈ entries.map fst then target id else vectors id)
        (recoverPass F dims covered log entries s) ∧
      (AegisDB.recoverPass F dims covered log entries s).dim = dims := by
  induction entries generalizing s vectors with
  | nil => simpa [AegisDB.recoverPass] using ⟨h, hdim⟩
  | cons x entries ih =>
    obtain ⟨hx, hnodup⟩ := nodup_cons.1 hnodup
    obtain ⟨r, hr⟩ := hread x mem_cons_self
    have hstep : AegisDB.recoverPass F dims covered log (x :: entries) s =
        AegisDB.recoverPass F dims covered log entries
          (AegisDB.recoverVectors dims covered x.2.offset s r) := by
      simp only [AegisDB.recoverPass, foldl_cons, hr.read]
    -- the other entries are of other ids
    have hne {id : UInt64} (hid : id ∈ entries.map fst) : id ≠ x.1 := by
      rintro rfl
      exact hx hid
    obtain ⟨hexact, hdim'⟩ := ih (h.recoverVectors hdim hr)
      ((dim_recoverVectors covered _ s r).trans hdim) hnodup fun y hy => by
        obtain ⟨r', hr'⟩ := hread y (mem_cons_of_mem x hy)
        have hy' := update_of_ne (hne (mem_map_of_mem hy)) (target x.1) vectors
        exact ⟨r', { hr' with before := fun hc => hy'.symm ▸ hr'.before hc
                              empty := fun hc => hy'.symm ▸ hr'.empty hc }⟩
    rw [hstep]
    refine ⟨?_, hdim'⟩
    convert hexact using 2 with id
    by_cases hid : id = x.1
    · subst hid
      rw [if_pos (by simp), if_neg hx, update_self]
    · simp only [map_cons, mem_cons, hid, false_or, update_of_ne hid]

/-- A reconciled index has the vectors of the records that are kept. -/
theorem SemExact.reconcile (h : SemExact vectors s) (hroom : ∀ id, vectors id ≠ [] → id.toNat < mvRoom)
    (keep : UInt64 → Bool) (recs : List UInt64) :
    SemExact (fun id => if id ∈ recs ∧ keep id = false then [] else vectors id)
      (semanticIndexReconcile recs keep s) := by
  induction recs generalizing s vectors with
  | nil => simpa [semanticIndexReconcile] using h
  | cons x recs ih =>
    have hstep : semanticIndexReconcile (x :: recs) keep s =
        semanticIndexReconcile recs keep (if keep x then s else semanticIndexRemove s x) :=
      foldl_cons ..
    rw [hstep]
    cases hx : keep x with
    | true =>
      rw [if_pos rfl]
      convert ih h hroom using 2 with id
      by_cases hid : id = x
      · simp [hid, hx]
      · simp [hid]
    | false =>
      have hroom' : ∀ id, update vectors x [] id ≠ [] → id.toNat < mvRoom := by
        intro id hne
        by_cases hid : id = x
        · simp [hid] at hne
        · exact hroom id (by rwa [update_of_ne hid] at hne)
      rw [if_neg (by simp)]
      convert ih (h.remove (hroom x)) hroom' using 2 with id
      by_cases hid : id = x
      · simp [hid, hx]
      · simp [hid]

theorem dim_semanticIndexReconcile (recs : List UInt64) (keep : UInt64 → Bool) (s : SemanticIndex) :
    (semanticIndexReconcile recs keep s).dim = s.dim := by
  refine foldlRecOn recs _ (motive := fun t : SemanticIndex => t.dim = s.dim) rfl
    fun t ht id _ => ?_
  split
  · exact ht
  · exact (dim_semanticIndexRemove t id).trans ht

end

/-! ## The frames of a log -/

theorem logRead_of_mem_placed {fs : List (F.Nonce × Bytes)} (hfs : Appendable fs) {b : Bytes}
    (h : d ∈ placed F b.length (fs.map snd)) :
    logRead F (b ++ framesBytes F fs) d.1 = some d.2 := by
  induction fs generalizing b with
  | nil => cases h
  | cons x fs ih =>
    obtain ⟨n, p⟩ := x
    have hbytes : b ++ framesBytes F ((n, p) :: fs) = b ++ F.frame n p ++ framesBytes F fs := by
      rw [append_assoc]
      rfl
    rw [hbytes]
    rcases mem_cons.1 h with rfl | h
    · rw [append_assoc]
      exact logRead_at (hfs (n, p) mem_cons_self)
    · refine ih (fun y hy => hfs y (mem_cons_of_mem _ hy)) ?_
      rwa [length_append, F.length_frame, ← add_assoc]

theorem mem_placed_bounds {ps : List Bytes} {o : ℕ} (h : d ∈ placed F o ps) :
    o ≤ d.1 ∧ d.1 < o + framesSize F ps := by
  induction ps generalizing o with
  | nil => cases h
  | cons p ps ih =>
    have hpos := F.overhead_pos
    rw [framesSize_cons]
    rcases mem_cons.1 h with rfl | h
    · dsimp only
      omega
    · have := ih h
      omega

/-- The first pass has rebuilt the hash index from the frames of the log. -/
structure Rebuilds (F : Framing) (got : Recovered) (fs : List (F.Nonce × Bytes)) : Prop where
  log : got.log = framesBytes F fs
  lookup : got.hash.lookup = replay (placed F 0 (fs.map snd))

/-- The records of some frames have as many vectors as there are places. -/
def VectorsFit (fs : List (F.Nonce × Bytes)) : Prop :=
  ∀ x ∈ fs, ∀ r, recordDecode x.2 = some r → r.embedding.vecCount ≤ mvSlots

/-- The ids of the records in some frames leave room for the places. -/
def IdsFit (fs : List (F.Nonce × Bytes)) : Prop := ∀ id ∈ idsOf fs, id.toNat < mvRoom

section

variable {dims : ℕ} {got : Recovered} {fs pre tail : List (F.Nonce × Bytes)}

/-- The vectors of the live records of some frames. -/
def logVectors (dims : ℕ) (fs : List (F.Nonce × Bytes)) : UInt64 → List (List F32) :=
  replayVectors dims (placed F 0 (fs.map snd))

theorem mem_idsOf_of_latestFrame {ds : List (ℕ × Bytes)} {id : UInt64} {o : ℕ} {r : MemoryRecord}
    (h : LatestFrame dims ds id d r) (hd : d ∈ placed F o (fs.map snd)) :
    ∃ x ∈ fs, x.2 = d.2 ∧ id ∈ idsOf fs := by
  obtain ⟨x, hx, hxd⟩ := mem_map.1 (mem_of_mem_placed hd)
  exact ⟨x, hx, hxd, x, hx, r, by rw [hxd, h.decode], h.id_eq⟩

theorem IdsFit.room (h : IdsFit fs) : ∀ id, logVectors dims fs id ≠ [] → id.toNat < mvRoom := by
  intro id hne
  obtain ⟨d, hd, r, hr⟩ := latestFrame_of_replay dims (.inr hne)
  obtain ⟨-, -, -, hid⟩ := mem_idsOf_of_latestFrame hr hd
  exact h id hid

/-- What the second pass reads of an entry is the latest frame of its id. -/
theorem Rebuilds.read (h : Rebuilds F got fs) (hfs : Appendable fs) (hvecs : VectorsFit fs)
    {x : UInt64 × HashEntry} {r : MemoryRecord} (hd : d ∈ placed F 0 (fs.map snd))
    (hr : LatestFrame dims (placed F 0 (fs.map snd)) x.1 d r) (hx : x ∈ liveEntries got.hash) :
    (logRead F got.log x.2.offset).bind recordDecode = some r ∧ x.2.offset = d.1 ∧
      r.embedding.vecCount ≤ mvSlots ∧ x.1 ∈ idsOf fs ∧ logVectors dims fs x.1 = r.semVectors dims := by
  obtain ⟨hlook, hlive⟩ := ((liveOf_liveEntries got.hash).mem_iff x).1 hx
  rw [h.lookup, hr.entry] at hlook
  have hentry := Option.some.inj hlook
  have hoffset : x.2.offset = d.1 := by rw [← hentry]; rfl
  have hdel : r.deleted = false := by
    rw [← hentry] at hlive
    exact hlive
  obtain ⟨y, hy, hyd, hid⟩ := mem_idsOf_of_latestFrame hr hd
  have hread := logRead_of_mem_placed (b := []) hfs hd
  rw [nil_append] at hread
  refine ⟨?_, hoffset, hvecs y hy r (by rw [hyd, hr.decode]), hid, ?_⟩
  · rw [h.log, hoffset, hread, Option.bind_some, hr.decode]
  · rw [logVectors, hr.vectors, hdel]
    rfl

theorem mem_liveEntries_iff (h : HashIndex) (id : UInt64) :
    id ∈ (liveEntries h).map fst ↔ (hashIndexGet h id).isSome = true := by
  rw [Option.isSome_iff_exists, mem_map]
  simp only [hashIndexGet_eq_some, (liveOf_liveEntries h).mem_iff]
  constructor
  · rintro ⟨⟨_, e⟩, he, rfl⟩
    exact ⟨e, he⟩
  · rintro ⟨e, he⟩
    exact ⟨(id, e), he, rfl⟩

theorem Rebuilds.mem_live (h : Rebuilds F got fs) {id : UInt64} (hne : logVectors dims fs id ≠ []) :
    id ∈ (liveEntries got.hash).map fst := by
  obtain ⟨d, -, r, hr⟩ := latestFrame_of_replay dims (.inr hne)
  have hdel : r.deleted = false := by
    rw [logVectors, hr.vectors] at hne
    cases hdel : r.deleted with
    | false => rfl
    | true =>
      rw [hdel] at hne
      exact absurd rfl hne
  refine mem_map.2 ⟨(id, entryOf r d.1 d.2.length), ?_, rfl⟩
  exact ((liveOf_liveEntries got.hash).mem_iff _).2 ⟨by rw [h.lookup, hr.entry], hdel⟩

theorem Rebuilds.rebuilt (h : Rebuilds F got fs) (hfs : Appendable fs) (hvecs : VectorsFit fs)
    (hids : IdsFit fs) (recs : List UInt64) :
    SemExact (logVectors dims fs) (recoverSemantic F dims got none recs) ∧
      (recoverSemantic F dims got none recs).dim = dims := by
  have hentries : ∀ x ∈ liveEntries got.hash, ∃ r,
      ReadsEntry F dims none got.log (fun _ => []) (logVectors dims fs) x r := by
    intro x hx
    obtain ⟨hlook, -⟩ := ((liveOf_liveEntries got.hash).mem_iff x).1 hx
    rw [h.lookup] at hlook
    obtain ⟨d, hd, r, hr⟩ := latestFrame_of_replay dims (.inl (by rw [hlook]; rfl))
    obtain ⟨hread, -, hslots, hid, htarget⟩ := h.read hfs hvecs hd hr hx
    exact ⟨r, hread, hr.id_eq, hslots, hids _ hid, fun _ => htarget, nofun, fun _ => rfl⟩
  obtain ⟨hexact, hdim⟩ := (semExact_create dims).recoverPass rfl
    (liveOf_liveEntries got.hash).nodup hentries
  refine ⟨?_, hdim⟩
  have hview : (fun id => if id ∈ (liveEntries got.hash).map fst then logVectors dims fs id
      else []) = logVectors dims fs := by
    funext id
    by_cases hnil : logVectors dims fs id = []
    · simp [hnil]
    · rw [if_pos (h.mem_live hnil)]
  rwa [hview] at hexact

/-- With a checkpoint of the first frames, the second pass leaves the vectors of the live records,
and of the others those of the checkpoint. -/
theorem Rebuilds.loaded (h : Rebuilds F got (pre ++ tail)) (hfs : Appendable (pre ++ tail))
    (hvecs : VectorsFit (pre ++ tail)) (hids : IdsFit (pre ++ tail)) {s : SemanticIndex}
    {nodes : List (UInt64 × List F32)} (hs : SemExact (logVectors dims pre) s)
    (hsaved : SavedAs s nodes) :
    SemExact (fun id => if id ∈ (liveEntries got.hash).map fst then
          logVectors dims (pre ++ tail) id else logVectors dims pre id)
        (recoverLoaded F dims got ⟨nodes, framesSize F (pre.map snd)⟩) ∧
      (recoverLoaded F dims got ⟨nodes, framesSize F (pre.map snd)⟩).dim = dims := by
  have hpre : IdsFit pre := fun id ⟨x, hx, hr⟩ => hids id ⟨x, mem_append_left _ hx, hr⟩
  have hplaced : placed F 0 ((pre ++ tail).map snd) = placed F 0 (pre.map snd) ++
      placed F (framesSize F (pre.map snd)) (tail.map snd) := by
    rw [map_append, placed_append, Nat.zero_add]
  refine (hs.load hpre.room hsaved _).recoverPass rfl (liveOf_liveEntries got.hash).nodup ?_
  intro x hx
  rcases latestFrame_append dims (placed F 0 (pre.map snd))
    (placed F (framesSize F (pre.map snd)) (tail.map snd)) x.1 with
      ⟨d, hd, r, hr⟩ | ⟨hsame, hsame'⟩
  · -- the latest frame is behind the checkpoint
    rw [← hplaced] at hr
    have hd' : d ∈ placed F 0 ((pre ++ tail).map snd) := by
      rw [hplaced]
      exact mem_append_right _ hd
    obtain ⟨hread, hoffset, hslots, hid, htarget⟩ := h.read hfs hvecs hd' hr hx
    have hbehind := (mem_placed_bounds hd).1
    refine ⟨r, hread, hr.id_eq, hslots, hids _ hid, fun _ => htarget, fun hc => ?_, nofun⟩
    rw [hoffset] at hc
    simp [hbehind] at hc
  · -- it is in front of its end
    obtain ⟨hlook, hlive⟩ := ((liveOf_liveEntries got.hash).mem_iff x).1 hx
    rw [h.lookup, hplaced, hsame] at hlook
    obtain ⟨d, hd, r, hr⟩ := latestFrame_of_replay dims (.inl (by rw [hlook]; rfl))
    have hr' : LatestFrame dims (placed F 0 ((pre ++ tail).map snd)) x.1 d r := by
      rw [hplaced]
      exact ⟨hr.decode, hr.id_eq, hsame.trans hr.entry, hsame'.trans hr.vectors⟩
    have hd' : d ∈ placed F 0 ((pre ++ tail).map snd) := by
      rw [hplaced]
      exact mem_append_left _ hd
    obtain ⟨hread, hoffset, hslots, hid, htarget⟩ := h.read hfs hvecs hd' hr' hx
    have hbefore := (mem_placed_bounds hd).2
    refine ⟨r, hread, hr.id_eq, hslots, hids _ hid, fun _ => htarget, fun _ => ?_, nofun⟩
    rw [logVectors, hplaced, hsame']
    rfl

/-- With a checkpoint of the first frames, recovery leaves the vectors of the log. -/
theorem Rebuilds.reloaded (h : Rebuilds F got (pre ++ tail)) (hfs : Appendable (pre ++ tail))
    (hvecs : VectorsFit (pre ++ tail)) (hids : IdsFit (pre ++ tail)) {s : SemanticIndex}
    {nodes : List (UInt64 × List F32)} (hs : SemExact (logVectors dims pre) s)
    (hsaved : SavedAs s nodes) {recs : List UInt64}
    (hrecs : ∀ id, id ∈ recs ↔ (recoverLoaded F dims got
      ⟨nodes, framesSize F (pre.map snd)⟩).counts id ≠ 0) :
    SemExact (logVectors dims (pre ++ tail))
        (recoverSemantic F dims got (some ⟨nodes, framesSize F (pre.map snd)⟩) recs) ∧
      (recoverSemantic F dims got (some ⟨nodes, framesSize F (pre.map snd)⟩) recs).dim = dims := by
  obtain ⟨hexact, hdim⟩ := h.loaded hfs hvecs hids hs hsaved
  have hpre : IdsFit pre := fun id ⟨x, hx, hr⟩ => hids id ⟨x, mem_append_left _ hx, hr⟩
  have hcovered : framesSize F (pre.map snd) ≤ got.log.length := by
    rw [h.log, length_framesBytes, map_append, framesSize_append]
    omega
  have heq : recoverSemantic F dims got (some ⟨nodes, framesSize F (pre.map snd)⟩) recs =
      semanticIndexReconcile recs (fun id => (hashIndexGet got.hash id).isSome)
        (recoverLoaded F dims got ⟨nodes, framesSize F (pre.map snd)⟩) := by
    rw [recoverSemantic, Option.filter_some, if_pos (decide_eq_true hcovered)]
  rw [heq, dim_semanticIndexReconcile]
  refine ⟨?_, hdim⟩
  have hroom : ∀ id, (if id ∈ (liveEntries got.hash).map fst then
      logVectors dims (pre ++ tail) id else logVectors dims pre id) ≠ [] → id.toNat < mvRoom := by
    intro id
    split
    · exact hids.room id
    · exact hpre.room id
  have hkept := hexact.reconcile hroom (fun id => (hashIndexGet got.hash id).isSome) recs
  have hview : (fun id => if id ∈ recs ∧ (hashIndexGet got.hash id).isSome = false then []
      else if id ∈ (liveEntries got.hash).map fst then logVectors dims (pre ++ tail) id
      else logVectors dims pre id) = logVectors dims (pre ++ tail) := by
    funext id
    by_cases hlive : id ∈ (liveEntries got.hash).map fst
    · rw [if_pos hlive, (mem_liveEntries_iff _ _).1 hlive, if_neg (by simp)]
    · have hnil : logVectors dims (pre ++ tail) id = [] := by
        by_contra hne
        exact hlive (h.mem_live hne)
      rw [if_neg hlive, hnil, ite_eq_left_iff]
      intro hdead
      -- a record that is not reconciled has no vectors in the checkpoint either
      have hrec : id ∉ recs := fun hrec => by
        rw [mem_liveEntries_iff] at hlive
        exact hdead ⟨hrec, by simpa using hlive⟩
      rw [hrecs, not_not, hexact.counts, if_neg hlive] at hrec
      exact eq_nil_of_length_eq_zero hrec
  rwa [hview] at hkept

end

/-- A log of records with ids of a set and as many vectors as there are places. -/
structure LogOver (A : Set UInt64) (fs : List (F.Nonce × Bytes)) : Prop where
  appendable : Appendable fs
  vectors : VectorsFit fs
  ids : idsOf fs ⊆ A

/-- The semantic index beside a log, as the operations keep it. -/
inductive SemState (F : Framing) (dims : ℕ) (A : Set UInt64) :
    List (F.Nonce × Bytes) → SemanticIndex → Prop
  | empty : SemState F dims A [] (semanticIndexCreate dims)
  /-- A frame of a record with vectors: an insert, or an update that replaces them. -/
  | stored {fs s n p r} : SemState F dims A fs s → LogOver A (fs ++ [(n, p)]) →
      recordDecode p = some r → r.deleted = false → r.Usable dims →
      SemState F dims A (fs ++ [(n, p)]) (semanticIndexAdd s r.id r.embedding)
  /-- A frame of a record without vectors: a delete, or an update that clears them. -/
  | dropped {fs s n p r} : SemState F dims A fs s → LogOver A (fs ++ [(n, p)]) →
      recordDecode p = some r → r.deleted = true ∨ ¬ r.Usable dims →
      SemState F dims A (fs ++ [(n, p)]) (semanticIndexRemove s r.id)
  /-- A log with the same vectors: behind a frame that changes other fields of its record, or behind
  a compaction. -/
  | kept {fs gs s} : SemState F dims A fs s → LogOver A gs →
      logVectors dims gs = logVectors dims fs → SemState F dims A gs s
  | rebuilt {fs got} (recs : List UInt64) : LogOver A fs → Rebuilds F got fs →
      SemState F dims A fs (recoverSemantic F dims got none recs)
  | reloaded {pre tail s nodes got recs} : SemState F dims A pre s → SavedAs s nodes →
      LogOver A (pre ++ tail) → Rebuilds F got (pre ++ tail) →
      (∀ id, id ∈ recs ↔ (recoverLoaded F dims got
        ⟨nodes, framesSize F (pre.map snd)⟩).counts id ≠ 0) →
      SemState F dims A (pre ++ tail)
        (recoverSemantic F dims got (some ⟨nodes, framesSize F (pre.map snd)⟩) recs)

section

variable {dims : ℕ} {A : Set UInt64} {fs : List (F.Nonce × Bytes)} {s : SemanticIndex}

theorem LogOver.idsFit (h : LogOver A fs) (hA : ∀ id ∈ A, id.toNat < mvRoom) : IdsFit fs :=
  fun id hid => hA id (h.ids hid)

theorem logVectors_concat {p : Bytes} {r : MemoryRecord} (hr : recordDecode p = some r) :
    logVectors dims (fs ++ [(n, p)]) = update (logVectors dims fs) r.id
      (if r.deleted then [] else r.semVectors dims) := by
  rw [logVectors, map_append, placed_append, replayVectors_append]
  exact applyVectors_of_decode hr

/-- With ids that leave room for the places, the index beside a log holds its vectors. -/
theorem SemState.exact (hA : ∀ id ∈ A, id.toNat < mvRoom) (h : SemState F dims A fs s) :
    SemExact (logVectors dims fs) s ∧ s.dim = dims := by
  induction h with
  | empty => exact ⟨semExact_create dims, rfl⟩
  | @stored fs s n p r _ hlog hr hdel huse ih =>
    have hmem : (n, p) ∈ fs ++ [(n, p)] := by simp
    have hroom : r.id.toNat < mvRoom := hA _ (hlog.ids ⟨(n, p), hmem, r, hr, rfl⟩)
    have hassign := ih.1.assign ih.2 (hlog.vectors _ hmem r hr) (fun _ => hroom) fun _ => hroom
    rw [if_pos huse] at hassign
    rw [logVectors_concat hr, hdel, dim_semanticIndexAdd]
    exact ⟨hassign, ih.2⟩
  | @dropped fs s n p r _ hlog hr hdrop ih =>
    have hmem : (n, p) ∈ fs ++ [(n, p)] := by simp
    have hroom : r.id.toNat < mvRoom := hA _ (hlog.ids ⟨(n, p), hmem, r, hr, rfl⟩)
    have hnil : (if r.deleted then [] else r.semVectors dims) = [] := by
      rcases hdrop with hdel | huse
      · rw [if_pos hdel]
      · rw [usable_iff (hlog.vectors _ hmem r hr), not_not] at huse
        simp [huse]
    rw [logVectors_concat hr, hnil, dim_semanticIndexRemove]
    exact ⟨ih.1.remove fun _ => hroom, ih.2⟩
  | kept _ _ hsame ih => rwa [hsame]
  | rebuilt recs hlog hgot =>
    exact hgot.rebuilt hlog.appendable hlog.vectors (hlog.idsFit hA) recs
  | reloaded _ hsaved hlog hgot hrecs ih =>
    exact hgot.reloaded hlog.appendable hlog.vectors (hlog.idsFit hA) ih.1 hsaved hrecs

end

/-! ## The two recoveries -/

/-- The vectors of a record: those in the places that its count covers. -/
def SemanticIndex.vectorsOf (s : SemanticIndex) (id : UInt64) : List (List F32) :=
  (List.range (s.counts id)).filterMap fun slot => s.vecs (mvSyn id slot)

/-- For the logs over some ids, recovery with a checkpoint ends with the vectors that recovery
without it finds for the live records. -/
def RecoversAlike (F : Framing) (A : Set UInt64) : Prop :=
  ∀ (dims : ℕ) (pre tail : List (F.Nonce × Bytes)) (s : SemanticIndex)
    (nodes : List (UInt64 × List F32)) (index : Option Checkpoint) (recs : List UInt64),
    LogOver A (pre ++ tail) → SemState F dims A pre s → SavedAs s nodes →
    (∀ c ∈ index, c.Covers F (pre ++ tail)) →
    let got := recoveryRun F (framesBytes F (pre ++ tail)) index
    let sem : SemCheckpoint := ⟨nodes, framesSize F (pre.map snd)⟩
    (∀ id, id ∈ recs ↔ (recoverLoaded F dims got sem).counts id ≠ 0) →
    ∀ id, (hashIndexGet got.hash id).isSome = true →
      (recoverSemantic F dims got (some sem) recs).vectorsOf id =
        (recoverSemantic F dims got none recs).vectorsOf id

/-- The first pass of recovery, with a checkpoint of the hash index or without. -/
theorem rebuilds_recoveryRun {fs : List (F.Nonce × Bytes)} (hfs : Appendable fs)
    {index : Option Checkpoint} (hidx : ∀ c ∈ index, c.Covers F fs) :
    Rebuilds F (recoveryRun F (framesBytes F fs) index) fs := by
  obtain ⟨hlog, hlook⟩ := recoveryRun_cut hfs le_rfl fun c hc _ => hidx c hc
  rw [take_length, wholeFrames_eq_self (length_framesBytes fs).ge] at hlog hlook
  exact ⟨hlog, hlook⟩

theorem length_oneFloat (x : F32) : [x].length = 1 * 1 := rfl

def vectorRecord (id : UInt64) (x : F32) : MemoryRecord :=
  { (WireRecord.bare id false).val with embedding := ⟨1, 1, [x], length_oneFloat x⟩ }

theorem recordDecode_vectorRecord (id : UInt64) (x : F32) :
    recordDecode (recordBytes (vectorRecord id x)) = some (vectorRecord id x) :=
  recordDecode_recordBytes
    { (WireRecord.bare id false).property with
      vec_count := by simp [vectorRecord, uint32Max]
      dim := by simp [vectorRecord, uint32Max]
      dim_iff := by simp [vectorRecord]
      importance := F32.zero_inUnit
      confidence := F32.one_inUnit }

theorem length_vectorRecord_le (id : UInt64) (x : F32) :
    (recordBytes (vectorRecord id x)).length ≤ maxPayload := by
  simp only [recordBytes, putHead, putLenstr, putTags, putEmbedding, putRelationships, putFact,
    putDerivation, putData, vectorRecord, WireRecord.bare, recordInit, length_append,
    length_leBytes, flatMap_nil, length_nil, flatMap_cons, if_true, maxPayload]
  simp [Fact.zeroed]

theorem semanticIndexAdd_vectorRecord (id : UInt64) (x : F32) :
    semanticIndexAdd (semanticIndexCreate 1) id (vectorRecord id x).embedding =
      ⟨1, update (fun _ => none) (mvSyn id 0) (some [x]), update (fun _ => 0) id 1⟩ :=
  if_neg (by simp [vectorRecord, semanticIndexCreate, mvSlots])

theorem logOver_vectorRecord {A : Set UInt64} {id : UInt64} (hid : id ∈ A) (n : F.Nonce) (x : F32) :
    LogOver A [(n, recordBytes (vectorRecord id x))] where
  appendable := by
    rintro y hy
    obtain rfl := mem_singleton.1 hy
    exact length_vectorRecord_le id x
  vectors := by
    intro y hy r hr
    obtain rfl := mem_singleton.1 hy
    obtain rfl := Option.some.inj ((recordDecode_vectorRecord id x).symm.trans hr)
    change 1 ≤ mvSlots
    decide
  ids := by
    rintro _ ⟨y, hy, r, hr, rfl⟩
    obtain rfl := mem_singleton.1 hy
    obtain rfl := Option.some.inj ((recordDecode_vectorRecord id x).symm.trans hr)
    exact hid

/-- An entry in front of the end of the checkpoint leaves the index as it is. -/
theorem recoverPass_of_covered {dims c : ℕ} {entries : List (UInt64 × HashEntry)}
    (h : ∀ x ∈ entries, x.2.offset < c) (s : SemanticIndex) :
    recoverPass F dims (some c) log entries s = s := by
  refine foldlRecOn entries _ (motive := fun t : SemanticIndex => t = s) rfl
    fun t ht x hx => ?_
  have hlt := h x hx
  split
  · exact ht
  · rw [recoverVectors, if_neg (by simp [hlt]), if_neg (by simp [hlt]), ht]

theorem counts_semanticIndexReconcile {id : UInt64} {s : SemanticIndex} (h : s.counts id = 0)
    (recs : List UInt64) (keep : UInt64 → Bool) :
    (semanticIndexReconcile recs keep s).counts id = 0 := by
  refine foldlRecOn recs _ (motive := fun t : SemanticIndex => t.counts id = 0) h
    fun t ht x _ => ?_
  split
  · exact ht
  · change update (dropVectors t x).counts x 0 id = 0
    rw [counts_dropVectors, update_apply, ht, ite_self]

theorem liveEntries_vectorRecord {got : Recovered} {id : UInt64} {x : F32}
    (h : Rebuilds F got [(n, recordBytes (vectorRecord id x))]) :
    liveEntries got.hash =
      [(id, entryOf (vectorRecord id x) 0 (recordBytes (vectorRecord id x)).length)] := by
  have hlook := h.lookup.trans (applyFrame_of_decode (recordDecode_vectorRecord id x))
  have hlive := liveOf_liveEntries got.hash
  refine perm_singleton.1
    ((perm_ext_iff_of_nodup hlive.nodup.of_map (nodup_singleton _)).2 ?_)
  rintro ⟨id', e⟩
  rw [hlive.mem_iff, hlook, mem_singleton, update_apply, Prod.mk.injEq]
  constructor
  · rintro ⟨hsome, -⟩
    split at hsome
    · rename_i hid
      exact ⟨hid, (Option.some.inj hsome).symm⟩
    · cases hsome
  · rintro ⟨rfl, rfl⟩
    exact ⟨if_pos rfl, rfl⟩

theorem recoverSemantic_vectorRecord {got : Recovered} {id : UInt64} {x : F32}
    (hfs : Appendable [(n, recordBytes (vectorRecord id x))])
    (h : Rebuilds F got [(n, recordBytes (vectorRecord id x))]) (recs : List UInt64) :
    recoverSemantic F 1 got none recs =
      semanticIndexAdd (semanticIndexCreate 1) id (vectorRecord id x).embedding := by
  have hread : logRead F got.log 0 = some (recordBytes (vectorRecord id x)) := by
    rw [h.log]
    exact logRead_of_mem_placed (b := []) hfs mem_cons_self
  change recoverPass F 1 none got.log (liveEntries got.hash) (semanticIndexCreate 1) = _
  rw [liveEntries_vectorRecord h]
  simp only [recoverPass, foldl_cons, foldl_nil]
  rw [show (entryOf (vectorRecord id x) 0 (recordBytes (vectorRecord id x)).length).offset = 0
    from rfl, hread, Option.bind_some, recordDecode_vectorRecord]
  exact if_pos ⟨⟨rfl, cons_ne_nil _ _, Nat.one_ne_zero⟩, rfl⟩

theorem vectorsOf_vectorRecord (id : UInt64) (x : F32) :
    (semanticIndexAdd (semanticIndexCreate 1) id (vectorRecord id x).embedding).vectorsOf id =
      [[x]] := by
  rw [semanticIndexAdd_vectorRecord]
  simp [SemanticIndex.vectorsOf]

theorem savedAs_vectorRecord (id : UInt64) (x : F32) :
    SavedAs (semanticIndexAdd (semanticIndexCreate 1) id (vectorRecord id x).embedding)
      [(mvSyn id 0, [x])] where
  nodup := nodup_singleton _
  mem_iff syn v := by
    rw [semanticIndexAdd_vectorRecord, mem_singleton, Prod.mk.injEq]
    change _ ↔ update (fun _ => none) (mvSyn id 0) (some [x]) syn = some v
    rw [update_apply]
    split
    · simp [*, eq_comm]
    · simp [*]

/-- The vector of a record whose id leaves no room is lost with a checkpoint. -/
theorem RecoversAlike.room {A : Set UInt64} (n : F.Nonce) (h : RecoversAlike F A) {id : UInt64}
    (hid : id ∈ A) : id.toNat < mvRoom := by
  by_contra hroom
  let x : F32 := ⟨0⟩
  let r := vectorRecord id x
  let fs : List (F.Nonce × Bytes) := [(n, recordBytes r)]
  let got := recoveryRun F (framesBytes F (fs ++ [])) none
  let sem : SemCheckpoint := ⟨[(mvSyn id 0, [x])], framesSize F (fs.map snd)⟩
  have hlog : LogOver A (fs ++ []) := logOver_vectorRecord hid n x
  have hgot : Rebuilds F got fs := rebuilds_recoveryRun hlog.appendable (by simp)
  have hentries := liveEntries_vectorRecord hgot
  -- the node of the vector is counted for another record
  have hne : id ≠ mvRec (mvSyn id 0) := fun heq =>
    hroom ((mvRec_mvSyn_iff (by decide)).1 heq.symm)
  have hpos : 0 < sem.covered := by
    have := F.overhead_pos
    simp only [sem, fs, map_cons, framesSize_cons]
    omega
  have hloaded : recoverLoaded F 1 got sem = semanticIndexLoad 1 sem := by
    refine recoverPass_of_covered (fun y hy => ?_) _
    rw [hentries, mem_singleton] at hy
    rw [hy]
    exact hpos
  have hcounts : (recoverLoaded F 1 got sem).counts =
      update (fun _ => 0) (mvRec (mvSyn id 0)) 1 := by
    rw [hloaded]
    change rcRebuild (fun _ => 0) (mvSyn id 0, [x]) = _
    rw [rcRebuild, if_pos (Nat.succ_pos _), slot_mvSyn id (by decide)]
  have hrecs : ∀ id', id' ∈ [mvRec (mvSyn id 0)] ↔ (recoverLoaded F 1 got sem).counts id' ≠ 0 := by
    intro id'
    rw [hcounts, update_apply, mem_singleton]
    split <;> simp [*]
  have hstate : SemState F 1 A fs (semanticIndexAdd (semanticIndexCreate 1) id r.embedding) :=
    .stored .empty hlog (recordDecode_vectorRecord id x) rfl
      ⟨rfl, cons_ne_nil _ _, Nat.one_ne_zero⟩
  have hlive : (hashIndexGet got.hash id).isSome = true := by
    rw [← mem_liveEntries_iff, hentries]
    simp
  have heq := h 1 fs [] _ _ none _ hlog hstate (savedAs_vectorRecord id x) (by simp) hrecs id hlive
  rw [recoverSemantic_vectorRecord hlog.appendable hgot, vectorsOf_vectorRecord] at heq
  have hcovered : sem.covered ≤ got.log.length := by
    rw [hgot.log, length_framesBytes]
  have hnil : (recoverSemantic F 1 got (some sem) [mvRec (mvSyn id 0)]).counts id = 0 := by
    rw [recoverSemantic, Option.filter_some, if_pos (decide_eq_true hcovered)]
    refine counts_semanticIndexReconcile ?_ _ _
    rw [hcounts, update_of_ne hne]
  change SemanticIndex.vectorsOf (recoverSemantic F 1 got (some sem) [mvRec (mvSyn id 0)]) id = _
    at heq
  rw [SemanticIndex.vectorsOf, hnil] at heq
  cases heq

/-- Two records whose ids differ in the bits that a synthetic id drops. -/
def twinLog : List (plainFraming.Nonce × Bytes) :=
  [((), recordBytes (vectorRecord 0x400000000000001 ⟨1⟩)), ((), recordBytes (vectorRecord 1 ⟨0⟩))]

def twinIndex : SemanticIndex :=
  semanticIndexAdd (semanticIndexAdd (semanticIndexCreate 1) 0x400000000000001
    (vectorRecord 0x400000000000001 ⟨1⟩).embedding) 1 (vectorRecord 1 ⟨0⟩).embedding

theorem logOver_twinLog : LogOver Set.univ twinLog where
  appendable := by
    intro y hy
    rcases mem_pair.1 hy with rfl | rfl
    · exact length_vectorRecord_le _ _
    · exact length_vectorRecord_le _ _
  vectors := by
    intro y hy r hr
    rcases mem_pair.1 hy with rfl | rfl
    · obtain rfl := Option.some.inj ((recordDecode_vectorRecord _ _).symm.trans hr)
      decide
    · obtain rfl := Option.some.inj ((recordDecode_vectorRecord _ _).symm.trans hr)
      decide
  ids := fun _ _ => trivial

theorem semState_twinIndex : SemState plainFraming 1 Set.univ twinLog twinIndex := by
  have hfirst : SemState plainFraming 1 Set.univ
      [((), recordBytes (vectorRecord 0x400000000000001 ⟨1⟩))] _ :=
    .stored .empty (logOver_vectorRecord (Set.mem_univ _) _ _) (recordDecode_vectorRecord _ _) rfl
      ⟨rfl, cons_ne_nil _ _, Nat.one_ne_zero⟩
  exact .stored hfirst logOver_twinLog (recordDecode_vectorRecord _ _) rfl
    ⟨rfl, cons_ne_nil _ _, Nat.one_ne_zero⟩

theorem savedAs_twinIndex : SavedAs twinIndex [(64, [⟨0⟩])] where
  nodup := nodup_singleton _
  mem_iff syn v := by
    have hvecs : twinIndex.vecs = update (update
        (fun _ : UInt64 => (none : Option (List F32))) 64 (some [⟨1⟩])) 64 (some [⟨0⟩]) := rfl
    rw [hvecs, update_idem, update_apply, mem_singleton, Prod.mk.injEq]
    split
    · simp [*, eq_comm]
    · simp [*]

end AegisDB
