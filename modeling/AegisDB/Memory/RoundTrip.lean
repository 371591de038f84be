import AegisDB.Memory.Codec

/-!
# The record codec loses nothing

Two facts about the codec, each assembled from one lemma a section:

* a well-formed record is encoded, and read back field by field;
* whatever the decoder accepts is a well-formed record, for any input: the weights are clamped, the
  strings cut at their first NUL, the routes sorted and free of repetitions.

Together: a record that was readable once survives every later rewrite.
-/

namespace AegisDB

open Bytes Cur List Option CString Ensures Reads UInt32

variable {e : Embedding} {ver : UInt8} {f : Fact}

/-! ## Well-formed records -/

/-- A string whose length is not taken for the `NULL` marker. -/
def Fits (s : Option CString) : Prop := ∀ c ∈ s, c.bytes.length < nullLen.toNat

instance (s : Option CString) : Decidable (Fits s) :=
  match s with
  | none => .isTrue (by simp [Fits])
  | some c => decidable_of_iff (c.bytes.length < nullLen.toNat) (by simp [Fits])

/-- Every string, count and length fits its field on the wire, and the optional parts are absent or
complete. -/
structure MemoryRecord.WireFormed (r : MemoryRecord) : Prop where
  agent : Fits r.agentId
  tags : ∀ t ∈ r.tags, Fits (some t)
  tag_count : r.tags.length ≤ uint16Max
  vec_count : r.embedding.vecCount ≤ uint32Max
  dim : r.embedding.dim ≤ uint32Max
  dim_iff : r.embedding.dim = 0 ↔ r.embedding.vecCount = 0
  kinds : ∀ e ∈ r.relationships, Fits e.kind
  rel_count : r.relationships.length ≤ uint16Max
  fact : r.fact.Shaped
  predicate : Fits r.fact.predicate
  object : Fits r.fact.objectStr
  routes : RoutesOk r.routes
  derived : r.routes ≠ [] → r.fact.kind ≠ .none
  data : r.data.length ≤ uint32Max

/-- The shape that `record_clone` gives to a record, whatever its strings and its counts are. -/
structure MemoryRecord.Formed (r : MemoryRecord) : Prop where
  dim_iff : r.embedding.dim = 0 ↔ r.embedding.vecCount = 0
  fact : r.fact.Shaped
  routes : RoutesOk r.routes

variable {r : MemoryRecord}

theorem MemoryRecord.WireFormed.formed (h : r.WireFormed) : r.Formed :=
  ⟨h.dim_iff, h.fact, h.routes⟩

theorem formed_of_recordClone {r' : MemoryRecord} (h : recordClone r = some r') : r'.Formed := by
  obtain ⟨fact, hfact, h⟩ := bind_eq_some_iff.1 h
  obtain ⟨routes, hroutes, rfl⟩ := map_eq_some_iff.1 h
  refine ⟨?_, recordSetFact_shaped hfact, addRoutes_ok .nil hroutes⟩
  split
  · rename_i hne
    exact iff_of_false hne.1 hne.2
  · rfl

theorem Embedding.eq_absent (hd : e.dim = 0) (hv : e.vecCount = 0) : e = .absent := by
  obtain ⟨dim, vecCount, floats, hsize⟩ := e
  subst hd hv
  obtain rfl := eq_nil_of_length_eq_zero hsize
  rfl

theorem MemoryRecord.Formed.recordClone_eq (h : r.Formed) : recordClone r = some r := by
  have hroutes : addRoutes [] r.routes = some r.routes := addRoutes_append h.routes
  have hemb : (if r.embedding.dim ≠ 0 ∧ r.embedding.vecCount ≠ 0 then r.embedding else .absent) =
      r.embedding := by
    split
    · rfl
    · rename_i hne
      have hd : r.embedding.dim = 0 := by
        by_contra hd
        exact hne ⟨hd, fun hv => hd (h.dim_iff.2 hv)⟩
      exact (Embedding.eq_absent hd (h.dim_iff.1 hd)).symm
  rw [recordClone, h.fact.recordSetFact_eq, bind_some, hroutes, map_some, hemb]

/-- A record that fits the wire, with both weights in the unit interval. -/
structure MemoryRecord.WellFormed (r : MemoryRecord) : Prop extends r.WireFormed where
  importance : r.importance.InUnit
  confidence : r.confidence.InUnit

/-- The record with each weight outside of the unit interval set to its default. -/
def MemoryRecord.clamped (r : MemoryRecord) : MemoryRecord :=
  { r with
    importance := F32.orDefault F32.zero r.importance
    confidence := F32.orDefault F32.one r.confidence }

theorem MemoryRecord.WellFormed.clamped_eq (h : r.WellFormed) : r.clamped = r := by
  rw [MemoryRecord.clamped, F32.orDefault_of_inUnit h.importance,
    F32.orDefault_of_inUnit h.confidence]

/-! ## Reading back one section -/

theorem reads_toNat {n : ℕ} {v : UInt32} (h : v.toNat = n) : Reads getU32 (leBytes 4 n) v :=
  h ▸ getU32 v

theorem reads_u32 {n : ℕ} (h : n ≤ uint32Max) : Reads getU32 (leBytes 4 n) (ofNat n) :=
  reads_toNat (toNat_ofNat_of_lt' (Nat.lt_succ_of_le h))

theorem reads_u16 {n : ℕ} (h : n ≤ uint16Max) : Reads getU16 (leBytes 2 n) (UInt16.ofNat n) := by
  have hn : (UInt16.ofNat n).toNat = n := UInt16.toNat_ofNat_of_lt' (Nat.lt_succ_of_le h)
  have := getU16 (UInt16.ofNat n)
  rwa [hn] at this

theorem reads_u8 {n : ℕ} (h : n < 256) : Reads getU8 (leBytes 1 n) (UInt8.ofNat n) := by
  have hn : (UInt8.ofNat n).toNat = n := UInt8.toNat_ofNat_of_lt' h
  have := getU8 (UInt8.ofNat n)
  rwa [hn] at this

theorem putF32_reads (f : F32) : Reads getF32 (leBytes 4 f.bits.toNat) f :=
  (getU32 f.bits).bind_pure

theorem putLenstr_reads {s : Option CString} (h : Fits s) : Reads getLenstr (putLenstr s) s := by
  cases s with
  | none =>
    refine (getU32 nullLen).bind_last ?_
    rw [if_pos rfl]
    exact pure none
  | some c =>
    have hlt : c.bytes.length < nullLen.toNat := h c rfl
    have hlen : (ofNat c.bytes.length).toNat = c.bytes.length :=
      toNat_ofNat_of_lt' (hlt.trans nullLen.toNat_lt)
    have hne : ofNat c.bytes.length ≠ nullLen := fun he => by
      rw [← he, hlen] at hlt
      exact lt_irrefl _ hlt
    refine (reads_toNat hlen).bind ?_
    rw [if_neg hne]
    have := (take hlen.symm).bind_pure (g := fun raw => some (ofBytes raw))
    rwa [ofBytes_bytes] at this

theorem putString_reads {c : CString} (h : Fits (some c)) :
    Reads getString (putLenstr (some c)) c :=
  (putLenstr_reads h).bind_last (ofOption rfl)

theorem putType_reads (t : MemoryType) : Reads getType (leBytes 1 t.toNat) t := by
  have hlt : t.toNat < 256 := by cases t <;> decide
  refine (reads_u8 hlt).bind_last (ofOption ?_)
  rw [UInt8.toNat_ofNat_of_lt' hlt, MemoryType.ofNat?_toNat]

theorem putTags_reads {tags : List CString} (hc : tags.length ≤ uint16Max)
    (h : ∀ t ∈ tags, Fits (some t)) : Reads getTags (putTags tags) tags := by
  have hn := UInt16.toNat_ofNat_of_lt' (Nat.lt_succ_of_le hc)
  exact (reads_u16 hc).bind ((many hn.symm fun t ht => putString_reads (h t ht)).bind_pure)

theorem putRelationship_reads {e : Relationship} (h : Fits e.kind) :
    Reads getRelationship (putRelationship e) e :=
  (Reads.getU64 _).bind ((Reads.getU64 _).bind
    ((putLenstr_reads h).bind_pure))

theorem putRelationships_reads {rels : List Relationship} (hc : rels.length ≤ uint16Max)
    (h : ∀ e ∈ rels, Fits e.kind) : Reads getRelationships (putRelationships rels) rels := by
  have hn := UInt16.toNat_ofNat_of_lt' (Nat.lt_succ_of_le hc)
  exact (reads_u16 hc).bind ((many hn.symm fun e he => putRelationship_reads (h e he)).bind_pure
    (g := Subtype.val))

theorem length_putFloats (fs : List F32) :
    (fs.flatMap fun f => leBytes 4 f.bits.toNat).length = 4 * fs.length := by
  induction fs with
  | nil => rfl
  | cons f fs ih =>
    rw [flatMap_cons, length_append, ih, length_leBytes, length_cons]
    ring

theorem putVectors_reads {v d : UInt32} (hv : v.toNat = e.vecCount) (hd : d.toNat = e.dim)
    (hiff : e.dim = 0 ↔ e.vecCount = 0) :
    Reads (getVectors v d) (e.floats.flatMap fun f => leBytes 4 f.bits.toNat) e := by
  unfold getVectors
  by_cases hz : e.dim = 0
  · have he := Embedding.eq_absent hz (hiff.1 hz)
    have hd0 : d = 0 := UInt32.toNat_inj.1 (hd.trans hz)
    rw [if_neg (by simp [hd0]), he]
    exact pure _
  · have hdz : d ≠ 0 := fun h => hz (by rw [← hd, h]; rfl)
    have hvz : v ≠ 0 := fun h => hz (hiff.2 (by rw [← hv, h]; rfl))
    rw [if_pos ⟨hdz, hvz⟩]
    refine remaining_bind fun left hleft => require_bind ?_ ?_
    · -- the bytes of the floats are there, so the division bound holds
      rw [length_putFloats, e.size_eq] at hleft
      rw [Nat.le_div_iff_mul_le (by omega), Nat.le_div_iff_mul_le (by omega), hv, hd]
      omega
    · have hsize : e.floats.length = v.toNat * d.toNat := by rw [e.size_eq, hv, hd]
      have := (many hsize fun f _ => putF32_reads f).bind_pure
        (g := fun fs => (⟨d.toNat, v.toNat, fs.1, fs.2⟩ : Embedding))
      obtain ⟨dim, vecCount, floats, hs⟩ := e
      subst hv hd
      exact this

theorem putEmbedding_reads (hver : 2 ≤ ver) (hv : e.vecCount ≤ uint32Max) (hd : e.dim ≤ uint32Max)
    (hiff : e.dim = 0 ↔ e.vecCount = 0) :
    Reads (getEmbedding ver) (putEmbedding e) e := by
  unfold getEmbedding getVecCount
  rw [if_pos hver]
  exact (reads_u32 hv).bind ((reads_u32 hd).bind (putVectors_reads
    (toNat_ofNat_of_lt' (Nat.lt_succ_of_le hv))
    (toNat_ofNat_of_lt' (Nat.lt_succ_of_le hd)) hiff))

theorem putFact_reads (hver : recordCodecV3 ≤ ver ↔ f.kind ≠ .none) (hf : f.Shaped)
    (hp : Fits f.predicate) (ho : Fits f.objectStr) :
    Reads (getFact ver) (putFact f) f := by
  unfold getFact
  cases hf with
  | zeroed =>
    rw [if_neg (by simp [hver, Fact.zeroed])]
    exact pure _
  | objId s p i hne =>
    rw [if_pos (hver.2 (by simp))]
    refine (reads_u8 (n := 1) (by decide)).bind (require_bind (.inl rfl) ?_)
    refine (getU64 s).bind ((putString_reads hp).bind ?_)
    rw [if_pos (by decide)]
    exact (getU64 i).bind_last (ofOption (Fact.Shaped.objId s p i hne).recordSetFact_eq)
  | objString s p o hne =>
    rw [if_pos (hver.2 (by simp))]
    refine (reads_u8 (n := 2) (by decide)).bind (require_bind (.inr rfl) ?_)
    refine (getU64 s).bind ((putString_reads hp).bind ?_)
    rw [if_neg (by decide)]
    exact (putString_reads ho).bind_last
      (ofOption (Fact.Shaped.objString s p o hne).recordSetFact_eq)

theorem putRoute_reads {l : List DerivRoute} {rt : DerivRoute} (hv : rt.Valid)
    (hlt : ∀ x ∈ l, routeCmp x rt = .lt) (hlen : l.length < derivMaxRoutes) :
    Reads (getRoute l) (putRoute rt) (l ++ [rt]) := by
  obtain ⟨hr, hne, hle⟩ := id hv
  have hr' : rt.rule.toNat < 256 := by cases rt.rule <;> decide
  have hp : rt.premises.length < 256 := lt_of_le_of_lt hle (by decide)
  have hpc := UInt8.toNat_ofNat_of_lt' hp
  refine (reads_u8 hr').bind ((Reads.getU16 _).bind ((reads_u8 hp).bind ?_))
  have hrule : DerivRule.ofNat? (UInt8.ofNat rt.rule.toNat).toNat = some rt.rule := by
    rw [UInt8.toNat_ofNat_of_lt' hr', DerivRule.ofNat?_toNat hr]
  refine (Reads.ofOption hrule).bind (Reads.require_bind ⟨?_, by rwa [hpc]⟩ ?_)
  · intro h
    rw [h] at hpc
    exact hne (eq_nil_of_length_eq_zero hpc.symm)
  · refine (Reads.many hpc.symm fun p _ => Reads.getU64 p).bind_last ?_
    rw [recordAddRoute_append hv hlt hlen]
    exact Reads.pure _

theorem putRoutes_reads {l rts : List DerivRoute} (h : RoutesOk (l ++ rts)) :
    Reads (getRoutes rts.length l) (rts.flatMap putRoute) (l ++ rts) := by
  induction rts generalizing l with
  | nil =>
    rw [append_nil]
    exact pure l
  | cons rt rts ih =>
    have hrt : rt.Valid := h.valid rt (by simp)
    have hlt : ∀ x ∈ l, routeCmp x rt = .lt := fun x hx =>
      (pairwise_append.1 h.sorted).2.2 x hx rt (by simp)
    have hlen : l.length < derivMaxRoutes := by
      have := h.length_le
      simp only [length_append, length_cons] at this
      omega
    rw [append_cons] at h ⊢
    exact (putRoute_reads hrt hlt hlen).bind (ih h)

theorem putDerivation_reads {rts : List DerivRoute} (hver : recordCodecV5 ≤ ver ↔ rts ≠ [])
    (h : RoutesOk rts) :
    Reads (getDerivation ver) (putDerivation rts) rts := by
  unfold getDerivation putDerivation
  by_cases hne : rts = []
  · rw [if_neg (by simp [hver, hne]), if_pos hne, hne]
    exact pure _
  · rw [if_pos (hver.2 hne), if_neg hne]
    have hle : rts.length ≤ uint16Max := h.length_le.trans (by decide)
    have hn := UInt16.toNat_ofNat_of_lt' (Nat.lt_succ_of_le hle)
    refine (reads_u16 hle).bind (require_bind ⟨?_, by rw [hn]; exact h.length_le⟩ ?_)
    · intro hz
      rw [hz] at hn
      exact hne (eq_nil_of_length_eq_zero hn.symm)
    · rw [hn]
      exact putRoutes_reads h

theorem putData_reads {data : Bytes} (h : data.length ≤ uint32Max) :
    Reads getData (putData data) data :=
  (reads_u32 h).bind (take (toNat_ofNat_of_lt' (Nat.lt_succ_of_le h)).symm)

/-! ## Reading back a record -/

theorem recordVersion_ge_two (r : MemoryRecord) : 2 ≤ recordVersion r := by
  unfold recordVersion
  split_ifs <;> decide

theorem recordVersion_fact (h : r.routes ≠ [] → r.fact.kind ≠ .none) :
    recordCodecV3 ≤ recordVersion r ↔ r.fact.kind ≠ .none := by
  unfold recordVersion
  split_ifs with h₁ h₂
  · exact ⟨fun _ => h h₁, fun _ => by decide⟩
  · exact ⟨fun _ => h₂, fun _ => by decide⟩
  · exact ⟨fun hle => absurd hle (by decide), fun h => absurd h h₂⟩

theorem recordVersion_derivation (r : MemoryRecord) :
    recordCodecV5 ≤ recordVersion r ↔ r.routes ≠ [] := by
  unfold recordVersion
  split_ifs with h₁ h₂
  · exact ⟨fun _ => h₁, fun _ => by decide⟩
  · exact ⟨fun hle => absurd hle (by decide), fun h => absurd h h₁⟩
  · exact ⟨fun hle => absurd hle (by decide), fun h => absurd h h₁⟩

theorem recordVersion_known (r : MemoryRecord) : recordVersion r = 1 ∨
    recordVersion r = recordCodecV2 ∨ recordVersion r = recordCodecV3 ∨
    recordVersion r = recordCodecV5 := by
  unfold recordVersion
  split_ifs <;> simp

theorem recordBytes_reads (h : r.WireFormed) : Reads getRecord (recordBytes r) r.clamped := by
  unfold getRecord recordBytes putHead
  simp only [append_assoc]
  refine (Reads.getU8 _).bind (Reads.require_bind (recordVersion_known r) ?_)
  refine (Reads.getU64 _).bind ((putType_reads _).bind ?_)
  refine (Reads.getU64 _).bind ((Reads.getU64 _).bind ?_)
  refine (putF32_reads _).bind ((putF32_reads _).bind ?_)
  refine (reads_u8 (by split <;> decide)).bind ((Reads.getU64 _).bind ?_)
  refine (putLenstr_reads h.agent).bind ((putTags_reads h.tag_count h.tags).bind ?_)
  refine (putEmbedding_reads (recordVersion_ge_two r) h.vec_count h.dim h.dim_iff).bind ?_
  refine (putRelationships_reads h.rel_count h.kinds).bind ?_
  refine (putFact_reads (recordVersion_fact h.derived) h.fact h.predicate h.object).bind ?_
  refine (putDerivation_reads (recordVersion_derivation r) h.routes).bind ?_
  refine (putData_reads h.data).bind_last ?_
  have hdel : decide (UInt8.ofNat (if r.deleted = true then 1 else 0) ≠ 0) = r.deleted := by
    cases r.deleted <;> decide
  rw [hdel]
  exact Reads.pure r.clamped

theorem MemoryRecord.WireFormed.encodable (h : r.WireFormed) : Encodable r := by
  refine ⟨fun rt hrt => (h.routes.valid rt hrt).1, ?_, h.tag_count, h.vec_count, h.dim,
    h.rel_count, h.routes.length_le, fun rt hrt => (h.routes.valid rt hrt).2⟩
  by_cases hr : r.routes = []
  · exact .inl hr
  · exact .inr (h.derived hr)

theorem recordEncode_of_wireFormed (h : r.WireFormed) :
    recordEncode r = some (recordBytes r) := if_pos h.encodable

theorem length_le_flatMap {α : Type} {f : α → Bytes} {l : List α} {a : α} (h : a ∈ l) :
    (f a).length ≤ (l.flatMap f).length :=
  (sublist_flatten_of_mem (List.mem_map_of_mem h)).length_le

theorem length_le_putLenstr {s : Option CString} {c : CString} (h : c ∈ s) :
    c.bytes.length ≤ (putLenstr s).length := by
  cases h
  simp [putLenstr]

theorem Fact.Shaped.predicate_length (h : f.Shaped) :
    (putLenstr f.predicate).length ≤ (putFact f).length ∨ f.predicate = none := by
  cases h with
  | zeroed => exact .inr rfl
  | objId | objString =>
    refine .inl ?_
    simp only [putFact, length_append]
    omega

theorem Fact.Shaped.objectStr_length (h : f.Shaped) :
    (putLenstr f.objectStr).length ≤ (putFact f).length ∨ f.objectStr = none := by
  cases h with
  | zeroed | objId => exact .inr rfl
  | objString =>
    refine .inl ?_
    simp only [putFact, length_append]
    omega

/-- A record in shape fits the wire when it is encoded and its bytes are few enough for a frame. -/
theorem MemoryRecord.Formed.wireFormed (h : r.Formed) (henc : Encodable r)
    (hlen : (recordBytes r).length ≤ uint32Max) : r.WireFormed := by
  obtain ⟨-, hderived, htags, hvecs, hdim, hrels, -⟩ := henc
  have hhead : 43 ≤ (putHead r).length := by simp [putHead]
  have hnull : nullLen.toNat = uint32Max := rfl
  simp only [recordBytes, length_append] at hlen
  have hdata : r.data.length ≤ (putData r.data).length := by simp [putData]
  have hfits {s : Option CString} (hs : (putLenstr s).length + 43 ≤ uint32Max) : Fits s := by
    intro c hc
    have := length_le_putLenstr hc
    omega
  have hsome {s : Option CString} (hs : (putLenstr s).length ≤ (putFact r.fact).length ∨ s = none) :
      Fits s := by
    rcases hs with hs | rfl
    · exact hfits (by omega)
    · simp [Fits]
  exact {
    agent := hfits (by omega)
    tags := fun t ht => by
      have := length_le_flatMap (f := fun t => putLenstr (some t)) ht
      exact hfits (by simp only [putTags, length_append] at hlen; omega)
    tag_count := htags
    vec_count := hvecs
    dim := hdim
    dim_iff := h.dim_iff
    kinds := fun e he => by
      have := length_le_flatMap (f := putRelationship) he
      have hkind : (putLenstr e.kind).length ≤ (putRelationship e).length := by
        simp only [putRelationship, length_append]
        omega
      exact hfits (by simp only [putRelationships, length_append] at hlen; omega)
    rel_count := hrels
    fact := h.fact
    predicate := hsome h.fact.predicate_length
    object := hsome h.fact.objectStr_length
    routes := h.routes
    derived := fun hne => hderived.resolve_left hne
    data := by omega }

/-- A record that fits the wire is read back up to its weights, which the decoder clamps. -/
theorem recordDecode_of_wireFormed (h : r.WireFormed) :
    recordDecode (recordBytes r) = some r.clamped := by
  have := recordBytes_reads h []
  rw [append_nil] at this
  simp [recordDecode, this]

theorem recordDecode_recordBytes (h : r.WellFormed) : recordDecode (recordBytes r) = some r := by
  rw [recordDecode_of_wireFormed h.toWireFormed, h.clamped_eq]

theorem recordBytes_head? (r : MemoryRecord) : (recordBytes r).head? = some (recordVersion r) := by
  simp [recordBytes, putHead, leBytes]

/-- **A well-formed record is encoded and read back.** The version byte is the lowest that can
represent it: 5 with a derivation, 3 with a fact and no derivation, 2 otherwise. -/
theorem recordDecode_recordEncode (r : MemoryRecord) (h : r.WellFormed) :
    ∃ b, recordEncode r = some b ∧ recordDecode b = some r ∧
      (r.fact.kind = .none → b.head? = some 2) ∧
      (r.fact.kind ≠ .none → r.routes = [] → b.head? = some 3) ∧
      (r.routes ≠ [] → b.head? = some 5) := by
  refine ⟨recordBytes r, recordEncode_of_wireFormed h.toWireFormed, recordDecode_recordBytes h, ?_, ?_, ?_⟩
  · intro hk
    have hr : r.routes = [] := by
      by_contra hr
      exact h.derived hr hk
    rw [recordBytes_head?, recordVersion, if_neg (not_not.2 hr), if_neg (not_not.2 hk)]
    rfl
  · intro hk hr
    rw [recordBytes_head?, recordVersion, if_neg (not_not.2 hr), if_pos hk]
    rfl
  · intro hr
    rw [recordBytes_head?, recordVersion, if_pos hr]
    rfl

/-- A derived record: two justifications of "record 1 is part of record 3", one vector, one tag and
one edge. -/
def derivedRecord : MemoryRecord :=
  { recordInit with
    id := 9
    type := .semantic
    tags := [CString.ofBytes [0x61, 0x62]]
    embedding := ⟨2, 1, [F32.one, F32.zero], rfl⟩
    relationships := [⟨9, 1, none⟩]
    fact := ⟨.objId, 1, some (CString.ofBytes [0x70, 0x6F]), 3, none⟩
    routes := [⟨.transitive, 0, [4, 5]⟩, ⟨.inverse, 0, [6]⟩]
    data := [0xFF] }

theorem derivedRecord_wellFormed : derivedRecord.WellFormed where
  importance := by decide
  confidence := by decide
  agent := by decide
  tags := by decide
  tag_count := by decide
  vec_count := by decide
  dim := by decide
  dim_iff := by decide
  kinds := by decide
  rel_count := by decide
  fact := .objId _ _ _ (by decide)
  predicate := by decide
  object := by decide
  routes := ⟨by decide, by decide, by decide⟩
  derived := by decide
  data := by decide

theorem derivedRecord_recordDecode_recordEncode : derivedRecord.WellFormed ∧
    ∃ b, recordEncode derivedRecord = some b ∧ recordDecode b = some derivedRecord ∧
      (derivedRecord.fact.kind = .none → b.head? = some 2) ∧
      (derivedRecord.fact.kind ≠ .none → derivedRecord.routes = [] → b.head? = some 3) ∧
      (derivedRecord.routes ≠ [] → b.head? = some 5) :=
  ⟨derivedRecord_wellFormed, recordDecode_recordEncode _ derivedRecord_wellFormed⟩

/-! ## What the decoder accepts -/

theorem u16_le (v : UInt16) : v.toNat ≤ uint16Max := Nat.le_of_lt_succ v.toNat_lt

theorem u32_le (v : UInt32) : v.toNat ≤ uint32Max := Nat.le_of_lt_succ v.toNat_lt

theorem getLenstr_ensures : Ensures getLenstr Fits := by
  refine (Ensures.trivial _).bind fun n _ => ?_
  split
  · exact Ensures.pure (by simp [Fits])
  · rename_i hn
    refine (Ensures.take _).bind fun raw hraw => Ensures.pure ?_
    -- the string is cut at its first NUL, so it is no longer than the length that was read
    intro c hc
    obtain rfl : ofBytes raw = c := by simpa using hc
    have hle := length_ofBytes_le raw
    have hne : n.toNat ≠ nullLen.toNat := fun h => hn (UInt32.toNat_inj.1 h)
    have hlt : n.toNat ≤ nullLen.toNat := u32_le n
    omega

theorem getString_ensures : Ensures getString fun c => Fits (some c) :=
  getLenstr_ensures.bind fun _ hs => (Ensures.ofOption _).mono fun _ hc => hc ▸ hs

theorem getTags_ensures :
    Ensures getTags fun tags => tags.length ≤ uint16Max ∧ ∀ t ∈ tags, Fits (some t) :=
  (trivial _).bind fun tc _ => (many getString_ensures _).bind fun tags htags =>
    pure ⟨tags.2.trans_le (u16_le tc), htags⟩

theorem getRelationships_ensures :
    Ensures getRelationships fun rels => rels.length ≤ uint16Max ∧ ∀ e ∈ rels, Fits e.kind := by
  have hone : Ensures getRelationship fun e => Fits e.kind :=
    (trivial _).bind fun _ _ => (trivial _).bind fun _ _ =>
      getLenstr_ensures.bind fun _ hk => pure hk
  exact (trivial _).bind fun rc _ => (many hone _).bind fun rels hrels =>
    pure ⟨rels.2.trans_le (u16_le rc), hrels⟩

theorem getEmbedding_ensures (ver : UInt8) : Ensures (getEmbedding ver) fun e =>
    e.vecCount ≤ uint32Max ∧ e.dim ≤ uint32Max ∧ (e.dim = 0 ↔ e.vecCount = 0) := by
  refine (trivial _).bind fun v _ => (trivial _).bind fun d _ => ?_
  unfold getVectors
  split
  · rename_i h
    refine (trivial _).bind fun _ _ => (trivial _).bind fun _ _ =>
      (trivial _).bind fun fs _ => pure ⟨u32_le v, u32_le d, ?_⟩
    have hd : d.toNat ≠ 0 := fun hz => h.1 (UInt32.toNat_inj.1 hz)
    have hv : v.toNat ≠ 0 := fun hz => h.2 (UInt32.toNat_inj.1 hz)
    simp [hd, hv]
  · exact pure (by decide)

theorem recordSetFact_fits {k : FactKind} {s : UInt64} {p o : Option CString} {i : UInt64}
    (h : recordSetFact k s p i o = some f) (hp : Fits p) (ho : Fits o) :
    Fits f.predicate ∧ Fits f.objectStr := by
  have hnone : Fits none := by simp [Fits]
  unfold recordSetFact at h
  split at h
  · cases h
    exact ⟨hnone, hnone⟩
  · cases h
  · split at h <;> cases h
    exact ⟨hp, hnone⟩
  · split at h
    · cases h
    · obtain ⟨o, rfl, rfl⟩ := map_eq_some_iff.1 h
      exact ⟨hp, ho⟩

theorem recordSetFact_kind {k : FactKind} {s : UInt64} {p o : Option CString} {i : UInt64}
    (h : recordSetFact k s p i o = some f) : f.kind = k := by
  unfold recordSetFact at h
  split at h
  · cases h; rfl
  · cases h
  · split at h <;> cases h
    rfl
  · split at h
    · cases h
    · obtain ⟨o, rfl, rfl⟩ := map_eq_some_iff.1 h
      rfl

theorem getFact_ensures (ver : UInt8) : Ensures (getFact ver) fun f =>
    f.Shaped ∧ Fits f.predicate ∧ Fits f.objectStr ∧
      (recordCodecV3 ≤ ver → f.kind ≠ .none) := by
  unfold getFact
  split
  · refine (Ensures.trivial _).bind fun _ _ => (Ensures.trivial _).bind fun _ _ =>
      (Ensures.trivial _).bind fun _ _ => getString_ensures.bind fun pred hpred => ?_
    split
    · refine (Ensures.trivial _).bind fun _ _ => (Ensures.ofOption _).mono fun f hf => ?_
      obtain ⟨hp, ho⟩ := recordSetFact_fits hf hpred (by simp [Fits])
      exact ⟨recordSetFact_shaped hf, hp, ho, fun _ => by simp [recordSetFact_kind hf]⟩
    · refine getString_ensures.bind fun obj hobj => (Ensures.ofOption _).mono fun f hf => ?_
      obtain ⟨hp, ho⟩ := recordSetFact_fits hf hpred hobj
      exact ⟨recordSetFact_shaped hf, hp, ho, fun _ => by simp [recordSetFact_kind hf]⟩
  · rename_i hver
    exact Ensures.pure ⟨.zeroed, by simp [Fits, Fact.zeroed], by simp [Fits, Fact.zeroed],
      fun h => absurd h hver⟩

theorem getRoute_ensures {routes : List DerivRoute} (h : RoutesOk routes) :
    Ensures (getRoute routes) RoutesOk := by
  refine (trivial _).bind fun _ _ => (trivial _).bind fun _ _ =>
    (trivial _).bind fun _ _ => (trivial _).bind fun _ _ =>
    (trivial _).bind fun _ _ => (trivial _).bind fun prem _ => ?_
  split
  · rename_i hadd
    exact pure (recordAddRoute_ok h hadd).1
  · exact fail

theorem getRoutes_ensures (n : ℕ) {routes : List DerivRoute} (h : RoutesOk routes) :
    Ensures (getRoutes n routes) RoutesOk := by
  induction n generalizing routes with
  | zero => exact pure h
  | succ n ih => exact (getRoute_ensures h).bind fun _ hr => ih hr

theorem getDerivation_ensures (ver : UInt8) : Ensures (getDerivation ver) fun routes =>
    RoutesOk routes ∧ (routes ≠ [] → recordCodecV5 ≤ ver) := by
  unfold getDerivation
  split
  · rename_i hver
    exact (trivial _).bind fun _ _ => (trivial _).bind fun _ _ =>
      (getRoutes_ensures _ RoutesOk.nil).mono fun _ hr => ⟨hr, fun _ => hver⟩
  · exact pure ⟨RoutesOk.nil, fun h => absurd rfl h⟩

theorem getData_ensures : Ensures getData fun data => data.length ≤ uint32Max :=
  (Ensures.trivial _).bind fun dl _ => (Ensures.take _).mono fun _ h => h.trans_le (u32_le dl)

theorem getRecord_ensures : Ensures getRecord MemoryRecord.WellFormed := by
  refine (trivial _).bind fun ver _ => (trivial _).bind fun _ _ =>
    (trivial _).bind fun id _ => (trivial _).bind fun type _ =>
    (trivial _).bind fun created _ => (trivial _).bind fun updated _ =>
    (trivial _).bind fun importance _ => (trivial _).bind fun confidence _ =>
    (trivial _).bind fun deleted _ => (trivial _).bind fun expiresAt _ => ?_
  refine getLenstr_ensures.bind fun agentId hagent => getTags_ensures.bind fun tags htags => ?_
  refine (getEmbedding_ensures ver).bind fun embedding hemb => ?_
  refine getRelationships_ensures.bind fun rels hrels => ?_
  refine (getFact_ensures ver).bind fun fact hfact => ?_
  refine (getDerivation_ensures ver).bind fun routes hroutes => ?_
  refine getData_ensures.bind fun data hdata => pure ?_
  have hderived : routes ≠ [] → fact.kind ≠ .none := fun hr =>
    hfact.2.2.2 (UInt8.le_trans (by decide) (hroutes.2 hr))
  exact
    { importance := F32.orDefault_inUnit F32.zero_inUnit
      confidence := F32.orDefault_inUnit F32.one_inUnit
      agent := hagent
      tags := htags.2
      tag_count := htags.1
      vec_count := hemb.1
      dim := hemb.2.1
      dim_iff := hemb.2.2
      kinds := hrels.2
      rel_count := hrels.1
      fact := hfact.1
      predicate := hfact.2.1
      object := hfact.2.2.1
      routes := hroutes.1
      derived := hderived
      data := hdata }

theorem wellFormed_of_recordDecode {b : Bytes} (h : recordDecode b = some r) : r.WellFormed := by
  obtain ⟨⟨r, rest⟩, hrun, rfl⟩ := map_eq_some_iff.1 h
  exact getRecord_ensures b r rest hrun

/-- **Decoding is stable under re-encoding.** A record read from any bytes can be written again, and
reads back the same. -/
theorem recordDecode_stable (b : Bytes) (r : MemoryRecord) (h : recordDecode b = some r) :
    ∃ b', recordEncode r = some b' ∧ recordDecode b' = some r := by
  have hr := wellFormed_of_recordDecode h
  exact ⟨recordBytes r, recordEncode_of_wireFormed hr.toWireFormed, recordDecode_recordBytes hr⟩

/-- A frame no encoder writes: version 1, a NaN, a deletion marker of 7, a NUL inside of the agent
and bytes behind the record. -/
def legacyBytes : Bytes :=
  [1] ++ leBytes 8 5 ++ [1] ++ leBytes 8 10 ++ leBytes 8 10 ++ leBytes 4 0x7FC00000 ++
    leBytes 4 0x3F000000 ++ [7] ++ leBytes 8 0 ++ leBytes 4 3 ++ [0x61, 0, 0x62] ++ leBytes 2 0 ++
    leBytes 4 1 ++ leBytes 4 0x3F800000 ++ leBytes 2 0 ++ leBytes 4 1 ++ [0x2A, 0xDE, 0xAD]

def legacyRecord : MemoryRecord :=
  { recordInit with
    id := 5
    type := .episodic
    created := 10
    updated := 10
    confidence := ⟨0x3F000000⟩
    agentId := some (CString.ofBytes [0x61])
    embedding := ⟨1, 1, [F32.one], rfl⟩
    data := [0x2A]
    deleted := true }

theorem legacyBytes_stable : recordDecode legacyBytes = some legacyRecord ∧
    ∃ b', recordEncode legacyRecord = some b' ∧ recordDecode b' = some legacyRecord := by
  have h : recordDecode legacyBytes = some legacyRecord := by decide +kernel
  exact ⟨h, recordDecode_stable legacyBytes legacyRecord h⟩

end AegisDB
