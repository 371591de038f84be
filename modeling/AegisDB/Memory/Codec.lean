import AegisDB.Foundations.Cursor
import AegisDB.Memory.Record

/-!
# The record codec

`recordEncode` writes a record with the lowest version that can represent it: version 5 with a
derivation, version 3 with a fact, version 2 otherwise. `recordDecode` reads versions 1, 2, 3
and 5. The sections of a record follow each other in both, and each section is a definition of its
own here:

    head, agent, tags, embedding, relationships, [fact], [derivation], payload
-/

namespace AegisDB

open Bytes

/-- `NULL_LEN`, the length that stands for a `NULL` string. -/
def nullLen : UInt32 := 0xFFFFFFFF

def uint16Max : ℕ := 0xFFFF

def uint32Max : ℕ := 0xFFFFFFFF

def recordCodecV2 : UInt8 := 2

def recordCodecV3 : UInt8 := 3

def recordCodecV5 : UInt8 := 5

/-! ## Encoding -/

/-- `put_lenstr`; the length is cut to 32 bits, as the cast of the source does. -/
def putLenstr : Option CString → Bytes
  | none => leBytes 4 nullLen.toNat
  | some s => leBytes 4 s.bytes.length ++ s.bytes

/-- The version byte `record_encode` writes. -/
def recordVersion (r : MemoryRecord) : UInt8 :=
  if r.routes ≠ [] then recordCodecV5
  else if r.fact.kind ≠ .none then recordCodecV3
  else recordCodecV2

/-- The fields of fixed width at the front of a record. -/
def putHead (r : MemoryRecord) : Bytes :=
  leBytes 1 (recordVersion r).toNat ++ (leBytes 8 r.id.toNat ++ (leBytes 1 r.type.toNat ++
    (leBytes 8 r.created.toNat ++ (leBytes 8 r.updated.toNat ++
    (leBytes 4 r.importance.bits.toNat ++ (leBytes 4 r.confidence.bits.toNat ++
    (leBytes 1 (if r.deleted then 1 else 0) ++ leBytes 8 r.expiresAt.toNat)))))))

def putTags (tags : List CString) : Bytes :=
  leBytes 2 tags.length ++ tags.flatMap fun t => putLenstr (some t)

/-- The vectors, behind their count and their dimension. -/
def putEmbedding (e : Embedding) : Bytes :=
  leBytes 4 e.vecCount ++ (leBytes 4 e.dim ++ e.floats.flatMap fun f => leBytes 4 f.bits.toNat)

def putRelationship (e : Relationship) : Bytes :=
  leBytes 8 e.fromId.toNat ++ (leBytes 8 e.toId.toNat ++ putLenstr e.kind)

def putRelationships (rels : List Relationship) : Bytes :=
  leBytes 2 rels.length ++ rels.flatMap putRelationship

/-- The fact section; absent without a fact. -/
def putFact (f : Fact) : Bytes :=
  match f.kind with
  | .none => []
  | .objId => leBytes 1 f.kind.toNat ++ (leBytes 8 f.subject.toNat ++
      (putLenstr f.predicate ++ leBytes 8 f.objectId.toNat))
  | .objString => leBytes 1 f.kind.toNat ++ (leBytes 8 f.subject.toNat ++
      (putLenstr f.predicate ++ putLenstr f.objectStr))

def putRoute (rt : DerivRoute) : Bytes :=
  leBytes 1 rt.rule.toNat ++ (leBytes 2 rt.depth.toNat ++ (leBytes 1 rt.premises.length ++
    rt.premises.flatMap fun p => leBytes 8 p.toNat))

/-- The derivation section; absent without a route. -/
def putDerivation (routes : List DerivRoute) : Bytes :=
  if routes = [] then [] else leBytes 2 routes.length ++ routes.flatMap putRoute

def putData (data : Bytes) : Bytes := leBytes 4 data.length ++ data

/-- The bytes of a record that `record_encode` does not refuse. -/
def recordBytes (r : MemoryRecord) : Bytes :=
  putHead r ++ (putLenstr r.agentId ++ (putTags r.tags ++ (putEmbedding r.embedding ++
    (putRelationships r.relationships ++ (putFact r.fact ++ (putDerivation r.routes ++
    putData r.data))))))

/-- What `record_encode` checks: the rules, a fact under every derivation, and the counts that fit
their field. -/
def Encodable (r : MemoryRecord) : Prop :=
  (∀ rt ∈ r.routes, rt.rule ≠ .none) ∧ (r.routes = [] ∨ r.fact.kind ≠ .none) ∧
    r.tags.length ≤ uint16Max ∧ r.embedding.vecCount ≤ uint32Max ∧
    r.embedding.dim ≤ uint32Max ∧ r.relationships.length ≤ uint16Max ∧
    r.routes.length ≤ derivMaxRoutes ∧
    ∀ rt ∈ r.routes, rt.premises ≠ [] ∧ rt.premises.length ≤ derivMaxPremises

instance (r : MemoryRecord) : Decidable (Encodable r) :=
  inferInstanceAs (Decidable (_ ∧ _ ∧ _ ∧ _ ∧ _ ∧ _ ∧ _ ∧ _))

def recordEncode (r : MemoryRecord) : Option Bytes :=
  if Encodable r then some (recordBytes r) else none

/-! ## Decoding -/

open Cur

def getF32 : Cur F32 := do
  let u ← getU32
  pure ⟨u⟩

def getLenstr : Cur (Option CString) := do
  let n ← getU32
  if n = nullLen then pure none
  else do
    let raw ← take n.toNat
    pure (some (CString.ofBytes raw))

/-- A string that may not be `NULL`. -/
def getString : Cur CString := do
  let s ← getLenstr
  ofOption s

/-- The memory type; a value out of range is refused. -/
def getType : Cur MemoryType := do
  let t ← getU8
  ofOption (MemoryType.ofNat? t.toNat)

/-- The tags; none of them may be `NULL`. -/
def getTags : Cur (List CString) := do
  let tc ← getU16
  let tags ← many tc.toNat getString
  pure tags.1

/-- The floats of `vecCount` vectors; nothing is read unless both counts are positive. -/
def getVectors (vecCount dim : UInt32) : Cur Embedding :=
  if dim ≠ 0 ∧ vecCount ≠ 0 then do
    let left ← remaining
    require (vecCount.toNat ≤ left / 4 / dim.toNat)
    let floats ← many (vecCount.toNat * dim.toNat) getF32
    pure ⟨dim.toNat, vecCount.toNat, floats.1, floats.2⟩
  else pure Embedding.absent

/-- The number of vectors. Version 1 has one vector and no count of them. -/
def getVecCount (ver : UInt8) : Cur UInt32 := if 2 ≤ ver then getU32 else pure 1

def getEmbedding (ver : UInt8) : Cur Embedding := do
  let vecCount ← getVecCount ver
  let dim ← getU32
  getVectors vecCount dim

def getRelationship : Cur Relationship := do
  let fromId ← getU64
  let toId ← getU64
  let kind ← getLenstr
  pure ⟨fromId, toId, kind⟩

def getRelationships : Cur (List Relationship) := do
  let rc ← getU16
  let rels ← many rc.toNat getRelationship
  pure rels.1

def getFact (ver : UInt8) : Cur Fact :=
  if recordCodecV3 ≤ ver then do
    let fk ← getU8
    require (fk = 1 ∨ fk = 2)
    let subject ← getU64
    let pred ← getString
    if fk = 1 then do
      let oid ← getU64
      ofOption (recordSetFact .objId subject (some pred) oid none)
    else do
      let obj ← getString
      ofOption (recordSetFact .objString subject (some pred) 0 (some obj))
  else pure Fact.zeroed

/-- One route, added to those read before it; a route that changes nothing is refused. -/
def getRoute (routes : List DerivRoute) : Cur (List DerivRoute) := do
  let rule ← getU8
  let depth ← getU16
  let pc ← getU8
  let rule ← ofOption (DerivRule.ofNat? rule.toNat)
  require (pc ≠ 0 ∧ pc.toNat ≤ derivMaxPremises)
  let prem ← many pc.toNat getU64
  match recordAddRoute routes rule depth prem.1 with
  | .added routes => pure routes
  | _ => fail

def getRoutes : ℕ → List DerivRoute → Cur (List DerivRoute)
  | 0, routes => pure routes
  | n + 1, routes => do
    let routes ← getRoute routes
    getRoutes n routes

/-- The derivation section, from version 5 on. -/
def getDerivation (ver : UInt8) : Cur (List DerivRoute) :=
  if recordCodecV5 ≤ ver then do
    let rc ← getU16
    require (rc ≠ 0 ∧ rc.toNat ≤ derivMaxRoutes)
    getRoutes rc.toNat []
  else pure []

def getData : Cur Bytes := do
  let dl ← getU32
  take dl.toNat

/-- `record_decode` on its cursor. Out-of-range weights fall back to the defaults of
`record_init`. -/
def getRecord : Cur MemoryRecord := do
  let ver ← getU8
  require (ver = 1 ∨ ver = recordCodecV2 ∨ ver = recordCodecV3 ∨ ver = recordCodecV5)
  let id ← getU64
  let type ← getType
  let created ← getU64
  let updated ← getU64
  let importance ← getF32
  let confidence ← getF32
  let deleted ← getU8
  let expiresAt ← getU64
  let agentId ← getLenstr
  let tags ← getTags
  let embedding ← getEmbedding ver
  let relationships ← getRelationships
  let fact ← getFact ver
  let routes ← getDerivation ver
  let data ← getData
  pure
    { id, type, created, updated
      importance := F32.orDefault F32.zero importance
      confidence := F32.orDefault F32.one confidence
      agentId, tags, embedding, relationships, fact, routes, data, expiresAt
      deleted := deleted ≠ 0 }

/-- `record_decode`; bytes behind the record are ignored. -/
def recordDecode (b : Bytes) : Option MemoryRecord := (getRecord.run b).map Prod.fst

end AegisDB
