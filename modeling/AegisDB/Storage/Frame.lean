import AegisDB.Foundations.Bytes

/-!
# Log frames

A frame of the log is a header and a body. Two layouts exist, a log uses one of them throughout:

* plain frames (`plainFraming`): magic, length, payload CRC and header CRC, then the payload;
* sealed frames (`sealedFraming`): magic, length, nonce and header CRC, then the ciphertext and its
  authentication tag.

What the log needs of a layout is a `Framing`: how a frame is built from a payload, how a header is
recognised and how a body is opened. The laws of the structure are the round trips and the lengths;
everything about the log is proved from them, for both layouts at once.
-/

namespace AegisDB

open Bytes List

variable {fields : Bytes}

/-- The largest payload length, `0xFFFFFFFF`. -/
def maxPayload : ℕ := 0xFFFFFFFF

structure Framing where
  Nonce : Type
  magic : ℕ
  hdrLen : ℕ
  /-- The bytes of a body that are not payload. -/
  tagLen : ℕ
  header : Nonce → Bytes → Bytes
  body : Nonce → Bytes → Bytes
  parseHeader : Bytes → Option ℕ
  openBody : Bytes → Bytes → Option Bytes
  length_header : ∀ n p, (header n p).length = hdrLen
  length_body : ∀ n p, (body n p).length = p.length + tagLen
  hdrLen_pos : 4 ≤ hdrLen
  hdrLen_le : hdrLen ≤ 65536
  parse_magic : ∀ {h len}, parseHeader h = some len → leNat (h.take 4) = magic
  parse_header : ∀ n {p}, p.length ≤ maxPayload → parseHeader (header n p) = some p.length
  open_body : ∀ n {p}, p.length ≤ maxPayload → openBody (header n p) (body n p) = some p
  length_open : ∀ {h c p}, openBody h c = some p → c.length = p.length + tagLen

namespace Framing

variable (F : Framing)

/-- The bytes of a frame that are not payload. -/
def overhead : ℕ := F.hdrLen + F.tagLen

def frame (n : F.Nonce) (p : Bytes) : Bytes := F.header n p ++ F.body n p

theorem length_frame (n : F.Nonce) (p : Bytes) : (F.frame n p).length = F.overhead + p.length := by
  rw [frame, length_append, F.length_header, F.length_body, overhead]
  ring

end Framing

/-! ## CRC-32 -/

/-- One turn of the inner loop of `build_table`. -/
def crcBit (c : UInt32) : UInt32 :=
  if (c &&& 1) ≠ 0 then (0xEDB88320 : UInt32) ^^^ (c >>> 1) else c >>> 1

/-- The entry `i` of the table `build_table` fills. -/
def crcTable (i : UInt32) : UInt32 :=
  crcBit (crcBit (crcBit (crcBit (crcBit (crcBit (crcBit (crcBit i)))))))

/-- The loop of `crc32_update`. -/
def crcLoop : UInt32 → Bytes → UInt32
  | crc, [] => crc
  | crc, b :: bs => crcLoop (crcTable ((crc ^^^ b.toUInt32) &&& 0xFF) ^^^ (crc >>> 8)) bs

def crc32Compute (data : Bytes) : UInt32 := ~~~ (crcLoop (~~~ 0) data)

/-- The check value of the CRC-32: the sum of the digits 1 to 9. -/
example : crc32Compute [0x31, 0x32, 0x33, 0x34, 0x35, 0x36, 0x37, 0x38, 0x39] = 0xCBF43926 := by
  decide +kernel

/-- A header: its fields and the CRC over them. -/
def withCrc (fields : Bytes) : Bytes := fields ++ leBytes 4 (crc32Compute fields).toNat

/-- The check of a header with `n` bytes of fields: its magic, then its CRC. -/
def headerOk (magic n : ℕ) (hdr : Bytes) : Prop :=
  leNat (hdr.take 4) = magic ∧ leNat ((hdr.drop n).take 4) = (crc32Compute (hdr.take n)).toNat

instance (magic n : ℕ) (hdr : Bytes) : Decidable (headerOk magic n hdr) :=
  inferInstanceAs (Decidable (_ ∧ _))

theorem leNat_u32 (v : UInt32) : leNat (leBytes 4 v.toNat) = v.toNat :=
  leNat_leBytes_of_lt v.toNat_lt

theorem length_withCrc (fields : Bytes) : (withCrc fields).length = fields.length + 4 := by
  simp [withCrc]

theorem take_withCrc {n : ℕ} (h : fields.length = n) :
    (withCrc fields).take n = fields := take_left' h

theorem field_withCrc {off n : ℕ} (h : off + n ≤ fields.length) :
    ((withCrc fields).drop off).take n = (fields.drop off).take n := by
  rw [withCrc, drop_append_of_le_length (by omega), take_append_of_le_length]
  rw [length_drop]
  omega

theorem headerOk_withCrc {magic n : ℕ} (h : fields.length = n) (hn : 4 ≤ n)
    (hm : leNat (fields.take 4) = magic) : headerOk magic n (withCrc fields) := by
  have h₀ : ((withCrc fields).drop 0).take 4 = (fields.drop 0).take 4 := field_withCrc (by omega)
  rw [drop_zero, drop_zero] at h₀
  refine ⟨by rw [h₀, hm], ?_⟩
  rw [take_withCrc h, withCrc, drop_left' h, take_of_length_le (by simp), leNat_u32]

def logFrameMagic : ℕ := 0xA3D1B70F

def logFrameHeader : ℕ := 16

/-- The first twelve bytes of a plain header. -/
def headerFields (len : ℕ) (payloadCrc : UInt32) : Bytes :=
  leBytes 4 logFrameMagic ++ (leBytes 4 len ++ leBytes 4 payloadCrc.toNat)

def buildHeader (len : ℕ) (payloadCrc : UInt32) : Bytes := withCrc (headerFields len payloadCrc)

/-- `parse_header`: the length and the payload CRC of a header whose magic and CRC are intact. -/
def parseHeader (hdr : Bytes) : Option (ℕ × ℕ) :=
  if headerOk logFrameMagic 12 hdr then
    some (leNat ((hdr.drop 4).take 4), leNat ((hdr.drop 8).take 4))
  else none

theorem length_headerFields (len : ℕ) (crc : UInt32) : (headerFields len crc).length = 12 := by
  simp [headerFields]

theorem parseHeader_buildHeader {len : ℕ} (h : len ≤ maxPayload) (crc : UInt32) :
    parseHeader (buildHeader len crc) = some (len, crc.toNat) := by
  have hlen : leNat (leBytes 4 len) = len := leNat_leBytes_of_lt (Nat.lt_succ_of_le h)
  have hl := length_headerFields len crc
  have h₀ : (headerFields len crc).take 4 = leBytes 4 logFrameMagic := by simp [headerFields]
  have h₄ : ((headerFields len crc).drop 4).take 4 = leBytes 4 len := by simp [headerFields]
  have h₈ : ((headerFields len crc).drop 8).take 4 = leBytes 4 crc.toNat := by
    rw [headerFields, ← append_assoc, drop_left' (by simp), take_of_length_le (by simp)]
  have hok : headerOk logFrameMagic 12 (buildHeader len crc) :=
    headerOk_withCrc hl (by decide) (by rw [h₀]; exact leNat_leBytes_of_lt (by decide))
  rw [parseHeader, if_pos hok, buildHeader, field_withCrc (by omega), field_withCrc (by omega), h₄,
    h₈, hlen, leNat_u32]

def plainFraming : Framing where
  Nonce := Unit
  magic := logFrameMagic
  hdrLen := logFrameHeader
  tagLen := 0
  header _ p := buildHeader p.length (crc32Compute p)
  body _ p := p
  parseHeader h := (parseHeader h).map Prod.fst
  openBody h c :=
    match parseHeader h with
    | some (_, crc) => if (crc32Compute c).toNat = crc then some c else none
    | none => none
  length_header _ p := by simp [buildHeader, length_withCrc, length_headerFields, logFrameHeader]
  length_body _ p := by simp
  hdrLen_pos := by decide
  hdrLen_le := by decide
  parse_magic {h len} hp := by
    obtain ⟨r, hr, -⟩ := Option.map_eq_some_iff.1 hp
    unfold parseHeader at hr
    split at hr
    · exact (‹headerOk logFrameMagic 12 h›).1
    · cases hr
  parse_header _ p h := by simp [parseHeader_buildHeader h]
  open_body _ p h := by simp [parseHeader_buildHeader h]
  length_open {h c p} ho := by
    split at ho
    · split at ho <;> cases ho
      rfl
    · cases ho

/-! ## Sealed frames -/

/-- An authenticated cipher under a fixed key: `aead_seal` and `aead_open`. -/
structure Aead where
  /-- Ciphertext and tag of a nonce, the associated data and a plaintext. -/
  aeadSeal : Bytes → Bytes → Bytes → Bytes × Bytes
  /-- The plaintext of a nonce, the associated data, a ciphertext and its tag. -/
  aeadOpen : Bytes → Bytes → Bytes → Bytes → Option Bytes
  length_ciphertext : ∀ n a p, (aeadSeal n a p).1.length = p.length
  length_tag : ∀ n a p, (aeadSeal n a p).2.length = 16
  open_seal : ∀ n a p, aeadOpen n a (aeadSeal n a p).1 (aeadSeal n a p).2 = some p
  length_open : ∀ {n a c t p}, aeadOpen n a c t = some p → p.length = c.length

def logFrameMagicEnc : ℕ := 0xA3D1B71E

def v3FrameHeader : ℕ := 36

/-- `V3_AAD_LEN`: magic, length and nonce are the associated data. -/
def v3AadLen : ℕ := 32

def AeadNonce := {n : Bytes // n.length = 24}

def headerFieldsV3 (len : ℕ) (nonce : AeadNonce) : Bytes :=
  leBytes 4 logFrameMagicEnc ++ (leBytes 4 len ++ nonce.1)

def buildHeaderV3 (len : ℕ) (nonce : AeadNonce) : Bytes := withCrc (headerFieldsV3 len nonce)

def parseHeaderV3 (hdr : Bytes) : Option ℕ :=
  if headerOk logFrameMagicEnc v3AadLen hdr then some (leNat ((hdr.drop 4).take 4)) else none

theorem length_headerFieldsV3 (len : ℕ) (n : AeadNonce) :
    (headerFieldsV3 len n).length = v3AadLen := by
  simp [headerFieldsV3, n.2, v3AadLen]

theorem parseHeaderV3_buildHeaderV3 {len : ℕ} (h : len ≤ maxPayload) (n : AeadNonce) :
    parseHeaderV3 (buildHeaderV3 len n) = some len := by
  have hlen : leNat (leBytes 4 len) = len := leNat_leBytes_of_lt (Nat.lt_succ_of_le h)
  have hl := length_headerFieldsV3 len n
  have h₀ : (headerFieldsV3 len n).take 4 = leBytes 4 logFrameMagicEnc := by simp [headerFieldsV3]
  have h₄ : ((headerFieldsV3 len n).drop 4).take 4 = leBytes 4 len := by simp [headerFieldsV3]
  have hok : headerOk logFrameMagicEnc v3AadLen (buildHeaderV3 len n) :=
    headerOk_withCrc hl (by decide) (by rw [h₀]; exact leNat_leBytes_of_lt (by decide))
  rw [parseHeaderV3, if_pos hok, buildHeaderV3, field_withCrc (by rw [hl]; decide), h₄, hlen]

def sealedFraming (A : Aead) : Framing where
  Nonce := AeadNonce
  magic := logFrameMagicEnc
  hdrLen := v3FrameHeader
  tagLen := 16
  header n p := buildHeaderV3 p.length n
  body n p :=
    let s := A.aeadSeal n.1 (headerFieldsV3 p.length n) p
    s.1 ++ s.2
  parseHeader := parseHeaderV3
  openBody h c :=
    if 16 ≤ c.length then
      A.aeadOpen ((h.drop 8).take 24) (h.take v3AadLen) (c.take (c.length - 16))
        (c.drop (c.length - 16))
    else none
  length_header n p := by
    simp [buildHeaderV3, length_withCrc, length_headerFieldsV3, v3AadLen, v3FrameHeader]
  length_body n p := by simp [A.length_ciphertext, A.length_tag]
  hdrLen_pos := by decide
  hdrLen_le := by decide
  parse_magic {h len} hp := by
    unfold parseHeaderV3 at hp
    split at hp
    · exact (‹headerOk logFrameMagicEnc v3AadLen h›).1
    · cases hp
  parse_header n p h := parseHeaderV3_buildHeaderV3 h n
  open_body n p h := by
    have hl := length_headerFieldsV3 p.length n
    have haad : (buildHeaderV3 p.length n).take v3AadLen = headerFieldsV3 p.length n :=
      take_withCrc hl
    have hnonce : ((buildHeaderV3 p.length n).drop 8).take 24 = n.1 := by
      rw [buildHeaderV3, field_withCrc (by rw [hl]; decide)]
      rw [headerFieldsV3, ← List.append_assoc, List.drop_left' (by simp),
        List.take_of_length_le n.2.le]
    have hct := A.length_ciphertext n.1 (headerFieldsV3 p.length n) p
    have htag := A.length_tag n.1 (headerFieldsV3 p.length n) p
    simp only [haad, hnonce, List.length_append, htag, Nat.add_sub_cancel, Nat.le_add_left, if_true,
      List.take_left, List.drop_left]
    exact A.open_seal _ _ _
  length_open {h c p} ho := by
    split at ho
    · have := A.length_open ho
      rw [List.length_take] at this
      omega
    · cases ho

end AegisDB
