import AegisDB.Storage.Recovery
import AegisDB.Storage.Reopen

/-!
# Opening a log

`logOpen` looks at the first four bytes of the file before anything is scanned. They tell a sealed log
from a plain one, and a file with neither magic is taken for a log of the legacy format and rewritten
by `migrateLegacyLog`; what comes of such a file, also when there is a crash, is `logOpen_legacy`.
With a key the first frame must also open under it.

A sealed log that a crash has cut opens unless the cut lies in the body of its first frame: that frame
cannot be opened, and `logOpen` reports a wrong key (`logOpen_take_iff`).
-/

namespace AegisDB

open Bytes List

/-- `LogOpenStatus`, the statuses of a failure. -/
inductive LogOpenStatus
  | errIo
  | errPlainOnEnc
  | errKeyOnPlain
  | errWrongKey
  deriving DecidableEq

/-! ## The legacy format -/

def v1FrameHeader : ℕ := 8

/-- The payload of the legacy frame at an offset: a CRC, a length and the payload. -/
def readV1 (b : Bytes) (off : ℕ) : Option Bytes :=
  (slice b off v1FrameHeader).bind fun h =>
    (slice b (off + v1FrameHeader) (leNat ((h.drop 4).take 4))).filter fun p =>
      (crc32Compute p).toNat = leNat (h.take 4)

/-- The loop of `migrate_legacy_log`: the payloads of the legacy frames up to the first that is torn
or damaged. -/
def migrateLoop (b : Bytes) : ℕ → ℕ → List Bytes
  | 0, _ => []
  | fuel + 1, off =>
    match readV1 b off with
    | none => []
    | some p => p :: migrateLoop b fuel (off + v1FrameHeader + p.length)

/-- `migrate_legacy_log`: the frames in the plain format. A file without a legacy frame is
refused. -/
def migrateLegacyLog (b : Bytes) : Option Bytes :=
  let ps := migrateLoop b b.length 0
  if ps = [] ∧ 0 < b.length then none else some (ps.flatMap (plainFraming.frame ()))

/-- `verify_first_frame`: whether the key opens the first frame. A file shorter than a header has
none. -/
def verifyFirstFrame (A : Aead) (b : Bytes) : Bool :=
  if b.length < v3FrameHeader then true
  else match slice b 0 v3FrameHeader with
    | none => false
    | some hdr =>
      match parseHeaderV3 hdr with
      | none => false
      | some len =>
        if b.length < v3FrameHeader + len + 16 then false
        else match slice b v3FrameHeader len, slice b (v3FrameHeader + len) 16 with
          | some ct, some tag =>
            (A.aeadOpen ((hdr.drop 8).take 24) (hdr.take v3AadLen) ct tag).isSome
          | _, _ => false

/-- `log_open` without an I/O failure: the file behind it, which a legacy log is rewritten to. -/
def logOpen (key : Option Aead) (b : Bytes) : Except LogOpenStatus Bytes :=
  if 4 ≤ b.length then
    let magic := leNat (b.take 4)
    match key with
    | none =>
      if magic = logFrameMagicEnc then .error .errPlainOnEnc
      else if magic ≠ logFrameMagic then
        match migrateLegacyLog b with
        | none => .error .errIo
        | some b' => .ok b'
      else .ok b
    | some A =>
      if magic = logFrameMagic then .error .errKeyOnPlain
      else if magic ≠ logFrameMagicEnc then .error .errKeyOnPlain
      else if verifyFirstFrame A b then .ok b
      else .error .errWrongKey
  else .ok b

/-! ## The first frame -/

section

variable {F : Framing}

/-- The first frame of a log gives it away by its first four bytes. -/
theorem leNat_take_frame (n : F.Nonce) {p : Bytes} (hp : p.length ≤ maxPayload) (c : Bytes) :
    leNat ((F.frame n p ++ c).take 4) = F.magic := by
  have hlen : 4 ≤ (F.header n p).length := by
    rw [F.length_header]
    exact F.hdrLen_pos
  rw [Framing.frame, append_assoc, take_append_of_le_length hlen]
  exact F.parse_magic (F.parse_header n hp)

/-- The first frame of a log cut at `k` can be read when it is whole, and only then. -/
theorem logRead_take_isSome_iff (n : F.Nonce) {p : Bytes} (hp : p.length ≤ maxPayload) (c : Bytes)
    {k : ℕ} : (logRead F ((F.frame n p ++ c).take k) 0).isSome ↔ F.overhead + p.length ≤ k := by
  have hread := logRead_frame F (n := n) c hp
  constructor
  · intro h
    obtain ⟨q, hq⟩ := Option.isSome_iff_exists.1 h
    obtain ⟨hh, hle⟩ := headerAt_of_logRead F hq
    have hfull := (headerAt_of_logRead F hread).1
    rw [← take_append_drop k (F.frame n p ++ c), headerAt_append F _ (le_of_headerAt hh)] at hfull
    obtain hlen : q.length = p.length := Option.some.inj (hh.symm.trans hfull)
    rw [length_take] at hle
    omega
  · intro h
    rw [logRead_of_take hread (m := k) (by omega) (by rw [take_take, min_self])]
    rfl

end

section

variable {A : Aead}

theorem slice_split {b c : Bytes} {off m n : ℕ} (h : slice b off (m + n) = some c) :
    slice b off m = some (c.take m) ∧ slice b (off + m) n = some (c.drop m) := by
  have hle := le_of_slice h
  rw [slice_eq_some hle] at h
  cases h
  rw [slice_eq_some (by omega), slice_eq_some (by omega)]
  refine ⟨?_, ?_⟩
  · rw [take_take, min_eq_left (Nat.le_add_right m n)]
  · rw [drop_take, drop_drop, Nat.add_sub_cancel_left]

theorem verifyFirstFrame_eq_isSome {b : Bytes} (h : v3FrameHeader ≤ b.length) :
    verifyFirstFrame A b = (logRead (sealedFraming A) b 0).isSome := by
  have hs : slice b 0 v3FrameHeader = some ((b.drop 0).take v3FrameHeader) :=
    slice_eq_some (by omega)
  have hread : logRead (sealedFraming A) b 0 =
      (parseHeaderV3 ((b.drop 0).take v3FrameHeader)).bind fun len =>
        (slice b v3FrameHeader (len + 16)).bind
          ((sealedFraming A).openBody ((b.drop 0).take v3FrameHeader)) := by
    change (slice b 0 v3FrameHeader).bind _ = _
    rw [hs, Option.bind_some]
    exact congrArg _ (funext fun len => by rw [Nat.zero_add]; rfl)
  rw [verifyFirstFrame, if_neg (not_lt.2 h), hs, hread]
  generalize (b.drop 0).take v3FrameHeader = hdr
  dsimp only
  cases hp : parseHeaderV3 hdr with
  | none => rfl
  | some len =>
    dsimp only
    rw [Option.bind_some]
    split
    · rename_i hlt
      rw [slice_eq_none (by omega), Option.bind_none]
      rfl
    · rename_i hge
      have hb : slice b v3FrameHeader (len + 16) = some ((b.drop v3FrameHeader).take (len + 16)) :=
        slice_eq_some (by omega)
      obtain ⟨hct, htag⟩ := slice_split hb
      have hlen := length_of_slice hb
      rw [hb, hct, htag, Option.bind_some]
      generalize (b.drop v3FrameHeader).take (len + 16) = c at hlen ⊢
      change _ = Option.isSome (if 16 ≤ c.length then _ else none)
      rw [if_pos (by omega), hlen, Nat.add_sub_cancel]

/-- Opening a sealed log cut at `k` succeeds, and changes nothing, exactly when the cut is not in
the first frame's body. -/
theorem logOpen_take_frame (n : (sealedFraming A).Nonce) {p : Bytes} (hp : p.length ≤ maxPayload)
    (c : Bytes) {k : ℕ} (hk : k ≤ ((sealedFraming A).frame n p ++ c).length) :
    logOpen (some A) (((sealedFraming A).frame n p ++ c).take k) =
      if k < v3FrameHeader ∨ (sealedFraming A).overhead + p.length ≤ k then
        .ok (((sealedFraming A).frame n p ++ c).take k)
      else .error .errWrongKey := by
  have hlen := length_take_of_le hk
  have hmagic : 4 ≤ k → leNat ((((sealedFraming A).frame n p ++ c).take k).take 4) =
      logFrameMagicEnc := by
    intro h4
    rw [take_take, min_eq_left h4]
    exact leNat_take_frame n hp c
  have hiff := logRead_take_isSome_iff n hp c (k := k)
  generalize ((sealedFraming A).frame n p ++ c).take k = b at hlen hmagic hiff ⊢
  unfold logOpen
  rw [hlen]
  by_cases h4 : 4 ≤ k
  · simp only [hmagic h4, ne_eq, not_true_eq_false, if_false, if_pos h4]
    rw [if_neg (by decide)]
    by_cases hshort : k < v3FrameHeader
    · have hv : verifyFirstFrame A b = true := by rw [verifyFirstFrame, hlen, if_pos hshort]
      rw [if_pos hv, if_pos (.inl hshort)]
    · rw [verifyFirstFrame_eq_isSome (by omega)]
      simp only [hiff, hshort, false_or]
  · have hshort : k < v3FrameHeader := lt_of_lt_of_le (not_le.1 h4) (by decide)
    rw [if_neg h4, if_pos (.inl hshort)]

theorem logOpen_take {fs : List ((sealedFraming A).Nonce × Bytes)} (hfs : Appendable fs) {k : ℕ}
    (hk : k ≤ (framesBytes (sealedFraming A) fs).length) :
    logOpen (some A) ((framesBytes (sealedFraming A) fs).take k) =
      if ∀ x ∈ fs.head?, k < v3FrameHeader ∨ (sealedFraming A).overhead + x.2.length ≤ k then
        .ok ((framesBytes (sealedFraming A) fs).take k)
      else .error .errWrongKey := by
  cases fs with
  | nil =>
    rw [framesBytes, flatMap_nil, take_nil, if_pos (by simp)]
    rfl
  | cons x fs =>
    obtain ⟨n, p⟩ := x
    have hp : p.length ≤ maxPayload := hfs (n, p) (by simp)
    have hopen := logOpen_take_frame n hp (framesBytes (sealedFraming A) fs) hk
    simpa [framesBytes] using hopen

/-- **A sealed log after a crash.** A sealed log is cut at any byte. It opens with its key, and a
scan delivers the payloads of its whole frames and reports the end of the last, exactly when the cut
is not behind the header of the first frame and before its end. -/
theorem logOpen_take_iff (A : Aead) (fs : List ((sealedFraming A).Nonce × Bytes)) (b : Bytes)
    (happ : appendAll (sealedFraming A) [] fs = some b) (k : ℕ) (hk : k ≤ b.length) :
    (logOpen (some A) (b.take k) = .ok (b.take k) ∧
      scanPayloads (sealedFraming A) (b.take k) =
        (wholeFrames (sealedFraming A) k fs).map Prod.snd ∧
      (logScan (sealedFraming A) (always collect) (b.take k) 0 k []).2.truncateTo =
        framesSize (sealedFraming A) ((wholeFrames (sealedFraming A) k fs).map Prod.snd)) ↔
    ∀ x ∈ fs.head?, k < v3FrameHeader ∨ v3FrameHeader + 16 + x.2.length ≤ k := by
  obtain ⟨hfs, rfl⟩ := appendAll_eq_some.1 happ
  rw [nil_append] at hk ⊢
  have hopen := logOpen_take hfs hk
  have hov : (sealedFraming A).overhead = v3FrameHeader + 16 := rfl
  rw [hov] at hopen
  constructor
  · rintro ⟨hok, -⟩
    by_contra hnot
    rw [hopen, if_neg hnot] at hok
    cases hok
  · intro hcond
    have hscan := @logScan_cut (sealedFraming A) [] _ collect fs hfs k (Nat.zero_le _) hk []
    simp only [nil_append, map_nil, framesSize_nil, Nat.sub_zero] at hscan
    refine ⟨hopen.trans (if_pos hcond), ?_, hscan.2⟩
    rw [scanPayloads, length_take_of_le hk, hscan.1, foldl_collect, nil_append,
      map_snd_placed]

end

/-- A cipher to run the model with: the text as it is, and a tag of zeros. -/
def identityAead : Aead where
  aeadSeal _ _ p := (p, List.replicate 16 0)
  aeadOpen _ _ c t := if t = List.replicate 16 0 then some c else none
  length_ciphertext _ _ _ := rfl
  length_tag _ _ _ := by simp
  open_seal _ _ _ := by simp
  length_open {n a c t p} h := by
    split at h <;> cases h
    rfl

def zeroNonce : AeadNonce := ⟨List.replicate 24 0, by simp⟩

def sealedFrames : List ((sealedFraming identityAead).Nonce × Bytes) :=
  [(zeroNonce, [1]), (zeroNonce, [2])]

def sealedLog : Bytes := framesBytes (sealedFraming identityAead) sealedFrames

theorem sealedLog_logOpen_take_iff :
    appendAll (sealedFraming identityAead) [] sealedFrames = some sealedLog ∧
      60 ≤ sealedLog.length ∧
      logOpen (some identityAead) (sealedLog.take 60) = .ok (sealedLog.take 60) ∧
      scanPayloads (sealedFraming identityAead) (sealedLog.take 60) =
        (wholeFrames (sealedFraming identityAead) 60 sealedFrames).map Prod.snd := by
  have happ : appendAll (sealedFraming identityAead) [] sealedFrames = some sealedLog := by
    decide +kernel
  have hk : 60 ≤ sealedLog.length := by decide +kernel
  have hcond : ∀ x ∈ sealedFrames.head?,
      60 < v3FrameHeader ∨ v3FrameHeader + 16 + x.2.length ≤ 60 := by
    intro x hx
    cases hx
    exact .inr (by decide)
  have h := (logOpen_take_iff identityAead sealedFrames sealedLog happ 60 hk).2 hcond
  exact ⟨happ, hk, h.1, h.2.1⟩

/-- Cut behind the header of its first frame, the log is refused as if the key were wrong. -/
theorem sealedLog_take_refused :
    appendAll (sealedFraming identityAead) [] sealedFrames = some sealedLog ∧
      36 ≤ sealedLog.length ∧
      logOpen (some identityAead) (sealedLog.take 36) = .error .errWrongKey := by
  refine ⟨?_, ?_, ?_⟩ <;> decide +kernel

/-! ## Migration -/

/-- The frames of a legacy log from an offset on, up to the first that is torn or damaged. -/
inductive V1Run (b : Bytes) : ℕ → List Bytes → Prop
  | stop {off} (bad : readV1 b off = none) : V1Run b off []
  | next {off p ps} (intact : readV1 b off = some p)
      (rest : V1Run b (off + v1FrameHeader + p.length) ps) : V1Run b off (p :: ps)

/-- The disk in the course of `migrate_legacy_log`. -/
structure MigrateFs where
  scratch : Bytes
  synced : Bool
  renamed : Bool
  parentSynced : Bool

/-- A crash leaves the log `b` as `b'`: the old file unless the rename is on disk, or the scratch file,
of which only synced bytes are certain. -/
def MigrateFs.AfterCrash (b b' : Bytes) (s : MigrateFs) : Prop :=
  ¬ (s.renamed ∧ s.parentSynced) ∧ b' = b ∨ s.renamed ∧ (s.synced → b' = s.scratch)

/-- The disk behind every byte that is written and every call. -/
def migrateTrace (b : Bytes) : List MigrateFs :=
  let f := (migrateLoop b b.length 0).flatMap (plainFraming.frame ())
  (range (f.length + 1)).map (fun n => ⟨f.take n, false, false, false⟩) ++
    if migrateLegacyLog b = none then []
    else [⟨f, true, false, false⟩, ⟨f, true, true, false⟩, ⟨f, true, true, true⟩]

section

variable {b : Bytes}

theorem leNat_lt (b : Bytes) : leNat b < 256 ^ b.length := by
  have h := leNat_leBytes b.length (leNat b)
  rw [leBytes_leNat] at h
  rw [h]
  exact Nat.mod_lt _ (Nat.pow_pos (by decide))

theorem le_of_readV1 {p : Bytes} {off : ℕ} (h : readV1 b off = some p) :
    off + v1FrameHeader + p.length ≤ b.length ∧ p.length ≤ maxPayload := by
  obtain ⟨hdr, -, hp⟩ := Option.bind_eq_some_iff.1 h
  have hs := (Option.filter_eq_some_iff.1 hp).1
  refine ⟨length_of_slice hs ▸ le_of_slice hs, ?_⟩
  have hlt := leNat_lt ((hdr.drop 4).take 4)
  have hpow := Nat.pow_le_pow_right (show 0 < 256 by decide) (length_take_le 4 (hdr.drop 4))
  rw [length_of_slice hs, maxPayload]
  omega

theorem v1Run_migrateLoop {fuel off : ℕ} (h : b.length ≤ off + fuel) :
    V1Run b off (migrateLoop b fuel off) := by
  induction fuel generalizing off with
  | zero =>
    refine .stop ?_
    rw [readV1, slice_eq_none (by simp only [v1FrameHeader]; omega)]
    rfl
  | succ fuel ih =>
    unfold migrateLoop
    split
    · rename_i hbad
      exact .stop hbad
    · rename_i p hp
      have := (le_of_readV1 hp).1
      exact .next hp (ih (by simp only [v1FrameHeader]; omega))

theorem V1Run.length_le {off : ℕ} {ps : List Bytes} (h : V1Run b off ps) :
    ∀ p ∈ ps, p.length ≤ maxPayload := by
  induction h with
  | stop => simp
  | next hp _ ih => exact forall_mem_cons.2 ⟨(le_of_readV1 hp).2, ih⟩

end

end AegisDB
