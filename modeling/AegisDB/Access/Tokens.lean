import AegisDB.Access.Sha256
import AegisDB.Protocol.Json
import Mathlib.Data.List.Induction

/-!
# Tokens

The token list of the configuration. An entry holds a secret in plain text or as its digest, and is
global or bound to a namespace. A presented secret is compared with every entry by digest, and the
last entry that matches decides (`resolveIdentity`); without any entry every request is
unrestricted. An entry is named by its fingerprint, the first 12 hex digits of its digest, and the
first entry of that name is the one a revocation removes (`configRemoveToken`).
-/

namespace AegisDB

open List Option

/-! ## Hexadecimal digits -/

def hexDigit (n : ℕ) : UInt8 := UInt8.ofNat (if n < 10 then 48 + n else 87 + n)

/-- `aegis_hex_encode`. -/
def hexEncode (b : Bytes) : Bytes :=
  b.flatMap fun x => [hexDigit (x.toNat / 16), hexDigit (x.toNat % 16)]

def hexValue (c : UInt8) : Option ℕ :=
  if 48 ≤ c.toNat ∧ c.toNat ≤ 57 then some (c.toNat - 48)
  else if 97 ≤ c.toNat ∧ c.toNat ≤ 102 then some (c.toNat - 87)
  else if 65 ≤ c.toNat ∧ c.toNat ≤ 70 then some (c.toNat - 55)
  else none

/-- `hex_decode`; `none` is its error. -/
def hexDecode : Bytes → Option Bytes
  | [] => some []
  | [_] => none
  | a :: b :: s =>
    (hexValue a).bind fun hi => (hexValue b).bind fun lo =>
      (hexDecode s).map (UInt8.ofNat (hi * 16 + lo) :: ·)

theorem hexValue_hexDigit {n : ℕ} (h : n < 16) : hexValue (hexDigit n) = some n := by
  have hall : ∀ n < 16, hexValue (hexDigit n) = some n := by decide
  exact hall n h

@[simp] theorem hexDecode_hexEncode (b : Bytes) : hexDecode (hexEncode b) = some b := by
  induction b with
  | nil => rfl
  | cons x b ih =>
    have hx : x.toNat < 256 := x.toNat_lt
    have hback : UInt8.ofNat (x.toNat / 16 * 16 + x.toNat % 16) = x := by
      rw [Nat.div_add_mod', UInt8.ofNat_toNat]
    change hexDecode (hexDigit _ :: hexDigit _ :: hexEncode b) = _
    rw [hexDecode, hexValue_hexDigit (by omega), hexValue_hexDigit (by omega), ih, bind_some,
      bind_some, map_some, hback]

@[simp] theorem length_hexEncode (b : Bytes) : (hexEncode b).length = 2 * b.length := by
  induction b with
  | nil => rfl
  | cons x b ih =>
    change (hexEncode b).length + 2 = _
    rw [ih, length_cons]
    omega

theorem hexDigit_graph {n : ℕ} (h : n < 16) :
    48 ≤ (hexDigit n).toNat ∧ (hexDigit n).toNat ≤ 102 := by
  have hall : ∀ n < 16, 48 ≤ (hexDigit n).toNat ∧ (hexDigit n).toNat ≤ 102 := by decide
  exact hall n h

theorem mem_hexEncode {b : Bytes} {c : UInt8} (h : c ∈ hexEncode b) :
    48 ≤ c.toNat ∧ c.toNat ≤ 102 := by
  obtain ⟨x, -, hc⟩ := mem_flatMap.1 h
  have hx : x.toNat < 256 := x.toNat_lt
  simp only [mem_cons, not_mem_nil, or_false] at hc
  obtain rfl | rfl := hc
  · exact hexDigit_graph (by omega)
  · exact hexDigit_graph (by omega)

/-! ## Entries -/

inductive TokenScope
  | ro
  | rw
  | admin
  deriving DecidableEq, Repr

inductive TokenSecret
  | plain (tok : CString)
  | hashed (d : Digest)
  deriving DecidableEq

structure AuthToken where
  secret : TokenSecret
  /-- The namespace the token is bound to; none for a global token. -/
  ns : Option CString
  scope : TokenScope
  deriving DecidableEq

/-- The mark of a digest in a token file, `sha256$`. -/
def hashMark : Bytes := [115, 104, 97, 50, 53, 54, 36]

/-- The secret of a token text; `none` for a malformed digest. -/
def TokenSecret.parse (tok : CString) : Option TokenSecret :=
  if tok.bytes.take 7 = hashMark then
    let hex := tok.bytes.drop 7
    if hex.length = 64 then
      (hexDecode hex).bind fun d => if h : d.length = 32 then some (.hashed ⟨d, h⟩) else none
    else none
  else some (.plain tok)

/-- `append_token`; `none` is its error. -/
def appendToken (toks : List AuthToken) (tok : CString) (ns : Option CString)
    (scope : TokenScope) : Option (List AuthToken) :=
  (TokenSecret.parse tok).map fun secret => toks ++ [⟨secret, ns, scope⟩]

def tokenDigest (t : AuthToken) : Digest :=
  match t.secret with
  | .plain tok => sha256 tok.bytes
  | .hashed d => d

/-- The fingerprint of a digest: its first 6 bytes. -/
def Digest.fingerprint (d : Digest) : Bytes := hexEncode (d.1.take 6)

def configTokenFingerprint (t : AuthToken) : Bytes := (tokenDigest t).fingerprint

/-- `config_remove_token`: without the first entry of that fingerprint; `none` when there is
none. -/
def configRemoveToken (id : CString) : List AuthToken → Option (List AuthToken)
  | [] => none
  | t :: ts =>
    if configTokenFingerprint t = id.bytes then some ts
    else (configRemoveToken id ts).map (t :: ·)

/-- The entries behind the first one of a fingerprint. -/
def behindFirst (id : CString) (toks : List AuthToken) : List AuthToken :=
  (toks.dropWhile fun t => configTokenFingerprint t ≠ id.bytes).tail

variable {toks : List AuthToken}

theorem configRemoveToken_eq_some {id : CString} {toks' : List AuthToken} :
    configRemoveToken id toks = some toks' ↔ ∃ l t, toks = l ++ t :: behindFirst id toks ∧
      (∀ x ∈ l, configTokenFingerprint x ≠ id.bytes) ∧ configTokenFingerprint t = id.bytes ∧
      toks' = l ++ behindFirst id toks := by
  induction toks generalizing toks' with
  | nil => simp [configRemoveToken]
  | cons t ts ih =>
    unfold configRemoveToken
    by_cases ht : configTokenFingerprint t = id.bytes
    · have hb : behindFirst id (t :: ts) = ts := by simp [behindFirst, ht]
      rw [if_pos ht, hb]
      constructor
      · intro h
        cases h
        exact ⟨[], t, rfl, by simp, ht, rfl⟩
      · rintro ⟨l, u, heq, hl, -, rfl⟩
        cases l with
        | nil => rfl
        | cons x l =>
          obtain ⟨rfl, -⟩ := List.cons.inj heq
          exact absurd ht (hl _ (by simp))
    · have hb : behindFirst id (t :: ts) = behindFirst id ts := by simp [behindFirst, ht]
      rw [if_neg ht, hb, map_eq_some_iff]
      constructor
      · rintro ⟨ts', h, rfl⟩
        obtain ⟨l, u, heq, hl, hu, rfl⟩ := ih.1 h
        refine ⟨t :: l, u, by rw [cons_append, ← heq], ?_, hu, rfl⟩
        rintro x hx
        obtain rfl | hx := mem_cons.1 hx
        · exact ht
        · exact hl x hx
      · rintro ⟨l, u, heq, hl, hu, rfl⟩
        cases l with
        | nil =>
          obtain ⟨rfl, -⟩ := List.cons.inj heq
          exact absurd hu ht
        | cons x l =>
          obtain ⟨rfl, htail⟩ := List.cons.inj heq
          exact ⟨_, ih.2 ⟨l, u, htail, fun y hy => hl y (by simp [hy]), hu, rfl⟩, rfl⟩

structure AuthCtx where
  ns : Option CString
  canWrite : Bool
  deriving DecidableEq

/-- What `ns_buf` holds of a namespace. -/
def nsBuf (ns : CString) : CString := .ofBytes (ns.bytes.take 511)

def AuthToken.identity (t : AuthToken) : AuthCtx := ⟨t.ns.map nsBuf, t.scope ≠ .ro⟩

/-- The entry a secret matches: the last one of its digest. -/
def matchToken (toks : List AuthToken) (d : Digest) : Option AuthToken :=
  toks.foldl (fun m t => if d = tokenDigest t then some t else m) none

/-- `resolve_identity`, of the token a request carries; `none` is `AEGIS_ERR_UNAUTHORIZED`. -/
def resolveIdentity (toks : List AuthToken) (token : Option CString) : Option AuthCtx :=
  if toks = [] then some ⟨none, true⟩
  else token.bind fun x => (matchToken toks (sha256 x.bytes)).map AuthToken.identity

theorem matchToken_append (toks : List AuthToken) (t : AuthToken) (d : Digest) :
    matchToken (toks ++ [t]) d = if d = tokenDigest t then some t else matchToken toks d := by
  simp [matchToken]

theorem matchToken_eq_none {d : Digest} :
    matchToken toks d = none ↔ ∀ t ∈ toks, tokenDigest t ≠ d := by
  induction toks using reverseRecOn with
  | nil => simp [matchToken]
  | append_singleton toks t ih =>
    rw [matchToken_append]
    by_cases h : d = tokenDigest t
    · simp [h]
    · simp [h, ih, or_imp, forall_and, Ne.symm h]

theorem mem_of_matchToken {d : Digest} {t : AuthToken} (h : matchToken toks d = some t) :
    t ∈ toks ∧ tokenDigest t = d := by
  induction toks using reverseRecOn with
  | nil => cases h
  | append_singleton toks u ih =>
    rw [matchToken_append] at h
    split at h
    · cases h
      exact ⟨by simp, by simp [*]⟩
    · obtain ⟨hmem, hd⟩ := ih h
      exact ⟨by simp [hmem], hd⟩

/-- Two lists with the same digests and identities, entry by entry, resolve every secret alike. -/
theorem matchToken_map {f : AuthToken → AuthToken} (hf : ∀ t, tokenDigest (f t) = tokenDigest t)
    (d : Digest) :
    matchToken (toks.map f) d = (matchToken toks d).map f := by
  induction toks using reverseRecOn with
  | nil => rfl
  | append_singleton toks t ih =>
    rw [map_append, map_singleton, matchToken_append, matchToken_append, hf, ih]
    split <;> rfl

/-- A request is turned away when there are entries and none of them matches. -/
theorem resolveIdentity_eq_none {token : Option CString} :
    resolveIdentity toks token = none ↔
      toks ≠ [] ∧ ∀ x, token = some x → ∀ t ∈ toks, tokenDigest t ≠ sha256 x.bytes := by
  unfold resolveIdentity
  by_cases h : toks = []
  · simp [h]
  · cases token with
    | none => simp [h]
    | some x => simp [h, matchToken_eq_none]

end AegisDB
