import AegisDB.Foundations.Bytes

/-!
# SHA-256

The hash of `sha256.c`, by which the server compares tokens. A digest is a byte string of 32 bytes;
nothing else of the hash is used by the proofs about tokens.
-/

namespace AegisDB

open Bytes

def rotr (x n : UInt32) : UInt32 := (x >>> n) ||| (x <<< (32 - n))

def sha256K : List UInt32 :=
  [0x428a2f98, 0x71374491, 0xb5c0fbcf, 0xe9b5dba5, 0x3956c25b, 0x59f111f1,
    0x923f82a4, 0xab1c5ed5, 0xd807aa98, 0x12835b01, 0x243185be, 0x550c7dc3,
    0x72be5d74, 0x80deb1fe, 0x9bdc06a7, 0xc19bf174, 0xe49b69c1, 0xefbe4786,
    0x0fc19dc6, 0x240ca1cc, 0x2de92c6f, 0x4a7484aa, 0x5cb0a9dc, 0x76f988da,
    0x983e5152, 0xa831c66d, 0xb00327c8, 0xbf597fc7, 0xc6e00bf3, 0xd5a79147,
    0x06ca6351, 0x14292967, 0x27b70a85, 0x2e1b2138, 0x4d2c6dfc, 0x53380d13,
    0x650a7354, 0x766a0abb, 0x81c2c92e, 0x92722c85, 0xa2bfe8a1, 0xa81a664b,
    0xc24b8b70, 0xc76c51a3, 0xd192e819, 0xd6990624, 0xf40e3585, 0x106aa070,
    0x19a4c116, 0x1e376c08, 0x2748774c, 0x34b0bcb5, 0x391c0cb3, 0x4ed8aa4a,
    0x5b9cca4f, 0x682e6ff3, 0x748f82ee, 0x78a5636f, 0x84c87814, 0x8cc70208,
    0x90befffa, 0xa4506ceb, 0xbef9a3f7, 0xc67178f2]

structure Sha256State where
  (a b c d e f g h : UInt32)
  deriving DecidableEq

/-- The word of four bytes, most significant first. -/
def beWord (b : Bytes) : UInt32 :=
  (b.getD 0 0).toUInt32 <<< 24 ||| (b.getD 1 0).toUInt32 <<< 16 |||
    (b.getD 2 0).toUInt32 <<< 8 ||| (b.getD 3 0).toUInt32

/-- The four bytes of a word, most significant first. -/
def beBytes (x : UInt32) : Bytes :=
  [(x >>> 24).toUInt8, (x >>> 16).toUInt8, (x >>> 8).toUInt8, x.toUInt8]

/-- The next word of the message schedule, from the words so far. -/
def nextWord (w : List UInt32) : UInt32 :=
  let i := w.length
  let x := w.getD (i - 15) 0
  let y := w.getD (i - 2) 0
  let s0 := rotr x 7 ^^^ rotr x 18 ^^^ (x >>> 3)
  let s1 := rotr y 17 ^^^ rotr y 19 ^^^ (y >>> 10)
  w.getD (i - 16) 0 + s0 + w.getD (i - 7) 0 + s1

/-- The message schedule of a block of 64 bytes. -/
def schedule (p : Bytes) : List UInt32 :=
  (List.range 48).foldl (fun w _ => w ++ [nextWord w])
    ((List.range 16).map fun i => beWord ((p.drop (i * 4)).take 4))

/-- One round; `kw` is the constant of the round with its word of the schedule. -/
def sha256Round (s : Sha256State) (kw : UInt32 × UInt32) : Sha256State :=
  let S1 := rotr s.e 6 ^^^ rotr s.e 11 ^^^ rotr s.e 25
  let ch := (s.e &&& s.f) ^^^ (~~~s.e &&& s.g)
  let t1 := s.h + S1 + ch + kw.1 + kw.2
  let S0 := rotr s.a 2 ^^^ rotr s.a 13 ^^^ rotr s.a 22
  let maj := (s.a &&& s.b) ^^^ (s.a &&& s.c) ^^^ (s.b &&& s.c)
  let t2 := S0 + maj
  ⟨t1 + t2, s.a, s.b, s.c, s.d + t1, s.e, s.f, s.g⟩

/-- `transform`. -/
def sha256Transform (s : Sha256State) (p : Bytes) : Sha256State :=
  let r := (sha256K.zip (schedule p)).foldl sha256Round s
  ⟨s.a + r.a, s.b + r.b, s.c + r.c, s.d + r.d, s.e + r.e, s.f + r.f, s.g + r.g, s.h + r.h⟩

/-- The loop of `sha256` over `n` whole blocks. -/
def sha256Blocks : ℕ → Bytes → Sha256State → Sha256State
  | 0, _, s => s
  | n + 1, p, s => sha256Blocks n (p.drop 64) (sha256Transform s (p.take 64))

/-- The final padded blocks: the rest of the message, `0x80`, zeros, and the number of bits. -/
def sha256Padding (p : Bytes) (total : ℕ) : Bytes :=
  let padlen := if p.length < 56 then 64 else 128
  p ++ 0x80 :: List.replicate (padlen - p.length - 9) 0 ++ (leBytes 8 (total * 8)).reverse

abbrev Digest := {b : Bytes // b.length = 32}

def sha256 (data : Bytes) : Digest :=
  let n := data.length / 64
  let pad := sha256Padding (data.drop (n * 64)) data.length
  let s := sha256Blocks (n + pad.length / 64) (data.take (n * 64) ++ pad)
    ⟨0x6a09e667, 0xbb67ae85, 0x3c6ef372, 0xa54ff53a, 0x510e527f, 0x9b05688c, 0x1f83d9ab,
      0x5be0cd19⟩
  ⟨[s.a, s.b, s.c, s.d, s.e, s.f, s.g, s.h].flatMap beBytes, rfl⟩

-- `sha256("abc")`
example : (sha256 [0x61, 0x62, 0x63]).1 =
    [0xba, 0x78, 0x16, 0xbf, 0x8f, 0x01, 0xcf, 0xea, 0x41, 0x41, 0x40, 0xde, 0x5d, 0xae, 0x22, 0x23,
      0xb0, 0x03, 0x61, 0xa3, 0x96, 0x17, 0x7a, 0x9c, 0xb4, 0x10, 0xff, 0x61, 0xf2, 0x00, 0x15,
      0xad] := by
  decide +kernel

end AegisDB
