import AegisDB.Storage.Frame

/-!
# The append-only log

`logAppend`, `logRead`, `findNextFrame` and `logScan` over the bytes of a log file. A scan walks from
frame to frame. It skips a frame whose body is damaged, looks for the next valid header when a header
is damaged, and stops at a torn tail; then it reports where the file should be cut.

`scanStep_spec` says once what one turn of the scan can do, in terms of the two reads `headerAt` and
`logRead`.
-/

namespace AegisDB

open Bytes List Option

variable (F : Framing)
variable {off : ℕ}

/-! ## Reading and appending -/

/-- The payload length in the header at an offset, when there is a valid header. -/
def headerAt (b : Bytes) (off : ℕ) : Option ℕ := (slice b off F.hdrLen).bind F.parseHeader

def logRead (b : Bytes) (off : ℕ) : Option Bytes :=
  (slice b off F.hdrLen).bind fun hdr => (F.parseHeader hdr).bind fun len =>
    (slice b (off + F.hdrLen) (len + F.tagLen)).bind (F.openBody hdr)

/-- `log_append` without an I/O failure: the file behind it, or a refusal of a payload too long. -/
def logAppend (b : Bytes) (n : F.Nonce) (p : Bytes) : Option Bytes :=
  if p.length ≤ maxPayload then some (b ++ F.frame n p) else none

variable {b : Bytes}

theorem headerAt_eq_some {len : ℕ} : headerAt F b off = some len ↔
    ∃ hdr, slice b off F.hdrLen = some hdr ∧ F.parseHeader hdr = some len :=
  bind_eq_some_iff

variable {F} in
theorem le_of_headerAt {len : ℕ} (h : headerAt F b off = some len) : off + F.hdrLen ≤ b.length := by
  obtain ⟨hdr, hs, -⟩ := (headerAt_eq_some F).1 h
  exact le_of_slice hs

/-- A frame that can be read has a valid header with the length of its payload, and lies inside of
the file. -/
theorem headerAt_of_logRead {p : Bytes} (h : logRead F b off = some p) :
    headerAt F b off = some p.length ∧ off + F.overhead + p.length ≤ b.length := by
  obtain ⟨hdr, hs, h⟩ := bind_eq_some_iff.1 h
  obtain ⟨len, hp, h⟩ := bind_eq_some_iff.1 h
  obtain ⟨body, hb, ho⟩ := bind_eq_some_iff.1 h
  have hlen := F.length_open ho
  rw [length_of_slice hb, Nat.add_right_cancel_iff] at hlen
  have hle := le_of_slice hb
  refine ⟨(headerAt_eq_some F).2 ⟨hdr, hs, hlen ▸ hp⟩, ?_⟩
  rw [Framing.overhead]
  omega

theorem headerAt_append (c : Bytes) (h : off + F.hdrLen ≤ b.length) :
    headerAt F (b ++ c) off = headerAt F b off := by
  rw [headerAt, slice_append_left h, headerAt]

theorem logRead_append {len : ℕ} (c : Bytes) (hl : headerAt F b off = some len)
    (h : off + F.overhead + len ≤ b.length) : logRead F (b ++ c) off = logRead F b off := by
  rw [Framing.overhead] at h
  obtain ⟨hdr, hs, hp⟩ := (headerAt_eq_some F).1 hl
  have hs' : slice (b ++ c) off F.hdrLen = some hdr := by rw [slice_append_left (by omega), hs]
  simp only [logRead, hs, hs', hp, bind_some]
  rw [slice_append_left (by omega)]

theorem headerAt_append_right (b c : Bytes) (off : ℕ) :
    headerAt F (b ++ c) (b.length + off) = headerAt F c off := by
  rw [headerAt, slice_append_right, headerAt]

theorem logRead_append_right (b c : Bytes) (off : ℕ) :
    logRead F (b ++ c) (b.length + off) = logRead F c off := by
  simp only [logRead, slice_append_right, add_assoc]

theorem logRead_frame {n : F.Nonce} {p : Bytes} (c : Bytes) (h : p.length ≤ maxPayload) :
    logRead F (F.frame n p ++ c) 0 = some p := by
  have hs : slice (F.frame n p ++ c) 0 F.hdrLen = some (F.header n p) := by
    rw [Framing.frame, append_assoc]
    exact slice_zero_append _ (F.length_header n p)
  have hb : slice (F.frame n p ++ c) (0 + F.hdrLen) (p.length + F.tagLen) = some (F.body n p) := by
    have := slice_append_right (F.header n p) (F.body n p ++ c) 0 (p.length + F.tagLen)
    rw [slice_zero_append _ (F.length_body n p), F.length_header, add_zero] at this
    rw [Framing.frame, append_assoc, zero_add, this]
  simp only [logRead, hs, hb, F.parse_header n h, bind_some, F.open_body n h]

/-- `AEGIS_IO_BUF_SIZE`, the window of the search for a frame. -/
def ioBufSize : ℕ := 65536

/-- A valid header at `off` whose frame ends by `e`. -/
def HeaderFits (b : Bytes) (e off : ℕ) : Prop :=
  ∃ len, headerAt F b off = some len ∧ off + F.overhead + len ≤ e

/-- The test of `find_next_frame` on one offset: the magic, the header, the room for the frame. -/
def frameStarts (b : Bytes) (e off : ℕ) : Bool :=
  match slice b off F.hdrLen with
  | none => false
  | some hdr =>
    if leNat (hdr.take 4) ≠ F.magic then false
    else match F.parseHeader hdr with
      | none => false
      | some len => off + F.overhead + len ≤ e

/-- The loop of `find_next_frame`, window by window; two windows overlap by a header less one
byte. -/
def findNextLoop (b : Bytes) (e : ℕ) : ℕ → ℕ → ℕ
  | 0, _ => e
  | fuel + 1, base =>
    if base + F.hdrLen ≤ e then
      let want := min (e - base) ioBufSize
      match slice b base want with
      | none => e
      | some _ =>
        match (List.range (want - F.hdrLen + 1)).find? fun i => frameStarts F b e (base + i) with
        | some i => base + i
        | none => findNextLoop b e fuel (base + (want - (F.hdrLen - 1)))
    else e

def findNextFrame (b : Bytes) (start e : ℕ) : ℕ := findNextLoop F b e (e - start) start

theorem frameStarts_iff {e : ℕ} : frameStarts F b e off = true ↔ HeaderFits F b e off := by
  unfold frameStarts HeaderFits headerAt
  cases slice b off F.hdrLen with
  | none => simp
  | some hdr =>
    simp only [bind_some]
    cases hp : F.parseHeader hdr with
    | none => simp
    | some len => simp [F.parse_magic hp]

variable {F} in
theorem HeaderFits.lt {e : ℕ} (h : HeaderFits F b e off) : off + F.hdrLen ≤ e := by
  obtain ⟨len, -, hle⟩ := h
  rw [Framing.overhead] at hle
  omega

/-- The first header from `start` on whose frame ends by `e`. -/
structure IsNext (b : Bytes) (e start nxt : ℕ) : Prop where
  start_le : start ≤ nxt
  fits : HeaderFits F b e nxt
  first : ∀ o, start ≤ o → o < nxt → ¬ HeaderFits F b e o

theorem findNextLoop_spec {e : ℕ} (he : e ≤ b.length) (fuel base : ℕ) (hfuel : e ≤ base + fuel) :
    IsNext F b e base (findNextLoop F b e fuel base) ∨
      findNextLoop F b e fuel base = e ∧ ∀ o, base ≤ o → ¬ HeaderFits F b e o := by
  have hpos := F.hdrLen_pos
  have hwin := F.hdrLen_le
  induction fuel generalizing base with
  | zero => exact .inr ⟨rfl, fun o ho hf => by have := hf.lt; omega⟩
  | succ fuel ih =>
    unfold findNextLoop
    split
    · rename_i hbase
      have hwant : F.hdrLen ≤ min (e - base) ioBufSize := by
        rw [le_min_iff, ioBufSize]
        omega
      have hle : base + min (e - base) ioBufSize ≤ e := by
        omega
      generalize min (e - base) ioBufSize = want at hwant hle ⊢
      simp only [slice_eq_some (hle.trans he)]
      split
      · -- a frame starts in this window
        rename_i i hi
        obtain ⟨hstart, hmem, hfirst⟩ := find?_range_eq_some.1 hi
        refine .inl ⟨by omega, (frameStarts_iff F).1 hstart, ?_⟩
        intro o ho hlt hf
        have := hfirst (o - base) (by omega)
        rw [Nat.add_sub_cancel' ho, (frameStarts_iff F).2 hf] at this
        simp at this
      · -- none does: the next window begins behind the last offset tried
        rename_i hnone
        have hwindow : ∀ o, base ≤ o → o < base + (want - (F.hdrLen - 1)) →
            ¬ HeaderFits F b e o := by
          intro o ho hlt hf
          have := List.find?_eq_none.1 hnone (o - base) (mem_range.2 (by omega))
          rw [Nat.add_sub_cancel' ho] at this
          exact this ((frameStarts_iff F).2 hf)
        rcases ih (base + (want - (F.hdrLen - 1))) (by omega) with h | ⟨h, hall⟩
        · refine .inl ⟨by have := h.start_le; omega, h.fits, fun o ho hlt => ?_⟩
          by_cases hw : o < base + (want - (F.hdrLen - 1))
          · exact hwindow o ho hw
          · exact h.first o (by omega) hlt
        · refine .inr ⟨h, fun o ho => ?_⟩
          by_cases hw : o < base + (want - (F.hdrLen - 1))
          · exact hwindow o ho hw
          · exact hall o (by omega)
    · exact .inr ⟨rfl, fun o ho hf => by have := hf.lt; omega⟩

/-- The windowed search finds the first header whose frame fits, or the end of the file. -/
theorem findNextFrame_spec {e : ℕ} (he : e ≤ b.length) (start : ℕ) :
    IsNext F b e start (findNextFrame F b start e) ∨
      findNextFrame F b start e = e ∧ ∀ o, start ≤ o → ¬ HeaderFits F b e o :=
  findNextLoop_spec F he _ _ (by omega)

end AegisDB
