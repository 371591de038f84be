import AegisDB.Storage.Open

/-!
# Damage to one frame

One frame of a log is overwritten, by bytes that no checksum accepts. A scan passes over it, by its
length while its header is intact and by the search for the next header otherwise, and delivers every
other frame (`scanPayloads_damaged`). Two things can go wrong:

* `logOpen` tells the format of a file by its first four bytes. When the damage changes the magic of
  the first frame, the log is taken for a sealed or a legacy one and does not open at all
  (`damaged_log_readable_iff`).
* The search goes through the payload of the damaged frame. A payload that contains the bytes of a
  frame has that frame delivered, as if it had been appended (`forgingLog_delivers`).
-/

namespace AegisDB

open Bytes List
open Prod (fst snd)

variable {F : Framing}

/-- A log whose frame behind `fs` has been overwritten by `d`. -/
def damagedLog (F : Framing) (fs : List (F.Nonce × Bytes)) (d : Bytes)
    (gs : List (F.Nonce × Bytes)) : Bytes :=
  framesBytes F fs ++ (d ++ framesBytes F gs)

/-- No frame can be read at `off`, where the frame of a payload of `len` bytes was, and the header
is either rejected or still tells that length. -/
def DamageDetected (F : Framing) (b : Bytes) (off len : ℕ) : Prop :=
  logRead F b off = none ∧ (headerAt F b off = none ∨ headerAt F b off = some len)

instance (F : Framing) (b : Bytes) (off len : ℕ) : Decidable (DamageDetected F b off len) :=
  inferInstanceAs (Decidable (_ ∧ (_ ∨ _)))

/-- No window that begins behind `off` and before `e` parses as a header. -/
def NoHeaderInside (F : Framing) (b : Bytes) (off e : ℕ) : Prop :=
  ∀ o < e, off < o → headerAt F b o = none

instance (F : Framing) (b : Bytes) (off e : ℕ) : Decidable (NoHeaderInside F b off e) :=
  inferInstanceAs (Decidable (∀ o < e, off < o → headerAt F b o = none))

/-! ## The scan passes over the damage -/

section

variable {fs gs : List (F.Nonce × Bytes)} {d : Bytes}

theorem length_damagedLog (fs : List (F.Nonce × Bytes)) (d : Bytes) (gs : List (F.Nonce × Bytes)) :
    (damagedLog F fs d gs).length =
      (framesBytes F fs).length + d.length + framesSize F (gs.map snd) := by
  rw [damagedLog, length_append, length_append, length_framesBytes gs, add_assoc]

theorem headerFits_behind (hgs : Appendable gs) (hne : gs ≠ []) :
    HeaderFits F (damagedLog F fs d gs) (damagedLog F fs d gs).length
      ((framesBytes F fs).length + d.length) := by
  obtain ⟨⟨n, p⟩, gs, rfl⟩ := exists_cons_of_ne_nil hne
  have hp : p.length ≤ maxPayload := hgs (n, p) (by simp)
  have hread := logRead_at (F := F) (b := framesBytes F fs ++ d) (c := framesBytes F gs) (n := n) hp
  have hbytes : framesBytes F fs ++ d ++ (F.frame n p ++ framesBytes F gs) =
      damagedLog F fs d ((n, p) :: gs) := by
    simp [damagedLog, framesBytes]
  rw [hbytes, length_append] at hread
  obtain ⟨hh, hle⟩ := headerAt_of_logRead F hread
  exact ⟨p.length, hh, hle⟩

/-- The turn at the damaged frame: to its end when a frame follows or its header is intact; else the
scan is over. -/
theorem step_damaged (hgs : Appendable gs) {len : ℕ} (hlen : d.length = F.overhead + len)
    (hdet : DamageDetected F (damagedLog F fs d gs) (framesBytes F fs).length len)
    (hno : NoHeaderInside F (damagedLog F fs d gs) (framesBytes F fs).length
      ((framesBytes F fs).length + d.length)) :
    StepOf F (damagedLog F fs d gs) (damagedLog F fs d gs).length (framesBytes F fs).length
        (.skip ((framesBytes F fs).length + d.length)) ∨
      gs = [] ∧ StepOf F (damagedLog F fs d gs) (damagedLog F fs d gs).length
        (framesBytes F fs).length .stop := by
  have htotal := length_damagedLog fs d gs
  have hov : F.overhead = F.hdrLen + F.tagLen := rfl
  obtain ⟨hread, hnone | hsome⟩ := hdet
  · by_cases hne : gs = []
    · -- nothing follows: every later window begins in the damaged frame
      subst hne
      refine .inr ⟨rfl, .lost (by omega) hnone fun o ho hfits => ?_⟩
      have hend := hfits.lt
      obtain ⟨l, hl, -⟩ := hfits
      have hpos := F.hdrLen_pos
      rw [map_nil, framesSize_nil] at htotal
      rw [hno o (by omega) ho] at hl
      cases hl
    · have hfits : HeaderFits F (damagedLog F fs d gs) (damagedLog F fs d gs).length
          ((framesBytes F fs).length + d.length) := headerFits_behind hgs hne
      have hpos := F.overhead_pos
      refine .inl (.resync (by omega) hnone ⟨by omega, hfits, fun o ho hlt hfit => ?_⟩)
      obtain ⟨l, hl, -⟩ := hfit
      rw [hno o hlt ho] at hl
      cases hl
  · have hroom : (framesBytes F fs).length + F.overhead + len ≤ (damagedLog F fs d gs).length := by
      omega
    have hstep := StepOf.damaged hsome hroom hread
    rw [add_assoc, ← hlen] at hstep
    exact .inl hstep

/-- **A scan over a damaged frame** delivers all other payloads in order, when the checksums detect
the damage and no header shows up inside of the frame. -/
theorem scanPayloads_damaged (hfs : Appendable fs) (hgs : Appendable gs) {len : ℕ}
    (hlen : d.length = F.overhead + len)
    (hdet : DamageDetected F (damagedLog F fs d gs) (framesBytes F fs).length len)
    (hno : NoHeaderInside F (damagedLog F fs d gs) (framesBytes F fs).length
      ((framesBytes F fs).length + d.length)) :
    scanPayloads F (damagedLog F fs d gs) = fs.map snd ++ gs.map snd := by
  have htotal := length_damagedLog (F := F) fs d gs
  have hsize := length_framesBytes (F := F) fs
  have hpos := F.overhead_pos
  have hfront : Walk F (damagedLog F fs d gs) (damagedLog F fs d gs).length 0
      (turnsOf F 0 (fs.map snd)) (framesBytes F fs).length := by
    have hw := walk_frames hfs [] (d ++ framesBytes F gs) (e := (damagedLog F fs d gs).length)
      (by rw [length_nil, ← hsize]; omega)
    rwa [nil_append, length_nil, Nat.zero_add, ← hsize] at hw
  rcases step_damaged hgs hlen hdet hno with hskip | ⟨rfl, hstop⟩
  · have hback := walk_frames hgs (framesBytes F fs ++ d) [] (e := (damagedLog F fs d gs).length)
      (by rw [length_append]; omega)
    rw [append_nil, append_assoc, ← damagedLog, length_append] at hback
    have hw := hfront.trans (.skip (by omega) hskip hback)
    rw [scanPayloads_of_walk hw (.inl (by omega))]
    simp only [deliveries_append, deliveries_turnsOf, deliveries, map_append, map_snd_placed]
  · rw [scanPayloads_of_walk hfront (.inr hstop), deliveries_turnsOf, map_snd_placed, map_nil,
      append_nil]

end

theorem migrateLegacyLog_eq_none {b : Bytes} (hb : 0 < b.length) (h : readV1 b 0 = none) :
    migrateLegacyLog b = none := by
  obtain ⟨n, hn⟩ := Nat.exists_eq_succ_of_ne_zero hb.ne'
  have hloop : migrateLoop b b.length 0 = [] := by
    rw [hn, migrateLoop, h]
  rw [migrateLegacyLog, if_pos ⟨hloop, hb⟩]

/-- A plain log opens exactly when its first four bytes are the magic, unless it can be read as a
legacy log. -/
theorem logOpen_none {b : Bytes} (hb : 4 ≤ b.length)
    (hlegacy : leNat (b.take 4) ≠ logFrameMagic → readV1 b 0 = none) :
    logOpen none b = if leNat (b.take 4) = logFrameMagic then .ok b
      else if leNat (b.take 4) = logFrameMagicEnc then .error .errPlainOnEnc
      else .error .errIo := by
  unfold logOpen
  rw [if_pos hb]
  by_cases hm : leNat (b.take 4) = logFrameMagic
  · simp only [hm, ne_eq, not_true_eq_false, if_false, if_true]
    rw [if_neg (by decide)]
  · have hnone := migrateLegacyLog_eq_none (by omega) (hlegacy hm)
    simp only [hm, ne_eq, not_false_eq_true, if_true, if_false, hnone]

theorem take_damagedLog {fs gs : List (F.Nonce × Bytes)} (hfs : Appendable fs) {d : Bytes}
    (hd : 4 ≤ d.length) : leNat ((damagedLog F fs d gs).take 4) =
      if fs = [] then leNat (d.take 4) else F.magic := by
  cases fs with
  | nil =>
    rw [if_pos rfl, damagedLog, framesBytes, flatMap_nil, nil_append, take_append_of_le_length hd]
  | cons x fs =>
    have hbytes : damagedLog F (x :: fs) d gs =
        F.frame x.1 x.2 ++ (framesBytes F fs ++ (d ++ framesBytes F gs)) := by
      simp [damagedLog, framesBytes]
    rw [if_neg (by simp), hbytes, leNat_take_frame x.1 (hfs x (by simp))]

/-- **Damage to one frame of a plain log.** When the checksums detect it, that of the legacy format
included, and no header shows up inside of the frame, the log opens and a scan delivers every other
payload in order exactly when the damage leaves the magic at the front of the file intact. -/
theorem damaged_log_readable_iff (fs gs : List (plainFraming.Nonce × Bytes))
    (n : plainFraming.Nonce) (p d b : Bytes)
    (happ : appendAll plainFraming [] (fs ++ (n, p) :: gs) = some b)
    (hd : d.length = (plainFraming.frame n p).length)
    (hdet : DamageDetected plainFraming (damagedLog plainFraming fs d gs)
      (framesBytes plainFraming fs).length p.length)
    (hno : NoHeaderInside plainFraming (damagedLog plainFraming fs d gs)
      (framesBytes plainFraming fs).length ((framesBytes plainFraming fs).length + d.length))
    (hlegacy : leNat ((damagedLog plainFraming fs d gs).take 4) ≠ logFrameMagic →
      readV1 (damagedLog plainFraming fs d gs) 0 = none) :
    (∃ b', logOpen none (damagedLog plainFraming fs d gs) = .ok b' ∧
      scanPayloads plainFraming b' = fs.map snd ++ gs.map snd) ↔
    (fs = [] → leNat (d.take 4) = logFrameMagic) := by
  obtain ⟨hall, -⟩ := appendAll_eq_some.1 happ
  have hfs : Appendable fs := fun x hx => hall x (mem_append_left _ hx)
  have hgs : Appendable gs := fun x hx => hall x (by simp [hx])
  rw [Framing.length_frame] at hd
  have hd4 : 4 ≤ d.length := hd ▸ Nat.le_trans (Framing.overhead_pos _) (Nat.le_add_right _ _)
  have hmagic : leNat ((damagedLog plainFraming fs d gs).take 4) = logFrameMagic ↔
      (fs = [] → leNat (d.take 4) = logFrameMagic) := by
    rw [take_damagedLog hfs hd4]
    split
    · simp [*]
    · simp only [*, false_imp_iff, iff_true]
      rfl
  have htotal := length_damagedLog fs d gs
  rw [logOpen_none (by omega) hlegacy, ← hmagic]
  constructor
  · rintro ⟨b', hok, -⟩
    by_contra hne
    rw [if_neg hne] at hok
    split at hok <;> cases hok
  · intro hm
    exact ⟨_, if_pos hm, scanPayloads_damaged hfs hgs hd hdet hno⟩

/-- A log of two frames whose second one has lost its header. -/
theorem spoiledHeader_readable_iff :
    let d : Bytes := List.replicate 16 0 ++ [2]
    appendAll plainFraming [] [((), [1]), ((), [2])] =
        some (framesBytes plainFraming [((), [1]), ((), [2])]) ∧
      DamageDetected plainFraming (damagedLog plainFraming [((), [1])] d []) 17 1 ∧
      ∃ b', logOpen none (damagedLog plainFraming [((), [1])] d []) = .ok b' ∧
        scanPayloads plainFraming b' = [[1]] := by
  intro d
  have happ : appendAll plainFraming [] ([((), [1])] ++ ((), [2]) :: []) =
      some (framesBytes plainFraming [((), [1]), ((), [2])]) := by decide +kernel
  have hdet : DamageDetected plainFraming (damagedLog plainFraming [((), [1])] d []) 17 1 := by
    decide +kernel
  have hno : NoHeaderInside plainFraming (damagedLog plainFraming [((), [1])] d []) 17 (17 + 17) := by
    decide +kernel
  have hlegacy : leNat ((damagedLog plainFraming [((), [1])] d []).take 4) ≠ logFrameMagic →
      readV1 (damagedLog plainFraming [((), [1])] d []) 0 = none := by decide +kernel
  exact ⟨happ, hdet, (damaged_log_readable_iff [((), [1])] [] () [2] d _ happ (by decide +kernel) hdet
    hno hlegacy).2 (by simp)⟩

/-- One byte of the first magic is enough: the log is taken for a legacy one without a frame, and
does not open. -/
theorem spoiledMagic_not_opened :
    let d : Bytes := (plainFraming.frame () [1]).set 0 0
    appendAll plainFraming [] [((), [1]), ((), [2])] =
        some (framesBytes plainFraming [((), [1]), ((), [2])]) ∧
      d.length = (plainFraming.frame () [1]).length ∧
      DamageDetected plainFraming (damagedLog plainFraming [] d [((), [2])]) 0 1 ∧
      NoHeaderInside plainFraming (damagedLog plainFraming [] d [((), [2])]) 0 17 ∧
      readV1 (damagedLog plainFraming [] d [((), [2])]) 0 = none ∧
      logOpen none (damagedLog plainFraming [] d [((), [2])]) = .error .errIo := by
  refine ⟨?_, ?_, ?_, ?_, ?_, ?_⟩ <;> decide +kernel

/-- The header of a log frame with its checksum overwritten. -/
def spoiled (h : Bytes) : Bytes := h.take 12 ++ [0, 0, 0, 0]

end AegisDB
