import AegisDB.Storage.CleanLog

/-!
# Appending to a recovered log

Recovery scans the log, cuts the file where the scan says, and appends go on behind the cut. Whether
a later scan delivers the old frames and then the new ones depends on what the cut leaves in front of
the new frames.

* Without a frame behind damage the file is cut behind its last clean frame, and nothing is lost.
* With a frame behind damage the whole file is kept, its torn tail included. A valid header whose
  frame was cut short is then still there: the scan stops at it, or takes the new frames for the rest
  of its body. `Exposed` names these places, and `scanPayloads_reopened_iff` says that they are the
  only ones where appends get lost.
-/

namespace AegisDB

open Bytes List
open Prod (fst snd)

variable {F : Framing}
variable {ts : List (ℕ × ScanStep)}

/-! ## Scan, cut, append -/

def collect (_ : ℕ) (p : Bytes) (ps : List Bytes) : List Bytes := ps ++ [p]

/-- The payloads a scan of the whole file delivers. -/
def scanPayloads (F : Framing) (b : Bytes) : List Bytes :=
  (logScan F (always collect) b 0 b.length []).1

def recoveredLog (F : Framing) (b : Bytes) : Bytes :=
  b.take (logScan F (always collect) b 0 b.length []).2.truncateTo

theorem foldl_collect (ds : List (ℕ × Bytes)) (ps : List Bytes) :
    ds.foldl (fun c d => collect d.1 d.2 c) ps = ps ++ ds.map snd := by
  induction ds generalizing ps with
  | nil => simp
  | cons d ds ih =>
    rw [foldl_cons, ih, collect, map_cons, append_assoc, singleton_append]

theorem scanPayloads_of_walk {b : Bytes} {o' : ℕ} (hw : Walk F b b.length 0 ts o')
    (hs : Stops F b b.length o') :
    scanPayloads F b = (deliveries ts).map snd := by
  obtain ⟨ds, rs, m, rfl, hd, hds, hrs, hor⟩ := hw.split
  rw [scanPayloads, (logScan_of_walk collect le_rfl hd hds hrs hor hs []).1, foldl_collect,
    nil_append]

variable {fs : List (F.Nonce × Bytes)}

/-- A scan of a log that appends have written delivers its payloads. -/
theorem scanPayloads_framesBytes (hfs : Appendable fs) :
    scanPayloads F (framesBytes F fs) = fs.map snd := by
  have hlen := length_framesBytes fs
  have hw := walk_frames hfs [] [] (e := (framesBytes F fs).length) (by simp [hlen])
  rw [append_nil, nil_append, length_nil, Nat.zero_add, ← hlen] at hw
  rw [scanPayloads_of_walk hw (.inl le_rfl), deliveries_turnsOf, map_snd_placed]

/-! ## What the cut leaves behind -/

/-- No header and no frame that reaches over the end of `b` is accepted in the longer file `b'`. -/
structure NoForgery (F : Framing) (b b' : Bytes) : Prop where
  header : ∀ o < b.length, b.length < o + F.hdrLen → headerAt F b' o = none
  frame : ∀ o < b.length, ∀ len, headerAt F b' o = some len →
    b.length < o + F.overhead + len → logRead F b' o = none

instance (F : Framing) (b b' : Bytes) : Decidable (NoForgery F b b') :=
  decidable_of_iff
    ((∀ o < b.length, b.length < o + F.hdrLen → headerAt F b' o = none) ∧
      ∀ o < b.length, ∀ len ∈ headerAt F b' o,
        b.length < o + F.overhead + len → logRead F b' o = none)
    ⟨fun h => ⟨h.1, fun o ho len hl => h.2 o ho len hl⟩,
      fun h => ⟨h.header, fun o ho len hl => h.frame o ho len hl⟩⟩

/-- A valid header whose frame is cut short by the end of the file. -/
def TornAt (F : Framing) (b : Bytes) (o len : ℕ) : Prop :=
  headerAt F b o = some len ∧ b.length < o + F.overhead + len

/-- A place where a scan would meet a torn frame once the file has grown to `e`: the torn header
stands there, or the search for the next header passes it by now and would take it then. -/
inductive Exposed (F : Framing) (b : Bytes) (e o : ℕ) : Prop
  | torn {len : ℕ} (torn : TornAt F b o len)
  | passed {t len : ℕ} (header : headerAt F b o = none) (lt : o < t) (torn : TornAt F b t len)
    (room : t + F.overhead + len ≤ e)
    (first : ∀ u, o < u → u < t → ¬ HeaderFits F b b.length u)

/-- Some intact frame is reached behind damage. -/
def RecoversBehindDamage (F : Framing) (b : Bytes) : Prop :=
  ∃ ts₁ o n ts₂ o', Walk F b b.length 0 ts₁ o ∧ o < b.length ∧
    StepOf F b b.length o (.skip n) ∧ Walk F b b.length n ts₂ o' ∧ deliveries ts₂ ≠ []

/-- No place that a scan from `o` on reaches is exposed. -/
def Unexposed (F : Framing) (b : Bytes) (e o : ℕ) : Prop :=
  ∀ ts x, Walk F b b.length o ts x → ¬ Exposed F b e x

/-- Nothing is appended; or no frame is reached behind damage; or no place that is reached is
exposed. -/
def AppendsSafe (F : Framing) (b : Bytes) (fs : List (F.Nonce × Bytes)) : Prop :=
  fs = [] ∨ ¬ RecoversBehindDamage F b ∨
    Unexposed F b (b.length + framesSize F (fs.map snd)) 0

section

variable {b c : Bytes} {e o : ℕ}

/-- A turn at a place that is not exposed is the same in the longer file. -/
theorem StepOf.append {s : ScanStep} (hs : StepOf F b b.length o s) (hne : s ≠ .stop)
    (he : b.length ≤ e) (hx : ¬ Exposed F b e o) : StepOf F (b ++ c) e o s := by
  have hov : F.overhead = F.hdrLen + F.tagLen := rfl
  cases hs with
  | intact read room =>
    have hh := headerAt_of_logRead F read
    exact .intact (by rw [logRead_append F c hh.1 hh.2, read]) (by omega)
  | damaged header room read =>
    have hle := le_of_headerAt header
    exact .damaged (by rw [headerAt_append F c hle, header]) (by omega)
      (by rw [logRead_append F c header room, read])
  | @resync n room header next =>
    have hn := next.fits.lt
    refine .resync (by omega) (by rw [headerAt_append F c room, header]) ⟨next.start_le, ?_, ?_⟩
    · obtain ⟨len, hl, hle⟩ := next.fits
      exact ⟨len, by rw [headerAt_append F c hn, hl], by omega⟩
    · -- a header that fits only now is one the search passed by
      rintro u hu hlt ⟨len, hl, hle⟩
      rw [headerAt_append F c (by omega)] at hl
      have hnot : b.length < u + F.overhead + len := by
        by_contra hcon
        exact next.first u hu hlt ⟨len, hl, not_lt.1 hcon⟩
      exact hx (.passed header hu ⟨hl, hnot⟩ hle fun v hv hvu => next.first v hv (by omega))
  | short | torn | lost => exact absurd rfl hne

/-- Where the scan used to stop at a place that is not exposed, it now finds the first appended
frame. -/
theorem StepOf.append_stop (hs : StepOf F b b.length o .stop) (ho : o < b.length)
    (hf : NoForgery F b (b ++ c)) (hfirst : HeaderFits F (b ++ c) e b.length)
    (hx : ¬ Exposed F b e o) : StepOf F (b ++ c) e o (.skip b.length) := by
  have hend := hfirst.lt
  cases hs with
  | short room =>
    refine .resync (by omega) (hf.header o ho room) ⟨ho, hfirst, ?_⟩
    rintro u hu hlt ⟨len, hl, -⟩
    rw [hf.header u hlt (by omega)] at hl
    cases hl
  | torn header room => exact absurd (.torn ⟨header, room⟩) hx
  | lost room header hnone =>
    refine .resync (by omega) (by rw [headerAt_append F c room, header]) ⟨ho, hfirst, ?_⟩
    rintro u hu hlt ⟨len, hl, hle⟩
    by_cases hstraddle : b.length < u + F.hdrLen
    · rw [hf.header u hlt hstraddle] at hl
      cases hl
    · rw [headerAt_append F c (by omega)] at hl
      have hnot : b.length < u + F.overhead + len := by
        by_contra hcon
        exact hnone u hu ⟨len, hl, not_lt.1 hcon⟩
      exact hx (.passed header hu ⟨hl, hnot⟩ hle fun v hv _ => hnone v hv)

/-- Behind a torn header the scan of the longer file delivers less than was appended. -/
theorem TornAt.framesSize_lt {len m : ℕ} (ht : TornAt F b o len) (hf : NoForgery F b (b ++ c))
    (hlt : b.length < e) (hw : Walk F (b ++ c) e o ts m) :
    b.length + framesSize F ((deliveries ts).map snd) < e := by
  obtain ⟨hl, hover⟩ := ht
  have hroom := le_of_headerAt hl
  have hpos := F.hdrLen_pos
  have hl' : headerAt F (b ++ c) o = some len := by rw [headerAt_append F c hroom, hl]
  have hread : logRead F (b ++ c) o = none := hf.frame o (by omega) len hl' hover
  cases hw with
  | nil => simpa [deliveries] using hlt
  | deliver _ step _ =>
    cases step with
    | intact read _ => cases read.symm.trans hread
  | skip _ step rest =>
    cases step with
    | damaged header room _ =>
      cases header.symm.trans hl'
      have := rest.framesSize_le
      have := rest.le_end room
      simp only [deliveries]
      omega
    | resync _ header _ => cases header.symm.trans hl'

theorem Exposed.framesSize_lt {m : ℕ} (hx : Exposed F b e o) (hf : NoForgery F b (b ++ c))
    (hlt : b.length < e) (hw : Walk F (b ++ c) e o ts m) :
    b.length + framesSize F ((deliveries ts).map snd) < e := by
  cases hx with
  | torn ht => exact ht.framesSize_lt hf hlt hw
  | @passed t len header lt ht room first =>
    have hroom := le_of_headerAt ht.1
    have hh : headerAt F (b ++ c) o = none := by rw [headerAt_append F c (by omega), header]
    cases hw with
    | nil => simpa [deliveries] using hlt
    | deliver _ step _ =>
      cases step with
      | intact read _ => cases (headerAt_of_logRead F read).1.symm.trans hh
    | @skip _ n _ _ _ step rest =>
      cases step with
      | damaged header' _ _ => cases header'.symm.trans hh
      | resync _ _ next =>
        -- the search now ends at the torn header or at one before it, which is torn as well
        have htn : n ≤ t := by
          by_contra hcon
          exact next.first t lt (by omega) ⟨len, by rw [headerAt_append F c hroom, ht.1], room⟩
        obtain ⟨len', hl', -⟩ := next.fits
        rw [headerAt_append F c (by omega)] at hl'
        have hover : b.length < n + F.overhead + len' := by
          by_contra hcon
          rcases htn.lt_or_eq with hnt | rfl
          · exact first n next.start_le hnt ⟨len', hl', not_lt.1 hcon⟩
          · cases ht.1.symm.trans hl'
            exact hcon ht.2
        have ht' : TornAt F b n len' := ⟨hl', hover⟩
        simpa only [deliveries] using ht'.framesSize_lt hf hlt rest

theorem not_exposed_end : ¬ Exposed F b e b.length := by
  have hpos := F.hdrLen_pos
  rintro (⟨ht⟩ | ⟨-, hlt, ht, -, -⟩)
  · have := le_of_headerAt ht.1
    omega
  · have := le_of_headerAt ht.1
    omega

theorem unexposed_of_stops (hs : Stops F b b.length o) (hx : ¬ Exposed F b e o) :
    Unexposed F b e o := by
  intro ts x hw
  cases hw with
  | nil => exact hx
  | deliver lt step _ | skip lt step _ =>
    rcases hs with hs | hs
    · omega
    · cases hs.unique F step

theorem unexposed_of_deliver {p : Bytes} {n : ℕ} (step : StepOf F b b.length o (.deliver p n))
    (hx : ¬ Exposed F b e o) (h : Unexposed F b e n) : Unexposed F b e o := by
  intro ts x hw
  cases hw with
  | nil => exact hx
  | deliver _ step' rest =>
    cases step.unique F step'
    exact h _ _ rest
  | skip _ step' _ => cases step.unique F step'

theorem unexposed_of_skip {n : ℕ} (step : StepOf F b b.length o (.skip n))
    (hx : ¬ Exposed F b e o) (h : Unexposed F b e n) : Unexposed F b e o := by
  intro ts x hw
  cases hw with
  | nil => exact hx
  | deliver _ step' _ => cases step.unique F step'
  | skip _ step' rest =>
    cases step.unique F step'
    exact h _ _ rest

/-- A complete scan is repeated in the longer file up to the first exposed place it reaches, or else
up to the first appended frame. -/
theorem Walk.append_or_exposed {o' : ℕ} (hw : Walk F b b.length o ts o')
    (hs : Stops F b b.length o') (ho : o ≤ b.length) (hf : NoForgery F b (b ++ c))
    (hfirst : HeaderFits F (b ++ c) e b.length) :
    (Unexposed F b e o ∧ ∃ us, Walk F (b ++ c) e o us b.length ∧ deliveries us = deliveries ts) ∨
      ∃ ts₁ ts₂ x, ts = ts₁ ++ ts₂ ∧ Walk F b b.length o ts₁ x ∧ Exposed F b e x ∧
        Walk F (b ++ c) e o ts₁ x := by
  have hpos := F.hdrLen_pos
  have he : b.length < e := by
    have := hfirst.lt
    omega
  induction hw with
  | nil o =>
    rcases ho.eq_or_lt with rfl | hlt
    · exact .inl ⟨unexposed_of_stops hs not_exposed_end, [], .nil _, rfl⟩
    · by_cases hx : Exposed F b e o
      · exact .inr ⟨[], [], o, rfl, .nil _, hx, .nil _⟩
      · have hstop := hs.resolve_left (by omega)
        exact .inl ⟨unexposed_of_stops hs hx, _,
          .skip (by omega) (hstop.append_stop hlt hf hfirst hx) (.nil _), rfl⟩
  | @deliver o p n ts o' lt step rest ih =>
    by_cases hx : Exposed F b e o
    · exact .inr ⟨[], _, o, rfl, .nil _, hx, .nil _⟩
    · have hstep := step.append (c := c) (by simp) he.le hx
      rcases ih hs step.lt_deliver.2 with ⟨hun, us, hus, hd⟩ | ⟨ts₁, ts₂, x, rfl, h₁, hx, h₂⟩
      · exact .inl ⟨unexposed_of_deliver step hx hun, _, .deliver (by omega) hstep hus,
          by simp [deliveries, hd]⟩
      · exact .inr ⟨_, ts₂, x, rfl, .deliver lt step h₁, hx, .deliver (by omega) hstep h₂⟩
  | @skip o n ts o' lt step rest ih =>
    by_cases hx : Exposed F b e o
    · exact .inr ⟨[], _, o, rfl, .nil _, hx, .nil _⟩
    · have hstep := step.append (c := c) (by simp) he.le hx
      rcases ih hs step.skip_le with ⟨hun, us, hus, hd⟩ | ⟨ts₁, ts₂, x, rfl, h₁, hx, h₂⟩
      · exact .inl ⟨unexposed_of_skip step hx hun, _, .skip (by omega) hstep hus,
          by simp [deliveries, hd]⟩
      · exact .inr ⟨_, ts₂, x, rfl, .skip lt step h₁, hx, .skip (by omega) hstep h₂⟩

end

/-- A frame is reached behind damage exactly when the complete walk delivers one behind its first
damage. -/
theorem recoversBehindDamage_iff {b : Bytes} {ds rs : List (ℕ × ScanStep)} {m o' : ℕ}
    (hd : AllDeliver ds) (hds : Walk F b b.length 0 ds m) (hrs : Walk F b b.length m rs o')
    (hor : rs = [] ∨ ∃ n rs', rs = (m, .skip n) :: rs') (hs : Stops F b b.length o') :
    RecoversBehindDamage F b ↔ deliveries rs ≠ [] := by
  constructor
  · rintro ⟨ts₁, o, n, ts₂, x, h₁, ho, hstep, h₂, hne⟩
    obtain ⟨ts₃, y, h₃, hs₃⟩ := exists_walk (le_refl b.length) x
    obtain ⟨heq, -⟩ := (h₁.trans (.skip ho hstep (h₂.trans h₃))).unique hs₃ (hds.trans hrs) hs
    -- the skip is not among the deliveries before the first damage
    rcases append_eq_append_iff.1 heq with ⟨as, rfl, h⟩ | ⟨as, rfl, rfl⟩
    · cases as with
      | nil =>
        rw [nil_append] at h
        rw [← h]
        simp [deliveries, hne]
      | cons a as =>
        obtain ⟨rfl, -⟩ := List.cons.inj h
        obtain ⟨p, k, hk⟩ := hd _ (mem_append_right _ (mem_cons_self ..))
        cases hk
    · simp [deliveries, hne]
  · intro hne
    rcases hor with rfl | ⟨n, rs', rfl⟩
    · exact absurd rfl hne
    · cases hrs with
      | skip lt step rest => exact ⟨ds, m, n, rs', o', hds, lt, step, rest, hne⟩

theorem scanPayloads_of_append {b : Bytes} (hfs : Appendable fs) {us : List (ℕ × ScanStep)}
    (hw : Walk F (b ++ framesBytes F fs) (b ++ framesBytes F fs).length 0 us b.length) :
    scanPayloads F (b ++ framesBytes F fs) = (deliveries us).map snd ++ fs.map snd := by
  have hlen : (b ++ framesBytes F fs).length = b.length + framesSize F (fs.map snd) := by
    rw [length_append, length_framesBytes]
  have hrest := walk_frames hfs b [] hlen.ge
  rw [append_nil, ← hlen] at hrest
  rw [scanPayloads_of_walk (hw.trans hrest) (.inl le_rfl), deliveries_append, deliveries_turnsOf,
    map_append, map_snd_placed]

/-- Without a frame behind damage the file is cut behind its clean frames, and appends go on from
there. -/
theorem scanPayloads_of_cut {b : Bytes} (hfs : Appendable fs) {ds : List (ℕ × ScanStep)} {m : ℕ}
    (hd : AllDeliver ds) (hds : Walk F b b.length 0 ds m) :
    scanPayloads F (b.take m ++ framesBytes F fs) = (deliveries ds).map snd ++ fs.map snd := by
  have hm := hds.le_end (Nat.zero_le _)
  have hlen : (b.take m).length = m := by
    rw [length_take]
    omega
  apply scanPayloads_of_append hfs
  rw [hlen]
  refine hds.of_take hd le_rfl ?_ ?_
  · rw [take_left' hlen]
  · rw [length_append, hlen]
    omega

/-- With the whole file kept, the appends survive exactly when no exposed place is reached. -/
theorem scanPayloads_of_kept {b : Bytes} (hfs : Appendable fs) (hne : fs ≠ [])
    (hf : NoForgery F b (b ++ framesBytes F fs)) :
    scanPayloads F (b ++ framesBytes F fs) = scanPayloads F b ++ fs.map snd ↔
      Unexposed F b (b.length + framesSize F (fs.map snd)) 0 := by
  obtain ⟨ts, o', hw, hs⟩ := exists_walk (F := F) (le_refl b.length) 0
  have hlen : (b ++ framesBytes F fs).length = b.length + framesSize F (fs.map snd) := by
    rw [length_append, length_framesBytes]
  have hfirst : HeaderFits F (b ++ framesBytes F fs) (b ++ framesBytes F fs).length b.length := by
    obtain ⟨⟨n, p⟩, fs, rfl⟩ := exists_cons_of_ne_nil hne
    have hp : p.length ≤ maxPayload := hfs (n, p) (by simp)
    have hread := logRead_at (F := F) (b := b) (c := framesBytes F fs) (n := n) hp
    obtain ⟨hh, hle⟩ := headerAt_of_logRead F hread
    exact ⟨p.length, hh, hle⟩
  rw [scanPayloads_of_walk hw hs, ← hlen]
  rcases hw.append_or_exposed hs (Nat.zero_le _) hf hfirst with
    ⟨hun, us, hus, hd⟩ | ⟨ts₁, ts₂, x, rfl, h₁, hx, h₂⟩
  · rw [scanPayloads_of_append hfs hus, hd]
    exact ⟨fun _ => hun, fun _ => rfl⟩
  · refine ⟨fun heq => ?_, fun hun => absurd hx (hun _ _ h₁)⟩
    -- behind the exposed place the frames delivered are too short to be the appended ones
    exfalso
    obtain ⟨vs, y, hvs, hy⟩ := exists_walk (F := F) (le_refl (b ++ framesBytes F fs).length) x
    have hsize := hx.framesSize_lt hf (by have := hfirst.lt; have := F.hdrLen_pos; omega) hvs
    rw [scanPayloads_of_walk (h₂.trans hvs) hy] at heq
    simp only [deliveries_append, map_append, append_assoc, append_cancel_left_eq] at heq
    rw [heq, framesSize_append] at hsize
    omega

/-- **Appends to a recovered log.** Recovery scans the log `b`, cuts it, and `fs` is appended. When
no checksum accepts bytes that reach over the cut, a later scan delivers the frames of the first
scan and then `fs` exactly when nothing is appended, or no intact frame lies behind damage, or no
place the scan reaches is exposed to a torn header. -/
theorem scanPayloads_reopened_iff (F : Framing) (b b' : Bytes) (fs : List (F.Nonce × Bytes))
    (happ : appendAll F (recoveredLog F b) fs = some b')
    (hf : NoForgery F (recoveredLog F b) b') :
    scanPayloads F b' = scanPayloads F b ++ fs.map snd ↔ AppendsSafe F b fs := by
  obtain ⟨hfs, rfl⟩ := appendAll_eq_some.1 happ
  obtain ⟨ts, o', hw, hs⟩ := exists_walk (le_refl b.length) 0
  obtain ⟨ds, rs, m, rfl, hd, hds, hrs, hor⟩ := hw.split
  have hcut := (logScan_of_walk collect le_rfl hd hds hrs hor hs []).2
  have hrec := recoversBehindDamage_iff hd hds hrs hor hs
  unfold AppendsSafe
  rw [recoveredLog, hcut] at hf ⊢
  by_cases hdel : deliveries rs = []
  · -- the file is cut behind its clean frames
    rw [if_pos hdel, scanPayloads_of_cut hfs hd hds, scanPayloads_of_walk hw hs, deliveries_append,
      hdel, append_nil]
    simp [hrec, hdel]
  · -- the file is kept
    rw [if_neg hdel, take_length] at hf ⊢
    by_cases hne : fs = []
    · subst hne
      simp [framesBytes]
    · rw [scanPayloads_of_kept hfs hne hf]
      simp [hne, hrec, hdel]

/-- A plain frame of one byte whose body does not match its checksum. -/
def damagedFrame : Bytes := buildHeader 1 (crc32Compute [1]) ++ [0]

/-- A log with a damaged frame and an intact one. -/
def recoveredExample : Bytes := damagedFrame ++ plainFraming.frame () [2]

/-- The same log, with an append torn behind its header. -/
def tornExample : Bytes := recoveredExample ++ buildHeader 1 (crc32Compute [3])

theorem recoveredExample_reopened_iff :
    appendAll plainFraming (recoveredLog plainFraming recoveredExample) [((), [4])] =
        some (recoveredExample ++ plainFraming.frame () [4]) ∧
      NoForgery plainFraming (recoveredLog plainFraming recoveredExample)
        (recoveredExample ++ plainFraming.frame () [4]) ∧
      (scanPayloads plainFraming (recoveredExample ++ plainFraming.frame () [4]) =
          scanPayloads plainFraming recoveredExample ++ [[4]] ↔
        AppendsSafe plainFraming recoveredExample [((), [4])]) := by
  have happ : appendAll plainFraming (recoveredLog plainFraming recoveredExample) [((), [4])] =
      some (recoveredExample ++ plainFraming.frame () [4]) := by decide +kernel
  have hf : NoForgery plainFraming (recoveredLog plainFraming recoveredExample)
      (recoveredExample ++ plainFraming.frame () [4]) := by decide +kernel
  have hiff := scanPayloads_reopened_iff plainFraming recoveredExample _ [((), [4])] happ hf
  rw [map_cons, map_nil] at hiff
  exact ⟨happ, hf, hiff⟩

/-- The append behind the torn header is not delivered: its first byte is taken for the body of the
torn frame. -/
theorem tornExample_loses_append :
    appendAll plainFraming (recoveredLog plainFraming tornExample) [((), [4])] =
        some (tornExample ++ plainFraming.frame () [4]) ∧
      NoForgery plainFraming (recoveredLog plainFraming tornExample)
        (tornExample ++ plainFraming.frame () [4]) ∧
      scanPayloads plainFraming tornExample = [[2]] ∧
      scanPayloads plainFraming (tornExample ++ plainFraming.frame () [4]) = [[2]] := by
  refine ⟨?_, ?_, ?_, ?_⟩ <;> decide +kernel

end AegisDB
