import AegisDB.Storage.Log

/-!
# Scanning the log

`logScan` with its callback and the result it reports. One turn of its loop is `scanStep`; what the
turn can do is listed by `StepOf`, and `Walk` strings turns together. A scan with a callback that
never stops it is determined by the complete walk from its start (`logScan_of_walk`), and there always
is one (`exists_walk`).
-/

namespace AegisDB

open Bytes List

variable (F : Framing)
variable {e : ℕ}

/-! ## One turn -/

/-- What a turn of the scan does: deliver a frame, pass over damage, or stop. -/
inductive ScanStep
  | deliver (payload : Bytes) (next : ℕ)
  | skip (next : ℕ)
  | stop
  deriving DecidableEq

/-- The body of the loop of `log_scan`, up to the callback. -/
def scanStep (b : Bytes) (e off : ℕ) : ScanStep :=
  if e < off + F.hdrLen then .stop
  else match slice b off F.hdrLen with
    | none => .stop
    | some hdr =>
      match F.parseHeader hdr with
      | none =>
        -- damaged or misaligned header: resynchronise
        let nxt := findNextFrame F b (off + 1) e
        if e ≤ nxt then .stop else .skip nxt
      | some len =>
        if e < off + F.overhead + len then .stop
        else match slice b (off + F.hdrLen) (len + F.tagLen) with
          | none => .stop
          | some body =>
            match F.openBody hdr body with
            | none => .skip (off + F.overhead + len)
            | some p => .deliver p (off + F.overhead + len)

/-- What a turn at `off` can do, by the state of the file there. -/
inductive StepOf (b : Bytes) (e off : ℕ) : ScanStep → Prop
  | intact {p : Bytes} (read : logRead F b off = some p) (room : off + F.overhead + p.length ≤ e) :
    StepOf b e off (.deliver p (off + F.overhead + p.length))
  | damaged {len : ℕ} (header : headerAt F b off = some len) (room : off + F.overhead + len ≤ e)
    (read : logRead F b off = none) : StepOf b e off (.skip (off + F.overhead + len))
  | resync {nxt : ℕ} (room : off + F.hdrLen ≤ e) (header : headerAt F b off = none)
    (next : IsNext F b e (off + 1) nxt) : StepOf b e off (.skip nxt)
  | short (room : e < off + F.hdrLen) : StepOf b e off .stop
  /-- A valid header whose frame is cut short by the end of the file. -/
  | torn {len : ℕ} (header : headerAt F b off = some len) (room : e < off + F.overhead + len) :
    StepOf b e off .stop
  | lost (room : off + F.hdrLen ≤ e) (header : headerAt F b off = none)
    (none : ∀ o, off < o → ¬ HeaderFits F b e o) : StepOf b e off .stop

variable {b : Bytes}

theorem logRead_of_slices {hdr body : Bytes} {off len : ℕ} (hs : slice b off F.hdrLen = some hdr)
    (hp : F.parseHeader hdr = some len)
    (hb : slice b (off + F.hdrLen) (len + F.tagLen) = some body) :
    logRead F b off = F.openBody hdr body := by
  simp [logRead, hs, hp, hb]

theorem scanStep_spec (he : e ≤ b.length) (off : ℕ) : StepOf F b e off (scanStep F b e off) := by
  unfold scanStep
  split
  · exact .short ‹_›
  · rename_i hroom
    have hs : slice b off F.hdrLen = some ((b.drop off).take F.hdrLen) := slice_eq_some (by omega)
    rw [hs]
    generalize (b.drop off).take F.hdrLen = hdr at hs ⊢
    cases hp : F.parseHeader hdr with
    | none =>
      have hnone : headerAt F b off = none := by simp [headerAt, hs, hp]
      simp only [hp]
      rcases findNextFrame_spec F he (off + 1) with h | ⟨h, hall⟩
      · have := h.fits.lt
        have := F.hdrLen_pos
        rw [if_neg (by omega)]
        exact .resync (by omega) hnone h
      · rw [if_pos h.ge]
        exact .lost (by omega) hnone hall
    | some len =>
      have hlen := (headerAt_eq_some F).2 ⟨hdr, hs, hp⟩
      simp only [hp]
      split
      · exact .torn hlen ‹_›
      · rename_i hfit
        have hov : F.overhead = F.hdrLen + F.tagLen := rfl
        have hb : slice b (off + F.hdrLen) (len + F.tagLen) =
            some ((b.drop (off + F.hdrLen)).take (len + F.tagLen)) := slice_eq_some (by omega)
        have hread := logRead_of_slices F hs hp hb
        simp only [hb]
        cases ho : F.openBody hdr ((b.drop (off + F.hdrLen)).take (len + F.tagLen)) with
        | none => exact .damaged hlen (by omega) (hread.trans ho)
        | some p =>
          have hp := headerAt_of_logRead F (hread.trans ho)
          obtain rfl : len = p.length := Option.some.inj (hlen.symm.trans hp.1)
          exact .intact (hread.trans ho) (by omega)

variable {F} in
theorem IsNext.unique {start n m : ℕ} (hn : IsNext F b e start n) (hm : IsNext F b e start m) :
    n = m := by
  rcases lt_trichotomy n m with h | h | h
  · exact absurd hn.fits (hm.first n hn.start_le h)
  · exact h
  · exact absurd hm.fits (hn.first m hm.start_le h)

theorem StepOf.unique {off : ℕ} {s t : ScanStep} (hs : StepOf F b e off s)
    (ht : StepOf F b e off t) : s = t := by
  have hov : F.overhead = F.hdrLen + F.tagLen := rfl
  cases hs with
  | intact read room =>
    have hh := (headerAt_of_logRead F read).1
    cases ht with
    | intact read' _ => cases read.symm.trans read'; rfl
    | damaged _ _ read' => cases read.symm.trans read'
    | resync _ header _ => cases hh.symm.trans header
    | short => omega
    | torn header => cases hh.symm.trans header; omega
    | lost _ header _ => cases hh.symm.trans header
  | damaged header room read =>
    cases ht with
    | intact read' _ => cases read.symm.trans read'
    | damaged header' _ _ => cases header.symm.trans header'; rfl
    | resync _ header' _ => cases header.symm.trans header'
    | short => omega
    | torn header' => cases header.symm.trans header'; omega
    | lost _ header' _ => cases header.symm.trans header'
  | resync room header next =>
    cases ht with
    | intact read' _ => cases (headerAt_of_logRead F read').1.symm.trans header
    | damaged header' _ _ => cases header.symm.trans header'
    | resync _ _ next' => rw [next.unique next']
    | short => omega
    | torn header' => cases header.symm.trans header'
    | lost _ _ hnone => exact absurd next.fits (hnone _ next.start_le)
  | short room =>
    cases ht with
    | intact _ _ | damaged _ _ _ | resync _ _ _ => omega
    | short | torn | lost => rfl
  | torn header room =>
    cases ht with
    | intact read' _ => cases (headerAt_of_logRead F read').1.symm.trans header; omega
    | damaged header' _ _ => cases header.symm.trans header'; omega
    | resync _ header' _ => cases header.symm.trans header'
    | short | torn | lost => rfl
  | lost room header hnone =>
    cases ht with
    | intact read' _ => cases (headerAt_of_logRead F read').1.symm.trans header
    | damaged header' _ _ => cases header.symm.trans header'
    | resync _ _ next' => exact absurd next'.fits (hnone _ next'.start_le)
    | short | torn | lost => rfl

/-- The local variables of `log_scan`, with the context its callback works on. -/
structure ScanState (σ : Type) where
  off : ℕ
  cleanEnd : ℕ
  goodFrames : ℕ
  corruptFrames : ℕ
  hole : Bool
  recoveredAfterHole : Bool
  ctx : σ

namespace ScanState

variable {σ : Type}

/-- The bookkeeping behind a delivered frame. -/
def delivered (s : ScanState σ) (ctx : σ) (next : ℕ) : ScanState σ :=
  { s with
    off := next
    ctx
    goodFrames := s.goodFrames + 1
    recoveredAfterHole := s.recoveredAfterHole || s.hole
    cleanEnd := if s.hole then s.cleanEnd else next }

/-- The bookkeeping behind a damaged place. -/
def skipped (s : ScanState σ) (next : ℕ) : ScanState σ :=
  { s with off := next, hole := true, corruptFrames := s.corruptFrames + 1 }

end ScanState

structure LogScanResult where
  truncateTo : ℕ
  goodFrames : ℕ
  corruptFrames : ℕ
  recoveredAfterHole : Bool
  deriving DecidableEq

section

variable {σ : Type} (cb : ℕ → Bytes → σ → σ × Bool)

/-- The loop of `log_scan`; the callback stops it by returning `true`. -/
def logScanLoop (b : Bytes) (e : ℕ) : ℕ → ScanState σ → ScanState σ
  | 0, s => s
  | fuel + 1, s =>
    if s.off < e then
      match scanStep F b e s.off with
      | .stop => s
      | .skip next => logScanLoop b e fuel (s.skipped next)
      | .deliver p next =>
        let r := cb s.off p s.ctx
        if r.2 then s.delivered r.1 next else logScanLoop b e fuel (s.delivered r.1 next)
    else s

/-- `log_scan` over `[start, e)`. -/
def logScan (b : Bytes) (start e : ℕ) (ctx : σ) : σ × LogScanResult :=
  let s := logScanLoop F cb b e (e - start) ⟨start, start, 0, 0, false, false, ctx⟩
  (s.ctx, ⟨if s.recoveredAfterHole then e else s.cleanEnd, s.goodFrames, s.corruptFrames,
    s.recoveredAfterHole⟩)

end

/-- Turns of a scan, one after the other: each is an offset and what the scan does there. -/
inductive Walk (b : Bytes) (e : ℕ) : ℕ → List (ℕ × ScanStep) → ℕ → Prop
  | nil (o : ℕ) : Walk b e o [] o
  | deliver {o p n ts o'} (lt : o < e) (step : StepOf F b e o (.deliver p n))
    (rest : Walk b e n ts o') : Walk b e o ((o, .deliver p n) :: ts) o'
  | skip {o n ts o'} (lt : o < e) (step : StepOf F b e o (.skip n))
    (rest : Walk b e n ts o') : Walk b e o ((o, .skip n) :: ts) o'

def Stops (b : Bytes) (e o : ℕ) : Prop := e ≤ o ∨ StepOf F b e o .stop

/-- The frames delivered by some turns, with their offsets. -/
def deliveries : List (ℕ × ScanStep) → List (ℕ × Bytes)
  | [] => []
  | (o, .deliver p _) :: ts => (o, p) :: deliveries ts
  | _ :: ts => deliveries ts

@[simp] theorem deliveries_append (ts us : List (ℕ × ScanStep)) :
    deliveries (ts ++ us) = deliveries ts ++ deliveries us := by
  induction ts with
  | nil => rfl
  | cons t ts ih =>
    obtain ⟨o, _ | _ | _⟩ := t <;> simp [deliveries, ih]

variable {F}

/-- A turn moves forward, and a frame passed over or delivered ends inside of the range. -/
theorem StepOf.lt_deliver {p : Bytes} {o n : ℕ} (h : StepOf F b e o (.deliver p n)) :
    o + F.overhead + p.length = n ∧ n ≤ e := by
  cases h with
  | intact _ room => exact ⟨rfl, room⟩

theorem Framing.overhead_pos (F : Framing) : 4 ≤ F.overhead :=
  F.hdrLen_pos.trans (Nat.le_add_right _ _)

theorem StepOf.lt_skip {o n : ℕ} (h : StepOf F b e o (.skip n)) : o < n := by
  have := F.overhead_pos
  cases h with
  | damaged => omega
  | resync _ _ next => exact next.start_le

variable {ts : List (ℕ × ScanStep)}

theorem Walk.trans {o m o' : ℕ} {us : List (ℕ × ScanStep)} (h : Walk F b e o ts m)
    (h' : Walk F b e m us o') : Walk F b e o (ts ++ us) o' := by
  induction h with
  | nil => exact h'
  | deliver lt step _ ih => exact .deliver lt step (ih h')
  | skip lt step _ ih => exact .skip lt step (ih h')

theorem Walk.le {o o' : ℕ} (h : Walk F b e o ts o') : o ≤ o' := by
  induction h with
  | nil => exact le_rfl
  | deliver _ step _ ih =>
    have := step.lt_deliver
    omega
  | skip _ step _ ih =>
    have := step.lt_skip
    omega

theorem Walk.unique {o m m' : ℕ} {us : List (ℕ × ScanStep)} (h : Walk F b e o ts m)
    (hs : Stops F b e m) (h' : Walk F b e o us m') (hs' : Stops F b e m') :
    ts = us ∧ m = m' := by
  induction h generalizing us with
  | nil o =>
    cases h' with
    | nil => exact ⟨rfl, rfl⟩
    | deliver lt step _ | skip lt step _ =>
      rcases hs with hs | hs
      · omega
      · cases hs.unique F step
  | deliver lt step _ ih =>
    cases h' with
    | nil =>
      rcases hs' with hs' | hs'
      · omega
      · cases hs'.unique F step
    | deliver _ step' rest' =>
      cases step.unique F step'
      obtain ⟨rfl, rfl⟩ := ih hs rest'
      exact ⟨rfl, rfl⟩
    | skip _ step' _ => cases step.unique F step'
  | skip lt step _ ih =>
    cases h' with
    | nil =>
      rcases hs' with hs' | hs'
      · omega
      · cases hs'.unique F step
    | deliver _ step' _ => cases step.unique F step'
    | skip _ step' rest' =>
      cases step.unique F step'
      obtain ⟨rfl, rfl⟩ := ih hs rest'
      exact ⟨rfl, rfl⟩

/-! ## A scan is its walk -/

section

variable {σ : Type} (f : ℕ → Bytes → σ → σ)

def ScanState.turn (s : ScanState σ) : ℕ × ScanStep → ScanState σ
  | (o, .deliver p n) => s.delivered (f o p s.ctx) n
  | (_, .skip n) => s.skipped n
  | (_, .stop) => s

def always (o : ℕ) (p : Bytes) (c : σ) : σ × Bool := (f o p c, false)

theorem logScanLoop_walk {b : Bytes} (he : e ≤ b.length) (fuel : ℕ) (s : ScanState σ)
    (hfuel : e ≤ s.off + fuel) : ∃ ts o', Walk F b e s.off ts o' ∧ Stops F b e o' ∧
      logScanLoop F (always f) b e fuel s = ts.foldl (ScanState.turn f) s := by
  induction fuel generalizing s with
  | zero => exact ⟨[], s.off, .nil _, .inl hfuel, rfl⟩
  | succ fuel ih =>
    unfold logScanLoop
    by_cases hlt : s.off < e
    · rw [if_pos hlt]
      have hstep := scanStep_spec F he s.off
      cases hs : scanStep F b e s.off with
      | stop =>
        rw [hs] at hstep
        exact ⟨[], s.off, .nil _, .inr hstep, rfl⟩
      | skip n =>
        rw [hs] at hstep
        have hn := hstep.lt_skip
        obtain ⟨ts, o', hw, hstop, heq⟩ := ih (s.skipped n) (by
          change e ≤ n + fuel
          omega)
        exact ⟨_, o', .skip hlt hstep hw, hstop, heq⟩
      | deliver p n =>
        rw [hs] at hstep
        have hn := hstep.lt_deliver
        have := F.overhead_pos
        obtain ⟨ts, o', hw, hstop, heq⟩ := ih (s.delivered (f s.off p s.ctx) n) (by
          change e ≤ n + fuel
          omega)
        exact ⟨_, o', .deliver hlt hstep hw, hstop, heq⟩
    · rw [if_neg hlt]
      exact ⟨[], s.off, .nil _, .inl (by omega), rfl⟩

theorem exists_walk {b : Bytes} (he : e ≤ b.length) (start : ℕ) :
    ∃ ts o', Walk F b e start ts o' ∧ Stops F b e o' := by
  obtain ⟨ts, o', hw, hs, -⟩ := logScanLoop_walk (fun _ _ (_ : Unit) => ()) he
    (e - start) ⟨start, start, 0, 0, false, false, ()⟩ (by dsimp only; omega)
  exact ⟨ts, o', hw, hs⟩

theorem logScanLoop_of_walk {b : Bytes} (he : e ≤ b.length) {fuel : ℕ} {s : ScanState σ}
    (hfuel : e ≤ s.off + fuel) {ts : List (ℕ × ScanStep)} {o' : ℕ} (hw : Walk F b e s.off ts o')
    (hs : Stops F b e o') :
    logScanLoop F (always f) b e fuel s = ts.foldl (ScanState.turn f) s := by
  obtain ⟨us, m, hw', hs', heq⟩ := logScanLoop_walk f he fuel s hfuel
  rw [heq, (hw.unique hs hw' hs').1]

theorem ctx_foldl_turn (ts : List (ℕ × ScanStep)) (s : ScanState σ) :
    (ts.foldl (ScanState.turn f) s).ctx = (deliveries ts).foldl (fun c d => f d.1 d.2 c) s.ctx := by
  induction ts generalizing s with
  | nil => rfl
  | cons t ts ih =>
    obtain ⟨o, _ | _ | _⟩ := t <;> exact ih _

def AllDeliver (ts : List (ℕ × ScanStep)) : Prop := ∀ t ∈ ts, ∃ p n, t.2 = .deliver p n

theorem foldl_turn_of_allDeliver {b : Bytes} {o o' : ℕ} {ts : List (ℕ × ScanStep)}
    (hw : Walk F b e o ts o') (hd : AllDeliver ts) {s : ScanState σ} (hh : s.hole = false)
    (hc : s.cleanEnd = o) :
    (ts.foldl (ScanState.turn f) s).hole = false ∧
      (ts.foldl (ScanState.turn f) s).recoveredAfterHole = s.recoveredAfterHole ∧
      (ts.foldl (ScanState.turn f) s).cleanEnd = o' := by
  induction hw generalizing s with
  | nil => exact ⟨hh, rfl, hc⟩
  | @deliver o p n ts o' _ _ _ ih =>
    have htail : AllDeliver ts := fun t ht => hd t (mem_cons_of_mem _ ht)
    obtain ⟨h₁, h₂, h₃⟩ := ih htail (s := s.delivered (f o p s.ctx) n) hh
      (by simp [ScanState.delivered, hh])
    exact ⟨h₁, h₂.trans (by simp [ScanState.delivered, hh]), h₃⟩
  | skip =>
    obtain ⟨p, n, h⟩ := hd _ (mem_cons_self ..)
    cases h

theorem foldl_turn_of_hole (ts : List (ℕ × ScanStep)) {s : ScanState σ} (hh : s.hole = true) :
    (ts.foldl (ScanState.turn f) s).cleanEnd = s.cleanEnd ∧
      ((ts.foldl (ScanState.turn f) s).recoveredAfterHole = true ↔
        s.recoveredAfterHole = true ∨ deliveries ts ≠ []) := by
  induction ts generalizing s with
  | nil => simp [deliveries]
  | cons t ts ih =>
    obtain ⟨o, p | n | _⟩ := t
    · obtain ⟨h₁, h₂⟩ := ih (s := s.delivered (f o p s.ctx) ‹ℕ›) hh
      refine ⟨h₁.trans (by simp [ScanState.delivered, hh]), h₂.trans ?_⟩
      simp [ScanState.delivered, hh, deliveries]
    · exact ih rfl
    · exact ih hh

end

/-- Every walk delivers frames up to some damage, if there is any, and goes on behind it. -/
theorem Walk.split {o o' : ℕ} (hw : Walk F b e o ts o') :
    ∃ ds rs m, ts = ds ++ rs ∧ AllDeliver ds ∧ Walk F b e o ds m ∧ Walk F b e m rs o' ∧
      (rs = [] ∨ ∃ n rs', rs = (m, .skip n) :: rs') := by
  induction hw with
  | nil o => exact ⟨[], [], o, rfl, by simp [AllDeliver], .nil o, .nil o, .inl rfl⟩
  | @deliver o p n ts o' lt step _ ih =>
    obtain ⟨ds, rs, m, rfl, hd, hds, hrs, hor⟩ := ih
    refine ⟨(o, .deliver p n) :: ds, rs, m, rfl, ?_, .deliver lt step hds, hrs, hor⟩
    intro t ht
    rcases mem_cons.1 ht with rfl | ht
    · exact ⟨p, n, rfl⟩
    · exact hd t ht
  | @skip o n ts o' lt step rest _ =>
    exact ⟨[], (o, .skip n) :: ts, o, rfl, by simp [AllDeliver], .nil o, .skip lt step rest,
      .inr ⟨n, ts, rfl⟩⟩

/-- What a scan reports: the context after every delivery, and the end of the file when a frame was
delivered behind damage, or else the place of the damage. -/
theorem logScan_of_walk {σ : Type} (f : ℕ → Bytes → σ → σ) {start m o' : ℕ}
    {ds rs : List (ℕ × ScanStep)} (he : e ≤ b.length) (hd : AllDeliver ds)
    (hds : Walk F b e start ds m) (hrs : Walk F b e m rs o')
    (hor : rs = [] ∨ ∃ n rs', rs = (m, .skip n) :: rs') (hs : Stops F b e o') (c : σ) :
    (logScan F (always f) b start e c).1 =
        (deliveries (ds ++ rs)).foldl (fun c d => f d.1 d.2 c) c ∧
      (logScan F (always f) b start e c).2.truncateTo = if deliveries rs = [] then m else e := by
  unfold logScan
  rw [logScanLoop_of_walk f he (by dsimp only; omega) (hds.trans hrs) hs]
  dsimp only
  refine ⟨ctx_foldl_turn f _ _, ?_⟩
  rw [foldl_append]
  obtain ⟨h₁, h₂, h₃⟩ := foldl_turn_of_allDeliver f hds hd
    (s := ⟨start, start, 0, 0, false, false, c⟩) rfl rfl
  generalize ds.foldl (ScanState.turn f) _ = s at h₁ h₂ h₃ ⊢
  rcases hor with rfl | ⟨n, rs', rfl⟩
  · simp [deliveries, h₂, h₃]
  · have hskip := foldl_turn_of_hole f rs' (s := s.skipped n) rfl
    have hrec : (s.skipped n).recoveredAfterHole = false := h₂
    rw [foldl_cons]
    simp only [ScanState.turn, hskip.1, hskip.2, hrec, Bool.false_eq_true, false_or]
    by_cases hdel : deliveries rs' = []
    · simp [deliveries, hdel, ScanState.skipped, h₃]
    · simp [deliveries, hdel]

end AegisDB
