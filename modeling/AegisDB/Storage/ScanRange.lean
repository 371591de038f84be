import AegisDB.Storage.CleanLog

/-!
# A scan of any bytes

`log_scan` over any range of any file. Its two loops, the scan and the search for the next frame, are
given here as relations without fuel (`ScanRun`, `SearchRun`): that there is a run from every state is
that they terminate. What one turn can do is `scanStep_deliver` and `scanStep_skip`; what holds of the
frames that were delivered is carried from turn to turn by `ScanInv`.

The main result is `logScan_wellBehaved`.
-/

namespace AegisDB

open Bytes List ScanState

variable (F : Framing)

/-! ## The search for the next frame -/

/-- The loop of `find_next_frame`, from a place to its result. -/
inductive SearchRun (b : Bytes) (e : ℕ) : ℕ → ℕ → Prop
  | done {base} (short : ¬ base + F.hdrLen ≤ e) : SearchRun b e base e
  | unreadable {base} (room : base + F.hdrLen ≤ e)
      (read : slice b base (min (e - base) ioBufSize) = none) : SearchRun b e base e
  | found {base i w} (room : base + F.hdrLen ≤ e)
      (read : slice b base (min (e - base) ioBufSize) = some w)
      (first : (List.range (min (e - base) ioBufSize - F.hdrLen + 1)).find?
        (fun i => frameStarts F b e (base + i)) = some i) : SearchRun b e base (base + i)
  | next {base w nxt} (room : base + F.hdrLen ≤ e)
      (read : slice b base (min (e - base) ioBufSize) = some w)
      (missing : (List.range (min (e - base) ioBufSize - F.hdrLen + 1)).find?
        (fun i => frameStarts F b e (base + i)) = none)
      (rest : SearchRun b e (base + (min (e - base) ioBufSize - (F.hdrLen - 1))) nxt) :
      SearchRun b e base nxt

theorem searchRun_findNextLoop {b : Bytes} {e fuel base : ℕ} (hfuel : e ≤ base + fuel) :
    SearchRun F b e base (findNextLoop F b e fuel base) := by
  have hpos := F.hdrLen_pos
  have hwin := F.hdrLen_le
  induction fuel generalizing base with
  | zero => exact .done (by omega)
  | succ fuel ih =>
    unfold findNextLoop
    split
    · rename_i hroom
      dsimp only
      have hwant : F.hdrLen ≤ min (e - base) ioBufSize := by
        rw [le_min_iff, ioBufSize]
        omega
      split
      · rename_i hread
        exact .unreadable hroom hread
      · rename_i w hread
        split
        · rename_i i hfirst
          exact .found hroom hread hfirst
        · rename_i hmissing
          exact .next hroom hread hmissing (ih (by omega))
    · rename_i hshort
      exact .done hshort

theorem searchRun_findNextFrame (b : Bytes) (e base : ℕ) :
    SearchRun F b e base (findNextFrame F b base e) :=
  searchRun_findNextLoop F (by omega)

/-- **The windowed search.** Of any bytes, from any place to any end inside of the file, the loop of
`find_next_frame` ends. It returns the least offset at which a header starts whose frame fits before
the end, or the end when there is none. -/
theorem findNextFrame_isLeast (b : Bytes) (start e : ℕ) (he : e ≤ b.length) :
    SearchRun F b e start (findNextFrame F b start e) ∧
      (IsLeast {o | start ≤ o ∧ HeaderFits F b e o} (findNextFrame F b start e) ∨
        findNextFrame F b start e = e ∧ ∀ o, start ≤ o → ¬ HeaderFits F b e o) := by
  refine ⟨searchRun_findNextFrame F b e start, (findNextFrame_spec F he start).imp_left ?_⟩
  intro h
  refine ⟨⟨h.start_le, h.fits⟩, ?_⟩
  rintro o ⟨hstart, hfits⟩
  exact not_lt.1 fun hlt => h.first o hstart hlt hfits

/-- A frame behind one byte of something else. -/
theorem findNextFrame_isLeast_behind_byte :
    IsLeast {o | 0 ≤ o ∧ HeaderFits plainFraming (0 :: plainFraming.frame () []) 17 o} 1 := by
  have h := (findNextFrame_isLeast plainFraming (0 :: plainFraming.frame () []) 0 17 (by decide)).2
  have h1 : findNextFrame plainFraming (0 :: plainFraming.frame () []) 0 17 = 1 := by decide +kernel
  rw [h1] at h
  exact h.resolve_right (by simp)

/-- With an end behind the end of the file a window cannot be read, and a frame before it is missed. -/
theorem findNextFrame_past_end :
    HeaderFits plainFraming (plainFraming.frame () []) 17 0 ∧
      findNextFrame plainFraming (plainFraming.frame () []) 0 17 = 17 := by
  refine ⟨⟨0, ?_, ?_⟩, ?_⟩ <;> decide +kernel

variable {F} in
/-- The search returns the end of the range, or a place that it has come to. -/
theorem SearchRun.le {b : Bytes} {e base nxt : ℕ} (h : SearchRun F b e base nxt) :
    nxt = e ∨ base ≤ nxt := by
  induction h with
  | done | unreadable => exact .inl rfl
  | found => exact .inr (Nat.le_add_right _ _)
  | next _ _ _ _ ih =>
    rcases ih with h | h
    · exact .inl h
    · exact .inr (by omega)

section

variable {F} {b p : Bytes} {e off n : ℕ}

/-- A delivered frame is read as `log_read` does, and ends inside of the range. -/
theorem scanStep_deliver (h : scanStep F b e off = .deliver p n) :
    logRead F b off = some p ∧ n = off + F.overhead + p.length ∧ n ≤ e := by
  unfold scanStep at h
  split at h
  · cases h
  split at h
  · cases h
  rename_i hdr hs
  split at h
  · dsimp only at h
    split at h <;> cases h
  rename_i len hp
  split at h
  · cases h
  rename_i hfit
  split at h
  · cases h
  rename_i body hb
  split at h
  · cases h
  rename_i q ho
  cases h
  have hread : logRead F b off = some p := (logRead_of_slices F hs hp hb).trans ho
  have hlen : len = p.length := by
    have hheader : headerAt F b off = some len := (headerAt_eq_some F).2 ⟨hdr, hs, hp⟩
    exact Option.some.inj (hheader.symm.trans (headerAt_of_logRead F hread).1)
  subst hlen
  exact ⟨hread, rfl, by omega⟩

theorem scanStep_skip (h : scanStep F b e off = .skip n) : off < n := by
  have hpos := F.overhead_pos
  unfold scanStep at h
  split at h
  · cases h
  split at h
  · cases h
  split at h
  · -- resynchronised
    dsimp only at h
    split at h
    · cases h
    · rename_i hlt
      cases h
      have := (searchRun_findNextFrame F b e (off + 1)).le
      omega
  split at h
  · cases h
  split at h
  · cases h
  split at h
  · cases h
    omega
  · cases h

end

section

variable {σ : Type} (cb : ℕ → Bytes → σ → σ × Bool)

/-- The loop of `log_scan`, from a state to the one in which it is left. -/
inductive ScanRun (b : Bytes) (e : ℕ) : ScanState σ → ScanState σ → Prop
  | done {s} (past : ¬ s.off < e) : ScanRun b e s s
  | stop {s} (lt : s.off < e) (step : scanStep F b e s.off = .stop) : ScanRun b e s s
  | skip {s t n} (lt : s.off < e) (step : scanStep F b e s.off = .skip n)
      (rest : ScanRun b e (s.skipped n) t) : ScanRun b e s t
  /-- A frame, at which the callback stops the scan. -/
  | halt {s p n} (lt : s.off < e) (step : scanStep F b e s.off = .deliver p n)
      (stops : (cb s.off p s.ctx).2 = true) :
      ScanRun b e s (s.delivered (cb s.off p s.ctx).1 n)
  | deliver {s t p n} (lt : s.off < e) (step : scanStep F b e s.off = .deliver p n)
      (goes : (cb s.off p s.ctx).2 = false)
      (rest : ScanRun b e (s.delivered (cb s.off p s.ctx).1 n) t) : ScanRun b e s t

def ScanState.init (start : ℕ) (ctx : σ) : ScanState σ := ⟨start, start, 0, 0, false, false, ctx⟩

def ScanState.result (s : ScanState σ) (e : ℕ) : LogScanResult :=
  ⟨if s.recoveredAfterHole then e else s.cleanEnd, s.goodFrames, s.corruptFrames,
    s.recoveredAfterHole⟩

theorem scanRun_logScanLoop {b : Bytes} {e fuel : ℕ} {s : ScanState σ} (hfuel : e ≤ s.off + fuel) :
    ScanRun F cb b e s (logScanLoop F cb b e fuel s) := by
  induction fuel generalizing s with
  | zero => exact .done (by omega)
  | succ fuel ih =>
    unfold logScanLoop
    split
    · rename_i hlt
      cases hstep : scanStep F b e s.off with
      | stop => exact .stop hlt hstep
      | skip n =>
        have hn := scanStep_skip hstep
        refine .skip hlt hstep (ih ?_)
        change e ≤ n + fuel
        omega
      | deliver p n =>
        have hn := (scanStep_deliver hstep).2.1
        have hpos := F.overhead_pos
        dsimp only
        split
        · rename_i hstops
          exact .halt hlt hstep hstops
        · rename_i hgoes
          refine .deliver hlt hstep (by simpa using hgoes) (ih ?_)
          change e ≤ n + fuel
          omega
    · rename_i hpast
      exact .done hpast

theorem scanRun_logScan (b : Bytes) (start e : ℕ) (ctx : σ) :
    ∃ s, ScanRun F cb b e (.init start ctx) s ∧ logScan F cb b start e ctx = (s.ctx, s.result e) :=
  have hfuel : e ≤ (init start ctx).off + (e - start) := by
    change e ≤ start + _
    omega
  ⟨_, scanRun_logScanLoop F cb hfuel, rfl⟩

/-! ## What is delivered -/

/-- The callback, with a list of what it was called for. -/
def recording (o : ℕ) (p : Bytes) (c : σ × List (ℕ × Bytes)) : (σ × List (ℕ × Bytes)) × Bool :=
  (((cb o p c.1).1, c.2 ++ [(o, p)]), (cb o p c.1).2)

/-- The frames a scan delivers, with their offsets. -/
def scanDeliveries (b : Bytes) (start e : ℕ) (ctx : σ) : List (ℕ × Bytes) :=
  (logScan F (recording cb) b start e (ctx, [])).1.2

def ScanState.forget (s : ScanState (σ × List (ℕ × Bytes))) : ScanState σ :=
  ⟨s.off, s.cleanEnd, s.goodFrames, s.corruptFrames, s.hole, s.recoveredAfterHole, s.ctx.1⟩

theorem forget_logScanLoop {b : Bytes} {e : ℕ} (fuel : ℕ) (s : ScanState (σ × List (ℕ × Bytes))) :
    (logScanLoop F (recording cb) b e fuel s).forget = logScanLoop F cb b e fuel s.forget := by
  induction fuel generalizing s with
  | zero => rfl
  | succ fuel ih =>
    change (if s.off < e then _ else _ : ScanState _).forget = if s.off < e then _ else _
    split
    · rw [show s.forget.off = s.off from rfl]
      cases scanStep F b e s.off with
      | stop => rfl
      | skip n => exact ih (s.skipped n)
      | deliver p n =>
        dsimp only
        change (if (cb s.off p s.ctx.1).2 = true then _ else _ : ScanState _).forget =
          if (cb s.off p s.ctx.1).2 = true then _ else _
        split
        · rfl
        · exact ih _
    · rfl

theorem logScan_recording (b : Bytes) (start e : ℕ) (ctx : σ) :
    (logScan F cb b start e ctx).2 = (logScan F (recording cb) b start e (ctx, [])).2 := by
  have h := forget_logScanLoop F cb (b := b) (e := e) (e - start) (.init start (ctx, []))
  change (result (logScanLoop F cb b e (e - start) (.init start ctx)) e) = _
  rw [show init start ctx = (init start (ctx, [])).forget from rfl, ← h]
  rfl

def frameEnd (d : ℕ × Bytes) : ℕ := d.1 + F.overhead + d.2.length

/-- What holds of the frames that a scan has delivered when it comes to a place. -/
structure ScanInv (b : Bytes) (start e : ℕ) (s : ScanState (σ × List (ℕ × Bytes))) : Prop where
  ordered : s.ctx.2.Pairwise fun d d' => frameEnd F d ≤ d'.1
  inside : ∀ d ∈ s.ctx.2, start ≤ d.1 ∧ frameEnd F d ≤ e
  passed : ∀ d ∈ s.ctx.2, frameEnd F d ≤ s.off
  read : ∀ d ∈ s.ctx.2, logRead F b d.1 = some d.2
  start_le : start ≤ s.off
  clean : s.recoveredAfterHole = false → ∀ d ∈ s.ctx.2, frameEnd F d ≤ s.cleanEnd

section

variable {F cb} {b : Bytes} {start e : ℕ} {s t : ScanState (σ × List (ℕ × Bytes))}

theorem scanInv_init (b : Bytes) (start e : ℕ) (ctx : σ) :
    ScanInv F b start e (.init start (ctx, [])) := by
  constructor <;> simp [init]

theorem ScanInv.skipped (h : ScanInv F b start e s) {n : ℕ} (hn : s.off < n) :
    ScanInv F b start e (s.skipped n) :=
  { h with
    passed := fun d hd => (h.passed d hd).trans hn.le
    start_le := h.start_le.trans hn.le }

theorem ScanInv.delivered (h : ScanInv F b start e s) {p : Bytes} {n : ℕ}
    (hstep : scanStep F b e s.off = .deliver p n) (c : σ) :
    ScanInv F b start e (s.delivered (c, s.ctx.2 ++ [(s.off, p)]) n) := by
  obtain ⟨hread, hn, hend⟩ := scanStep_deliver hstep
  have hlast := hn.symm
  have hle : s.off ≤ n := by omega
  -- the list is longer by the frame at the place where the scan was
  have hforall {P : ℕ × Bytes → Prop} (hold : ∀ d ∈ s.ctx.2, P d) (hnew : P (s.off, p)) :
      ∀ d ∈ s.ctx.2 ++ [(s.off, p)], P d := by
    intro d hd
    rcases mem_append.1 hd with hd | hd
    · exact hold d hd
    · rwa [mem_singleton.1 hd]
  have hpassed := hforall (fun d hd => (h.passed d hd).trans hle) hlast.le
  constructor
  · refine pairwise_append.2 ⟨h.ordered, pairwise_singleton _ _, ?_⟩
    intro d hd d' hd'
    rw [mem_singleton.1 hd']
    exact h.passed d hd
  · exact hforall h.inside ⟨h.start_le, hlast.trans_le hend⟩
  · exact hpassed
  · exact hforall h.read hread
  · exact h.start_le.trans hle
  · intro hrec d hd
    have hhole : s.hole = false := (Bool.or_eq_false_iff.1 hrec).2
    change _ ≤ if s.hole then s.cleanEnd else n
    rw [hhole]
    exact hpassed d hd

theorem ScanInv.run (h : ScanInv F b start e s) (hrun : ScanRun F (recording cb) b e s t) :
    ScanInv F b start e t := by
  induction hrun with
  | done | stop => exact h
  | skip lt step rest ih => exact ih (h.skipped (scanStep_skip step))
  | halt lt step stops => exact h.delivered step _
  | deliver lt step goes rest ih => exact ih (h.delivered step _)

end

end

/-! ## Frames with damaged bodies -/

/-- A frame that was appended, as it is now: its body may have been overwritten by one that the
checksum rejects. -/
structure StoredFrame where
  nonce : F.Nonce
  payload : Bytes
  /-- The bytes in the place of the body, if it was damaged. -/
  damage : Option Bytes
  appended : payload.length ≤ maxPayload
  detected : ∀ d ∈ damage, d.length = payload.length + F.tagLen ∧
    F.openBody (F.header nonce payload) d = none

namespace StoredFrame

variable {F}

def bytes (x : StoredFrame F) : Bytes :=
  F.header x.nonce x.payload ++ x.damage.getD (F.body x.nonce x.payload)

def size (x : StoredFrame F) : ℕ := F.overhead + x.payload.length

theorem length_bytes (x : StoredFrame F) : x.bytes.length = x.size := by
  have hbody : (x.damage.getD (F.body x.nonce x.payload)).length = x.payload.length + F.tagLen := by
    cases hd : x.damage with
    | none => exact F.length_body _ _
    | some d => exact (x.detected d hd).1
  rw [bytes, length_append, F.length_header, hbody, size, Framing.overhead]
  omega

/-- The frame alone: its header is intact, and it is read unless its body is damaged. -/
theorem reads (x : StoredFrame F) (a c : Bytes) :
    headerAt F (a ++ (x.bytes ++ c)) a.length = some x.payload.length ∧
      logRead F (a ++ (x.bytes ++ c)) a.length = if x.damage = none then some x.payload else none := by
  have hheader : slice (x.bytes ++ c) 0 F.hdrLen = some (F.header x.nonce x.payload) := by
    rw [bytes, append_assoc]
    exact slice_zero_append _ (F.length_header _ _)
  have hparse := F.parse_header x.nonce x.appended
  have hright := headerAt_append_right F a (x.bytes ++ c) 0
  have hread := logRead_append_right F a (x.bytes ++ c) 0
  rw [add_zero] at hright hread
  rw [hright, hread]
  refine ⟨(headerAt_eq_some F).2 ⟨_, hheader, hparse⟩, ?_⟩
  cases hd : x.damage with
  | none =>
    have hbytes : x.bytes = F.frame x.nonce x.payload := by rw [bytes, hd]; rfl
    rw [if_pos rfl, hbytes, logRead_frame F c x.appended]
  | some d =>
    obtain ⟨hlen, hopen⟩ := x.detected d hd
    have hbody : slice (x.bytes ++ c) (0 + F.hdrLen) (x.payload.length + F.tagLen) = some d := by
      have := slice_append_right (F.header x.nonce x.payload) (d ++ c) 0 (x.payload.length + F.tagLen)
      rw [slice_zero_append _ hlen, F.length_header, add_zero] at this
      rw [bytes, hd, Option.getD_some, append_assoc, zero_add, this]
    rw [if_neg (by simp), logRead_of_slices F hheader hparse hbody, hopen]

def turn (o : ℕ) (x : StoredFrame F) : ℕ × ScanStep :=
  (o, if x.damage = none then .deliver x.payload (o + x.size) else .skip (o + x.size))

end StoredFrame

/-- The frames of a file, one behind the other. -/
def storedBytes (fs : List (StoredFrame F)) : Bytes := fs.flatMap StoredFrame.bytes

/-- The frames whose bodies are intact, with their offsets from `o` on. -/
def intactFrames : ℕ → List (StoredFrame F) → List (ℕ × Bytes)
  | _, [] => []
  | o, x :: fs =>
    if x.damage = none then (o, x.payload) :: intactFrames (o + x.size) fs
    else intactFrames (o + x.size) fs

section

variable {F}

/-- A scan passes over the frames with a damaged body, by their lengths, and delivers the others. -/
theorem walk_storedFrames (fs : List (StoredFrame F)) (a c : Bytes) {e : ℕ}
    (he : a.length + (storedBytes F fs).length ≤ e) :
    ∃ ts, Walk F (a ++ (storedBytes F fs ++ c)) e a.length ts
        (a.length + (storedBytes F fs).length) ∧
      deliveries ts = intactFrames F a.length fs := by
  induction fs generalizing a with
  | nil => exact ⟨[], .nil _, rfl⟩
  | cons x fs ih =>
    have hcons : storedBytes F (x :: fs) = x.bytes ++ storedBytes F fs := rfl
    have hsplit : a ++ (storedBytes F (x :: fs) ++ c) = a ++ (x.bytes ++ (storedBytes F fs ++ c)) := by
      rw [hcons, append_assoc]
    have hlen := x.length_bytes
    have hpos := F.overhead_pos
    have hsize : x.size = F.overhead + x.payload.length := rfl
    rw [hcons, length_append] at he
    obtain ⟨ts, hw, hts⟩ := ih (a ++ x.bytes) (by rw [length_append]; omega)
    obtain ⟨hheader, hread⟩ := x.reads a (storedBytes F fs ++ c)
    rw [append_assoc, ← hsplit, length_append, hlen] at hw
    rw [← hsplit] at hheader hread
    rw [length_append, hlen] at hts
    rw [hcons, length_append, hlen, ← add_assoc]
    refine ⟨x.turn a.length :: ts, ?_⟩
    by_cases hd : x.damage = none
    · rw [if_pos hd] at hread
      have hstep := StepOf.intact hread (e := e) (by omega)
      rw [add_assoc, ← hsize] at hstep
      rw [StoredFrame.turn, if_pos hd, deliveries, hts, intactFrames, if_pos hd]
      exact ⟨.deliver (by omega) hstep hw, rfl⟩
    · rw [if_neg hd] at hread
      have hstep := StepOf.damaged hheader (e := e) (by omega) hread
      rw [add_assoc, ← hsize] at hstep
      rw [StoredFrame.turn, if_neg hd, intactFrames, if_neg hd]
      exact ⟨.skip (by omega) hstep hw, hts⟩

/-- The callback of a scan that never stops, with the list of its calls. -/
theorem scanDeliveries_of_walk {σ : Type} (f : ℕ → Bytes → σ → σ) {b : Bytes} {start e o : ℕ}
    {ts : List (ℕ × ScanStep)} (he : e ≤ b.length) (hw : Walk F b e start ts o) (hs : Stops F b e o)
    (ctx : σ) : scanDeliveries F (always f) b start e ctx = deliveries ts := by
  obtain ⟨ds, rs, m, rfl, hd, hds, hrs, hor⟩ := hw.split
  have hscan := (logScan_of_walk (fun o p (c : σ × List (ℕ × Bytes)) => (f o p c.1, c.2 ++ [(o, p)]))
    he hd hds hrs hor hs (ctx, [])).1
  have hfold (xs : List (ℕ × Bytes)) (c : σ × List (ℕ × Bytes)) :
      (xs.foldl (fun c d => (f d.1 d.2 c.1, c.2 ++ [(d.1, d.2)])) c).2 = c.2 ++ xs := by
    induction xs generalizing c with
    | nil => simp
    | cons x xs ih => simp [ih]
  rw [scanDeliveries]
  refine (congrArg Prod.snd hscan).trans ?_
  rw [hfold, nil_append]

end

/-- **A scan is well behaved on any bytes.** The loops of the scan and of its search terminate; the
frames delivered lie one behind the other inside of the range, each is the one read at its offset,
and the file is not to be cut in front of its end. In a file of appended frames some of whose bodies
are damaged, exactly the others are delivered. -/
theorem logScan_wellBehaved {σ : Type} (cb : ℕ → Bytes → σ → σ × Bool) (b : Bytes) (start e : ℕ)
    (ctx : σ) :
    (∀ base, SearchRun F b e base (findNextFrame F b base e)) ∧
      (∃ s, ScanRun F cb b e (.init start ctx) s ∧
        logScan F cb b start e ctx = (s.ctx, s.result e)) ∧
      (∀ d ∈ scanDeliveries F cb b start e ctx, start ≤ d.1 ∧ frameEnd F d ≤ e) ∧
      (scanDeliveries F cb b start e ctx).Pairwise (fun d d' => frameEnd F d ≤ d'.1) ∧
      (∀ d ∈ scanDeliveries F cb b start e ctx, logRead F b d.1 = some d.2) ∧
      (∀ d ∈ scanDeliveries F cb b start e ctx,
        frameEnd F d ≤ (logScan F cb b start e ctx).2.truncateTo) ∧
      ∀ (f : ℕ → Bytes → σ → σ) (fs : List (StoredFrame F)) (a c : Bytes),
        scanDeliveries F (always f) (a ++ (storedBytes F fs ++ c)) a.length
          (a.length + (storedBytes F fs).length) ctx = intactFrames F a.length fs := by
  obtain ⟨s, hrun, hscan⟩ := scanRun_logScan F (recording cb) b start e (ctx, [])
  have hinv := (scanInv_init b start e ctx).run hrun
  have hlist : scanDeliveries F cb b start e ctx = s.ctx.2 := by rw [scanDeliveries, hscan]
  rw [hlist]
  refine ⟨searchRun_findNextFrame F b e, scanRun_logScan F cb b start e ctx, hinv.inside,
    hinv.ordered, hinv.read, fun d hd => ?_, fun f fs a c => ?_⟩
  · -- a frame behind damage keeps the whole range
    rw [logScan_recording, hscan]
    change _ ≤ if s.recoveredAfterHole then e else s.cleanEnd
    cases hrec : s.recoveredAfterHole with
    | false => exact hinv.clean hrec d hd
    | true => exact (hinv.inside d hd).2
  · obtain ⟨ts, hw, hts⟩ := walk_storedFrames fs a c le_rfl
    rw [scanDeliveries_of_walk f ?_ hw (.inl le_rfl), hts]
    rw [length_append, length_append]
    omega

end AegisDB
