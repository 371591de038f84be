import AegisDB.Storage.Engine
import AegisDB.Storage.Open

/-!
# What failed appends leave behind

A `log_append` that fails has written some of its frame behind the recorded size. The next append
starts at that size again, so a shorter frame overwrites only the front of what is there, and the file
that a restart opens ends with the rest. The scan goes into these bytes: it resynchronises on anything
that looks like a frame, and a payload may hold the bytes of one (`leftover_frame_delivered`).

`failed_appends_leave_no_trace_iff` says when nothing of this happens.
-/

namespace AegisDB

open Bytes List

variable {F : Framing}

/-! ## Calls that may fail -/

/-- A call of `log_append`. -/
structure AppendCall (F : Framing) where
  nonce : F.Nonce
  payload : Bytes
  /-- How much of the frame is in the file when a write fails, if one does. -/
  fault : Option ℕ
  short : ∀ k ∈ fault, k < F.overhead + payload.length

/-- The call, and whether it returns success. -/
def AppendCall.apply (c : AppendCall F) (l : LogFile) : LogFile × Bool :=
  if maxPayload < c.payload.length then (l, false)
  else match c.fault with
    | none => ((l.append F c.nonce c.payload).getD l, (l.append F c.nonce c.payload).isSome)
    | some k => (l.failAppend ((F.frame c.nonce c.payload).take k), false)

/-- The calls in order, with the payloads of those that return success. -/
def appendCalls : LogFile → List (AppendCall F) → LogFile × List Bytes
  | l, [] => (l, [])
  | l, c :: cs =>
    let (l, ok) := c.apply l
    let (l, ps) := appendCalls l cs
    (l, if ok then c.payload :: ps else ps)

def LogFile.fresh : LogFile := ⟨[], [], 0, 0, true⟩

/-! ## The file behind the calls -/

theorem take_frame (n : F.Nonce) {p : Bytes} (hp : p.length ≤ maxPayload) :
    (F.frame n p).take 4 = leBytes 4 F.magic := by
  have hlen : ((F.frame n p).take 4).length = 4 := by
    rw [length_take, F.length_frame]
    have := F.overhead_pos
    omega
  have hmagic := leNat_take_frame n hp ([] : Bytes)
  rw [append_nil] at hmagic
  rw [← hmagic]
  conv_lhs => rw [← leBytes_leNat ((F.frame n p).take 4), hlen]

/-- The bytes begin as every frame does, as far as they go. -/
def FrontOf (F : Framing) (w : Bytes) : Prop :=
  ∀ i < 4, ∀ v, w[i]? = some v → (leBytes 4 F.magic)[i]? = some v

theorem frontOf_take_frame (n : F.Nonce) {p : Bytes} (hp : p.length ≤ maxPayload) (k : ℕ) :
    FrontOf F ((F.frame n p).take k) := by
  intro i hi v hv
  rw [getElem?_take] at hv
  split at hv
  · rw [← take_frame n hp, getElem?_take, if_pos hi, hv]
  · cases hv

theorem FrontOf.overwrite {w j : Bytes} (hw : FrontOf F w) (hj : FrontOf F j) :
    FrontOf F (w ++ j.drop w.length) := by
  intro i hi v hv
  rw [getElem?_append] at hv
  split at hv
  · exact hw i hi v hv
  · rw [getElem?_drop, Nat.add_sub_cancel' (by omega)] at hv
    exact hj i hi v hv

theorem FrontOf.take_eq {w : Bytes} (h : FrontOf F w) (h4 : 4 ≤ w.length) :
    leNat (w.take 4) = F.magic % 256 ^ 4 := by
  rw [← leNat_leBytes]
  congr 1
  refine ext_getElem? fun i => ?_
  rw [getElem?_take]
  split
  · rename_i hi
    have hlt : i < w.length := by omega
    rw [getElem?_eq_getElem hlt, h i hi _ (getElem?_eq_getElem hlt)]
  · rename_i hi
    rw [eq_comm, getElem?_eq_none]
    rw [length_leBytes]
    omega

/-- The recorded part of the file is the frames of the successful calls; without any, the rest
begins as a frame does. -/
structure Appended (l : LogFile) (fs : List (F.Nonce × Bytes)) : Prop where
  isOpen : l.isOpen = true
  bytes : l.bytes = framesBytes F fs
  appendable : Appendable fs
  front : fs = [] → FrontOf F l.junk

theorem appended_fresh : Appended LogFile.fresh ([] : List (F.Nonce × Bytes)) :=
  ⟨rfl, rfl, fun _ h => (not_mem_nil h).elim, fun _ _ _ _ h => by cases h⟩

variable {fs : List (F.Nonce × Bytes)}

theorem Appended.apply {l : LogFile} (h : Appended l fs) (c : AppendCall F) :
    ∃ gs, Appended (c.apply l).1 (fs ++ gs) ∧
      gs.map Prod.snd = if (c.apply l).2 then [c.payload] else [] := by
  unfold AppendCall.apply
  split
  · exact ⟨[], by rwa [append_nil], rfl⟩
  · rename_i hlen
    have hp : c.payload.length ≤ maxPayload := by omega
    cases c.fault with
    | none =>
      have happend : l.append F c.nonce c.payload = some
          { l with
            bytes := l.bytes ++ F.frame c.nonce c.payload
            junk := l.junk.drop (F.overhead + c.payload.length)
            sinceFsync := l.sinceFsync + 1 } := by
        rw [LogFile.append, if_pos h.isOpen, logAppend, if_pos hp]
        rfl
      rw [happend]
      refine ⟨[(c.nonce, c.payload)], ⟨h.isOpen, ?_, h.appendable.concat hp, by simp⟩, rfl⟩
      rw [framesBytes_concat, ← h.bytes]
      rfl
    | some k =>
      refine ⟨[], ?_, rfl⟩
      rw [append_nil]
      exact ⟨h.isOpen, h.bytes, h.appendable, fun hnil =>
        (frontOf_take_frame c.nonce hp k).overwrite (h.front hnil)⟩

theorem Appended.calls {l : LogFile} (h : Appended l fs) (cs : List (AppendCall F)) :
    ∃ gs, Appended (appendCalls l cs).1 (fs ++ gs) ∧ gs.map Prod.snd = (appendCalls l cs).2 := by
  induction cs generalizing l fs with
  | nil => exact ⟨[], by rwa [append_nil], rfl⟩
  | cons c cs ih =>
    obtain ⟨gs, hstep, hgs⟩ := h.apply c
    obtain ⟨gs', hrest, hgs'⟩ := ih hstep
    refine ⟨gs ++ gs', by rwa [← append_assoc], ?_⟩
    rw [map_append, hgs, hgs', appendCalls]
    dsimp only
    split <;> rfl

/-- The scan comes from here to its end without a whole frame: over frames with a valid header and a
damaged body, and from a damaged header to the next valid one, until no frame fits. -/
inductive Quiet (F : Framing) (b : Bytes) (e : ℕ) : ℕ → Prop
  | ends {o} (stops : Stops F b e o) : Quiet F b e o
  | passes {o n} (lt : o < e) (step : StepOf F b e o (.skip n)) (rest : Quiet F b e n) : Quiet F b e o

theorem quiet_iff {b : Bytes} {e o o' : ℕ} {ts : List (ℕ × ScanStep)} (hw : Walk F b e o ts o')
    (hs : Stops F b e o') : Quiet F b e o ↔ deliveries ts = [] := by
  constructor
  · intro hq
    induction hq generalizing ts with
    | ends stops =>
      rw [((Walk.nil _).unique stops hw hs).1.symm]
      rfl
    | passes lt step rest ih =>
      cases hw with
      | nil =>
        rcases hs with hs | hs
        · omega
        · cases hs.unique F step
      | deliver _ step' _ => cases step.unique F step'
      | skip _ step' rest' =>
        cases step.unique F step'
        have hrest := ih rest'
        exact hrest
  · intro hnil
    induction hw with
    | nil => exact .ends hs
    | deliver => cases hnil
    | skip lt step rest ih => exact .passes lt step (ih hs hnil)

theorem Quiet.logRead_eq_none {b : Bytes} {o : ℕ} (h : Quiet F b b.length o) :
    logRead F b o = none := by
  cases hread : logRead F b o with
  | none => rfl
  | some p =>
    have hroom := (headerAt_of_logRead F hread).2
    have hpos := F.overhead_pos
    have hdeliver : StepOf F b b.length o _ := .intact hread hroom
    cases h with
    | ends stops =>
      rcases stops with hend | hstop
      · omega
      · cases hdeliver.unique F hstop
    | passes lt step rest => cases hdeliver.unique F step

theorem scanPayloads_eq_iff_quiet (hfs : Appendable fs) (j : Bytes) :
    scanPayloads F (framesBytes F fs ++ j) = fs.map Prod.snd ↔
      Quiet F (framesBytes F fs ++ j) (framesBytes F fs ++ j).length (framesBytes F fs).length := by
  have hlen := length_framesBytes (F := F) fs
  have hfront := walk_frames hfs [] j (e := (framesBytes F fs ++ j).length)
    (by simp only [length_nil, length_append, Nat.zero_add]; omega)
  rw [nil_append, length_nil, Nat.zero_add, ← hlen] at hfront
  obtain ⟨ts, o, hw, hs⟩ := exists_walk (F := F) le_rfl
    (framesBytes F fs).length
  rw [quiet_iff hw hs, scanPayloads_of_walk (hfront.trans hw) hs, deliveries_append,
    deliveries_turnsOf, map_append, map_snd_placed]
  simp

def framingOf : Option Aead → Framing
  | none => plainFraming
  | some A => sealedFraming A

/-- A file that begins as the log's frames do is taken over, unless it holds a whole sealed header
without a whole frame. -/
theorem logOpen_of_frontOf {key : Option Aead} {b : Bytes} (h : FrontOf (framingOf key) b) :
    logOpen key b =
      if key.isSome → b.length < v3FrameHeader ∨ (logRead (framingOf key) b 0).isSome then .ok b
      else .error .errWrongKey := by
  unfold logOpen
  by_cases h4 : 4 ≤ b.length
  · have hmagic := h.take_eq h4
    rw [if_pos h4]
    cases key with
    | none =>
      have hplain : leNat (b.take 4) = logFrameMagic := hmagic.trans (by decide)
      rw [if_pos (fun h => by cases h)]
      simp only [hplain, ne_eq, not_true_eq_false, if_false]
      rw [if_neg (by decide)]
    | some A =>
      have hsealed : leNat (b.take 4) = logFrameMagicEnc :=
        hmagic.trans (Nat.mod_eq_of_lt (by decide : logFrameMagicEnc < 256 ^ 4))
      simp only [hsealed, ne_eq, not_true_eq_false, if_false, Option.isSome_some, true_imp_iff]
      rw [if_neg (by decide)]
      by_cases hshort : b.length < v3FrameHeader
      · have hv : verifyFirstFrame A b = true := by rw [verifyFirstFrame, if_pos hshort]
        rw [if_pos hv, if_pos (.inl hshort)]
      · rw [verifyFirstFrame_eq_isSome (not_lt.1 hshort)]
        simp only [hshort, false_or, framingOf]
  · have hshort : b.length < v3FrameHeader := lt_of_lt_of_le (not_le.1 h4) (by decide)
    rw [if_neg h4, if_pos fun _ => .inl hshort]

theorem Appended.frontOf_file {l : LogFile} (h : Appended l fs) : FrontOf F l.file := by
  rw [LogFile.file, h.bytes]
  cases fs with
  | nil => exact h.front rfl
  | cons x fs =>
    have hx := h.appendable x (mem_cons_self ..)
    intro i hi v hv
    rw [framesBytes, flatMap_cons, append_assoc, getElem?_append_left] at hv
    · rw [← take_frame x.1 hx, getElem?_take, if_pos hi, hv]
    · have := F.overhead_pos
      rw [F.length_frame]
      omega

/-- Whatever calls are made on a new log and wherever they fail, after a restart the log opens and its
scan delivers the payloads of the successful calls, in order, exactly if nothing behind their frames
reads as a frame, and a sealed log whose calls all failed does not hold a whole header. -/
theorem failed_appends_leave_no_trace_iff (key : Option Aead)
    (calls : List (AppendCall (framingOf key))) :
    (∃ b, logOpen key (appendCalls .fresh calls).1.file = .ok b ∧
      scanPayloads (framingOf key) b = (appendCalls .fresh calls).2) ↔
    Quiet (framingOf key) (appendCalls .fresh calls).1.file
        (appendCalls .fresh calls).1.file.length (appendCalls .fresh calls).1.bytes.length ∧
      (key.isSome → (appendCalls .fresh calls).2 = [] →
        (appendCalls .fresh calls).1.junk.length < v3FrameHeader) := by
  obtain ⟨fs, hfs, hps⟩ := appended_fresh.calls calls
  rw [nil_append] at hfs
  generalize appendCalls .fresh calls = r at hfs hps ⊢
  obtain ⟨l, ps⟩ := r
  dsimp only at hfs hps ⊢
  have hfile : l.file = framesBytes _ fs ++ l.junk := by rw [LogFile.file, hfs.bytes]
  have hquiet := scanPayloads_eq_iff_quiet hfs.appendable l.junk
  rw [← hfile, ← hfs.bytes, hps] at hquiet
  have hopen := logOpen_of_frontOf hfs.frontOf_file
  constructor
  · rintro ⟨b, hb, hscan⟩
    rw [hopen] at hb
    split at hb
    · rename_i hcond
      cases hb
      have hq := hquiet.1 hscan
      refine ⟨hq, fun hkey hnil => ?_⟩
      have hfs0 : fs = [] := map_eq_nil_iff.1 (hps.trans hnil)
      have hbytes : l.bytes = [] := by rw [hfs.bytes, hfs0]; rfl
      have hjunk : l.file = l.junk := by rw [LogFile.file, hbytes, nil_append]
      rcases hcond hkey with hlt | hread
      · rwa [hjunk] at hlt
      · rw [hbytes] at hq
        rw [show logRead (framingOf key) l.file 0 = none from hq.logRead_eq_none] at hread
        cases hread
    · cases hb
  · rintro ⟨hq, hcond⟩
    refine ⟨l.file, ?_, hquiet.2 hq⟩
    rw [hopen, if_pos]
    intro hkey
    cases fs with
    | nil =>
      have hjunk : l.file = l.junk := by rw [LogFile.file, hfs.bytes]; rfl
      exact .inl (hjunk ▸ hcond hkey hps.symm)
    | cons x fs =>
      right
      rw [hfile, framesBytes, flatMap_cons, append_assoc,
        logRead_frame _ _ (hfs.appendable x (mem_cons_self ..))]
      rfl

/-- A long append whose payload holds a frame fails as its last byte is to be written, then a short
one succeeds. -/
def leftoverCalls : List (AppendCall (framingOf none)) :=
  [⟨(), 0 :: 0 :: 0 :: 0 :: 0 :: (plainFraming.frame () [9] ++ [0]), some 38, by decide⟩,
    ⟨(), [2], none, by decide⟩]

/-- The scan behind the restart delivers the frame in the rest of the failed append. -/
theorem leftover_frame_delivered : (appendCalls .fresh leftoverCalls).2 = [[2]] ∧
    ∃ b, logOpen none (appendCalls .fresh leftoverCalls).1.file = .ok b ∧
      scanPayloads plainFraming b = [[2], [9]] := by
  refine ⟨by decide +kernel, _, rfl, by decide +kernel⟩

end AegisDB
