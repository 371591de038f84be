import AegisDB.Storage.Scan

/-!
# Logs that appends have written

`framesBytes` is a log of intact frames. A scan that arrives at such a run of frames delivers all of
them (`walk_frames`), whatever stands before them, and a delivered frame stays delivered when the file
is cut behind it or extended (`Walk.of_take`).
-/

namespace AegisDB

open Bytes List Option
open Prod (fst snd)

variable {F : Framing}
variable {n : F.Nonce} {p b : Bytes} {fs : List (F.Nonce × Bytes)} {ts : List (ℕ × ScanStep)}

/-! ## A run of appends -/

/-- The frames of some payloads, one after the other. -/
def framesBytes (F : Framing) (fs : List (F.Nonce × Bytes)) : Bytes :=
  fs.flatMap fun x => F.frame x.1 x.2

/-- `log_append` of every payload in order. -/
def appendAll (F : Framing) (b : Bytes) : List (F.Nonce × Bytes) → Option Bytes
  | [] => some b
  | x :: fs => (logAppend F b x.1 x.2).bind fun b' => appendAll F b' fs

/-- Payloads `log_append` accepts. -/
def Appendable (fs : List (F.Nonce × Bytes)) : Prop := ∀ x ∈ fs, x.2.length ≤ maxPayload

theorem appendable_cons :
    Appendable ((n, p) :: fs) ↔ p.length ≤ maxPayload ∧ Appendable fs := forall_mem_cons

theorem length_append_frame (b : Bytes) (n : F.Nonce) (p : Bytes) :
    (b ++ F.frame n p).length = b.length + F.overhead + p.length := by
  rw [length_append, F.length_frame, add_assoc]

theorem appendAll_eq_some {b' : Bytes} :
    appendAll F b fs = some b' ↔ Appendable fs ∧ b' = b ++ framesBytes F fs := by
  induction fs generalizing b with
  | nil => simp [appendAll, Appendable, framesBytes, eq_comm]
  | cons x fs ih =>
    simp only [appendAll, logAppend]
    by_cases hx : x.2.length ≤ maxPayload
    · rw [if_pos hx, bind_some, ih]
      simp [Appendable, framesBytes, hx]
    · rw [if_neg hx, bind_none]
      simp [Appendable, hx]

theorem Appendable.concat (h : Appendable fs) (hp : p.length ≤ maxPayload) :
    Appendable (fs ++ [(n, p)]) := by
  intro x hx
  rcases mem_append.1 hx with hx | hx
  · exact h x hx
  · cases mem_singleton.1 hx
    exact hp

theorem framesBytes_append (fs gs : List (F.Nonce × Bytes)) :
    framesBytes F (fs ++ gs) = framesBytes F fs ++ framesBytes F gs := flatMap_append

theorem framesBytes_concat (fs : List (F.Nonce × Bytes)) (n : F.Nonce) (p : Bytes) :
    framesBytes F (fs ++ [(n, p)]) = framesBytes F fs ++ F.frame n p := by
  simp [framesBytes]

def framesSize (F : Framing) (ps : List Bytes) : ℕ := (ps.map fun p => F.overhead + p.length).sum

@[simp] theorem framesSize_nil : framesSize F [] = 0 := rfl

@[simp] theorem framesSize_cons (p : Bytes) (ps : List Bytes) :
    framesSize F (p :: ps) = F.overhead + p.length + framesSize F ps := rfl

theorem framesSize_append (ps qs : List Bytes) :
    framesSize F (ps ++ qs) = framesSize F ps + framesSize F qs := by
  simp [framesSize]

theorem length_framesBytes (fs : List (F.Nonce × Bytes)) :
    (framesBytes F fs).length = framesSize F (fs.map snd) := by
  induction fs with
  | nil => rfl
  | cons x fs ih =>
    rw [framesBytes, flatMap_cons, length_append, F.length_frame, ← framesBytes, ih]
    rfl

/-! ## Scanning a run of appends -/

/-- The offsets at which frames written from `o` on begin, with their payloads. -/
def placed (F : Framing) (o : ℕ) : List Bytes → List (ℕ × Bytes)
  | [] => []
  | p :: ps => (o, p) :: placed F (o + F.overhead + p.length) ps

theorem placed_append (o : ℕ) (ps qs : List Bytes) :
    placed F o (ps ++ qs) = placed F o ps ++ placed F (o + framesSize F ps) qs := by
  induction ps generalizing o with
  | nil => rfl
  | cons p ps ih => simp [placed, ih, add_assoc]

@[simp] theorem map_snd_placed (o : ℕ) (ps : List Bytes) : (placed F o ps).map snd = ps := by
  induction ps generalizing o with
  | nil => rfl
  | cons p ps ih => simp [placed, ih]

theorem logRead_at {c : Bytes} (h : p.length ≤ maxPayload) :
    logRead F (b ++ (F.frame n p ++ c)) b.length = some p := by
  have := logRead_append_right F b (F.frame n p ++ c) 0
  rw [add_zero] at this
  rw [this, logRead_frame F c h]

def turnsOf (F : Framing) (o : ℕ) : List Bytes → List (ℕ × ScanStep)
  | [] => []
  | p :: ps => (o, .deliver p (o + F.overhead + p.length)) :: turnsOf F (o + F.overhead + p.length) ps

@[simp] theorem deliveries_turnsOf (o : ℕ) (ps : List Bytes) :
    deliveries (turnsOf F o ps) = placed F o ps := by
  induction ps generalizing o with
  | nil => rfl
  | cons p ps ih => simp [turnsOf, deliveries, placed, ih]

theorem allDeliver_turnsOf (o : ℕ) (ps : List Bytes) : AllDeliver (turnsOf F o ps) := by
  induction ps generalizing o with
  | nil => simp [turnsOf, AllDeliver]
  | cons p ps ih =>
    intro t ht
    rcases mem_cons.1 ht with rfl | ht
    · exact ⟨p, _, rfl⟩
    · exact ih _ t ht

theorem walk_frames (hfs : Appendable fs) (b c : Bytes) {e : ℕ}
    (he : b.length + framesSize F (fs.map snd) ≤ e) :
    Walk F (b ++ (framesBytes F fs ++ c)) e b.length (turnsOf F b.length (fs.map snd))
      (b.length + framesSize F (fs.map snd)) := by
  induction fs generalizing b with
  | nil => exact .nil _
  | cons x fs ih =>
    obtain ⟨n, p⟩ := x
    obtain ⟨hp, hrest⟩ := appendable_cons.1 hfs
    simp only [map_cons, framesSize_cons] at he ⊢
    have hlen := length_append_frame b n p
    have hbytes : b ++ (F.frame n p ++ (framesBytes F fs ++ c)) =
        b ++ (framesBytes F ((n, p) :: fs) ++ c) := by
      simp [framesBytes]
    have hw := ih hrest (b ++ F.frame n p) (by omega)
    rw [append_assoc, hbytes, hlen] at hw
    have hread := logRead_at (b := b) (c := framesBytes F fs ++ c) (n := n) hp
    rw [hbytes] at hread
    have hpos := F.overhead_pos
    have hend : b.length + F.overhead + p.length + framesSize F (fs.map snd) =
        b.length + (F.overhead + p.length + framesSize F (fs.map snd)) := by omega
    rw [hend] at hw
    exact .deliver (by omega) (.intact hread (by omega)) hw

/-- A frame that can be read can be read in any file that agrees up to its end. -/
theorem logRead_of_take {c : Bytes} {o m : ℕ} (h : logRead F b o = some p)
    (hm : o + F.overhead + p.length ≤ m) (hc : b.take m = c.take m) : logRead F c o = some p := by
  obtain ⟨hh, hle⟩ := headerAt_of_logRead F h
  have hov : F.overhead = F.hdrLen + F.tagLen := rfl
  have hlen : o + F.overhead + p.length ≤ (b.take m).length := by
    rw [length_take]
    omega
  rw [← take_append_drop m b] at h hh
  rw [headerAt_append F _ (by omega)] at hh
  rw [logRead_append F _ hh hlen] at h
  rw [← take_append_drop m c, ← hc, logRead_append F _ hh hlen, h]

/-- The deliveries up to some place are those of any file that agrees up to there. -/
theorem Walk.of_take {c : Bytes} {e e' o o' m : ℕ} (hw : Walk F b e o ts o') (hd : AllDeliver ts)
    (ho : o' ≤ m) (hc : b.take m = c.take m) (he : m ≤ e') : Walk F c e' o ts o' := by
  induction hw with
  | nil => exact .nil _
  | @deliver o p n ts o' _ step rest ih =>
    have hle := rest.le
    cases step with
    | intact read room =>
      have htail : AllDeliver ts := fun t ht => hd t (mem_cons_of_mem _ ht)
      have hpos := F.overhead_pos
      exact .deliver (by omega) (.intact (logRead_of_take read (by omega) hc) (by omega))
        (ih htail ho)
  | skip =>
    obtain ⟨p, n, h⟩ := hd _ (mem_cons_self ..)
    cases h

theorem Walk.framesSize_le {e o o' : ℕ} (hw : Walk F b e o ts o') :
    o + framesSize F ((deliveries ts).map snd) ≤ o' := by
  induction hw with
  | nil => simp [deliveries]
  | deliver _ step _ ih =>
    have := step.lt_deliver
    simp only [deliveries, map_cons, framesSize_cons]
    omega
  | skip _ step _ ih =>
    have := step.lt_skip
    simp only [deliveries]
    omega

theorem StepOf.skip_le {e o n : ℕ} (h : StepOf F b e o (.skip n)) : n ≤ e := by
  cases h with
  | damaged _ room _ => exact room
  | resync _ _ next =>
    have := next.fits.lt
    omega

theorem Walk.le_end {e o o' : ℕ} (hw : Walk F b e o ts o') (ho : o ≤ e) : o' ≤ e := by
  induction hw with
  | nil => exact ho
  | deliver _ step _ ih => exact ih step.lt_deliver.2
  | skip _ step _ ih => exact ih step.skip_le

end AegisDB
