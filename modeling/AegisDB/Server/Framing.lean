import AegisDB.Foundations.Lines
import AegisDB.Foundations.Machine
import AegisDB.Server.Connection

/-!
# The lines handed to the handler

The lines handed over are the lines of the stream received (`requestLines`) as long as the
connection is open, whatever the chunks and the writes are: `Link.Consistent` is the invariant, with
one lemma for each of `conn_flush`, `conn_read` and `conn_advance`. They may fall short at the end of
the stream: `loop_main` closes a connection whose peer has closed although a response is in flight,
and the lines that wait behind it are dropped (`framing_iff_end_answered`).
-/

namespace AegisDB

open Option List Link Conn
open Bool (false_ne_true)

variable {σ : Type}
variable {keep : Bool} {reads : List ReadResult}

/-! ## The lines of a stream -/

/-- The requests of a stream: the non-empty lines before the first of more than `limit` bytes,
without the carriage return. -/
def requestLines (limit : ℕ) (stream : List UInt8) : List (List UInt8) :=
  (((terminated newline stream).takeWhile (·.length ≤ limit)).map stripCr).filter (· ≠ [])

theorem requestLines_eq_nil {limit : ℕ} {stream : List UInt8} (h : newline ∉ stream) :
    requestLines limit stream = [] := by
  simp [requestLines, terminated_eq_nil h]

theorem requestLines_flatten_append {limit : ℕ} {pieces : List (List UInt8)}
    (h : ∀ p ∈ pieces, newline ∉ p ∧ p.length ≤ limit) (rest : List UInt8) :
    requestLines limit ((pieces.map (· ++ [newline])).flatten ++ rest) =
      (pieces.map stripCr).filter (· ≠ []) ++ requestLines limit rest := by
  have hshort : ∀ p ∈ pieces, decide (p.length ≤ limit) = true := fun p hp => by simp [(h p hp).2]
  rw [requestLines, terminated_flatten_append fun p hp => (h p hp).1,
    takeWhile_append_of_pos hshort, map_append, filter_append]
  rfl

theorem requestLines_of_idxOf {limit i : ℕ} {buf : List UInt8} (h : buf.idxOf? newline = some i)
    (hi : i ≤ limit) :
    requestLines limit buf =
      [stripCr (buf.take i)].filter (· ≠ []) ++ requestLines limit (buf.drop (i + 1)) := by
  obtain ⟨hbuf, hnot⟩ := eq_append_of_idxOf h
  have hlen : (buf.take i).length ≤ limit := Nat.le_trans (length_take_le i buf) hi
  have hpiece : ∀ p ∈ [buf.take i], newline ∉ p ∧ p.length ≤ limit :=
    forall_mem_singleton.2 ⟨hnot, hlen⟩
  have hlines := requestLines_flatten_append hpiece (buf.drop (i + 1))
  rw [show ([buf.take i].map (· ++ [newline])).flatten ++ buf.drop (i + 1) = buf by
    simpa using hbuf.symm] at hlines
  exact hlines

/-- The responses to the lines handed over. -/
def Link.replies (handle : σ → List UInt8 → σ × Option (List UInt8)) (l : Link σ) :
    List (List UInt8) :=
  l.calls.filterMap fun c => (handle c.1 c.2).2

structure Link.Consistent (handle : σ → List UInt8 → σ × Option (List UInt8))
    (tooLarge : Option (List UInt8)) (limit : ℕ) (l : Link σ) : Prop where
  /-- What was received is the lines that were taken, and the buffer. -/
  taken : ∃ pieces : List (List UInt8), (∀ p ∈ pieces, newline ∉ p ∧ p.length ≤ limit) ∧
    l.received = (pieces.map (· ++ [newline])).flatten ++ l.conn.rbuf ∧
    l.handed = (pieces.map stripCr).filter (· ≠ [])
  fits : l.conn.rbuf.length ≤ l.conn.rcap ∧ l.conn.rcap ≤ limit + 1
  queued : l.queued =
    l.replies handle ++ if l.conn.closeAfterWrite then tooLarge.toList else []
  sent : l.sent ++ l.conn.pending = l.queued.flatten
  idle : l.conn.wantWrite = false → l.conn.pending = []
  rejected : l.conn.closeAfterWrite = true → newline ∉ l.conn.rbuf

section Consistent

variable {handle : σ → List UInt8 → σ × Option (List UInt8)} {tooLarge : Option (List UInt8)}
  {limit : ℕ} {l l' : Link σ}

/-- The lines that were received are those handed over and those still in the buffer. -/
theorem Link.Consistent.requestLines_received (h : l.Consistent handle tooLarge limit) :
    requestLines limit l.received = l.handed ++ requestLines limit l.conn.rbuf := by
  obtain ⟨pieces, hpieces, hreceived, hhanded⟩ := h.taken
  rw [hreceived, hhanded, requestLines_flatten_append hpieces]

theorem consistent_accepted (db : σ) : (accepted db).Consistent handle tooLarge limit where
  taken := ⟨[], by simp, rfl, rfl⟩
  fits := ⟨Nat.le_refl _, Nat.zero_le _⟩
  queued := rfl
  sent := rfl
  idle _ := rfl
  rejected h := absurd h false_ne_true

/-! ### Writing -/

/-- What is left of the writes when they have taken `n` bytes; `none` when one blocks before. -/
def takes : List WriteResult → ℕ → Option (List WriteResult)
  | ws, 0 => some ws
  | [], _ + 1 => none
  | .wrote k :: ws, n + 1 => takes ws (n + 1 - k)
  | .intr :: ws, n + 1 => takes ws (n + 1)
  | .failed :: _, _ + 1 => none

/-- The response in flight is sent to its end. -/
def Link.flushed (l : Link σ) : Link σ := (l.wrote l.conn.pending.length).drained

theorem Conn.pending_wrote (l : Link σ) (n : ℕ) :
    (l.wrote n).conn.pending = l.conn.pending.drop n := by
  simp [wrote, pending]

theorem Link.wrote_wrote (l : Link σ) (m n : ℕ) : (l.wrote m).wrote n = l.wrote (m + n) := by
  have htake : l.conn.pending.take m ++ (l.conn.pending.drop m).take n =
      l.conn.pending.take (m + n) := by rw [take_add]
  have hpending : (l.wrote m).conn.pending = l.conn.pending.drop m := pending_wrote l m
  rw [wrote, hpending]
  simp only [wrote, Nat.add_assoc, append_assoc, htake]

variable {ws ws' : List WriteResult}

/-- A flush sends the response to its end, or is stopped on the way. -/
theorem connFlush_cases (hok : .failed ∉ ws) (h : connFlush l ws = some (l', ws', keep)) :
    (takes ws l.conn.pending.length = some ws' ∧ l' = l.flushed ∧
        keep = !l.conn.closeAfterWrite) ∨
      takes ws l.conn.pending.length = none ∧ ws' = [] ∧ keep = true ∧ ∃ n, l' = l.wrote n := by
  induction ws generalizing l with
  | nil =>
    unfold connFlush at h
    split_ifs at h with hp
    · cases h
      refine .inl ⟨by rw [hp]; rfl, ?_, rfl⟩
      simp [flushed, hp, wrote]
    · cases h
      refine .inr ⟨?_, rfl, rfl, 0, by simp [wrote]⟩
      obtain ⟨b, bs, hb⟩ := exists_cons_of_ne_nil hp
      rw [hb]
      rfl
  | cons w ws ih =>
    obtain ⟨hw, hws⟩ : .failed ≠ w ∧ .failed ∉ ws := by simpa using hok
    unfold connFlush at h
    split_ifs at h with hp
    · cases h
      refine .inl ⟨by rw [hp]; rfl, ?_, rfl⟩
      simp [flushed, hp, wrote]
    · obtain ⟨m, hm⟩ := Nat.exists_eq_succ_of_ne_zero (mt length_eq_zero_iff.1 hp)
      cases w with
      | failed => exact absurd rfl hw
      | intr =>
        have htakes : takes (.intr :: ws) l.conn.pending.length = takes ws l.conn.pending.length := by
          rw [hm]
          rfl
        rw [htakes]
        exact ih hws h
      | wrote n =>
        have htakes : takes (.wrote n :: ws) l.conn.pending.length =
            takes ws (l.wrote n).conn.pending.length := by
          rw [pending_wrote, length_drop, hm]
          rfl
        rw [htakes]
        dsimp only at h
        split_ifs at h with hn
        rcases ih hws h with ⟨htake, hl', hkeep⟩ | ⟨htake, hws', hkeep, k, hl'⟩
        · refine .inl ⟨htake, ?_, hkeep⟩
          rw [hl', flushed, wrote_wrote, pending_wrote, length_drop,
            Nat.add_sub_of_le hn, flushed]
        · exact .inr ⟨htake, hws', hkeep, n + k, by rw [hl', wrote_wrote]⟩

theorem Conn.grow_fits {c : Conn} (h : c.rbuf.length ≤ c.rcap ∧ c.rcap ≤ limit + 1) :
    c.rbuf.length ≤ (c.grow limit).rcap ∧ (c.grow limit).rcap ≤ limit + 1 := by
  unfold Conn.grow
  dsimp only
  split_ifs <;> omega

section

variable (h : l.Consistent handle tooLarge limit)

include h

theorem Link.Consistent.wrote (n : ℕ) (hflight : l.conn.wantWrite = true) :
    (l.wrote n).Consistent handle tooLarge limit where
  taken := h.taken
  fits := h.fits
  queued := h.queued
  sent := by
    have hsent : l.sent ++ l.conn.pending = (l.wrote n).queued.flatten := h.sent
    rw [pending_wrote, ← hsent]
    simp [Link.wrote]
  idle hidle := absurd (hflight.symm.trans hidle) (by simp)
  rejected := h.rejected

theorem Link.Consistent.flushed : l.flushed.Consistent handle tooLarge limit where
  taken := h.taken
  fits := h.fits
  queued := h.queued
  sent := by
    change l.sent ++ l.conn.pending.take l.conn.pending.length ++ [] = l.queued.flatten
    rw [take_length, append_nil]
    exact h.sent
  idle _ := rfl
  rejected := h.rejected

theorem Link.Consistent.grow :
    ({ l with conn := l.conn.grow limit } : Link σ).Consistent handle tooLarge limit where
  taken := h.taken
  fits := grow_fits h.fits
  queued := h.queued
  sent := h.sent
  idle := h.idle
  rejected := h.rejected

theorem Link.Consistent.receive {chunk : List UInt8}
    (hroom : l.conn.rbuf.length + chunk.length ≤ l.conn.rcap)
    (hopen : l.conn.closeAfterWrite = false) :
    ({ l with
        conn := { l.conn with rbuf := l.conn.rbuf ++ chunk }
        received := l.received ++ chunk } : Link σ).Consistent handle tooLarge limit where
  taken := by
    obtain ⟨pieces, hpieces, hreceived, hhanded⟩ := h.taken
    exact ⟨pieces, hpieces, by rw [hreceived, append_assoc], hhanded⟩
  fits := ⟨by rwa [length_append], h.fits.2⟩
  queued := h.queued
  sent := h.sent
  idle := h.idle
  rejected hclose := absurd (hopen.symm.trans hclose) false_ne_true

end

/-- What `conn_read` leaves as it was. -/
structure Link.ReadFrom (l l' : Link σ) : Prop where
  wantWrite : l'.conn.wantWrite = l.conn.wantWrite
  closeAfterWrite : l'.conn.closeAfterWrite = l.conn.closeAfterWrite
  db : l'.db = l.db
  closed : l'.closed = l.closed

theorem connRead_spec {rr : ReadStatus} (h : l.Consistent handle tooLarge limit)
    (hopen : l.conn.closeAfterWrite = false) (hread : connRead limit l reads = some (l', rr)) :
    l'.Consistent handle tooLarge limit ∧ l.ReadFrom l' := by
  induction reads generalizing l with
  | nil =>
    unfold connRead at hread
    split_ifs at hread with hfull
    · cases hread
      exact ⟨h, rfl, rfl, rfl, rfl⟩
    · cases hread
      exact ⟨h.grow, rfl, rfl, rfl, rfl⟩
  | cons r reads ih =>
    unfold connRead at hread
    split_ifs at hread with hfull
    · cases hread
      exact ⟨h, rfl, rfl, rfl, rfl⟩
    · cases r with
      | got chunk =>
        dsimp only at hread
        split_ifs at hread with hchunk
        obtain ⟨hc, hfrom⟩ := ih (h.grow.receive hchunk.2 hopen) hopen hread
        exact ⟨hc, hfrom.wantWrite, hfrom.closeAfterWrite, hfrom.db, hfrom.closed⟩
      | intr =>
        obtain ⟨hc, hfrom⟩ := ih h.grow hopen hread
        exact ⟨hc, hfrom.wantWrite, hfrom.closeAfterWrite, hfrom.db, hfrom.closed⟩
      | eof | failed =>
        cases hread
        exact ⟨h.grow, rfl, rfl, rfl, rfl⟩

theorem connRead_ne_failed {rr : ReadStatus} (hok : .failed ∉ reads)
    (hread : connRead limit l reads = some (l', rr)) : rr ≠ .failed := by
  induction reads generalizing l with
  | nil =>
    unfold connRead at hread
    split_ifs at hread <;> cases hread <;> simp
  | cons r reads ih =>
    obtain ⟨hr, hreads⟩ : .failed ≠ r ∧ .failed ∉ reads := by simpa using hok
    unfold connRead at hread
    split_ifs at hread with hfull
    · cases hread
      simp
    · cases r with
      | got chunk =>
        dsimp only at hread
        split_ifs at hread
        exact ih hreads hread
      | intr => exact ih hreads hread
      | eof =>
        cases hread
        simp
      | failed => exact absurd rfl hr

/-! ### Taking lines -/

theorem Link.Consistent.taken_line (h : l.Consistent handle tooLarge limit) {i : ℕ}
    (hi : l.conn.rbuf.idxOf? newline = some i) :
    i ≤ limit ∧ ∃ pieces : List (List UInt8), (∀ p ∈ pieces, newline ∉ p ∧ p.length ≤ limit) ∧
      l.received = (pieces.map (· ++ [newline])).flatten ++ l.conn.rbuf.drop (i + 1) ∧
      (pieces.map stripCr).filter (· ≠ []) =
        l.handed ++ [stripCr (l.conn.rbuf.take i)].filter (· ≠ []) := by
  obtain ⟨pieces, hpieces, hreceived, hhanded⟩ := h.taken
  obtain ⟨hbuf, hnot⟩ := eq_append_of_idxOf hi
  -- the newline itself takes one byte of the buffer
  have hlen := congrArg List.length hbuf
  have hfits := h.fits
  rw [length_append, length_cons] at hlen
  have hlimit : (l.conn.rbuf.take i).length ≤ limit := by omega
  have hle : i ≤ limit := by
    rw [length_take] at hlimit
    rw [length_take, length_drop] at hlen
    omega
  refine ⟨hle, pieces ++ [l.conn.rbuf.take i], ?_, ?_, ?_⟩
  · intro p hp
    rcases mem_append.1 hp with hp | hp
    · exact hpieces p hp
    · rw [mem_singleton.1 hp]
      exact ⟨hnot, hlimit⟩
  · rw [hreceived]
    conv_lhs => rw [hbuf]
    simp
  · rw [map_append, filter_append, ← hhanded]
    rfl

theorem Link.Consistent.blank (h : l.Consistent handle tooLarge limit) {i : ℕ}
    (hopen : l.conn.closeAfterWrite = false) (hi : l.conn.rbuf.idxOf? newline = some i)
    (hblank : stripCr (l.conn.rbuf.take i) = []) :
    (l.consume (l.conn.rbuf.drop (i + 1))).Consistent handle tooLarge limit where
  taken := by
    obtain ⟨-, pieces, hpieces, hreceived, hhanded⟩ := h.taken_line hi
    refine ⟨pieces, hpieces, hreceived, ?_⟩
    rw [hhanded, hblank]
    exact (append_nil _).symm
  fits := ⟨Nat.le_trans (length_drop ▸ Nat.sub_le _ _) h.fits.1, h.fits.2⟩
  queued := h.queued
  sent := h.sent
  idle := h.idle
  rejected hclose := absurd (hopen.symm.trans hclose) false_ne_true

theorem Link.called (handle : σ → List UInt8 → σ × Option (List UInt8)) (l : Link σ)
    (line : List UInt8) :
    (l.call handle line).1.conn.rbuf = l.conn.rbuf ∧
      (l.call handle line).1.conn.wantWrite = l.conn.wantWrite ∧
      (l.call handle line).1.conn.closeAfterWrite = l.conn.closeAfterWrite ∧
      (l.call handle line).1.received = l.received ∧ (l.call handle line).1.closed = l.closed ∧
      handle l.db line = ((l.call handle line).1.db, (l.call handle line).2) :=
  ⟨rfl, rfl, rfl, rfl, rfl, rfl⟩

/-- The connection behind a line that is handed over, with its response in flight if it has one. -/
def Link.answered (handle : σ → List UInt8 → σ × Option (List UInt8)) (l : Link σ)
    (line rest : List UInt8) : Link σ :=
  match (l.consume rest).call handle line with
  | (l, none) => l
  | (l, some resp) => l.stage resp

theorem Link.Consistent.request (h : l.Consistent handle tooLarge limit) {i : ℕ}
    (hidle : l.conn.wantWrite = false) (hopen : l.conn.closeAfterWrite = false)
    (hi : l.conn.rbuf.idxOf? newline = some i) (hline : stripCr (l.conn.rbuf.take i) ≠ []) :
    (l.answered handle (stripCr (l.conn.rbuf.take i)) (l.conn.rbuf.drop (i + 1))).Consistent handle
      tooLarge limit := by
  obtain ⟨-, pieces, hpieces, hreceived, hhanded⟩ := h.taken_line hi
  have hfilter : [stripCr (l.conn.rbuf.take i)].filter (· ≠ []) = [stripCr (l.conn.rbuf.take i)] :=
    filter_eq_self.2 (by simpa using hline)
  rw [hfilter] at hhanded
  have hfits : (l.conn.rbuf.drop (i + 1)).length ≤ l.conn.rcap ∧ l.conn.rcap ≤ limit + 1 :=
    ⟨Nat.le_trans (length_drop ▸ Nat.sub_le _ _) h.fits.1, h.fits.2⟩
  have hqueued := h.queued
  have hsent := h.sent
  rw [hopen] at hqueued
  rw [h.idle hidle, append_nil] at hsent
  have hhanded' : ∀ c : List (σ × List UInt8), c = l.calls ++ [(l.db, stripCr (l.conn.rbuf.take i))] →
      c.map Prod.snd = (pieces.map stripCr).filter (· ≠ []) := by
    rintro c rfl
    rw [hhanded, handed, map_append]
    rfl
  unfold Link.answered call consume
  dsimp only
  cases hresp : handle l.db (stripCr (l.conn.rbuf.take i)) with
  | mk db resp =>
    cases resp with
    | none =>
      refine ⟨⟨pieces, hpieces, hreceived, hhanded' _ rfl⟩, hfits, ?_, ?_, fun _ => h.idle hidle, ?_⟩
      · simp [replies, hresp, hqueued, hopen]
      · exact h.sent
      · exact fun hclose => absurd (hopen.symm.trans hclose) false_ne_true
    | some resp =>
      refine ⟨⟨pieces, hpieces, hreceived, hhanded' _ rfl⟩, hfits, ?_, ?_, fun hidle => ?_, ?_⟩
      · simp [stage, replies, hresp, hqueued, hopen]
      · simp [stage, pending, hsent]
      · exact absurd hidle.symm false_ne_true
      · exact fun hclose => absurd (hopen.symm.trans hclose) false_ne_true

theorem Link.Consistent.reject {resp : List UInt8} (h : l.Consistent handle (some resp) limit)
    (hidle : l.conn.wantWrite = false) (hopen : l.conn.closeAfterWrite = false)
    (hline : newline ∉ l.conn.rbuf) : (l.reject resp).Consistent handle (some resp) limit := by
  have hqueued := h.queued
  have hsent := h.sent
  rw [hopen] at hqueued
  rw [h.idle hidle, append_nil] at hsent
  refine ⟨h.taken, h.fits, ?_, ?_, fun hidle => absurd hidle.symm Bool.false_ne_true, fun _ => hline⟩
  · simp [Link.reject, Link.stage, Link.replies, hqueued]
  · simp [Link.reject, Link.stage, pending, hsent]

/-- The writes take in full the response to each line but the last. -/
def Answers (handle : σ → List UInt8 → σ × Option (List UInt8)) :
    σ → List WriteResult → List (List UInt8) → Prop
  | db, ws, line :: next :: lines =>
    match handle db line with
    | (db, none) => Answers handle db ws (next :: lines)
    | (db, some resp) => ∃ ws', takes ws resp.length = some ws' ∧ Answers handle db ws' (next :: lines)
  | _, _, _ => True

/-- What `conn_advance` has done. -/
structure Link.Advanced (handle : σ → List UInt8 → σ × Option (List UInt8))
    (tooLarge : Option (List UInt8)) (limit : ℕ) (l : Link σ) (ws : List WriteResult) (l' : Link σ)
    (keep : Bool) : Prop where
  consistent : l'.Consistent handle tooLarge limit
  received : l'.received = l.received
  closed : l'.closed = l.closed
  kept : keep = true → l'.conn.wantWrite = false →
    newline ∉ l'.conn.rbuf ∧ l'.conn.closeAfterWrite = false
  dropped : keep = false → newline ∉ l'.conn.rbuf
  /-- No line is left in the buffer exactly if the responses before the last one went through. -/
  lines : l.conn.wantWrite = false → (requestLines limit l'.conn.rbuf = [] ↔
    Answers handle l.db ws (requestLines limit l.conn.rbuf))

theorem connAdvance_of_wantWrite (hflight : l.conn.wantWrite = true) (fuel : ℕ)
    (ws : List WriteResult) : connAdvance handle tooLarge limit fuel l ws = some (l, ws, true) := by
  cases fuel with
  | zero => rfl
  | succ fuel => exact if_pos hflight

theorem Link.Advanced.of_wantWrite (h : l.Consistent handle tooLarge limit)
    (hflight : l.conn.wantWrite = true) (ws : List WriteResult) :
    Advanced handle tooLarge limit l ws l true where
  consistent := h
  received := rfl
  closed := rfl
  kept _ hidle := absurd (hidle.symm.trans hflight) false_ne_true
  dropped hkeep := absurd hkeep.symm false_ne_true
  lines hidle := absurd (hidle.symm.trans hflight) false_ne_true

theorem advanced_of_not_mem {fuel : ℕ} (h : l.Consistent handle tooLarge limit)
    (hidle : l.conn.wantWrite = false) (hopen : l.conn.closeAfterWrite = false) (hok : .failed ∉ ws)
    (hline : l.conn.rbuf.idxOf? newline = none)
    (hadv : connAdvance handle tooLarge limit (fuel + 1) l ws = some (l', ws', keep)) :
    Advanced handle tooLarge limit l ws l' keep := by
  have hnot := not_mem_of_idxOf hline
  have hlines : requestLines limit l.conn.rbuf = [] := requestLines_eq_nil hnot
  have htrivial : requestLines limit l.conn.rbuf = [] ↔
      Answers handle l.db ws (requestLines limit l.conn.rbuf) := by simp [hlines, Answers]
  simp only [connAdvance, hidle, hline, Bool.false_eq_true, if_false] at hadv
  split_ifs at hadv
  · cases tooLarge with
    | none =>
      cases hadv
      exact ⟨h, rfl, rfl, fun _ _ => ⟨hnot, hopen⟩, fun _ => hnot, fun _ => htrivial⟩
    | some resp =>
      have hrej := h.reject hidle hopen hnot
      rcases connFlush_cases hok hadv with ⟨-, rfl, rfl⟩ | ⟨-, -, rfl, n, rfl⟩
      · exact ⟨hrej.flushed, rfl, rfl, fun hkeep => absurd hkeep false_ne_true, fun _ => hnot,
          fun _ => htrivial⟩
      · exact ⟨hrej.wrote n rfl, rfl, rfl, fun _ hw => absurd hw.symm false_ne_true,
          fun _ => hnot, fun _ => htrivial⟩
  · cases hadv
    exact ⟨h, rfl, rfl, fun _ _ => ⟨hnot, hopen⟩, fun _ => hnot, fun _ => htrivial⟩

theorem takes_subset {n : ℕ} (h : takes ws n = some ws') : ws' ⊆ ws := by
  induction ws generalizing n with
  | nil =>
    cases n with
    | zero =>
      cases h
      exact List.Subset.refl _
    | succ n => cases h
  | cons w ws ih =>
    cases n with
    | zero =>
      cases h
      exact List.Subset.refl _
    | succ n =>
      cases w with
      | wrote k | intr => exact fun x hx => mem_cons_of_mem _ (ih h hx)
      | failed => cases h

theorem answers_cons_none {db db' : σ} {line : List UInt8} (hresp : handle db line = (db', none))
    (lines : List (List UInt8)) :
    Answers handle db ws (line :: lines) ↔ Answers handle db' ws lines := by
  cases lines with
  | nil => simp [Answers]
  | cons next lines => rw [Answers, hresp]

theorem answers_cons_some {db db' : σ} {line resp : List UInt8}
    (hresp : handle db line = (db', some resp)) (lines : List (List UInt8)) :
    Answers handle db ws (line :: lines) ↔
      lines = [] ∨ ∃ ws', takes ws resp.length = some ws' ∧ Answers handle db' ws' lines := by
  cases lines with
  | nil => simp [Answers]
  | cons next lines =>
    rw [Answers, hresp]
    simp

instance decidableAnswers (handle : σ → List UInt8 → σ × Option (List UInt8)) :
    ∀ db ws lines, Decidable (Answers handle db ws lines)
  | _, _, [] => .isTrue trivial
  | _, _, [_] => .isTrue trivial
  | db, ws, line :: next :: lines =>
    match hresp : handle db line with
    | (db', none) =>
      haveI := decidableAnswers handle db' ws (next :: lines)
      decidable_of_iff' _ (answers_cons_none hresp (next :: lines))
    | (db', some resp) =>
      match htakes : takes ws resp.length with
      | none => .isFalse (by simp [answers_cons_some hresp, htakes])
      | some ws' =>
        haveI := decidableAnswers handle db' ws' (next :: lines)
        decidable_of_iff' (Answers handle db' ws' (next :: lines))
          (by simp [answers_cons_some hresp, htakes])

/-- A line that is handed over, and the turns of `conn_advance` behind it. -/
theorem advanced_request {fuel i : ℕ} (h : l.Consistent handle tooLarge limit)
    (hidle : l.conn.wantWrite = false) (hopen : l.conn.closeAfterWrite = false) (hok : .failed ∉ ws)
    (hi : l.conn.rbuf.idxOf? newline = some i) (hline : stripCr (l.conn.rbuf.take i) ≠ [])
    (hadv : connAdvance handle tooLarge limit (fuel + 1) l ws = some (l', ws', keep))
    (ih : ∀ (k : Link σ) (us : List WriteResult), k.Consistent handle tooLarge limit →
      (k.conn.wantWrite = false → k.conn.closeAfterWrite = false) → .failed ∉ us →
      k.conn.rbuf = l.conn.rbuf.drop (i + 1) →
      connAdvance handle tooLarge limit fuel k us = some (l', ws', keep) →
      Advanced handle tooLarge limit k us l' keep) :
    Advanced handle tooLarge limit l ws l' keep := by
  have hlines := requestLines_of_idxOf hi (h.taken_line hi).1
  rw [filter_eq_self.2 (by simpa using hline), singleton_append] at hlines
  have hreq := h.request hidle hopen hi hline
  simp only [connAdvance, hidle, hi, takeLine, hline, Bool.false_eq_true, if_false] at hadv
  unfold Link.answered at hreq
  have hcall := (l.consume (l.conn.rbuf.drop (i + 1))).called handle (stripCr (l.conn.rbuf.take i))
  generalize (l.consume (l.conn.rbuf.drop (i + 1))).call handle (stripCr (l.conn.rbuf.take i)) =
    called at hadv hreq hcall
  obtain ⟨k, resp⟩ := called
  obtain ⟨hbuf, hwant, hclose, hreceived, hclosed, hresp⟩ := hcall
  replace hbuf : k.conn.rbuf = l.conn.rbuf.drop (i + 1) := hbuf
  replace hclose : k.conn.closeAfterWrite = false := hclose.trans hopen
  replace hresp : handle l.db (stripCr (l.conn.rbuf.take i)) = (k.db, resp) := hresp
  cases resp with
  | none =>
    have hnext := ih k ws hreq (fun _ => hclose) hok hbuf hadv
    refine ⟨hnext.consistent, hnext.received.trans hreceived, hnext.closed.trans hclosed, hnext.kept,
      hnext.dropped, fun _ => ?_⟩
    rw [hlines, answers_cons_none hresp, hnext.lines (hwant.trans hidle), hbuf]
  | some resp =>
    obtain ⟨⟨l₁, ws₁, keep₁⟩, hflush, hadv⟩ := bind_eq_some_iff.1 hadv
    rcases connFlush_cases hok hflush with ⟨htakes, rfl, rfl⟩ | ⟨htakes, rfl, rfl, n, rfl⟩
    · -- the response went through, and the loop goes on
      have hgo : (!(k.stage resp).conn.closeAfterWrite) = true := congrArg not hclose
      rw [hgo] at hadv
      have hnext := ih _ ws₁ hreq.flushed (fun _ => hclose)
        (fun hf => hok (takes_subset htakes hf)) hbuf hadv
      refine ⟨hnext.consistent, hnext.received.trans hreceived, hnext.closed.trans hclosed,
        hnext.kept, hnext.dropped, fun _ => ?_⟩
      rw [hlines, answers_cons_some hresp, hnext.lines rfl, ← hbuf]
      constructor
      · exact fun hans => .inr ⟨ws₁, htakes, hans⟩
      · rintro (hnil | ⟨ws₂, htakes', hans⟩)
        · change Answers handle k.db ws₁ (requestLines limit k.conn.rbuf)
          rw [hnil]
          trivial
        · cases (show takes ws resp.length = some ws₁ from htakes).symm.trans htakes'
          exact hans
    · -- the response is in flight, and the lines behind it wait
      rw [if_pos rfl, connAdvance_of_wantWrite rfl] at hadv
      cases hadv
      have hnext := Advanced.of_wantWrite (hreq.wrote n rfl) rfl []
      refine ⟨hnext.consistent, hreceived, hclosed, hnext.kept, hnext.dropped, fun _ => ?_⟩
      have htakes : takes ws resp.length = none := htakes
      rw [hlines, answers_cons_some hresp, htakes, ← hbuf]
      exact ⟨.inl, fun hans => hans.resolve_right (by simp)⟩

theorem connAdvance_spec {fuel : ℕ} (h : l.Consistent handle tooLarge limit)
    (hopen : l.conn.wantWrite = false → l.conn.closeAfterWrite = false) (hok : .failed ∉ ws)
    (hfuel : l.conn.rbuf.length < fuel)
    (hadv : connAdvance handle tooLarge limit fuel l ws = some (l', ws', keep)) :
    Advanced handle tooLarge limit l ws l' keep := by
  induction fuel generalizing l ws with
  | zero => exact absurd hfuel (Nat.not_lt_zero _)
  | succ fuel ih =>
    cases hwant : l.conn.wantWrite with
    | true =>
      rw [connAdvance_of_wantWrite hwant] at hadv
      cases hadv
      exact .of_wantWrite h hwant _
    | false =>
      have hopen := hopen hwant
      cases hi : l.conn.rbuf.idxOf? newline with
      | none => exact advanced_of_not_mem h hwant hopen hok hi hadv
      | some i =>
        obtain ⟨hbuf, -⟩ := eq_append_of_idxOf hi
        have hlen := congrArg List.length hbuf
        rw [length_append, length_cons] at hlen
        by_cases hline : stripCr (l.conn.rbuf.take i) = []
        · have hnext := ih (h.blank hopen hi hline) (fun _ => hopen) hok
            (show (l.conn.rbuf.drop (i + 1)).length < fuel by omega) (by
              simpa only [connAdvance, hwant, hi, takeLine, hline, Bool.false_eq_true, if_false,
                if_true] using hadv)
          refine ⟨hnext.consistent, hnext.received, hnext.closed, hnext.kept, hnext.dropped,
            fun _ => ?_⟩
          have hlines := requestLines_of_idxOf hi (h.taken_line hi).1
          rw [hline] at hlines
          rw [hnext.lines hwant, hlines]
          rfl
        · refine advanced_request h hwant hopen hok hi hline hadv fun k us hk hkopen hus hkbuf hkadv => ?_
          exact ih hk hkopen hus (by rw [hkbuf]; omega) hkadv

/-! ## The lines handed over -/

/-- No read, no write and no poll fails, and the connection is not given up as idle. -/
def LinkAct.Orderly : LinkAct σ → Prop
  | .poll re reads writes => re.err = false ∧ .failed ∉ reads ∧ .failed ∉ writes
  | .reap => False
  | .elsewhere _ => True

/-- The lines handed over and those in the buffer are those of the stream, none waits when the
connection is closed or no response is in flight, and the responses are queued, and sent, in the
order of the lines. -/
structure Link.Framed (handle : σ → List UInt8 → σ × Option (List UInt8))
    (tooLarge : Option (List UInt8)) (limit : ℕ) (l : Link σ) : Prop where
  handed : l.closed = true ∨ l.conn.wantWrite = false → l.handed = requestLines limit l.received
  waiting : l.handed ++ requestLines limit l.conn.rbuf = requestLines limit l.received
  queued : l.queued = l.replies handle ++ if l.conn.closeAfterWrite then tooLarge.toList else []
  sent : l.sent ++ l.conn.pending = l.queued.flatten

/-- When the end of the stream is read, the writes take the response to each buffered line but the
last. -/
def EndAnswered (handle : σ → List UInt8 → σ × Option (List UInt8)) (limit : ℕ) (l : Link σ) :
    LinkAct σ → Prop
  | .poll re reads writes => re.pollin = true → ∀ l', connRead limit l reads = some (l', .eof) →
      Answers handle l.db writes (requestLines limit l'.conn.rbuf)
  | _ => True

instance decidableEndAnswered (handle : σ → List UInt8 → σ × Option (List UInt8)) (limit : ℕ)
    (l : Link σ) : ∀ a, Decidable (EndAnswered handle limit l a)
  | .reap => .isTrue trivial
  | .elsewhere _ => .isTrue trivial
  | .poll re reads writes =>
    match hread : connRead limit l reads with
    | none => .isTrue fun _ l' h => by simp [hread] at h
    | some (_, .more) => .isTrue fun _ l' h => by simp [hread] at h
    | some (_, .failed) => .isTrue fun _ l' h => by simp [hread] at h
    | some (l', .eof) =>
      decidable_of_iff
        (re.pollin = true → Answers handle l.db writes (requestLines limit l'.conn.rbuf))
        ⟨fun h hin m hm => by cases hread.symm.trans hm; exact h hin, fun h hin => h hin l' hread⟩

instance (a : LinkAct σ) : Decidable a.Orderly := by
  cases a <;> unfold LinkAct.Orderly <;> infer_instance

theorem Link.Consistent.framed_iff (h : l.Consistent handle tooLarge limit) :
    l.Framed handle tooLarge limit ↔
      (l.closed = true ∨ l.conn.wantWrite = false → requestLines limit l.conn.rbuf = []) := by
  have hlines := h.requestLines_received
  constructor
  · intro hframed hrest
    have hhanded := hframed.handed hrest
    rw [hlines] at hhanded
    exact self_eq_append_right.1 hhanded
  · refine fun hrest => ⟨fun hend => ?_, hlines.symm, h.queued, h.sent⟩
    rw [hlines, hrest hend, append_nil]

/-- What holds of a connection between two turns of the loop. -/
structure Link.Ready (handle : σ → List UInt8 → σ × Option (List UInt8))
    (tooLarge : Option (List UInt8)) (limit : ℕ) (l : Link σ) : Prop where
  consistent : l.Consistent handle tooLarge limit
  idle : l.closed = false → l.conn.wantWrite = false →
    newline ∉ l.conn.rbuf ∧ l.conn.closeAfterWrite = false

theorem Link.Ready.framed (h : l.Ready handle tooLarge limit) (hopen : l.closed = false) :
    l.Framed handle tooLarge limit := by
  rw [h.consistent.framed_iff]
  rintro (hclosed | hidle)
  · exact absurd (hopen.symm.trans hclosed) false_ne_true
  · exact requestLines_eq_nil (h.idle hopen hidle).1

theorem Link.Consistent.close (h : l.Consistent handle tooLarge limit) (closeit : Bool) :
    (l.close closeit).Consistent handle tooLarge limit :=
  ⟨h.taken, h.fits, h.queued, h.sent, h.idle, h.rejected⟩

theorem Link.Advanced.ready (h : l.Advanced handle tooLarge limit ws l' keep) (ended : Bool) :
    (l'.close (!keep || ended)).Ready handle tooLarge limit := by
  refine ⟨h.consistent.close _, fun hstay hidle => h.kept ?_ hidle⟩
  simp only [close, Bool.or_eq_false_iff, Bool.not_eq_false'] at hstay
  exact hstay.2.1

theorem Link.Advanced.framed (h : l.Advanced handle tooLarge limit ws l' keep)
    (hopen : l.closed = false) : (l'.close (!keep || false)).Framed handle tooLarge limit := by
  have hready := h.ready false
  cases keep with
  | true => exact hready.framed (by simp [close, h.closed, hopen])
  | false =>
    rw [hready.consistent.framed_iff]
    exact fun _ => requestLines_eq_nil (h.dropped rfl)

/-- A turn that reads: the lines handed over fall short only at the end of the stream. -/
theorem serveIn_spec {writes : List WriteResult} {closeit : Bool}
    (h : l.Ready handle tooLarge limit) (hopen : l.closed = false)
    (hidle : l.conn.wantWrite = false) (hreads : .failed ∉ reads) (hwrites : .failed ∉ writes)
    (hserve : serveIn handle tooLarge limit l reads writes = some (l', closeit)) :
    (l'.close closeit).Ready handle tooLarge limit ∧
      ((l'.close closeit).Framed handle tooLarge limit ↔
        ∀ m, connRead limit l reads = some (m, .eof) →
          Answers handle l.db writes (requestLines limit m.conn.rbuf)) := by
  obtain ⟨-, hclose⟩ := h.idle hopen hidle
  obtain ⟨⟨m, rr⟩, hread, hserve⟩ := bind_eq_some_iff.1 hserve
  obtain ⟨hm, hfrom⟩ := connRead_spec h.consistent hclose hread
  have hrr := connRead_ne_failed hreads hread
  dsimp only at hserve
  rw [if_neg hrr] at hserve
  obtain ⟨⟨k, ws, keep⟩, hadv, heq⟩ := map_eq_some_iff.1 hserve
  obtain ⟨rfl, rfl⟩ := Prod.mk.inj heq
  have hk := connAdvance_spec hm (fun _ => hfrom.closeAfterWrite.trans hclose) hwrites
    (Nat.lt_succ_self _) hadv
  have hlines := hk.lines (hfrom.wantWrite.trans hidle)
  rw [hfrom.db] at hlines
  have hready := hk.ready (decide (rr = .eof))
  refine ⟨hready, ?_⟩
  cases rr with
  | failed => exact absurd rfl hrr
  | eof =>
    rw [hready.consistent.framed_iff, hread]
    simp only [close, decide_true, Bool.or_true, true_or, forall_const]
    rw [hlines]
    constructor
    · rintro hans m' heq
      cases heq
      exact hans
    · exact fun hans => hans m rfl
  | more =>
    exact iff_of_true (hk.framed (hfrom.closed.trans hopen))
      fun m' heq => by cases hread.symm.trans heq

theorem serveOut_spec {writes : List WriteResult} {closeit : Bool}
    (h : l.Ready handle tooLarge limit) (hopen : l.closed = false)
    (hflight : l.conn.wantWrite = true) (hwrites : .failed ∉ writes)
    (hserve : serveOut handle tooLarge limit l writes = some (l', closeit)) :
    (l'.close closeit).Ready handle tooLarge limit ∧
      (l'.close closeit).Framed handle tooLarge limit := by
  obtain ⟨⟨m, ws, keep⟩, hflush, hserve⟩ := bind_eq_some_iff.1 hserve
  -- behind the flush, the lines are looked at as after a read
  have hgo : ∀ {m : Link σ}, m.Consistent handle tooLarge limit → m.closed = false →
      (m.conn.wantWrite = false → m.conn.closeAfterWrite = false) → .failed ∉ ws →
      (connAdvance handle tooLarge limit (m.conn.rbuf.length + 1) m ws).map
        (fun x => (x.1, !x.2.2)) = some (l', closeit) →
      (l'.close closeit).Ready handle tooLarge limit ∧
        (l'.close closeit).Framed handle tooLarge limit := by
    intro m hm hmopen hmclose hws hserve
    obtain ⟨⟨k, ws', keep⟩, hadv, heq⟩ := map_eq_some_iff.1 hserve
    obtain ⟨rfl, rfl⟩ := Prod.mk.inj heq
    have hk := connAdvance_spec hm hmclose hws (Nat.lt_succ_self _) hadv
    rw [← Bool.or_false (!keep)]
    exact ⟨hk.ready false, hk.framed hmopen⟩
  rcases connFlush_cases hwrites hflush with ⟨htakes, rfl, rfl⟩ | ⟨-, rfl, rfl, n, rfl⟩
  · have hm := h.consistent.flushed
    cases hclose : l.conn.closeAfterWrite with
    | true =>
      rw [hclose] at hserve
      cases hserve
      have hready : (l.flushed.close true).Ready handle tooLarge limit :=
        ⟨hm.close true, fun hstay => by simp [close] at hstay⟩
      refine ⟨hready, ?_⟩
      rw [hready.consistent.framed_iff]
      exact fun _ => requestLines_eq_nil (h.consistent.rejected hclose)
    | false =>
      rw [hclose] at hserve
      exact hgo hm hopen (fun _ => hclose) (fun hf => hwrites (takes_subset htakes hf)) hserve
  · refine hgo (h.consistent.wrote n hflight) hopen (fun hidle => ?_) (by simp) hserve
    exact absurd (hidle.symm.trans hflight) false_ne_true

theorem linkStep_spec {a : LinkAct σ} (h : l.Ready handle tooLarge limit) (hact : a.Orderly)
    (hstep : linkStep handle tooLarge limit l a = some l') :
    l'.Ready handle tooLarge limit ∧
      (l'.Framed handle tooLarge limit ↔ EndAnswered handle limit l a) := by
  cases a with
  | reap => exact absurd hact not_false
  | elsewhere db =>
    simp only [linkStep] at hstep
    split_ifs at hstep with hclosed
    cases hstep
    have hready : ({ l with db } : Link σ).Ready handle tooLarge limit :=
      ⟨⟨h.consistent.taken, h.consistent.fits, h.consistent.queued, h.consistent.sent,
        h.consistent.idle, h.consistent.rejected⟩, h.idle⟩
    exact ⟨hready, iff_of_true (hready.framed (Bool.not_eq_true _ ▸ hclosed)) trivial⟩
  | poll re reads writes =>
    obtain ⟨herr, hreads, hwrites⟩ := hact
    have hguard : ¬ (l.closed || re.pollin && l.conn.wantWrite ||
        re.pollout && !l.conn.wantWrite) = true := by
      intro hguard
      rw [linkStep, if_pos hguard] at hstep
      cases hstep
    rw [linkStep, if_neg hguard] at hstep
    simp only [Bool.or_eq_true, Bool.and_eq_true, Bool.not_eq_true', not_or, not_and,
      Bool.not_eq_true, Bool.not_eq_false] at hguard
    obtain ⟨⟨hopen, hin⟩, hout⟩ := hguard
    obtain ⟨⟨m, closeit⟩, hserve, hstep⟩ := bind_eq_some_iff.1 hstep
    obtain ⟨⟨k, closeit'⟩, hserve', rfl⟩ := map_eq_some_iff.1 hstep
    dsimp only
    rw [herr, Bool.or_false]
    by_cases hpin : re.pollin = true
    · -- a connection that is polled for reading has no response in flight
      have hidle := hin hpin
      rw [if_pos hpin] at hserve
      have hpout : re.pollout = false := by
        by_contra hpout
        exact absurd (hidle.symm.trans (hout (by simpa using hpout))) Bool.false_ne_true
      rw [hpout, Bool.and_false, if_neg Bool.false_ne_true] at hserve'
      cases hserve'
      obtain ⟨hready, hframed⟩ := serveIn_spec h hopen hidle hreads hwrites hserve
      exact ⟨hready, hframed.trans ⟨fun hans _ => hans, fun hans => hans hpin⟩⟩
    · rw [if_neg hpin] at hserve
      cases hserve
      suffices (k.close closeit').Ready handle tooLarge limit ∧
          (k.close closeit').Framed handle tooLarge limit from
        ⟨this.1, iff_of_true this.2 fun hin => absurd hin hpin⟩
      cases hpout : re.pollout with
      | true =>
        rw [hpout] at hserve'
        exact serveOut_spec h hopen (hout hpout) hwrites hserve'
      | false =>
        rw [hpout] at hserve'
        cases hserve'
        have hready : (l.close false).Ready handle tooLarge limit :=
          ⟨h.consistent.close false, fun hstay => h.idle (by simpa [Link.close] using hstay)⟩
        exact ⟨hready, hready.framed (by simp [Link.close, hopen])⟩

end Consistent

/-- **The lines handed over do not depend on the chunks**: in every run of reads, partial or blocked
writes and requests of others, the lines handed to `aegis_request_handle` are those of the stream,
and the responses stand in their order, exactly if each time the end of the stream is read the
writes take the responses to the buffered lines before the last. -/
theorem framing_iff_end_answered (handle : σ → List UInt8 → σ × Option (List UInt8))
    (tooLarge : Option (List UInt8)) (maxPayloadBytes : ℕ) (db : σ) {as : List (LinkAct σ)}
    {t : Link σ} (hact : ∀ a ∈ as, a.Orderly)
    (hrun : run (linkStep handle tooLarge (maxLine maxPayloadBytes)) (.accepted db) as = some t) :
    (∀ pre, pre <+: as → ∀ l, run (linkStep handle tooLarge (maxLine maxPayloadBytes))
        (.accepted db) pre = some l → l.Framed handle tooLarge (maxLine maxPayloadBytes)) ↔
      Along (linkStep handle tooLarge (maxLine maxPayloadBytes))
        (EndAnswered handle (maxLine maxPayloadBytes)) (.accepted db) as := by
  set limit := maxLine maxPayloadBytes
  have hready : (Link.accepted db).Ready handle tooLarge limit :=
    ⟨consistent_accepted db, fun _ _ => ⟨by simp [Link.accepted, Conn.accepted], rfl⟩⟩
  have horderly : Along (linkStep handle tooLarge limit) (fun _ a => a.Orderly) (.accepted db) as :=
    along_of_forall_mem hact _
  have hiff := forall_prefix_iff_along_of_run
    (I := fun l => l.Ready handle tooLarge limit ∧ l.Framed handle tooLarge limit)
    (fun l a l' hl ha hstep => by
      obtain ⟨hready', hframed⟩ := linkStep_spec hl.1 ha hstep
      exact ⟨fun h => hframed.1 h.2, fun h => ⟨hready', hframed.2 h⟩⟩) horderly hrun
  have hstart := hready.framed rfl
  constructor
  · intro h
    refine (hiff.1 fun pre hpre l hl => ⟨?_, h pre hpre l hl⟩).2
    refine run_invariant (fun l a l' hl ha hstep => (linkStep_spec hl ha hstep).1) hready ?_ hl
    exact along_of_forall_mem (fun a ha => hact a (hpre.subset ha)) _
  · intro h pre hpre l hl
    exact (hiff.2 ⟨⟨hready, hstart⟩, h⟩ pre hpre l hl).2

/-- A database that answers each request with its line. -/
def echo (_ : Unit) (line : List UInt8) : Unit × Option (List UInt8) := ((), some (line ++ [newline]))

def readable : Revents := ⟨true, false, false⟩

def writable : Revents := ⟨false, true, false⟩

/-- The lines `a` and `b` come in two chunks, the first response in two writes, and the end when
both are answered. -/
def twoLines : List (LinkAct Unit) :=
  [.poll readable [.got [97]] [], .poll readable [.got [10, 98, 13, 10]] [.wrote 1],
    .poll writable [] [.wrote 1, .wrote 2], .poll readable [.eof] []]

theorem twoLines_framed :
    (∀ a ∈ twoLines, a.Orderly) ∧
    (∀ pre, pre <+: twoLines → ∀ l, run (linkStep echo none (maxLine 0)) (.accepted ()) pre = some l →
      l.Framed echo none (maxLine 0)) ∧
    ∃ t, run (linkStep echo none (maxLine 0)) (.accepted ()) twoLines = some t ∧
      t.handed = [[97], [98]] ∧ t.sent = [97, 10, 98, 10] := by
  have horderly : ∀ a ∈ twoLines, a.Orderly := by decide
  have hrun : (run (linkStep echo none (maxLine 0)) (.accepted ()) twoLines).map
      (fun t => (t.handed, t.sent)) = some ([[97], [98]], [97, 10, 98, 10]) := by decide +kernel
  obtain ⟨t, ht, hseen⟩ := map_eq_some_iff.1 hrun
  obtain ⟨hhanded, hsent⟩ := Prod.mk.inj hseen
  refine ⟨horderly, ?_, t, ht, hhanded, hsent⟩
  exact (framing_iff_end_answered echo none 0 () horderly ht).2 (by decide +kernel)

/-- Both lines come with the end of the stream, and the response to the first one is blocked. -/
def cutOff : List (LinkAct Unit) := [.poll readable [.got [97, 10, 98, 10], .eof] []]

/-- The second line is not handed over. -/
theorem cutOff_drops_line :
    (∀ a ∈ cutOff, a.Orderly) ∧
    ∃ t, run (linkStep echo none (maxLine 0)) (.accepted ()) cutOff = some t ∧ t.closed = true ∧
      t.handed = [[97]] ∧ requestLines (maxLine 0) t.received = [[97], [98]] ∧
      ¬ t.Framed echo none (maxLine 0) := by
  refine ⟨by decide, ?_⟩
  have hrun : (run (linkStep echo none (maxLine 0)) (.accepted ()) cutOff).map
      (fun t => (t.closed, t.handed, requestLines (maxLine 0) t.received)) =
      some (true, [[97]], [[97], [98]]) := by decide +kernel
  obtain ⟨t, ht, hseen⟩ := map_eq_some_iff.1 hrun
  simp only [Prod.mk.injEq] at hseen
  obtain ⟨hclosed, hhanded, hlines⟩ := hseen
  refine ⟨t, ht, hclosed, hhanded, hlines, fun h => ?_⟩
  have hall := h.handed (.inl hclosed)
  rw [hhanded, hlines] at hall
  exact absurd hall (by simp)

end AegisDB
