import AegisDB.Replication.Cluster
import AegisDB.Storage.Reopen

/-!
# The replica's copy of the log

The frames of the replica, together with those on their way to it, are the first frames of the
primary as long as the connection streams the primary's log (`SessionInv.arriving`). The streamer
reads behind them, and it does not read any more once the generation has changed. The generation tells
one log of the running primary from the next. It does not tell the logs of two processes apart, and
it does not tell that a crash has lost frames: the handshake can then resume on a log of which the
replica does not hold a copy.
-/

namespace AegisDB

open Bytes List Option Session
open Prod (fst snd)

variable {F : Framing}
variable {a : StoreAct F} {c : Cluster}

/-! ## First frames -/

variable {fs : List (F.Nonce × Bytes)}

theorem isPrefix_concat_of_logRead (hfs : Appendable fs) {qs : List Bytes}
    (hqs : qs <+: fs.map snd) {p : Bytes}
    (h : logRead F (framesBytes F fs) (framesSize F qs) = some p) :
    qs ++ [p] <+: fs.map snd := by
  obtain ⟨ts, hts⟩ := hqs
  obtain ⟨gs, hs, rfl, rfl, rfl⟩ := map_eq_append_iff.1 hts.symm
  rw [framesBytes_append, ← length_framesBytes] at h
  cases hs with
  | nil =>
    -- nothing can be read behind the last frame
    have hle := (headerAt_of_logRead F h).2
    have hpos := F.overhead_pos
    rw [show framesBytes F ([] : List (F.Nonce × Bytes)) = [] from rfl, append_nil] at hle
    omega
  | cons x hs =>
    have hx : x.2.length ≤ maxPayload := hfs x (by simp)
    have hread := logRead_at (F := F) (b := framesBytes F gs) (c := framesBytes F hs) (n := x.1) hx
    obtain rfl := Option.some.inj (hread.symm.trans h)
    rw [map_append, map_cons]
    exact (prefix_append_right_inj _).2 (prefix_append [x.2] _)

/-- Of two lists of first frames the one with fewer bytes is the shorter. -/
theorem isPrefix_of_framesSize_le {qs ws ps : List Bytes} (hq : qs <+: ps) (hw : ws <+: ps)
    (h : framesSize F qs ≤ framesSize F ws) : qs <+: ws := by
  rcases prefix_or_prefix_of_prefix hq hw with hle | ⟨ts, rfl⟩
  · exact hle
  · cases ts with
    | nil => exact (append_nil ws).symm ▸ prefix_rfl
    | cons t ts =>
      have := F.overhead_pos
      rw [framesSize_append, framesSize_cons] at h
      omega

/-- The offset with which an unanswered handshake asks. -/
def Streamer.asked : Streamer → Option ℕ
  | .dialled fromOff _ | .loaded fromOff _ _ => some fromOff
  | .streaming .. | .gone => none

/-- The generation the streamer has loaded. -/
def Streamer.curGen : Streamer → Option ℕ
  | .loaded _ _ curGen | .streaming curGen _ _ => some curGen
  | .dialled .. | .gone => none

/-- The frames of the replica once it has handled the answer. -/
def Session.base (ss : Session) (rs : List Bytes) : List Bytes :=
  match ss.reply with
  | some (_, true) => []
  | _ => rs

/-- A connection of a primary whose log has the payloads `ps` to a replica whose log has the payloads
`rs`. -/
structure SessionInv (F : Framing) (primary : Engine) (stale : Bool) (ps rs : List Bytes)
    (ss : Session) : Prop where
  asked : ∀ o ∈ ss.streamer.asked,
    ss.reply = none ∧ ss.channel = [] ∧ ss.following = false ∧ o = framesSize F rs
  curGen : ∀ g ∈ ss.streamer.curGen, g ≤ primary.db.generation
  fresh : ∀ g cursor size, ss.streamer = .streaming g cursor size → ss.stale = true →
    g < primary.db.generation ∨ primary.phase.indexed = false
  arriving : ss.stale = false → (ss.following = true ∨ ss.reply ≠ none) →
    ss.base rs ++ framesIn ss.channel <+: ps
  cursor : ∀ g cursor size, ss.streamer = .streaming g cursor size →
    (ss.following = true ∨ ss.reply ≠ none) ∧
      (ss.stale = false → cursor = framesSize F (ss.base rs ++ framesIn ss.channel))
  following : ss.following = true → ss.reply = none ∧ ss.stale = stale

/-- The logs hold frames, and the replica's are the first ones of the primary unless the copy is
stale. -/
structure ClusterInv (F : Framing) (c : Cluster) (fs gs : List (F.Nonce × Bytes)) : Prop where
  primary : StoreInv F c.primary fs
  replica : StoreInv F c.replica gs
  isOpen : c.replica.engine.db.log.isOpen = true
  copied : c.stale = false → gs.map snd <+: fs.map snd
  session : ∀ ss ∈ c.session,
    SessionInv F c.primary.engine c.stale (fs.map snd) (gs.map snd) ss

theorem framesIn_append (ms ns : List Msg) : framesIn (ms ++ ns) = framesIn ms ++ framesIn ns := by
  induction ms with
  | nil => rfl
  | cons m ms ih =>
    cases m with
    | frame _ p => rw [cons_append, framesIn, framesIn, ih, cons_append]
    | _ => exact ih

section

variable {primary : Engine} {stale : Bool} {fs : List (F.Nonce × Bytes)} {rs : List Bytes}
  {ss ss' : Session} {codec : UInt8} {a : ClusterAct F}

/-- A handshake resumes behind some frames. -/
def Session.resumes (primary : Engine) (ss : Session) : Bool :=
  match ss.streamer with
  | .loaded fromOff gen curGen =>
    decide (curGen = primary.db.generation ∧ gen = curGen ∧ 0 < fromOff ∧
      fromOff ≤ primary.db.log.size)
  | _ => false

theorem eq_nil_of_framesSize_eq_zero {ps : List Bytes} (h : framesSize F ps = 0) : ps = [] := by
  cases ps with
  | nil => rfl
  | cons p ps =>
    have := F.overhead_pos
    rw [framesSize_cons] at h
    omega

theorem SessionInv.answer (h : SessionInv F primary stale (fs.map snd) rs ss)
    {fromOff gen curGen : ℕ} (hs : ss.streamer = .loaded fromOff gen curGen)
    (hres : ss.resumes primary = true → rs <+: fs.map snd) :
    SessionInv F primary stale (fs.map snd) rs
      (ss.answered fromOff gen curGen primary.db.log.size primary.db.generation) := by
  obtain ⟨-, hchan, hfol, hoff⟩ := h.asked fromOff (by rw [hs]; rfl)
  have hle : curGen ≤ primary.db.generation := h.curGen curGen (by rw [hs]; rfl)
  have hbase : curGen = primary.db.generation →
      (ss.answered fromOff gen curGen primary.db.log.size primary.db.generation).base rs <+:
        fs.map snd ∧
      (if decide (gen ≠ curGen ∨ primary.db.log.size < fromOff) = true then 0 else fromOff) =
        framesSize F ((ss.answered fromOff gen curGen primary.db.log.size
          primary.db.generation).base rs) := by
    intro hgen
    by_cases hreset : gen ≠ curGen ∨ primary.db.log.size < fromOff
    · simp [answered, base, hreset]
    · obtain ⟨hg, hsz⟩ := not_or.1 hreset
      have hresume : rs <+: fs.map snd := by
        rcases Nat.eq_zero_or_pos fromOff with hzero | hpos
        · rw [eq_nil_of_framesSize_eq_zero (F := F) (hoff.symm.trans hzero)]
          exact nil_prefix
        · refine hres ?_
          rw [resumes, hs]
          exact decide_eq_true ⟨hgen, not_not.1 hg, hpos, not_lt.1 hsz⟩
      simpa [answered, base, hreset] using ⟨hresume, hoff⟩
  refine ⟨fun o ho => (by cases ho), fun g hg => ?_, fun g cursor size hstr hstale => ?_,
    fun hstale _ => ?_, fun g cursor size hstr => ⟨.inr (by simp [answered]), fun hstale => ?_⟩,
    fun hf => ?_⟩
  · cases hg
    exact hle
  · cases hstr
    have hne : curGen ≠ primary.db.generation := of_decide_eq_true hstale
    exact .inl (lt_of_le_of_ne hle hne)
  · have hgen := not_not.1 (of_decide_eq_false hstale)
    rw [show (ss.answered fromOff gen curGen primary.db.log.size primary.db.generation).channel = []
      from hchan, framesIn, append_nil]
    exact (hbase hgen).1
  · have hgen := not_not.1 (of_decide_eq_false hstale)
    rw [show (ss.answered fromOff gen curGen primary.db.log.size primary.db.generation).channel = []
      from hchan, framesIn, append_nil, ← (hbase hgen).2]
    cases hstr
    rfl
  · cases hfol.symm.trans hf

/-- A step of the streamer that sends no frame and does not move its cursor. -/
theorem SessionInv.pass {ps : List Bytes} (h : SessionInv F primary stale ps rs ss)
    {streamer : Streamer} {channel : List Msg} (hchan : framesIn channel = framesIn ss.channel)
    (hstr : streamer = .gone ∨ ∃ g cursor size size', ss.streamer = .streaming g cursor size ∧
      streamer = .streaming g cursor size') :
    SessionInv F primary stale ps rs { ss with streamer, channel } := by
  have hpass (hasked : ∀ o ∈ streamer.asked, False)
      (hgen : ∀ g ∈ streamer.curGen, g ≤ primary.db.generation)
      (hold : ∀ g cursor size', streamer = .streaming g cursor size' →
        ∃ size, ss.streamer = .streaming g cursor size) :
      SessionInv F primary stale ps rs { ss with streamer, channel } := by
    refine ⟨fun o ho => (hasked o ho).elim, hgen, fun g cursor size' hs => ?_, ?_,
      fun g cursor size' hs => ?_, h.following⟩
    · obtain ⟨size, hs⟩ := hold g cursor size' hs
      exact h.fresh g cursor size hs
    · show ss.stale = false → _ → ss.base rs ++ framesIn channel <+: ps
      rw [hchan]
      exact h.arriving
    · obtain ⟨size, hs⟩ := hold g cursor size' hs
      show _ ∧ (_ → cursor = framesSize F (ss.base rs ++ framesIn channel))
      rw [hchan]
      exact h.cursor g cursor size hs
  rcases hstr with rfl | ⟨g, cursor, size, size', hs, rfl⟩
  · exact hpass (fun o ho => by cases ho) (fun g hg => by cases hg) fun _ _ _ hs => by cases hs
  · refine hpass (fun o ho => by cases ho) (fun g' hg => ?_) fun _ _ _ hs' => ?_
    · cases hg
      exact h.curGen g (by rw [hs]; rfl)
    · cases hs'
      exact ⟨size, hs⟩

/-- A frame is sent: the one behind those that the replica holds or that are on their way. -/
theorem SessionInv.send (h : SessionInv F primary stale (fs.map snd) rs ss)
    (hfs : Appendable fs) (hbytes : primary.db.log.bytes = framesBytes F fs) {cursor size : ℕ}
    {p : Bytes} (hs : ss.streamer = .streaming primary.db.generation cursor size)
    (hread : primary.db.log.read F cursor = some p) :
    SessionInv F primary stale (fs.map snd) rs
      (ss.sent F codec primary.db.generation cursor size p) := by
  unfold Session.sent
  split
  · exact h.pass (by rw [framesIn_append]; exact append_nil _) (.inl rfl)
  · obtain ⟨hans, hcur⟩ := h.cursor _ _ _ hs
    have hframes : framesIn (ss.channel ++ [.frame cursor p]) = framesIn ss.channel ++ [p] :=
      framesIn_append _ _
    refine ⟨fun o ho => (by cases ho), fun g hg => ?_, fun g cursor' size' hstr hstale => ?_,
      fun hstale _ => ?_, fun g cursor' size' hstr => ⟨hans, fun hstale => ?_⟩, h.following⟩
    · cases hg
      exact le_rfl
    · cases hstr
      exact h.fresh _ _ _ hs hstale
    · show ss.base rs ++ framesIn (ss.channel ++ [.frame cursor p]) <+: _
      rw [hframes, ← append_assoc]
      refine isPrefix_concat_of_logRead hfs (h.arriving hstale hans) ?_
      rw [← hcur hstale, ← hbytes]
      exact (LogFile.read_eq_some.1 hread).2
    · cases hstr
      show _ = framesSize F (ss.base rs ++ framesIn (ss.channel ++ [.frame cursor p]))
      rw [hframes, ← append_assoc, framesSize_append, ← hcur hstale]
      simp [framesSize, add_assoc]

/-- Every step of the streamer keeps the invariant, if a handshake resumes behind a copy only. -/
theorem SessionInv.serve (h : SessionInv F primary stale (fs.map snd) rs ss)
    (hfs : Appendable fs) (hbytes : primary.db.log.bytes = framesBytes F fs)
    (hres : a = .answer → ss.resumes primary = true → rs <+: fs.map snd)
    (hserve : Serves F codec primary ss a ss') :
    SessionInv F primary stale (fs.map snd) rs ss' := by
  cases hserve with
  | @load fromOff gen hs =>
    have hasked := h.asked fromOff (by rw [hs]; rfl)
    refine ⟨fun o ho => ?_, fun g hg => ?_, fun _ _ _ hstr => (by cases hstr), h.arriving,
      fun _ _ _ hstr => (by cases hstr), h.following⟩
    · cases ho
      exact hasked
    · cases hg
      exact le_rfl
  | answer hs free => exact h.answer hs (hres rfl)
  | sample hs free => exact h.pass rfl (.inr ⟨_, _, _, _, hs, rfl⟩)
  | send hs lt free read => exact h.send hfs hbytes hs read
  | heartbeat hs =>
    exact h.pass (by rw [framesIn_append]; exact append_nil _) (.inr ⟨_, _, _, _, hs, hs⟩)
  | notice hs ne => exact h.pass (by rw [framesIn_append]; exact append_nil _) (.inl rfl)
  | endStream => exact h.pass rfl (.inl rfl)

end

variable {batch : ℕ}

theorem generation_of_engineStep {s s' : Engine} {a : Act F} (h : EngineStep F batch s a s') :
    s.db.generation ≤ s'.db.generation ∧
      (s.phase.indexed = false → s.db.generation < s'.db.generation ∨ s'.phase.indexed = false) ∧
      (a = .rename true → s'.phase.indexed = false) := by
  cases h with
  | write free app =>
    obtain ⟨-, -, rfl⟩ := appendAndHash_eq_some.1 app
    exact ⟨le_rfl, .inr, fun h => (by cases h)⟩
  | rename => exact ⟨le_rfl, fun _ => .inr rfl, fun _ => rfl⟩
  | rebuild => exact ⟨Nat.le_succ _, fun _ => .inl (Nat.lt_succ_self _), fun h => (by cases h)⟩
  | reopenFail => exact ⟨le_rfl, fun _ => .inr rfl, fun h => (by cases h)⟩
  | writeFail | flush | sync => exact ⟨le_rfl, .inr, fun h => (by cases h)⟩
  | _ => exact ⟨le_rfl, fun h => (by cases h), fun h => (by cases h)⟩

/-- While the process runs the generation grows; no log without its index is opened again under the
same one. -/
theorem generation_of_storeStep {s s' : Store} (h : StoreStep F batch s a s')
    (ha : ∀ k, a ≠ .restart k) :
    s.engine.db.generation ≤ s'.engine.db.generation ∧
      (s.engine.phase.indexed = false →
        s.engine.db.generation < s'.engine.db.generation ∨ s'.engine.phase.indexed = false) ∧
      (a = .engine (.rename true) → s'.engine.phase.indexed = false) := by
  cases h with
  | insert step | ack _ step | rewrite _ step =>
    obtain ⟨hle, hidx, -⟩ := generation_of_engineStep step
    exact ⟨hle, hidx, fun h => (by cases h)⟩
  | @engine a engine _ step =>
    obtain ⟨hle, hidx, hren⟩ := generation_of_engineStep step
    rw [s.afterEngine_engine a engine]
    exact ⟨hle, hidx, fun h => hren (by cases h; rfl)⟩
  | again resting =>
    refine ⟨le_rfl, fun h => ?_, fun h => (by cases h)⟩
    cases (Phase.indexed_of_resting resting).symm.trans h
  | checkpoint | saveMetadata | stream | reset => exact ⟨le_rfl, .inr, fun h => (by cases h)⟩
  | restart => exact absurd rfl (ha _)

section

variable {primary primary' : Engine} {stale : Bool} {ps ps' rs : List Bytes} {ss : Session}

section

variable (h : SessionInv F primary stale ps rs ss)

include h

theorem SessionInv.mono (hps : ps <+: ps') (hgen : primary.db.generation ≤ primary'.db.generation)
    (hidx : primary.phase.indexed = false →
      primary.db.generation < primary'.db.generation ∨ primary'.phase.indexed = false) :
    SessionInv F primary' stale ps' rs ss where
  asked := h.asked
  curGen g hg := (h.curGen g hg).trans hgen
  fresh g cursor size hs hstale := by
    rcases h.fresh g cursor size hs hstale with hlt | hind
    · exact .inl (hlt.trans_le hgen)
    · have hg : g ≤ primary.db.generation := h.curGen g (by rw [hs]; rfl)
      exact (hidx hind).imp_left hg.trans_lt
  arriving hstale hans := (h.arriving hstale hans).trans hps
  cursor := h.cursor
  following := h.following

theorem SessionInv.swap (hgen : primary.db.generation ≤ primary'.db.generation)
    (hidx : primary'.phase.indexed = false) :
    SessionInv F primary' true ps' rs (ss.outdated true) := by
  have htrue : (ss.outdated true).stale = true := Bool.or_true _
  refine ⟨h.asked, fun g hg => (h.curGen g hg).trans hgen, fun _ _ _ _ _ => .inr hidx,
    fun hstale => ?_, fun g cursor size hs => ⟨(h.cursor g cursor size hs).1, fun hstale => ?_⟩,
    fun hf => ⟨(h.following hf).1, htrue⟩⟩
  · cases htrue.symm.trans hstale
  · cases htrue.symm.trans hstale

/-- The primary restarts with some of its frames. What is on its way stays on its way. -/
theorem SessionInv.crash (hps : ps' <+: ps) {lost : Bool}
    (hlost : lost = false → framesSize F (rs ++ framesIn ss.channel) ≤ framesSize F ps') :
    SessionInv F primary' (stale || lost) ps' rs { ss.outdated lost with streamer := .gone } := by
  refine ⟨fun o ho => (by cases ho), fun g hg => (by cases hg), fun _ _ _ hs => (by cases hs),
    fun hstale hans => ?_, fun _ _ _ hs => (by cases hs), fun hf => ?_⟩
  · obtain ⟨hs, hl⟩ := Bool.or_eq_false_iff.1 hstale
    refine isPrefix_of_framesSize_le (h.arriving hs hans) hps (le_trans ?_ (hlost hl))
    rw [framesSize_append, framesSize_append]
    refine Nat.add_le_add_right ?_ _
    unfold Session.base
    split
    · exact Nat.zero_le _
    · exact le_rfl
  · obtain ⟨hreply, hs⟩ := h.following hf
    exact ⟨hreply, congrArg (· || lost) hs⟩

end

end

variable {gs : List (F.Nonce × Bytes)}

theorem StoreAct.Leaves.isPrefix (h : a.Leaves fs gs) (ha : a.isPrimary = true)
    (hren : a ≠ .engine (.rename true)) (hrestart : ∀ k, a ≠ .restart k) : fs <+: gs := by
  unfold StoreAct.Leaves at h
  split at h
  · exact h
  · exact h
  · cases ha
  · exact absurd rfl hren
  · cases ha
  · exact absurd rfl (hrestart _)
  · exact h ▸ prefix_rfl

theorem ClusterInv.primary_step (h : ClusterInv F c fs gs) {primary : Store}
    (ha : a.isPrimary = true) (hfresh : FreshRestart c.primary a)
    (hstep : StoreStep F batch c.primary a primary) :
    ∃ fs', ClusterInv F (c.afterPrimary a primary) fs' gs := by
  obtain ⟨fs', hfs', hleaves⟩ := h.primary.step hfresh hstep
  refine ⟨fs', ?_⟩
  unfold Cluster.afterPrimary
  split
  · obtain ⟨hle, -, hren⟩ := generation_of_storeStep hstep (by simp)
    refine ⟨hfs', h.replica, h.isOpen, fun hstale => (by cases hstale), fun ss hss => ?_⟩
    obtain ⟨ss₀, hss₀, rfl⟩ := Option.mem_map.1 hss
    exact (h.session ss₀ hss₀).swap hle (hren rfl)
  · rename_i k
    obtain rfl : fs' = wholeFrames F k fs := hleaves
    have hps : (wholeFrames F k fs).map snd <+: fs.map snd := (wholeFrames_initial k fs).map _
    have hsize : primary.engine.db.log.bytes.length =
        framesSize F ((wholeFrames F k fs).map snd) := by
      rw [hfs'.clean.bytes, length_framesBytes]
    have hreplica : c.replica.engine.db.log.bytes.length = framesSize F (gs.map snd) := by
      rw [h.replica.clean.bytes, length_framesBytes]
    refine ⟨hfs', h.replica, h.isOpen, fun hstale => ?_, fun ss hss => ?_⟩
    · obtain ⟨hs, hlost⟩ := Bool.or_eq_false_iff.1 hstale
      refine isPrefix_of_framesSize_le (F := F) (h.copied hs) hps ?_
      have hheld := not_lt.1 (of_decide_eq_false hlost)
      rw [hsize, Cluster.held, hreplica] at hheld
      omega
    · obtain ⟨ss₀, hss₀, rfl⟩ := Option.mem_map.1 hss
      refine (h.session ss₀ hss₀).crash hps fun hlost => ?_
      have hheld := not_lt.1 (of_decide_eq_false hlost)
      rw [hsize, Cluster.held, hreplica, mem_def.1 hss₀] at hheld
      rwa [framesSize_append]
  · rename_i hren hrestart
    obtain ⟨hle, hidx, -⟩ := generation_of_storeStep hstep fun k hk => hrestart k hk
    have hps := (hleaves.isPrefix ha (fun hk => hren hk) fun k hk => hrestart k hk).map snd
    exact ⟨hfs', h.replica, h.isOpen, fun hstale => (h.copied hstale).trans hps,
      fun ss hss => (h.session ss hss).mono hps hle hidx⟩

section

variable {primary : Engine} {stale : Bool} {ps rs : List Bytes} {ss : Session}

section

variable (h : SessionInv F primary stale ps rs ss)

include h

theorem SessionInv.greet (hreply : ss.reply ≠ none) :
    SessionInv F primary ss.stale ps (ss.base rs) { ss with reply := none, following := true } where
  asked o ho := absurd (h.asked o ho).1 hreply
  curGen := h.curGen
  fresh := h.fresh
  arriving hstale _ := h.arriving hstale (.inr hreply)
  cursor g cursor size hs := ⟨.inl rfl, (h.cursor g cursor size hs).2⟩
  following _ := ⟨rfl, rfl⟩

theorem SessionInv.base_eq (hf : ss.following = true) : ss.base rs = rs := by
  rw [base, (h.following hf).1]

theorem SessionInv.pop (hf : ss.following = true) {rs' : List Bytes} {ms : List Msg}
    (hrs : rs' ++ framesIn ms = rs ++ framesIn ss.channel) :
    SessionInv F primary stale ps rs' { ss with channel := ms } := by
  have hbase : ({ ss with channel := ms } : Session).base rs' ++ framesIn ms =
      ss.base rs ++ framesIn ss.channel := by
    rw [h.base_eq hf, ← hrs, base]
    show (match ss.reply with | some (_, true) => [] | _ => rs') ++ _ = _
    rw [(h.following hf).1]
  refine ⟨fun o ho => ?_, h.curGen, h.fresh, fun hstale hans => ?_, fun g cursor size hs =>
    ⟨(h.cursor g cursor size hs).1, fun hstale => ?_⟩, h.following⟩
  · cases (h.asked o ho).2.2.1.symm.trans hf
  · rw [hbase]
    exact h.arriving hstale hans
  · rw [hbase]
    exact (h.cursor g cursor size hs).2 hstale

end

end

theorem isOpen_append {l l' : LogFile} {n : F.Nonce} {p : Bytes} (h : l.append F n p = some l') :
    l'.isOpen = true := by
  obtain ⟨hopen, h⟩ := ite_none_right_eq_some.1 h
  obtain ⟨b, -, rfl⟩ := map_eq_some_iff.1 h
  exact hopen

theorem isOpen_of_fsync {s s' : Engine} {a : Act F} (ha : (StoreAct.engine a).isReplica = true)
    (h : EngineStep F batch s a s') :
    s'.db.log.isOpen = s.db.log.isOpen := by
  cases h with
  | flush | sync => simp
  | _ => cases ha

theorem ClusterInv.replica_step (h : ClusterInv F c fs gs) {replica : Store}
    (ha : a.isReplica = true) (hstep : StoreStep F batch c.replica a replica) :
    ClusterInv F { c with replica } fs gs := by
  have hkeep (hfresh : FreshRestart c.replica a)
      (hleaves : ∀ gs', a.Leaves gs gs' → gs' = gs)
      (hopen : replica.engine.db.log.isOpen = c.replica.engine.db.log.isOpen) :
      ClusterInv F { c with replica } fs gs := by
    obtain ⟨gs', hgs', hl⟩ := h.replica.step hfresh hstep
    obtain rfl := hleaves gs' hl
    exact ⟨h.primary, hgs', hopen.trans h.isOpen, h.copied, h.session⟩
  cases hstep with
  | @engine a engine _ step =>
    have hopen := isOpen_of_fsync ha step
    rw [← c.replica.afterEngine_engine a engine] at hopen
    refine hkeep trivial (fun gs' hl => ?_) hopen
    cases a with
    | flush | sync => exact hl
    | _ => cases ha
  | checkpoint | saveMetadata => exact hkeep trivial (fun _ => id) rfl
  | _ => cases ha

theorem ClusterInv.receive (h : ClusterInv F c fs gs) {ss : Session} {m : Msg} {ms : List Msg}
    {replica : Store} {goesOn : Bool} (hss : c.session = some ss) (hchan : ss.channel = m :: ms)
    (hf : ss.following = true) (hhandles : Handles F batch c.replica m replica goesOn) :
    ∃ gs', ClusterInv F (c.received ss m ms replica goesOn) fs gs' := by
  have hs := h.session ss hss
  cases hhandles with
  | heartbeat =>
    refine ⟨gs, h.primary, h.replica, h.isOpen, h.copied, fun ss' hss' => ?_⟩
    cases hss'
    exact hs.pop hf (by rw [hchan]; rfl)
  | incompatible | refused =>
    exact ⟨gs, h.primary, h.replica, h.isOpen, h.copied, fun ss' hss' => by cases hss'⟩
  | reset step =>
    obtain ⟨gs', hgs', hl⟩ := h.replica.step (a := .reset) trivial step
    obtain rfl : gs' = [] := hl
    cases step with
    | reset resting isOpen =>
      exact ⟨[], h.primary, hgs', isOpen, fun _ => nil_prefix, fun ss' hss' => by cases hss'⟩
  | @frame n p _ step =>
    obtain ⟨gs', hgs', hl⟩ := h.replica.step (a := .stream n p) trivial step
    obtain rfl : gs' = gs ++ [(n, p)] := hl
    have hopen : replica.engine.db.log.isOpen = true := by
      cases step with
      | stream resting append => exact isOpen_append append
    have hrs : (gs ++ [(n, p)]).map snd ++ framesIn ms = gs.map snd ++ framesIn ss.channel := by
      rw [hchan, framesIn, map_append, append_assoc]
      rfl
    refine ⟨gs ++ [(n, p)], h.primary, hgs', hopen, fun hstale => ?_, fun ss' hss' => ?_⟩
    · have harr := hs.arriving ((hs.following hf).2.trans hstale) (.inl hf)
      rw [hs.base_eq hf, ← hrs] at harr
      exact (prefix_append _ _).trans harr
    · obtain ⟨-, h⟩ := ite_none_right_eq_some.1 hss'
      cases h
      exact hs.pop hf hrs

/-! ## Runs -/

/-- A handshake resumes behind a copy only, and no restart finds a stale checkpoint that covers no
more than is left of the log. -/
def ResumesCopy (c : Cluster) (a : ClusterAct F) : Prop :=
  match a with
  | .primary a => FreshRestart c.primary a
  | .restart k => FreshRestart c.replica (.restart k : StoreAct F)
  | .answer => ∀ ss ∈ c.session, ss.resumes c.primary.engine = true → c.stale = false
  | _ => True

instance (c : Cluster) : (a : ClusterAct F) → Decidable (ResumesCopy c a)
  | .primary a => inferInstanceAs (Decidable (FreshRestart c.primary a))
  | .restart k => inferInstanceAs (Decidable (FreshRestart c.replica (.restart k : StoreAct F)))
  | .answer => inferInstanceAs (Decidable (∀ ss ∈ c.session, _ → _))
  | .replica _ | .dial | .load | .sample | .send | .heartbeat | .notice | .endStream | .greet
  | .receive _ | .hangUp => .isTrue trivial

theorem ClusterInv.step {codec : UInt8} {c' : Cluster} {a : ClusterAct F} (h : ClusterInv F c fs gs)
    (ha : ResumesCopy c a) (hstep : ClusterStep F batch codec c a c') :
    ∃ fs' gs', ClusterInv F c' fs' gs' := by
  cases hstep with
  | primary isPrimary step =>
    obtain ⟨fs', h'⟩ := h.primary_step isPrimary ha step
    exact ⟨fs', gs, h'⟩
  | replica isReplica step => exact ⟨fs, gs, h.replica_step isReplica step⟩
  | @restart k _ step =>
    obtain ⟨gs', hgs', hl⟩ := h.replica.step (a := .restart k) ha step
    obtain rfl : gs' = wholeFrames F k gs := hl
    have hmap := (wholeFrames_initial k gs).map snd
    refine ⟨fs, _, h.primary, hgs', ?_, fun hs => hmap.trans (h.copied hs), fun ss hss => by cases hss⟩
    cases step with
    | restart => rfl
  | dial =>
    refine ⟨fs, gs, h.primary, h.replica, h.isOpen, h.copied, fun ss hss => ?_⟩
    cases hss
    refine ⟨fun o ho => ⟨rfl, rfl, rfl, ?_⟩, fun g hg => (by cases hg), fun _ _ _ hs => (by cases hs),
      fun _ hans => ?_, fun _ _ _ hs => (by cases hs), fun hf => (by cases hf)⟩
    · cases ho
      rw [LogFile.size, if_pos h.isOpen, h.replica.clean.bytes, length_framesBytes]
    · rcases hans with hf | hr
      · cases hf
      · exact absurd rfl hr
  | @serve a ss ss' hss serves =>
    refine ⟨fs, gs, h.primary, h.replica, h.isOpen, h.copied, fun ss'' hss'' => ?_⟩
    cases hss''
    refine (h.session ss hss).serve h.primary.clean.appendable h.primary.clean.bytes ?_ serves
    rintro rfl hres
    exact h.copied (ha ss hss hres)
  | @keep ss gen hss reply =>
    have hs := h.session ss hss
    have hgreet := hs.greet (by simp [reply])
    rw [base, reply] at hgreet
    refine ⟨fs, gs, h.primary, h.replica, h.isOpen, fun hstale => ?_, fun ss' hss' => ?_⟩
    · exact (prefix_append _ _).trans (hgreet.arriving hstale (.inl rfl))
    · cases hss'
      exact hgreet
  | @empty ss gen _ hss reply step =>
    have hs := h.session ss hss
    have hgreet := hs.greet (by simp [reply])
    rw [base, reply] at hgreet
    obtain ⟨gs', hgs', hl⟩ := h.replica.step (a := .reset) trivial step
    obtain rfl : gs' = [] := hl
    refine ⟨fs, [], h.primary, hgs', ?_, fun _ => nil_prefix, fun ss' hss' => ?_⟩
    · cases step with
      | reset resting isOpen => exact isOpen
    · cases hss'
      exact hgreet
  | receive hss channel following handles =>
    obtain ⟨gs', h'⟩ := h.receive hss channel following handles
    exact ⟨fs, gs', h'⟩
  | hangUp => exact ⟨fs, gs, h.primary, h.replica, h.isOpen, h.copied, fun ss hss => by cases hss⟩

theorem clusterInv_fresh : ClusterInv F .fresh [] [] where
  primary := storeInv_fresh
  replica := storeInv_fresh
  isOpen := rfl
  copied _ := prefix_rfl
  session ss hss := by cases hss

/-- The replica applies frames of the running primary: the handshake is done, and the streamer
serves the primary's generation. -/
def Cluster.applying (c : Cluster) : Bool :=
  c.session.any fun ss => ss.following && c.primary.engine.db.log.isOpen &&
    ss.streamer.curGen == some c.primary.engine.db.generation

/-- The payloads of the frames that a store's log holds. -/
def Store.frames (F : Framing) (s : Store) : List Bytes := scanPayloads F s.engine.db.log.bytes

theorem StoreInv.frames_eq {s : Store} (h : StoreInv F s fs) : s.frames F = fs.map snd := by
  rw [Store.frames, h.clean.bytes, scanPayloads_framesBytes h.clean.appendable]

/-- A replica that applies the frames of the running primary does not hold a stale copy. -/
theorem ClusterInv.not_stale (h : ClusterInv F c fs gs) (happ : c.applying = true) :
    c.stale = false := by
  obtain ⟨ss, hss, happ⟩ := (Option.any_eq_true _ _).1 happ
  obtain ⟨hand, hgen⟩ := Bool.and_eq_true_iff.1 happ
  obtain ⟨hf, hopen⟩ := Bool.and_eq_true_iff.1 hand
  have hs := h.session ss hss
  rw [← (hs.following hf).2, ← Bool.not_eq_true]
  intro hstale
  have hgen := beq_iff_eq.1 hgen
  cases hstr : ss.streamer with
  | dialled | loaded => cases (hs.asked _ (by rw [hstr]; rfl)).2.2.1.symm.trans hf
  | gone => rw [hstr] at hgen; cases hgen
  | streaming g cursor size =>
    rw [hstr] at hgen
    cases hgen
    rcases hs.fresh _ _ _ hstr hstale with hlt | hind
    · exact lt_irrefl _ hlt
    · cases (h.primary.clean.closed hind).symm.trans hopen

/-- **The replica holds the first frames of the primary** in every run where handshakes resume
behind a copy of its log only, whenever it applies the frames of the running primary. -/
theorem replica_isPrefix {batch : ℕ} {codec : UInt8} {as : List (ClusterAct F)} {c : Cluster}
    (hrun : run (clusterStep F batch codec) .fresh as = some c)
    (has : Along (clusterStep F batch codec) ResumesCopy .fresh as) (happ : c.applying = true) :
    c.replica.frames F <+: c.primary.frames F := by
  obtain ⟨fs, gs, h⟩ := run_invariant (I := fun c => ∃ fs gs, ClusterInv F c fs gs)
    (fun _ _ _ ⟨_, _, h⟩ ha hstep => h.step ha (.of_eq hstep)) ⟨[], [], clusterInv_fresh⟩ has hrun
  rw [h.primary.frames_eq, h.replica.frames_eq]
  exact h.copied (h.not_stale happ)

/-- The replica connects, and handles the answer. -/
def handshake : List (ClusterAct plainFraming) := [.dial, .load, .answer, .greet]

def oneFrame : List (ClusterAct plainFraming) := [.sample, .send, .receive ()]

/-- Two inserts, of which the replica has the first; it reconnects. -/
def reconnectedCluster : List (ClusterAct plainFraming) :=
  [.primary (.insert () (.bare 0 false))] ++ handshake ++ oneFrame ++
    [.primary (.insert () (.bare 0 false)), .hangUp] ++ handshake

/-- Whether the replica applies frames, and how many frames the two logs have. -/
def Cluster.summary (c : Cluster) : Bool × ℕ × ℕ :=
  (c.applying, (c.replica.frames plainFraming).length, (c.primary.frames plainFraming).length)

set_option maxRecDepth 20000 in
theorem reconnectedCluster_replica_isPrefix :
    ∃ c, run (clusterStep plainFraming 1 4) .fresh reconnectedCluster = some c ∧
      c.summary = (true, 1, 2) ∧ c.replica.frames plainFraming <+: c.primary.frames plainFraming := by
  have hsum : (run (clusterStep plainFraming 1 4) .fresh reconnectedCluster).map Cluster.summary =
      some (true, 1, 2) := by decide +kernel
  obtain ⟨c, hc, hsum⟩ := map_eq_some_iff.1 hsum
  exact ⟨c, hc, hsum, replica_isPrefix hc (by decide +kernel) (congrArg fst hsum)⟩

/-- The replica has handled the answer, was given the primary's generation, and holds the first
frames. -/
def followsPrefix (as : List (ClusterAct plainFraming)) : Option (Bool × Bool × Bool) :=
  (run (clusterStep plainFraming 1 4) .fresh as).map fun c =>
    (c.session.any Session.following, c.applying,
      decide (c.replica.frames plainFraming <+: c.primary.frames plainFraming))

/-- A record is streamed and deleted, and the primary compacts its log. -/
def compactedCluster : List (ClusterAct plainFraming) :=
  [.primary (.insert () (.bare 0 false))] ++ handshake ++ oneFrame ++
    [.primary (.rewrite () (.bare 1 true)), .primary (.engine (.snapshot true)),
      .primary (.engine .lock), .primary (.engine (.fsyncNew true)), .primary (.engine (.close true)),
      .primary (.engine (.rename true)), .primary (.engine (.reopen true))]

/-- A record is fsynced and its tombstone is not; the replica has both. The primary restarts without
the tombstone and takes another record; the replica connects again. -/
def resumedCluster : List (ClusterAct plainFraming) :=
  [.primary (.insert () (.bare 0 false)), .primary (.ack 1 true)] ++ handshake ++ oneFrame ++
    [.primary (.rewrite () (.bare 1 true))] ++ oneFrame ++
    [.primary (.restart 79), .primary (.insert () (.bare 0 false)), .hangUp] ++ handshake

set_option maxRecDepth 20000 in
/-- Until the message of a compaction arrives the replica holds frames of the old log, as is meant.
A handshake that resumes behind frames the primary has lost is not: both generations are zero, and
the logs have the same size. -/
theorem resumedCluster_diverges :
    followsPrefix compactedCluster = some (true, false, false) ∧
      followsPrefix resumedCluster = some (true, true, false) := by
  decide +kernel

end AegisDB
