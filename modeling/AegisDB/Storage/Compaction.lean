import AegisDB.Storage.Engine

/-!
# Compaction

A compaction copies the latest frame of every live id, then every frame appended since, and swaps
the result in. The map from live ids to payloads is the same before and behind the swap because the
last frame of an id wins in both logs: an id written since the snapshot has its last frame in the
tail, any other one in the copies.

The argument is about `applyPayload`, the map of payloads a list of frames stands for. Both logs
compute it (`liveThrough_frames`), and the copies stand for the map of the snapshot (`foldl_copied`).
`InProgress` carries this through the phases of a compaction with writers in between.
-/

namespace AegisDB

open Bytes List Function Option LogFile EngineStep Phase
open Prod (fst snd)

variable {F : Framing}
variable {n : F.Nonce} {s : Engine}

section

variable {b p base : Bytes} {m : UInt64 → Option HashEntry} {fs : List (F.Nonce × Bytes)}
  {xs : List (UInt64 × HashEntry)} {ps : List Bytes} {s : Scratch} {db : Db}

/-! ## Live payloads -/

/-- The payloads that a map of entries shows in a log, tombstones left out. -/
def liveThrough (F : Framing) (b : Bytes) (m : UInt64 → Option HashEntry) (id : UInt64) :
    Option Bytes :=
  ((m id).filter fun e => !e.deleted).bind fun e => logRead F b e.offset

/-- The map from live ids to payloads that the hash index shows in a log. -/
def liveMap (F : Framing) (b : Bytes) (h : HashIndex) : UInt64 → Option Bytes :=
  fun id => (hashIndexGet h id).bind fun e => logRead F b e.offset

theorem liveMap_eq (b : Bytes) (h : HashIndex) : liveMap F b h = liveThrough F b h.lookup := rfl

/-- A frame replaces the payload of its id, and a tombstone removes it. -/
def applyPayload (m : UInt64 → Option Bytes) (p : Bytes) : UInt64 → Option Bytes :=
  match recordDecode p with
  | none => m
  | some r => update m r.id (if r.deleted then none else some p)

/-- Every live entry has its frame in the log. -/
def Intact (F : Framing) (b : Bytes) (m : UInt64 → Option HashEntry) : Prop :=
  ∀ id e, m id = some e → e.deleted = false → ∃ p, logRead F b e.offset = some p

theorem intact_empty (b : Bytes) : Intact F b fun _ => none := by
  intro id e h
  cases h

theorem logRead_extend {o : ℕ} (h : logRead F b o = some p) (c : Bytes) :
    logRead F (b ++ c) o = some p := by
  obtain ⟨hh, hle⟩ := headerAt_of_logRead F h
  rw [logRead_append F c hh hle, h]

theorem Intact.liveThrough_eq_none (h : Intact F b m) (id : UInt64) :
    liveThrough F b m id = none ↔ (m id).filter (fun e => !e.deleted) = none := by
  unfold liveThrough
  cases hm : (m id).filter (fun e => !e.deleted) with
  | none => simp
  | some e =>
    obtain ⟨hid, hdel⟩ := filter_eq_some_iff.1 hm
    obtain ⟨p, hp⟩ := h id e hid (by simpa using hdel)
    simp [hp]

theorem Intact.extend (h : Intact F b m) (c : Bytes) : Intact F (b ++ c) m := by
  intro id e hid hdel
  obtain ⟨p, hp⟩ := h id e hid hdel
  exact ⟨p, logRead_extend hp c⟩

theorem liveThrough_extend (h : Intact F b m) (c : Bytes) :
    liveThrough F (b ++ c) m = liveThrough F b m := by
  funext id
  unfold liveThrough
  cases hm : (m id).filter (fun e => !e.deleted) with
  | none => rfl
  | some e =>
    obtain ⟨hid, hdel⟩ := filter_eq_some_iff.1 hm
    obtain ⟨p, hp⟩ := h id e hid (by simpa using hdel)
    rw [bind_some, bind_some, hp, logRead_extend hp c]

/-- One appended frame, in the map of entries and in the map of payloads. -/
theorem liveThrough_applyFrame (h : Intact F b m) (n : F.Nonce) (hp : p.length ≤ maxPayload) :
    Intact F (b ++ F.frame n p) (applyFrame m (b.length, p)) ∧
      liveThrough F (b ++ F.frame n p) (applyFrame m (b.length, p)) =
        applyPayload (liveThrough F b m) p := by
  have hread : logRead F (b ++ F.frame n p) b.length = some p := by
    have := logRead_at (b := b) (c := []) (n := n) hp
    rwa [append_nil] at this
  cases hd : recordDecode p with
  | none =>
    simp only [applyFrame, applyPayload, hd]
    exact ⟨h.extend _, liveThrough_extend h _⟩
  | some r =>
    rw [applyFrame_of_decode hd]
    simp only [applyPayload, hd]
    constructor
    · intro id e hid hdel
      by_cases hr : id = r.id
      · subst hr
        rw [update_self, Option.some.injEq] at hid
        subst hid
        exact ⟨p, hread⟩
      · rw [update_of_ne hr] at hid
        exact h.extend _ id e hid hdel
    · rw [← liveThrough_extend h (F.frame n p)]
      funext id
      by_cases hr : id = r.id
      · subst hr
        cases hdel : r.deleted <;> simp [liveThrough, entryOf, hdel, hread, filter_some]
      · simp [liveThrough, update_of_ne hr]

/-- The frames appended to a log, in the map of entries and in the map of payloads. -/
theorem liveThrough_frames (hfs : Appendable fs) (h : Intact F b m) :
    Intact F (b ++ framesBytes F fs)
        ((placed F b.length (fs.map snd)).foldl applyFrame m) ∧
      liveThrough F (b ++ framesBytes F fs)
          ((placed F b.length (fs.map snd)).foldl applyFrame m) =
        (fs.map snd).foldl applyPayload (liveThrough F b m) := by
  induction fs generalizing b m with
  | nil => simpa [framesBytes, placed] using h
  | cons x fs ih =>
    obtain ⟨n, p⟩ := x
    obtain ⟨hp, hrest⟩ := appendable_cons.1 hfs
    obtain ⟨hint, hlive⟩ := liveThrough_applyFrame h n hp
    obtain ⟨hint', hlive'⟩ := ih hrest hint
    have hlen := length_append_frame b n p
    have hbytes : b ++ framesBytes F ((n, p) :: fs) = b ++ F.frame n p ++ framesBytes F fs := by
      simp [framesBytes]
    rw [hlen] at hint' hlive'
    rw [hbytes]
    refine ⟨hint', hlive'.trans ?_⟩
    rw [hlive]
    rfl

def payloadMap (ps : List Bytes) : UInt64 → Option Bytes := ps.foldl applyPayload fun _ => none

theorem payloadMap_append (ps qs : List Bytes) :
    payloadMap (ps ++ qs) = qs.foldl applyPayload (payloadMap ps) := foldl_append

theorem liveMap_framesBytes (hfs : Appendable fs) {h : HashIndex}
    (hl : h.lookup = replay (placed F 0 (fs.map snd))) :
    Intact F (framesBytes F fs) h.lookup ∧
      liveMap F (framesBytes F fs) h = payloadMap (fs.map snd) := by
  have := liveThrough_frames hfs (intact_empty [])
  rwa [nil_append, length_nil, ← replay, ← hl] at this

/-! ## The snapshot and its copies -/

/-- The frame of an entry is in the log, with the record that the entry describes. -/
def EntryOk (F : Framing) (b : Bytes) (id : UInt64) (e : HashEntry) (p : Bytes) : Prop :=
  logRead F b e.offset = some p ∧
    ∃ r, recordDecode p = some r ∧ r.id = id ∧ e = entryOf r e.offset p.length

/-- Every live entry describes the frame it points to, unless the frame is damaged beyond repair by
an append. -/
def Sound (F : Framing) (b : Bytes) (m : UInt64 → Option HashEntry) : Prop :=
  ∀ id e, m id = some e → e.deleted = false →
    (∃ p, EntryOk F b id e p) ∨ ∀ c, logRead F (b ++ c) e.offset = none

theorem EntryOk.extend {id : UInt64} {e : HashEntry} (h : EntryOk F b id e p) (c : Bytes) :
    EntryOk F (b ++ c) id e p := ⟨logRead_extend h.1 c, h.2⟩

theorem Sound.extend (h : Sound F b m) (c : Bytes) : Sound F (b ++ c) m := by
  intro id e hid hdel
  rcases h id e hid hdel with ⟨p, hp⟩ | hnone
  · exact .inl ⟨p, hp.extend c⟩
  · refine .inr fun d => ?_
    rw [append_assoc]
    exact hnone _

theorem Sound.applyFrame (h : Sound F b m) (n : F.Nonce) (hp : p.length ≤ maxPayload) :
    Sound F (b ++ F.frame n p) (applyFrame m (b.length, p)) := by
  intro id e hid hdel
  have hid : [(b.length, p)].foldl AegisDB.applyFrame m id = some e := hid
  rcases foldl_applyFrame_eq_some hid with hid | ⟨o, q, r, hmem, hr, hrid, he⟩
  · exact h.extend _ id e hid hdel
  · obtain ⟨rfl, rfl⟩ := Prod.mk.inj (mem_singleton.1 hmem)
    subst he
    have hread := logRead_at (F := F) (b := b) (c := []) (n := n) hp
    rw [append_nil] at hread
    exact .inl ⟨q, hread, r, hr, hrid, rfl⟩

theorem Sound.frames (hfs : Appendable fs) (h : Sound F b m) :
    Sound F (b ++ framesBytes F fs)
      ((placed F b.length (fs.map snd)).foldl AegisDB.applyFrame m) := by
  induction fs generalizing b m with
  | nil => simpa [framesBytes, placed] using h
  | cons x fs ih =>
    obtain ⟨n, p⟩ := x
    obtain ⟨hp, hrest⟩ := appendable_cons.1 hfs
    have := ih hrest (h.applyFrame n hp)
    rw [length_append_frame, append_assoc] at this
    exact this

/-- The entries `xs` were copied as the payloads `ps`. -/
def Copied (F : Framing) (b : Bytes) : List (UInt64 × HashEntry) → List Bytes → Prop :=
  List.Forall₂ fun x p => EntryOk F b x.1 x.2 p

theorem Copied.exists_of_mem (h : Copied F b xs ps) {x : UInt64 × HashEntry} (hx : x ∈ xs) :
    ∃ p, EntryOk F b x.1 x.2 p := by
  induction h with
  | nil => cases hx
  | cons hp _ ih =>
    rcases mem_cons.1 hx with rfl | hx
    · exact ⟨_, hp⟩
    · exact ih hx

/-- The copies of entries of different ids stand for what the entries show. -/
theorem foldl_copied (h : Copied F b xs ps) (hlive : ∀ x ∈ xs, x.2.deleted = false)
    (hnd : (xs.map fst).Nodup) (M : UInt64 → Option Bytes) :
    (∀ x ∈ xs, ps.foldl applyPayload M x.1 = logRead F b x.2.offset) ∧
      ∀ id ∉ xs.map fst, ps.foldl applyPayload M id = M id := by
  induction h generalizing M with
  | nil => simp
  | @cons x p xs ps hx _ ih =>
    obtain ⟨hread, r, hr, hid, he⟩ := hx
    rw [map_cons, nodup_cons] at hnd
    have hdel : r.deleted = false := by
      have := hlive x (by simp)
      rw [he] at this
      exact this
    have hp : applyPayload M p = update M x.1 (some p) := by
      simp [applyPayload, hr, hid, hdel]
    obtain ⟨hmem, hnot⟩ := ih (fun y hy => hlive y (mem_cons_of_mem _ hy)) hnd.2
      (applyPayload M p)
    rw [foldl_cons]
    constructor
    · intro y hy
      rcases mem_cons.1 hy with rfl | hy
      · rw [hnot _ hnd.1, hp, update_self, hread]
      · exact hmem y hy
    · intro id hne
      rw [map_cons, mem_cons, not_or] at hne
      rw [hnot id hne.2, hp, update_of_ne hne.1]

/-- The live entries of a map, each id once. -/
structure LiveOf (m : UInt64 → Option HashEntry) (xs : List (UInt64 × HashEntry)) : Prop where
  mem_iff : ∀ x, x ∈ xs ↔ m x.1 = some x.2 ∧ x.2.deleted = false
  nodup : (xs.map fst).Nodup

theorem liveOf_liveEntries (h : HashIndex) : LiveOf h.lookup (liveEntries h) where
  mem_iff := by
    rintro ⟨id, e⟩
    simp [liveEntries, HashIndex.mem_entries]
  nodup := h.nodup_keys.sublist (filter_sublist.map _)

/-- The copies of all live entries stand for the live payloads, and these are all in the log. -/
theorem LiveOf.foldl_eq (hxs : LiveOf m xs) (h : Copied F b xs ps) :
    Intact F b m ∧ payloadMap ps = liveThrough F b m := by
  obtain ⟨hmem, hnot⟩ := foldl_copied h (fun x hx => ((hxs.mem_iff x).1 hx).2) hxs.nodup
    fun _ => none
  constructor
  · intro id e hid hdel
    obtain ⟨p, hp⟩ := h.exists_of_mem ((hxs.mem_iff (id, e)).2 ⟨hid, hdel⟩)
    exact ⟨p, hp.1⟩
  · funext id
    unfold liveThrough
    cases hm : (m id).filter (fun e => !e.deleted) with
    | none =>
      refine hnot id fun hin => ?_
      obtain ⟨x, hx, rfl⟩ := List.mem_map.1 hin
      obtain ⟨hid, hdel⟩ := (hxs.mem_iff x).1 hx
      simp [hid, hdel] at hm
    | some e =>
      obtain ⟨hid, hdel⟩ := filter_eq_some_iff.1 hm
      exact hmem (id, e) ((hxs.mem_iff _).2 ⟨hid, by simpa using hdel⟩)

/-- The location of a frame of the scratch log. -/
def IsLoc (d : ℕ × Bytes) (x : UInt64 × HashEntry) : Prop :=
  ∃ r, recordDecode d.2 = some r ∧ x = (r.id, entryOf r d.1 d.2.length)

/-- The scratch log holds the frames `fs`, with their locations. -/
structure Scratch.Holds (F : Framing) (s : Scratch) (fs : List (F.Nonce × Bytes)) : Prop where
  appendable : Appendable fs
  log : s.log = framesBytes F fs
  locs : List.Forall₂ IsLoc (placed F 0 (fs.map snd)) s.locs

theorem Scratch.holds_empty : Scratch.empty.Holds F [] := ⟨by simp [Appendable], rfl, .nil⟩

theorem Scratch.Holds.push (h : s.Holds F fs) (n : F.Nonce) {r : MemoryRecord}
    (hp : p.length ≤ maxPayload) (hr : recordDecode p = some r) :
    Scratch.Holds F ⟨s.log ++ F.frame n p, s.locs ++ [(r.id, entryOf r s.log.length p.length)]⟩
      (fs ++ [(n, p)]) where
  appendable := h.appendable.concat hp
  log := by rw [framesBytes_concat, ← h.log]
  locs := by
    rw [map_append, placed_append, h.log, length_framesBytes, zero_add]
    exact rel_append h.locs (.cons ⟨r, hr, rfl⟩ .nil)

theorem lookup_hashIndexLoad_locs {ds : List (ℕ × Bytes)} (h : List.Forall₂ IsLoc ds xs)
    (ix : HashIndex) :
    (hashIndexLoad ix xs).lookup = ds.foldl applyFrame ix.lookup := by
  induction h generalizing ix with
  | nil => rfl
  | @cons d x ds xs hx _ ih =>
    obtain ⟨r, hr, rfl⟩ := hx
    rw [hashIndexLoad, foldl_cons, ← hashIndexLoad, ih, foldl_cons,
      show d = (d.1, d.2) from rfl, applyFrame_of_decode hr]
    congr 1
    funext id
    rw [lookup_hashIndexPut, update_apply]

theorem Scratch.Holds.lookup (h : s.Holds F fs) :
    (hashIndexLoad hashIndexCreate s.locs).lookup = replay (placed F 0 (fs.map snd)) := by
  rw [lookup_hashIndexLoad_locs h.locs, replay, lookup_hashIndexCreate_eq]

theorem Scratch.Holds.recovered (h : s.Holds F fs) :
    (recoveryRun F s.log none).hash.lookup = replay (placed F 0 (fs.map snd)) := by
  have hidx : ∀ c ∈ (none : Option Checkpoint), c.covered ≤ (framesBytes F fs).length →
      c.Covers F fs := by simp
  have hrec := (recoveryRun_cut h.appendable le_rfl hidx).2
  rwa [take_length, wholeFrames_eq_self (length_framesBytes fs).ge, ← h.log] at hrec

theorem Scratch.Holds.sound (h : s.Holds F fs) :
    Sound F s.log (hashIndexLoad hashIndexCreate s.locs).lookup := by
  have hnil : Sound F [] fun _ => none := by
    intro id e hid
    cases hid
  have := hnil.frames h.appendable
  rwa [nil_append, ← h.log, length_nil, ← replay, ← h.lookup] at this

/-! ## A compaction in progress -/

theorem lookup_appendAndHash {db' : Db} {r : WireRecord} (h : appendAndHash F db n r.1 = some db') :
    db.log.isOpen = true ∧ (recordBytes r.1).length ≤ maxPayload ∧
      db'.log.isOpen = true ∧ db'.log.bytes = db.log.bytes ++ F.frame n (recordBytes r.1) ∧
      db'.hash.lookup = applyFrame db.hash.lookup (db.log.bytes.length, recordBytes r.1) := by
  obtain ⟨hopen, hlen, rfl⟩ := appendAndHash_eq_some.1 h
  refine ⟨hopen, hlen, hopen, rfl, ?_⟩
  rw [applyFrame_of_decode (recordDecode_of_wireFormed r.2)]
  funext id
  rw [lookup_hashIndexPut, update_apply]
  rfl

/-- The frames `ws` were appended since the log was `base` and the index `m`. -/
structure Since (F : Framing) (base : Bytes) (m : UInt64 → Option HashEntry) (db : Db)
    (ws : List (F.Nonce × Bytes)) : Prop where
  appendable : Appendable ws
  bytes : db.log.bytes = base ++ framesBytes F ws
  lookup : db.hash.lookup = (placed F base.length (ws.map snd)).foldl applyFrame m

theorem Since.write {base : Bytes} {m : UInt64 → Option HashEntry} {db db' : Db}
    {ws : List (F.Nonce × Bytes)} (h : Since F base m db ws) {n : F.Nonce} {r : WireRecord}
    (happ : appendAndHash F db n r.1 = some db') :
    Since F base m db' (ws ++ [(n, recordBytes r.1)]) := by
  obtain ⟨-, hlen, -, hbytes, hlookup⟩ := lookup_appendAndHash happ
  refine ⟨h.appendable.concat hlen, ?_, ?_⟩
  · rw [hbytes, h.bytes, framesBytes_concat, append_assoc]
  · rw [hlookup, h.lookup, h.bytes, length_append, length_framesBytes, map_append,
      placed_append, foldl_append]
    rfl

end

/-- A compaction whose snapshot, of the live entries `xs`, was taken when the log was `base` and the
index `m`. -/
inductive InProgress (F : Framing) (base : Bytes) (m : UInt64 → Option HashEntry)
    (xs : List (UInt64 × HashEntry)) (db : Db) : Phase → Prop
  | copying {done todo snapEnd new fs ws} (split : xs = done ++ todo)
    (copied : Copied F base done (fs.map snd)) (holds : new.Holds F fs)
    (since : Since F base m db ws) (snapEnd_eq : db.log.isOpen = true → snapEnd = base.length)
    (closed : db.log.isOpen = false → ws = []) : InProgress F base m xs db (.copying todo snapEnd new)
  /-- All are, and the payloads `ps` of the tail, of which `qs` are left. -/
  | draining {tail new fs gs ws qs} (copied : Copied F base xs (fs.map snd))
    (holds : new.Holds F (fs ++ gs)) (since : Since F base m db ws)
    (split : ws.map snd = gs.map snd ++ qs)
    (tail_eq : db.log.isOpen = true → tail = base.length + framesSize F (gs.map snd))
    (closed : db.log.isOpen = false → ws = []) : InProgress F base m xs db (.draining tail new)
  | swapping {new fs gs ws} (copied : Copied F base xs (fs.map snd))
    (holds : new.Holds F (fs ++ gs)) (since : Since F base m db ws)
    (split : ws.map snd = gs.map snd) : InProgress F base m xs db (.swapping new)
  | oldClosed {new fs gs ws} (copied : Copied F base xs (fs.map snd))
    (holds : new.Holds F (fs ++ gs)) (since : Since F base m db ws)
    (split : ws.map snd = gs.map snd) : InProgress F base m xs db (.oldClosed new)

/-- The invariant of a compaction, up to the swap. -/
inductive CompactionInv (F : Framing) : Engine → Prop
  | idle {db} (sound : Sound F db.log.bytes db.hash.lookup) : CompactionInv F ⟨db, .idle⟩
  | inProgress {base m xs db phase} (sound : Sound F base m) (live : LiveOf m xs)
    (progress : InProgress F base m xs db phase) : CompactionInv F ⟨db, phase⟩
  | restoring {db} (sound : Sound F db.log.bytes db.hash.lookup) : CompactionInv F ⟨db, .restoring⟩
  | renamed {db new fs} (holds : new.Holds F fs) (file : db.log.file = new.log) :
    CompactionInv F ⟨db, .renamed new⟩
  | unlinking {db} (sound : Sound F db.log.bytes db.hash.lookup) : CompactionInv F ⟨db, .unlinking⟩
  | returned {db outcome} (sound : outcome ≠ .broken → Sound F db.log.bytes db.hash.lookup) :
    CompactionInv F ⟨db, .returned outcome⟩

section

variable {base b p : Bytes} {m : UInt64 → Option HashEntry} {xs : List (UInt64 × HashEntry)}
  {ps : List Bytes} {db : Db} {phase : Phase} {new : Scratch} {batch : ℕ} {a : Act F}

theorem InProgress.sound (hm : Sound F base m) (h : InProgress F base m xs db phase) :
    Sound F db.log.bytes db.hash.lookup := by
  have hsince {ws} (hs : Since F base m db ws) : Sound F db.log.bytes db.hash.lookup := by
    rw [hs.bytes, hs.lookup]
    exact hm.frames hs.appendable
  cases h with
  | copying _ _ _ since | draining _ _ since | swapping _ _ since | oldClosed _ _ since =>
    exact hsince since

/-- The state is sound but between a rename and the rebuild of the index. -/
theorem CompactionInv.sound (h : CompactionInv F s)
    (hren : ∀ new, s.phase ≠ .renamed new) (hbroken : s.phase ≠ .returned .broken) :
    Sound F s.db.log.bytes s.db.hash.lookup := by
  cases h with
  | idle sound | restoring sound | unlinking sound => exact sound
  | inProgress sound live progress => exact progress.sound sound
  | renamed => exact absurd rfl (hren _)
  | returned sound => exact sound fun h => hbroken (h ▸ rfl)

/-- Only the bytes of the log, its descriptor and the index matter. -/
theorem InProgress.congr {db' : Db} (h : InProgress F base m xs db phase)
    (hbytes : db'.log.bytes = db.log.bytes) (hopen : db'.log.isOpen = db.log.isOpen)
    (hhash : db'.hash = db.hash) :
    InProgress F base m xs db' phase := by
  have hsince {ws} (h : Since F base m db ws) : Since F base m db' ws :=
    ⟨h.appendable, hbytes.trans h.bytes, (congrArg HashIndex.lookup hhash).trans h.lookup⟩
  cases h with
  | copying split copied holds since snapEnd_eq closed =>
    exact .copying split copied holds (hsince since) (hopen ▸ snapEnd_eq) (hopen ▸ closed)
  | draining copied holds since split tail_eq closed =>
    exact .draining copied holds (hsince since) split (hopen ▸ tail_eq) (hopen ▸ closed)
  | swapping copied holds since split => exact .swapping copied holds (hsince since) split
  | oldClosed copied holds since split => exact .oldClosed copied holds (hsince since) split

theorem CompactionInv.congr {db' : Db} (h : CompactionInv F ⟨db, phase⟩)
    (hlocks : phase.logFree = true) (hbytes : db'.log.bytes = db.log.bytes)
    (hopen : db'.log.isOpen = db.log.isOpen) (hhash : db'.hash = db.hash) :
    CompactionInv F ⟨db', phase⟩ := by
  cases h with
  | idle sound => exact .idle (by rwa [hbytes, hhash])
  | inProgress sound live progress =>
    exact .inProgress sound live (progress.congr hbytes hopen hhash)
  | restoring | renamed => cases hlocks
  | unlinking sound => exact .unlinking (by rwa [hbytes, hhash])
  | returned sound => exact .returned (by rwa [hbytes, hhash])

theorem InProgress.copy {todo : List (UInt64 × HashEntry)} {x : UInt64 × HashEntry} {snapEnd : ℕ}
    {new' : Scratch} {ok : Bool} (sound : Sound F base m) (live : LiveOf m xs)
    (h : InProgress F base m xs db (.copying (x :: todo) snapEnd new))
    (hcopy : copyStep F db n ok x new = some new') :
    InProgress F base m xs db (.copying todo snapEnd new') := by
  simp only [copyStep, ite_none_right_eq_some, bind_eq_some_iff, Scratch.push_eq_some] at hcopy
  obtain ⟨-, p, hread, hlen, rfl⟩ := hcopy
  obtain ⟨-, hread⟩ := read_eq_some.1 hread
  cases h with
  | @copying done _ _ _ fs ws split copied holds since snapEnd_eq closed =>
    obtain ⟨hid, hdel⟩ := (live.mem_iff x).1 (by simp [split])
    rw [since.bytes] at hread
    rcases sound x.1 x.2 hid hdel with ⟨q, hq⟩ | hnone
    · obtain rfl : p = q := Option.some.inj (hread.symm.trans (logRead_extend hq.1 _))
      obtain ⟨r, hr, hrid, he⟩ := hq.2
      have hloc : (x.1, { x.2 with
          deleted := false, offset := new.log.length, length := p.length }) =
          (r.id, entryOf r new.log.length p.length) := by
        rw [he] at hdel ⊢
        rw [hrid]
        simp only [entryOf] at hdel ⊢
        rw [hdel]
      rw [hloc]
      have hcopied : Copied F base (done ++ [x]) ((fs ++ [(n, p)]).map snd) := by
        rw [map_append]
        exact rel_append copied (.cons hq .nil)
      exact .copying (by simp [split]) hcopied (holds.push n hlen hr) since snapEnd_eq closed
    · rw [hnone] at hread
      cases hread

/-- The frame that is read where the tail has not been drained yet. -/
theorem Since.read_tail {ws : List (F.Nonce × Bytes)} {qs : List Bytes} (h : Since F base m db ws)
    (split : ws.map snd = ps ++ qs) (hlt : base.length + framesSize F ps < db.log.bytes.length)
    (hread : logRead F db.log.bytes (base.length + framesSize F ps) = some p) :
    ∃ qs', qs = p :: qs' := by
  rw [h.bytes, length_append, length_framesBytes, split, framesSize_append] at hlt
  cases qs with
  | nil =>
    rw [framesSize_nil] at hlt
    omega
  | cons q qs =>
    obtain ⟨ws₁, ws', rfl, rfl, hws'⟩ := map_eq_append_iff.1 split
    obtain ⟨⟨n, q'⟩, ws₂, rfl, hq, -⟩ := map_eq_cons_iff.1 hws'
    obtain rfl : q' = q := hq
    have hq' : q'.length ≤ maxPayload := h.appendable (n, q') (by simp)
    have hbytes : db.log.bytes =
        (base ++ framesBytes F ws₁) ++ (F.frame n q' ++ framesBytes F ws₂) := by
      rw [h.bytes, framesBytes_append, append_assoc]
      rfl
    have hat := logRead_at (F := F) (b := base ++ framesBytes F ws₁) (c := framesBytes F ws₂)
      (n := n) hq'
    rw [← hbytes, length_append, length_framesBytes] at hat
    exact ⟨qs, by rw [Option.some.inj (hat.symm.trans hread)]⟩

theorem InProgress.drain {tail tail' : ℕ} {new' : Scratch} {ok : Bool}
    (h : InProgress F base m xs db (.draining tail new)) (hlt : tail < db.log.size)
    (hdrain : drainStep F db n ok tail new = some (tail', new')) :
    InProgress F base m xs db (.draining tail' new') := by
  obtain ⟨-, p, hread, r, hr, hlen, rfl, rfl⟩ := drainStep_eq_some.1 hdrain
  obtain ⟨hopen, hread⟩ := read_eq_some.1 hread
  rw [size, if_pos hopen] at hlt
  cases h with
  | @draining _ _ fs gs ws qs copied holds since split tail_eq closed =>
    have htail := tail_eq hopen
    subst htail
    obtain ⟨qs', rfl⟩ := since.read_tail split hlt hread
    have hholds := holds.push n hlen hr
    rw [append_assoc] at hholds
    have hsplit : ws.map snd = (gs ++ [(n, p)]).map snd ++ qs' := by
      rw [split, map_append, append_assoc]
      rfl
    refine .draining copied hholds since hsplit (fun _ => ?_) closed
    rw [map_append, framesSize_append]
    simp only [map_cons, map_nil, framesSize_cons, framesSize_nil]
    omega

theorem InProgress.drained {tail : ℕ} (h : InProgress F base m xs db (.draining tail new))
    (hge : db.log.size ≤ tail) :
    InProgress F base m xs db (.swapping new) := by
  cases h with
  | @draining _ _ fs gs ws qs copied holds since split tail_eq closed =>
    refine .swapping copied holds since ?_
    cases hopen : db.log.isOpen with
    | false =>
      rw [closed hopen, map_nil, eq_comm, append_eq_nil_iff] at split
      rw [closed hopen, split.1, map_nil]
    | true =>
      rw [size, if_pos hopen, tail_eq hopen, since.bytes, length_append,
        length_framesBytes, split, framesSize_append] at hge
      cases qs with
      | nil => rw [split, append_nil]
      | cons q qs =>
        rw [framesSize_cons] at hge
        have := F.overhead_pos
        omega

theorem Phase.logFree_of_indexFree (h : phase.indexFree = true) : phase.logFree = true := by
  cases phase <;> first | rfl | cases h

@[simp] theorem LogFile.bytes_logFsync (l : LogFile) (ok : Bool) :
    (l.logFsync ok).1.bytes = l.bytes := by
  unfold logFsync
  split <;> (try split) <;> rfl

@[simp] theorem LogFile.isOpen_logFsync (l : LogFile) (ok : Bool) :
    (l.logFsync ok).1.isOpen = l.isOpen := by
  unfold logFsync
  split <;> (try split) <;> rfl

@[simp] theorem LogFile.bytes_logFsyncIfBatched (batch : ℕ) (l : LogFile) (ok : Bool) :
    (l.logFsyncIfBatched batch ok).1.bytes = l.bytes := by
  unfold logFsyncIfBatched
  split <;> simp

@[simp] theorem LogFile.isOpen_logFsyncIfBatched (batch : ℕ) (l : LogFile) (ok : Bool) :
    (l.logFsyncIfBatched batch ok).1.isOpen = l.isOpen := by
  unfold logFsyncIfBatched
  split <;> simp

theorem CompactionInv.step {s s' : Engine} (hs : CompactionInv F s) (h : EngineStep F batch s a s')
    : CompactionInv F s' := by
  cases h with
  | @write db db' phase n r free app =>
    obtain ⟨hopen, hlen, hopen', hbytes, hlookup⟩ := lookup_appendAndHash app
    have hwrite (sound : Sound F db.log.bytes db.hash.lookup) :
        Sound F db'.log.bytes db'.hash.lookup := by
      rw [hbytes, hlookup]
      exact sound.applyFrame n hlen
    cases hs with
    | idle sound => exact .idle (hwrite sound)
    | inProgress sound live progress =>
      cases progress with
      | copying split copied holds since snapEnd_eq closed =>
        refine .inProgress sound live (.copying split copied holds (since.write app) ?_ ?_)
        · exact fun _ => snapEnd_eq hopen
        · intro hclosed
          cases hclosed.symm.trans hopen'
      | draining | swapping | oldClosed => cases free
    | restoring | renamed | unlinking => cases free
    | returned sound => exact .returned fun h => hwrite (sound h)
  | writeFail free => exact hs.congr (logFree_of_indexFree free) rfl rfl rfl
  | flush free | sync free => exact hs.congr free (by simp) (by simp) rfl
  | @snapshot db =>
    cases hs with
    | idle sound =>
      have hsince : Since F db.log.bytes db.hash.lookup db [] :=
        ⟨by simp [Appendable], by simp [framesBytes], rfl⟩
      have hcopied : Copied F db.log.bytes [] (([] : List (F.Nonce × Bytes)).map snd) := .nil
      refine .inProgress sound (liveOf_liveEntries db.hash)
        (.copying (nil_append _).symm hcopied Scratch.holds_empty hsince ?_ fun _ => rfl)
      intro hopen
      rw [size, if_pos hopen]
    | inProgress _ _ progress => cases progress
  | copy copied =>
    cases hs with
    | inProgress sound live progress => exact .inProgress sound live (progress.copy sound live copied)
  | @lock db snapEnd new =>
    cases hs with
    | inProgress sound live progress =>
      cases progress with
      | @copying done _ _ _ fs ws split copied holds since snapEnd_eq closed =>
        rw [append_nil] at split
        subst split
        have hholds : new.Holds F (fs ++ []) := by rwa [append_nil]
        exact .inProgress sound live (.draining copied hholds since (nil_append _).symm
          (by simpa using snapEnd_eq) closed)
  | drain lt drained =>
    cases hs with
    | inProgress sound live progress => exact .inProgress sound live (progress.drain lt drained)
  | fsyncNew ge =>
    cases hs with
    | inProgress sound live progress => exact .inProgress sound live (progress.drained ge)
  | close =>
    cases hs with
    | inProgress sound live progress =>
      cases progress with
      | swapping copied holds since split =>
        exact .inProgress sound live (.oldClosed copied holds
          ⟨since.appendable, since.bytes, since.lookup⟩ split)
  | rename =>
    cases hs with
    | inProgress sound live progress =>
      cases progress with
      | oldClosed copied holds since split => exact .renamed holds (by simp [file])
  | rebuild =>
    cases hs with
    | inProgress _ _ progress => cases progress
    | renamed holds file =>
      refine .unlinking ?_
      simp only [LogFile.logOpen, file]
      exact holds.sound
  | renameFail => exact .restoring (hs.sound (by simp) (by simp))
  | @restore db =>
    have := (hs.sound (by simp) (by simp)).extend db.log.junk
    exact .returned fun _ => this
  | reopenFail => exact .returned fun h => absurd rfl h
  | _ => exact .returned fun _ => hs.sound (by simp) (by simp)

theorem Copied.exists_of_mem_right (h : Copied F b xs ps) (hp : p ∈ ps) :
    ∃ x ∈ xs, EntryOk F b x.1 x.2 p := by
  induction h with
  | nil => cases hp
  | @cons x _ _ _ hx _ ih =>
    rcases mem_cons.1 hp with rfl | hp
    · exact ⟨x, mem_cons_self .., hx⟩
    · obtain ⟨y, hy, h⟩ := ih hp
      exact ⟨y, mem_cons_of_mem _ hy, h⟩

/-- The new log is complete: it has the live payloads that the index shows in the old log, and ids
the index knows. -/
theorem InProgress.complete (live : LiveOf m xs) (h : InProgress F base m xs db (.oldClosed new)) :
    Intact F db.log.bytes db.hash.lookup ∧
      ∃ fs, new.Holds F fs ∧ payloadMap (fs.map snd) = liveMap F db.log.bytes db.hash ∧
        ∀ id ∈ idsOf fs, (db.hash.lookup id).isSome = true := by
  cases h with
  | @oldClosed _ fs gs ws copied holds since split =>
    obtain ⟨hint, hcopies⟩ := live.foldl_eq copied
    obtain ⟨hold, hlive⟩ := liveThrough_frames since.appendable hint
    rw [← since.bytes, ← since.lookup] at hold hlive
    refine ⟨hold, fs ++ gs, holds, ?_, ?_⟩
    · rw [map_append, payloadMap_append, hcopies, ← split, ← hlive, liveMap_eq]
    · rintro id ⟨y, hy, r, hr, rfl⟩
      rw [since.lookup]
      rcases mem_append.1 hy with hy | hy
      · obtain ⟨x, hx, -, r', hr', hid, -⟩ := copied.exists_of_mem_right (List.mem_map_of_mem hy)
        obtain rfl := Option.some.inj (hr.symm.trans hr')
        refine isSome_foldl_applyFrame (.inl ?_)
        rw [hid, ((live.mem_iff x).1 hx).1]
        rfl
      · have hmem : y.2 ∈ ws.map snd := split ▸ List.mem_map_of_mem hy
        obtain ⟨i, hi⟩ := exists_mem_placed hmem base.length
        exact isSome_foldl_applyFrame (.inr ⟨_, hi, r, hr, rfl⟩)

/-- The new log and the rebuilt index show the live payloads of the old ones, and so does a scan of
the new log. -/
theorem InProgress.liveMap_eq (live : LiveOf m xs) (h : InProgress F base m xs db (.oldClosed new))
    {h' : HashIndex}
    (hh : h' = hashIndexLoad hashIndexCreate new.locs ∨ h' = (recoveryRun F new.log none).hash) :
    liveMap F new.log h' = liveMap F db.log.bytes db.hash ∧
      ∀ id, hashIndexGet h' id = none ↔ hashIndexGet db.hash id = none := by
  obtain ⟨hold, fs, holds, hlive, -⟩ := h.complete live
  have hlookup : h'.lookup = replay (placed F 0 (fs.map snd)) := by
    rcases hh with rfl | rfl
    · exact holds.lookup
    · exact holds.recovered
  obtain ⟨hnew, hlive'⟩ := liveMap_framesBytes holds.appendable hlookup
  rw [← holds.log, hlive] at hlive'
  rw [← holds.log] at hnew
  refine ⟨hlive', fun id => ?_⟩
  rw [hashIndexGet, ← hnew.liveThrough_eq_none, ← AegisDB.liveMap_eq, hlive', AegisDB.liveMap_eq,
    hold.liveThrough_eq_none, ← hashIndexGet]

def Act.isWriter : Act F → Bool
  | .write .. | .writeFail _ | .flush _ | .sync _ => true
  | _ => false

/-- The compaction has not returned, and the log has its old name. -/
def Phase.beforeSwap : Phase → Bool
  | .renamed _ | .unlinking | .returned _ => false
  | _ => true

/-- A writer's step does not look at the compaction beyond its locks. -/
theorem engineStep_writer {s' : Engine} (ha : a.isWriter = true)
    (h : engineStep F batch ⟨db, phase⟩ a = some s') :
    ∃ db', s' = ⟨db', phase⟩ ∧ phase.logFree = true ∧
      engineStep F batch ⟨db, .idle⟩ a = some ⟨db', .idle⟩ := by
  cases of_eq h with
  | write free app =>
    exact ⟨_, rfl, logFree_of_indexFree free, by simp [engineStep, indexFree, app]⟩
  | writeFail free isOpen =>
    exact ⟨_, rfl, logFree_of_indexFree free, by simp [engineStep, indexFree, isOpen]⟩
  | flush free | sync free => exact ⟨_, rfl, free, by simp [engineStep, logFree]⟩
  | _ => cases ha

end

/-- What the compaction has done to the writers' database `w`: nothing, or it has closed the log. -/
inductive Untouched (w : Db) : Engine → Prop
  | free {phase} (before : phase.beforeSwap = true) (free : phase.logFree = true) :
    Untouched w ⟨w, phase⟩
  | locked {phase ok} (before : phase.beforeSwap = true) (locked : phase.logFree = false) :
    Untouched w ⟨{ w with log := w.log.logClose ok }, phase⟩

variable {new : Scratch} {batch : ℕ} {a : Act F}

theorem Untouched.file_eq {w : Db} (h : Untouched w s) :
    s.db.log.file = w.log.file ∧ s.db.hash = w.hash := by
  cases h with
  | free | locked => exact ⟨rfl, rfl⟩

/-- A step before the swap is a step of the writers alone, or does not touch what they see. -/
theorem Untouched.step {w : Db} {s s' : Engine} (hs : Untouched w s)
    (h : engineStep F batch s a = some s') (hphase : s'.phase.beforeSwap = true) :
    ∃ w', Untouched w' s' ∧
      run (engineStep F batch) ⟨w, .idle⟩ ([a].filter Act.isWriter) = some ⟨w', .idle⟩ := by
  cases ha : a.isWriter with
  | true =>
    rw [filter_cons_of_pos ha, filter_nil]
    cases hs with
    | free before free =>
      obtain ⟨db', rfl, -, hidle⟩ := engineStep_writer ha h
      exact ⟨db', .free before free, run_cons_eq_some.2 ⟨_, hidle, rfl⟩⟩
    | locked before locked =>
      obtain ⟨db', -, hfree, -⟩ := engineStep_writer ha h
      cases locked.symm.trans hfree
  | false =>
    rw [filter_cons_of_neg (by simp [ha]), filter_nil]
    refine ⟨w, ?_, rfl⟩
    cases of_eq h with
    | write | writeFail | flush | sync => cases ha
    | snapshot | copy | lock | drain | fsyncNew =>
      cases hs with
      | free => exact .free rfl rfl
      | locked _ locked => cases locked
    | close =>
      cases hs with
      | free => exact .locked rfl rfl
      | locked _ locked => cases locked
    | renameFail =>
      cases hs with
      | free _ free => cases free
      | locked => exact .locked rfl rfl
    | _ => cases hphase

theorem beforeSwap_of_step {s' : Engine} (h : engineStep F batch s a = some s')
    (hphase : s'.phase.beforeSwap = true) :
    s.phase.beforeSwap = true := by
  cases of_eq h with
  | write | writeFail | flush | sync => exact hphase
  | snapshot | copy | lock | drain | fsyncNew | close | renameFail => rfl
  | _ => cases hphase

/-- Before the swap the database is what the writers alone would have made of it. -/
theorem exists_untouched {as : List (Act F)}
    (hrun : run (engineStep F batch) ⟨db, .idle⟩ as = some s) (hphase : s.phase.beforeSwap = true) :
    ∃ w, Untouched w s ∧
      run (engineStep F batch) ⟨db, .idle⟩ (as.filter Act.isWriter) = some ⟨w, .idle⟩ := by
  induction as using reverseRecOn generalizing s with
  | nil =>
    cases hrun
    exact ⟨db, .free rfl rfl, rfl⟩
  | append_singleton as a ih =>
    obtain ⟨t, hrun, hstep⟩ := run_concat_eq_some.1 hrun
    obtain ⟨w, hw, hwrun⟩ := ih hrun (beforeSwap_of_step hstep hphase)
    obtain ⟨w', hw', hwrun'⟩ := hw.step hstep hphase
    refine ⟨w', hw', ?_⟩
    rw [filter_append, run_append, hwrun]
    exact hwrun'

/-- Behind the rename the log is the scratch log, and the index is rebuilt with it once the log is
open. -/
inductive Swapped (new : Scratch) : Engine → Prop
  | renamed {db} (bytes : db.log.bytes = new.log) (junk : db.log.junk = []) :
    Swapped new ⟨db, .renamed new⟩
  | unlinking {db} (bytes : db.log.bytes = new.log)
    (hash : db.hash = hashIndexLoad hashIndexCreate new.locs) : Swapped new ⟨db, .unlinking⟩
  | returned {db outcome} : Swapped new ⟨db, .returned outcome⟩

theorem Swapped.step {s s' : Engine} (hs : Swapped new s) (h : engineStep F batch s a = some s') :
    Swapped new s' := by
  cases hs with
  | renamed bytes junk =>
    cases of_eq h with
    | write free | writeFail free | flush free | sync free => cases free
    | rebuild => exact .unlinking (by simp [LogFile.logOpen, file, bytes, junk]) rfl
    | reopenFail => exact .returned
  | unlinking bytes hash =>
    cases of_eq h with
    | write free | writeFail free => cases free
    | flush | sync => exact .unlinking (by simpa using bytes) hash
    | unlink => exact .returned
  | returned =>
    cases of_eq h with
    | write | writeFail | flush | sync => exact .returned

/-- **Compaction preserves the live map.** In any interleaving of one compaction with writers, and
with any failures:

* if the rename succeeds and the compaction goes on to return zero, then the rebuilt index shows the
  live payloads that the old one showed just before the rename, a scan of the new log shows them too,
  and neither brings an id back that was not live;
* if the compaction fails at or before the rename, then the file and the index are those of the
  writers alone. -/
theorem compaction_preserves_liveMap {batch : ℕ} {db : Db}
    (hsound : Sound F db.log.bytes db.hash.lookup) {as : List (Act F)} {s : Engine}
    (hrun : run (engineStep F batch) ⟨db, .idle⟩ as = some s) :
    (∀ bs t, run (engineStep F batch) s (.rename true :: bs ++ [.unlink]) = some t →
      liveMap F t.db.log.bytes t.db.hash = liveMap F s.db.log.bytes s.db.hash ∧
      liveMap F t.db.log.bytes (recoveryRun F t.db.log.bytes none).hash =
        liveMap F s.db.log.bytes s.db.hash ∧
      ∀ id, hashIndexGet s.db.hash id = none → hashIndexGet t.db.hash id = none ∧
        hashIndexGet (recoveryRun F t.db.log.bytes none).hash id = none) ∧
    ∀ a t, engineStep F batch s a = some t → s.phase.beforeSwap = true →
      t.phase = .returned .failed →
      ∃ w, run (engineStep F batch) ⟨db, .idle⟩ (as.filter Act.isWriter) = some ⟨w, .idle⟩ ∧
        t.db.log.file = w.log.file ∧ t.db.hash = w.hash := by
  constructor
  · intro bs t hrun'
    have hinv : CompactionInv F s := run_invariant_of_step
      (fun s a s' hs h => hs.step (.of_eq h)) (.idle hsound) hrun
    obtain ⟨u, hrun', hunlink⟩ := run_concat_eq_some.1 hrun'
    obtain ⟨v, hren, hrest⟩ := run_cons_eq_some.1 hrun'
    cases EngineStep.of_eq hren with
    | @rename sdb new =>
      cases hinv with
      | inProgress sound live progress =>
        have hswap : Swapped new u := run_invariant_of_step (fun s a s' hs h => hs.step h)
          (.renamed rfl rfl) hrest
        cases EngineStep.of_eq hunlink with
        | unlink =>
          cases hswap with
          | unlinking bytes hash =>
            obtain ⟨hmap, hget⟩ := progress.liveMap_eq live (.inl hash)
            obtain ⟨hmap', hget'⟩ := progress.liveMap_eq live (.inr rfl)
            dsimp only
            rw [bytes]
            exact ⟨hmap, hmap', fun id hid => ⟨(hget id).2 hid, (hget' id).2 hid⟩⟩
  · intro a t hstep hphase hfail
    obtain ⟨w, hw, hwrun⟩ := exists_untouched hrun hphase
    obtain ⟨hfile, hhash⟩ := hw.file_eq
    refine ⟨w, hwrun, ?_⟩
    rw [← hfile, ← hhash]
    cases EngineStep.of_eq hstep with
    | write | writeFail | flush | sync =>
      rw [show _ = Phase.returned .failed from hfail] at hphase
      cases hphase
    | snapshotFail | copyFail | drainFail | fsyncNewFail | restoreFail => exact ⟨rfl, rfl⟩
    | restore => exact ⟨by simp [LogFile.logOpen, file], rfl⟩
    | snapshot | copy | lock | drain | fsyncNew | close | rename | renameFail | rebuild | reopenFail
    | unlink => cases hfail

/-- Two records, of which the second is deleted while the first is copied. -/
def racedCompaction : List (Act plainFraming) :=
  [.write () (.bare 1 false), .write () (.bare 2 false), .snapshot true, .copy () true,
    .write () (.bare 2 true), .copy () true, .lock, .drain () true, .fsyncNew true, .close true]

def emptyDb : Db := ⟨⟨[], [], 0, 0, true⟩, hashIndexCreate, 0⟩

theorem emptyDb_sound : Sound plainFraming emptyDb.log.bytes emptyDb.hash.lookup := by
  intro id e hid
  rw [emptyDb, lookup_hashIndexCreate] at hid
  cases hid

set_option maxRecDepth 20000 in
theorem racedCompaction_preserves_liveMap :
    ∃ s t, run (engineStep plainFraming 1) ⟨emptyDb, .idle⟩ racedCompaction = some s ∧
      run (engineStep plainFraming 1) s (.rename true :: [.reopen true] ++ [.unlink]) = some t ∧
      liveMap plainFraming t.db.log.bytes t.db.hash =
        liveMap plainFraming s.db.log.bytes s.db.hash := by
  have hsome : ((run (engineStep plainFraming 1) ⟨emptyDb, .idle⟩ racedCompaction).bind fun s =>
      run (engineStep plainFraming 1) s (.rename true :: [.reopen true] ++ [.unlink])).isSome =
        true := by decide +kernel
  obtain ⟨t, ht⟩ := isSome_iff_exists.1 hsome
  obtain ⟨s, hs, ht⟩ := bind_eq_some_iff.1 ht
  exact ⟨s, t, hs, ht, ((compaction_preserves_liveMap emptyDb_sound hs).1 _ t ht).1⟩

end AegisDB
