import AegisDB.Foundations.Ring
import AegisDB.Query.Working

/-!
# The rings of the working memory

What the calls of `working_buffer.c` do to the records of a session, up to those that have expired:
`Aged` for a call that only drops expired records, `Taken` and `Added` for the others. A session is
a ring of numbered entries (`Counted`), so that no two records of it have the same id;
behind any calls it holds the latest of them (`RingRun.ring_holds_latest`).
-/

namespace AegisDB

open Function List Option WorkingStore UInt64

/-! ## Slots -/

theorem recordExpired_mono {r : MemoryRecord} {now now' : UInt64} (h : now ≤ now')
    (hexp : recordExpired r now = true) : recordExpired r now' = true := by
  simp only [recordExpired, Bool.and_eq_true, decide_eq_true_eq] at hexp ⊢
  exact ⟨hexp.1, UInt64.le_trans hexp.2 h⟩

theorem live_of_le {r : MemoryRecord} {t now : UInt64} (hle : t ≤ now)
    (h : recordExpired r now = false) : recordExpired r t = false := by
  by_contra hexp
  rw [recordExpired_mono hle (by simpa using hexp)] at h
  cases h

structure Cleaned (now : UInt64) (slots slots' : List (Option MemoryRecord)) : Prop where
  length : slots'.length = slots.length
  sub : ∀ (p : ℕ) (r : MemoryRecord), slots'[p]? = some (some r) → slots[p]? = some (some r)
  keep : ∀ (p : ℕ) (r : MemoryRecord), slots[p]? = some (some r) → recordExpired r now = false →
    slots'[p]? = some (some r)

theorem Cleaned.refl (now : UInt64) (slots : List (Option MemoryRecord)) : Cleaned now slots slots :=
  ⟨rfl, fun _ _ h => h, fun _ _ h _ => h⟩

variable {slots : List (Option MemoryRecord)}

theorem Cleaned.cons {now : UInt64} {slots' : List (Option MemoryRecord)}
    (h : Cleaned now slots slots') {o o' : Option MemoryRecord}
    (ho : o' = o ∨ o' = none ∧ ∀ r, o = some r → recordExpired r now = true) :
    Cleaned now (o :: slots) (o' :: slots') where
  length := by simp [h.length]
  sub p r hp := by
    cases p with
    | zero =>
      rcases ho with rfl | ⟨rfl, -⟩
      · exact hp
      · simp at hp
    | succ p => exact h.sub p r hp
  keep p r hp hlive := by
    cases p with
    | zero =>
      rcases ho with rfl | ⟨-, hexp⟩
      · exact hp
      · have := hexp r (by simpa using hp)
        exact absurd (hlive.symm.trans this) Bool.false_ne_true
    | succ p => exact h.keep p r hp hlive

theorem Cleaned.mem {now : UInt64} {slots' : List (Option MemoryRecord)}
    (h : Cleaned now slots slots') {r : MemoryRecord} (hlive : recordExpired r now = false) :
    some r ∈ slots' ↔ some r ∈ slots := by
  simp only [mem_iff_getElem?]
  constructor
  · rintro ⟨p, hp⟩
    exact ⟨p, h.sub p r hp⟩
  · rintro ⟨p, hp⟩
    exact ⟨p, h.keep p r hp hlive⟩

theorem findSlot_cleaned (id now : UInt64) (slots : List (Option MemoryRecord)) :
    Cleaned now slots (findSlot id now slots).1 := by
  induction slots with
  | nil => exact .refl now []
  | cons o slots ih =>
    cases o with
    | none => exact ih.cons (.inl rfl)
    | some r =>
      unfold findSlot
      split_ifs with hexp hid
      · exact ih.cons (.inr ⟨rfl, fun r' hr' => by cases hr'; exact hexp⟩)
      · exact .refl now _
      · exact ih.cons (.inl rfl)

theorem findSlot_eq_some {id now : UInt64} {k : ℕ} (h : (findSlot id now slots).2 = some k) :
    ∃ r, slots[k]? = some (some r) ∧ r.id = id ∧ recordExpired r now = false := by
  induction slots generalizing k with
  | nil => cases h
  | cons o slots ih =>
    have hrest (hk : (findSlot id now slots).2.map (· + 1) = some k) :
        ∃ r, (o :: slots)[k]? = some (some r) ∧ r.id = id ∧ recordExpired r now = false := by
      obtain ⟨j, hj, rfl⟩ := map_eq_some_iff.1 hk
      obtain ⟨r, hr⟩ := ih hj
      exact ⟨r, hr⟩
    cases o with
    | none => exact hrest h
    | some r =>
      unfold findSlot at h
      split_ifs at h with hexp hid
      · exact hrest h
      · cases h
        exact ⟨r, rfl, hid, by simpa using hexp⟩
      · exact hrest h

theorem findSlot_eq_none {id now : UInt64} (h : (findSlot id now slots).2 = none) {r : MemoryRecord}
    (hr : some r ∈ slots) (hid : r.id = id) : recordExpired r now = true := by
  induction slots with
  | nil => cases hr
  | cons o slots ih =>
    cases o with
    | none =>
      refine ih (by simpa [findSlot] using h) ?_
      simpa using hr
    | some r' =>
      unfold findSlot at h
      split_ifs at h with hexp hid'
      · rcases mem_cons.1 hr with heq | hr
        · cases heq
          exact hexp
        · exact ih (by simpa using h) hr
      · rcases mem_cons.1 hr with heq | hr
        · cases heq
          exact absurd hid hid'
        · exact ih (by simpa using h) hr

/-! ## Sessions -/

/-- The record is in a slot of the session. -/
def WorkingStore.Holds (ws : WorkingStore) (sid : CString) (r : MemoryRecord) : Prop :=
  some r ∈ (getSession ws sid).slots

/-- So many records have been added to each session. -/
structure WorkingStore.Counted (ws : WorkingStore) (count : CString → ℕ) : Prop where
  pos : 0 < ws.capacity
  small : ws.capacity ≤ 2 ^ 64
  ring : ∀ sid, RingOf MemoryRecord.id ws.capacity (count sid) (getSession ws sid).slots
  head : ∀ sid, (getSession ws sid).head = count sid % ws.capacity
  nextId : ∀ sid, (getSession ws sid).nextId = UInt64.ofNat (count sid + 1)

theorem getSession_of_some {ws : WorkingStore} {sid : CString} {s : WorkingSession}
    (hs : ws.sessions sid = some s) : getSession ws sid = s := by
  simp [getSession, hs]

theorem getSession_update (ws : WorkingStore) (sid sid' : CString) (s : WorkingSession) :
    getSession { ws with sessions := update ws.sessions sid (some s) } sid' =
      if sid' = sid then s else getSession ws sid' := by
  unfold getSession
  split_ifs with h
  · simp [h]
  · simp [update_of_ne h]

theorem WorkingStore.Counted.sub {ws ws' : WorkingStore} {count : CString → ℕ}
    (h : ws.Counted count) (hcap : ws'.capacity = ws.capacity)
    (hsub : ∀ sid, ∃ slots, getSession ws' sid = { getSession ws sid with slots } ∧
      slots.length = (getSession ws sid).slots.length ∧ ∀ (p : ℕ) (r : MemoryRecord),
        slots[p]? = some (some r) → (getSession ws sid).slots[p]? = some (some r)) :
    ws'.Counted count := by
  refine ⟨hcap ▸ h.pos, hcap ▸ h.small, fun sid => ?_, fun sid => ?_, fun sid => ?_⟩
  all_goals obtain ⟨slots, hget, hlen, hslots⟩ := hsub sid
  · rw [hget, hcap]
    exact (h.ring sid).mono hlen hslots
  · rw [hget, hcap]
    exact h.head sid
  · rw [hget]
    exact h.nextId sid

/-- A later store that has lost expired records only. -/
structure WorkingStore.Aged (now : UInt64) (ws ws' : WorkingStore) : Prop where
  capacity : ws'.capacity = ws.capacity
  defaultTtl : ws'.defaultTtl = ws.defaultTtl
  cleaned : ∀ sid, ∃ slots, getSession ws' sid = { getSession ws sid with slots } ∧
    Cleaned now (getSession ws sid).slots slots

section

variable {ws ws' : WorkingStore} {now : UInt64}

theorem WorkingStore.Aged.refl (now : UInt64) (ws : WorkingStore) : ws.Aged now ws :=
  ⟨rfl, rfl, fun _ => ⟨_, rfl, .refl now _⟩⟩

variable {count : CString → ℕ}

theorem WorkingStore.Aged.counted (h : ws.Aged now ws') (hc : ws.Counted count) :
    ws'.Counted count :=
  hc.sub h.capacity fun sid => by
    obtain ⟨slots, hget, hclean⟩ := h.cleaned sid
    exact ⟨slots, hget, hclean.length, hclean.sub⟩

variable {r : MemoryRecord}

theorem WorkingStore.Aged.holds (h : ws.Aged now ws') (sid : CString)
    (hlive : recordExpired r now = false) : ws'.Holds sid r ↔ ws.Holds sid r := by
  obtain ⟨slots, hget, hclean⟩ := h.cleaned sid
  rw [Holds, hget]
  exact hclean.mem hlive

theorem aged_workingStoreGet (ws : WorkingStore) (sid : CString) (id now : UInt64) :
    ws.Aged now (workingStoreGet ws sid id now).1 := by
  unfold workingStoreGet
  split
  · exact .refl now ws
  · rename_i s hs
    refine ⟨rfl, rfl, fun sid' => ?_⟩
    by_cases heq : sid' = sid
    · subst heq
      rw [getSession_of_some hs]
      exact ⟨_, by simp [getSession], findSlot_cleaned id now s.slots⟩
    · refine ⟨_, ?_, .refl now _⟩
      simp [getSession, update_of_ne heq]

theorem cleaned_sweep (now : UInt64) (slots : List (Option MemoryRecord)) :
    Cleaned now slots (slots.map fun o => o.filter fun r => !recordExpired r now) := by
  induction slots with
  | nil => exact .refl now []
  | cons o slots ih =>
    refine ih.cons ?_
    cases o with
    | none => exact .inl rfl
    | some r =>
      cases hexp : recordExpired r now with
      | true => exact .inr ⟨by simp [hexp], fun r' hr' => by cases hr'; exact hexp⟩
      | false => exact .inl (by simp [hexp])

theorem aged_workingStoreSweep (ws : WorkingStore) (now : UInt64) :
    ws.Aged now (workingStoreSweep ws now) := by
  refine ⟨rfl, rfl, fun sid => ⟨_, ?_, cleaned_sweep now _⟩⟩
  cases hs : ws.sessions sid with
  | none | some s => simp [getSession, workingStoreSweep, hs]

/-! ## Taking a record -/

def promotable (ns : CString) (ws : WorkingStore) (sid : CString) (id now : UInt64) :
    Option MemoryRecord :=
  (workingStoreTake ws sid id now (some ns)).2

/-- A record has been taken out of a session, and expired ones may be gone with it. -/
structure WorkingStore.Taken (now : UInt64) (sid : CString) (r : MemoryRecord)
    (ws ws' : WorkingStore) : Prop where
  capacity : ws'.capacity = ws.capacity
  defaultTtl : ws'.defaultTtl = ws.defaultTtl
  other : ∀ sid', sid' ≠ sid → getSession ws' sid' = getSession ws sid'
  slot : ∃ (k : ℕ) (slots : List (Option MemoryRecord)),
    (getSession ws sid).slots[k]? = some (some r) ∧ Cleaned now (getSession ws sid).slots slots ∧
      getSession ws' sid = { getSession ws sid with slots := slots.set k none }

/-- What a caller takes is a record of that id that has not expired, and its own if the caller has a
namespace. -/
theorem workingStoreTake_cases (ws : WorkingStore) (sid : CString) (id now : UInt64)
    (ns : Option CString) :
    ((workingStoreTake ws sid id now ns).2 = none ∧
        ws.Aged now (workingStoreTake ws sid id now ns).1 ∧
        ((∀ r, ws.Holds sid r → r.id = id → recordExpired r now = true) ∨
          ∃ r, ws.Holds sid r ∧ r.id = id ∧ recordExpired r now = false ∧ ns.isSome = true ∧
            r.agentId ≠ ns)) ∨
      ∃ r, (workingStoreTake ws sid id now ns).2 = some r ∧ r.id = id ∧
        recordExpired r now = false ∧ (ns.isSome = true → r.agentId = ns) ∧
        ws.Taken now sid r (workingStoreTake ws sid id now ns).1 := by
  unfold workingStoreTake
  cases hs : ws.sessions sid with
  | none =>
    refine .inl ⟨rfl, .refl now ws, .inl fun r hr => ?_⟩
    simp [Holds, getSession, hs] at hr
  | some s =>
    have hget := getSession_of_some hs
    have hclean := findSlot_cleaned id now s.slots
    -- the session without the expired records in front of the slot
    have hkeep : ws.Aged now
        { ws with
          sessions := update ws.sessions sid
            (some { s with slots := (findSlot id now s.slots).1 }) } := by
      have haged := aged_workingStoreGet ws sid id now
      unfold workingStoreGet at haged
      rw [hs] at haged
      exact haged
    cases hk : (findSlot id now s.slots).2 with
    | none =>
      simp only [hk, bind_none]
      refine .inl ⟨trivial, hkeep, .inl fun r hr hid => ?_⟩
      rw [Holds, hget] at hr
      exact findSlot_eq_none hk hr hid
    | some k =>
      obtain ⟨r, hr, hid, hlive⟩ := findSlot_eq_some hk
      have hr' := hclean.keep k r hr hlive
      simp only [hk, bind_some, hr', join_some, map_some, Bool.and_eq_true, decide_eq_true_eq]
      split_ifs with hown
      · refine .inl ⟨rfl, hkeep, .inr ⟨r, ?_, hid, hlive, hown⟩⟩
        rw [Holds, hget]
        exact mem_of_getElem? hr
      · refine .inr ⟨r, rfl, hid, hlive, fun hns => ?_, rfl, rfl, fun sid' hne => ?_, ?_⟩
        · exact not_not.1 fun hne => hown ⟨hns, hne⟩
        · simp [getSession, update_of_ne hne]
        · exact ⟨k, _, by rw [hget]; exact hr, by rw [hget]; exact hclean, by simp [getSession, hs]⟩

variable {sid : CString}

theorem WorkingStore.Counted.place_unique (h : ws.Counted count) {p q : ℕ} {r' : MemoryRecord}
    (hr : (getSession ws sid).slots[p]? = some (some r))
    (hr' : (getSession ws sid).slots[q]? = some (some r')) (hid : r.id = r'.id) :
    p = q ∧ r = r' := by
  have hpq := (h.ring sid).eq_of_tag h.small hr hr' hid
  subst hpq
  cases hr.symm.trans hr'
  exact ⟨rfl, rfl⟩

/-- A record can be taken when it is there, has not expired, and is the caller's. -/
theorem workingStoreTake_eq_some_iff (h : ws.Counted count) {ns : Option CString} {id : UInt64} :
    (workingStoreTake ws sid id now ns).2 = some r ↔
      ws.Holds sid r ∧ r.id = id ∧ recordExpired r now = false ∧
        (ns.isSome = true → r.agentId = ns) := by
  have hunique : ∀ r', ws.Holds sid r → ws.Holds sid r' → r.id = r'.id → r = r' := by
    intro r' hr hr' hid
    obtain ⟨p, hp⟩ := mem_iff_getElem?.1 hr
    obtain ⟨q, hq⟩ := mem_iff_getElem?.1 hr'
    exact (h.place_unique hp hq hid).2
  rcases workingStoreTake_cases ws sid id now ns with
    ⟨hnone, -, hwhy⟩ | ⟨q, hsome, hid, hlive, hown, htaken⟩
  · rw [hnone]
    refine iff_of_false (by simp) ?_
    rintro ⟨hr, hid, hlive, hown⟩
    rcases hwhy with hexp | ⟨q, hq, hqid, -, hns, hqown⟩
    · exact absurd (hlive.symm.trans (hexp r hr hid)) Bool.false_ne_true
    · rw [← hunique q hr hq (hid.trans hqid.symm)] at hqown
      exact hqown (hown hns)
  · obtain ⟨k, -, hk, -⟩ := htaken.slot
    have hq : ws.Holds sid q := mem_of_getElem? hk
    rw [hsome]
    constructor
    · rintro heq
      cases heq
      exact ⟨hq, hid, hlive, hown⟩
    · rintro ⟨hr, hrid, -, -⟩
      rw [hunique q hr hq (hrid.trans hid.symm)]

theorem promotable_eq_some (h : ws.Counted count) {ns : CString} {id : UInt64} :
    promotable ns ws sid id now = some r ↔
      ws.Holds sid r ∧ r.id = id ∧ recordExpired r now = false ∧ r.agentId = some ns := by
  rw [promotable, workingStoreTake_eq_some_iff h]
  simp only [isSome_some, forall_const]

theorem WorkingStore.Taken.counted (h : ws.Taken now sid r ws') (hc : ws.Counted count) :
    ws'.Counted count := by
  refine hc.sub h.capacity fun sid' => ?_
  by_cases heq : sid' = sid
  · subst heq
    obtain ⟨k, slots, -, hclean, hget⟩ := h.slot
    refine ⟨_, hget, by rw [length_set, hclean.length], fun p r' hp => ?_⟩
    rw [getElem?_set] at hp
    split_ifs at hp
    · simp at hp
    · exact hclean.sub p r' hp
  · exact ⟨_, h.other sid' heq, rfl, fun _ _ hp => hp⟩

theorem WorkingStore.Taken.holds (h : ws.Taken now sid r ws') (hc : ws.Counted count)
    (sid' : CString) {r' : MemoryRecord} (hlive : recordExpired r' now = false) :
    ws'.Holds sid' r' ↔ ws.Holds sid' r' ∧ ¬ (sid' = sid ∧ r' = r) := by
  by_cases heq : sid' = sid
  · subst heq
    obtain ⟨k, slots, hk, hclean, hget⟩ := h.slot
    rw [Holds, hget, Holds, mem_iff_getElem?, mem_iff_getElem?]
    constructor
    · rintro ⟨p, hp⟩
      rw [getElem?_set] at hp
      split_ifs at hp with hkp
      · simp at hp
      · have hp := hclean.sub p r' hp
        refine ⟨⟨p, hp⟩, fun ⟨_, heq⟩ => hkp ?_⟩
        exact (hc.place_unique hk hp (by rw [heq])).1
    · rintro ⟨⟨p, hp⟩, hne⟩
      refine ⟨p, ?_⟩
      rw [getElem?_set]
      have hkp : k ≠ p := by
        rintro rfl
        cases hk.symm.trans hp
        exact hne ⟨rfl, rfl⟩
      rw [if_neg hkp]
      exact hclean.keep p r' hp hlive
  · rw [Holds, h.other sid' heq]
    exact ⟨fun hr => ⟨hr, fun hand => heq hand.1⟩, And.left⟩

theorem workingStoreGet_eq (h : ws.Counted count) (hr : ws.Holds sid r) (now : UInt64) :
    (workingStoreGet ws sid r.id now).2 = if recordExpired r now then none else recordClone r := by
  obtain ⟨p, hp⟩ := mem_iff_getElem?.1 hr
  unfold workingStoreGet
  cases hs : ws.sessions sid with
  | none => simp [Holds, getSession, hs] at hr
  | some s =>
    have hget := getSession_of_some hs
    dsimp only
    cases hk : (findSlot r.id now s.slots).2 with
    | none =>
      rw [Holds, hget] at hr
      rw [if_pos (findSlot_eq_none hk hr rfl)]
      rfl
    | some k =>
      obtain ⟨r', hr', hid, hlive⟩ := findSlot_eq_some hk
      obtain ⟨rfl, rfl⟩ := h.place_unique hp (by rw [hget]; exact hr') hid.symm
      rw [if_neg (by simp [hlive]), bind_some,
        (findSlot_cleaned r.id now s.slots).keep p r hr' hlive]
      rfl

/-- The record at the head of the ring is the one that a push replaces. -/
theorem WorkingStore.Counted.head_iff (h : ws.Counted count) :
    (getSession ws sid).slots[(getSession ws sid).head]? = some (some r) ↔
      ws.Holds sid r ∧ r.id + .ofNat ws.capacity = (getSession ws sid).nextId := by
  rw [h.head, h.nextId]
  constructor
  · intro hr
    exact ⟨mem_of_getElem? hr, ((h.ring sid).tag_replaced h.small hr).1 rfl⟩
  · rintro ⟨hr, htag⟩
    obtain ⟨p, hp⟩ := mem_iff_getElem?.1 hr
    rw [← ((h.ring sid).tag_replaced h.small hp).2 htag]
    exact hp

structure WorkingStore.Added (now : UInt64) (sid : CString) (copy : MemoryRecord)
    (ws ws' : WorkingStore) : Prop where
  capacity : ws'.capacity = ws.capacity
  defaultTtl : ws'.defaultTtl = ws.defaultTtl
  counted : ∀ count, ws.Counted count → ws'.Counted (update count sid (count sid + 1))
  other : ∀ sid' r, sid' ≠ sid → recordExpired r now = false → (ws'.Holds sid' r ↔ ws.Holds sid' r)
  holds : ∀ count, ws.Counted count → ∀ r, recordExpired r now = false →
    (ws'.Holds sid r ↔ r = copy ∨
      ws.Holds sid r ∧ r.id + UInt64.ofNat ws.capacity ≠ (getSession ws sid).nextId)

theorem WorkingStore.Added.aged {copy : MemoryRecord} {ws'' : WorkingStore}
    (h : ws.Added now sid copy ws') (h' : ws'.Aged now ws'') : ws.Added now sid copy ws'' where
  capacity := h'.capacity.trans h.capacity
  defaultTtl := h'.defaultTtl.trans h.defaultTtl
  counted count hc := h'.counted (h.counted count hc)
  other sid' r hne hlive := (h'.holds sid' hlive).trans (h.other sid' r hne hlive)
  holds count hc r hlive := (h'.holds sid hlive).trans (h.holds count hc r hlive)

theorem workingStoreAdd_added {input copy : MemoryRecord} {ttl wid : UInt64}
    (hclone : recordClone input = some copy)
    (hadd : workingStoreAdd ws sid input now ttl = some (ws', wid)) :
    wid = (getSession ws sid).nextId ∧
      ws.Added now sid (workingCopy ws (getSession ws sid) copy now ttl) ws' ∧
      ∀ count, ws.Counted count →
        ws'.Holds sid (workingCopy ws (getSession ws sid) copy now ttl) := by
  rw [workingStoreAdd, hclone, map_some, Option.some.injEq, Prod.mk.injEq] at hadd
  obtain ⟨rfl, rfl⟩ := hadd
  refine ⟨rfl, ⟨rfl, rfl, fun count hc => ?_, fun sid' r hne _ => ?_, fun count hc r _ => ?_⟩,
    fun count hc => ?_⟩
  · have hlen := (hc.ring sid).length
    refine ⟨hc.pos, hc.small, fun sid' => ?_, fun sid' => ?_, fun sid' => ?_⟩
    all_goals rw [getSession_update, update_apply]; split_ifs with heq
    · rw [hc.head]
      exact (hc.ring sid).push hc.pos (hc.nextId sid)
    · exact hc.ring sid'
    · rw [hc.head, hlen, Nat.mod_add_mod]
    · exact hc.head sid'
    · rw [hc.nextId, ← UInt64.ofNat_one, ← UInt64.ofNat_add]
    · exact hc.nextId sid'
  · rw [Holds, getSession_update, if_neg hne]
    rfl
  · rw [Holds, getSession_update, if_pos rfl, hc.head, hc.nextId]
    exact (hc.ring sid).mem_push hc.pos hc.small
  · rw [Holds, getSession_update, if_pos rfl, hc.head]
    exact ((hc.ring sid).mem_push hc.pos hc.small).2 (.inl rfl)

end

/-! ## Runs on one session -/

inductive RingCall
  | add (input : MemoryRecord) (ttl : UInt64)
  | get (id : UInt64)
  | take (id : UInt64) (ns : Option CString)
  | sweep

/-- A store, the records that were added to a session as its ring keeps them, and those taken from it. -/
structure RingRun where
  ws : WorkingStore
  added : List MemoryRecord
  taken : List MemoryRecord

namespace RingRun

def step (sid : CString) (s : RingRun) (now : UInt64) : RingCall → RingRun
  | .add input ttl =>
    match workingStoreAdd s.ws sid input now ttl with
    | none => s
    | some (ws, wid) =>
      { s with
        ws
        added := s.added ++ (recordClone input).toList.map fun copy =>
          workingCopy s.ws { getSession s.ws sid with nextId := wid } copy now ttl }
  | .get id => { s with ws := (workingStoreGet s.ws sid id now).1 }
  | .take id ns =>
    { s with
      ws := (workingStoreTake s.ws sid id now ns).1
      taken := s.taken ++ (workingStoreTake s.ws sid id now ns).2.toList }
  | .sweep => { s with ws := workingStoreSweep s.ws now }

/-- The calls one after the other, each at its time. -/
def run (sid : CString) (s : RingRun) (cs : List (UInt64 × RingCall)) : RingRun :=
  cs.foldl (fun s c => s.step sid c.1 c.2) s

def start (capacity : ℕ) (ttl : UInt64) : RingRun := ⟨workingStoreCreate capacity ttl, [], []⟩

/-- The record is one of the last `capacity` ones that were added, and was not taken. -/
def Latest (capacity : ℕ) (s : RingRun) (r : MemoryRecord) : Prop :=
  (∃ k, s.added[k]? = some r ∧ s.added.length ≤ k + capacity) ∧ r ∉ s.taken

/-- The records are numbered as they were added; until the numbers wrap, the ring holds the latest. -/
structure Inv (sid : CString) (capacity : ℕ) (now : UInt64) (s : RingRun) : Prop where
  size : s.ws.capacity = capacity
  counted : ∃ count, s.ws.Counted count ∧ count sid = s.added.length
  ids : ∀ (k : ℕ) r, s.added[k]? = some r → r.id = UInt64.ofNat (k + 1)
  latest : s.added.length < 2 ^ 64 → s.taken.Nodup ∧ s.taken ⊆ s.added ∧
    ∀ r, recordExpired r now = false → (s.ws.Holds sid r ↔ s.Latest capacity r)

variable {sid : CString} {s : RingRun} {now now' : UInt64} {capacity : ℕ}

theorem inv_start (hpos : 0 < capacity) (hsmall : capacity ≤ 2 ^ 64) (ttl : UInt64)
    (sid : CString) : (start capacity ttl).Inv sid capacity now where
  size := if_pos hpos.ne'
  counted := by
    have hcap : (workingStoreCreate capacity ttl).capacity = capacity := if_pos hpos.ne'
    refine ⟨fun _ => 0, ⟨hcap.symm ▸ hpos, hcap.symm ▸ hsmall, fun _ => .empty _ _, fun _ => ?_,
      fun _ => rfl⟩, rfl⟩
    exact (Nat.zero_mod _).symm
  ids k r hr := by simp [start] at hr
  latest _ := by simp [start, Latest, Holds, getSession, workingStoreCreate]

section

variable {ws : WorkingStore} (h : s.Inv sid capacity now)

include h

theorem Inv.later (hle : now ≤ now') : s.Inv sid capacity now' :=
  { h with latest := fun hroom => (h.latest hroom).imp_right fun h' =>
      h'.imp_right fun hall r hlive => hall r (live_of_le hle hlive) }

theorem Inv.aged (hw : s.ws.Aged now ws) : { s with ws }.Inv sid capacity now where
  size := hw.capacity.trans h.size
  counted := by
    obtain ⟨count, hc, hcount⟩ := h.counted
    exact ⟨count, hw.counted hc, hcount⟩
  ids := h.ids
  latest hroom := (h.latest hroom).imp_right fun h' =>
    h'.imp_right fun hall r hlive => (hw.holds sid hlive).trans (hall r hlive)

theorem Inv.added {copy : MemoryRecord} (hid : copy.id = (getSession s.ws sid).nextId)
    (ha : s.ws.Added now sid copy ws) :
    { s with ws, added := s.added ++ [copy] }.Inv sid capacity now := by
  obtain ⟨count, hc, hcount⟩ := h.counted
  have hconcat (k : ℕ) (r : MemoryRecord) :
      (s.added ++ [copy])[k]? = some r ↔ s.added[k]? = some r ∨ k = s.added.length ∧ r = copy := by
    rcases lt_trichotomy k s.added.length with hk | rfl | hk
    · simp [getElem?_append_left hk, hk.ne]
    · simp [eq_comm]
    · rw [getElem?_eq_none (by simp; omega), getElem?_eq_none hk.le]
      simp [hk.ne']
  rw [hc.nextId, hcount] at hid
  refine ⟨ha.capacity.trans h.size, ⟨_, ha.counted count hc, by simp [hcount]⟩, fun k r hr => ?_,
    fun hroom => ?_⟩
  · rcases (hconcat k r).1 hr with hr | ⟨rfl, rfl⟩
    · exact h.ids k r hr
    · exact hid
  · rw [length_append, length_singleton] at hroom
    obtain ⟨honce, hsub, hall⟩ := h.latest (by omega)
    refine ⟨honce, fun r hr => mem_append_left _ (hsub hr), fun r hlive => ?_⟩
    have hpos := h.size ▸ hc.pos
    have hsmall := h.size ▸ hc.small
    have hnew : copy ∉ s.taken := fun hmem => by
      obtain ⟨k, hk⟩ := mem_iff_getElem?.1 (hsub hmem)
      have hlt := (List.getElem?_eq_some_iff.1 hk).1
      have := RingOf.ofNat_inj ((h.ids k _ hk).symm.trans hid) (by omega) (by omega)
      omega
    -- the record that is pushed out is the one whose number is `capacity` less
    have hout (k : ℕ) (hk : s.added[k]? = some r) (hle : s.added.length ≤ k + capacity) :
        r.id + .ofNat capacity = .ofNat (s.added.length + 1) ↔ k + capacity = s.added.length := by
      have hlt := (List.getElem?_eq_some_iff.1 hk).1
      rw [h.ids k r hk, ← ofNat_add]
      constructor
      · intro heq
        have := RingOf.ofNat_inj heq.symm (by omega) (by omega)
        omega
      · intro heq
        rw [show k + 1 + capacity = s.added.length + 1 by omega]
    rw [ha.holds count hc r hlive, hall r hlive, h.size, hc.nextId, hcount]
    simp only [Latest, hconcat, length_append, length_singleton]
    constructor
    · rintro (rfl | ⟨⟨⟨k, hk, hle⟩, hnot⟩, hne⟩)
      · exact ⟨⟨_, .inr ⟨rfl, rfl⟩, by omega⟩, hnew⟩
      · rw [ne_eq, hout k hk hle] at hne
        exact ⟨⟨k, .inl hk, by omega⟩, hnot⟩
    · rintro ⟨⟨k, hk | ⟨-, rfl⟩, hle⟩, hnot⟩
      · refine .inr ⟨⟨⟨k, hk, by omega⟩, hnot⟩, fun heq => ?_⟩
        have := (hout k hk (by omega)).1 heq
        omega
      · exact .inl rfl

theorem Inv.take (id : UInt64) (ns : Option CString) :
    (s.step sid now (.take id ns)).Inv sid capacity now := by
  obtain ⟨count, hc, hcount⟩ := h.counted
  unfold step
  rcases workingStoreTake_cases s.ws sid id now ns with
    ⟨hnone, haged, -⟩ | ⟨r, hr, -, hlive, -, htaken⟩
  · simpa [hnone] using h.aged haged
  · simp only [hr, toList_some]
    refine ⟨htaken.capacity.trans h.size, ⟨count, htaken.counted hc, hcount⟩, h.ids,
      fun hroom => ?_⟩
    obtain ⟨honce, hsub, hall⟩ := h.latest hroom
    have hheld : s.ws.Holds sid r := by
      obtain ⟨k, -, hk, -⟩ := htaken.slot
      exact mem_of_getElem? hk
    obtain ⟨⟨k, hk, -⟩, hnot⟩ := (hall r hlive).1 hheld
    refine ⟨nodup_append.2 ⟨honce, pairwise_singleton _ r, ?_⟩, ?_, fun r' hlive' => ?_⟩
    · rintro a ha b hb rfl
      exact hnot (mem_singleton.1 hb ▸ ha)
    · exact append_subset.2 ⟨hsub, by simpa using mem_of_getElem? hk⟩
    · rw [htaken.holds hc sid hlive', hall r' hlive']
      simp only [Latest, true_and, mem_append, mem_singleton, not_or, and_assoc]

end

theorem step_add (s : RingRun) (sid : CString) (now : UInt64) (input : MemoryRecord)
    (ttl : UInt64) : recordClone input = none ∧ s.step sid now (.add input ttl) = s ∨ ∃ ws copy,
      s.step sid now (.add input ttl) = { s with ws, added := s.added ++ [copy] } ∧
        copy.id = (getSession s.ws sid).nextId ∧ s.ws.Added now sid copy ws := by
  cases hclone : recordClone input with
  | none => exact .inl ⟨rfl, by simp [step, workingStoreAdd, hclone]⟩
  | some copy =>
    obtain ⟨⟨ws, wid⟩, hadd⟩ : ∃ p, workingStoreAdd s.ws sid input now ttl = some p :=
      ⟨_, by rw [workingStoreAdd, hclone, map_some]⟩
    obtain ⟨rfl, hadded, -⟩ := workingStoreAdd_added hclone hadd
    exact .inr ⟨ws, _, by simp [step, hadd, hclone], rfl, hadded⟩

theorem Inv.step (h : s.Inv sid capacity now) (c : RingCall) :
    (s.step sid now c).Inv sid capacity now := by
  cases c with
  | add input ttl =>
    rcases s.step_add sid now input ttl with ⟨-, heq⟩ | ⟨ws, copy, heq, hid, hadded⟩ <;> rw [heq]
    · exact h
    · exact h.added hid hadded
  | get id => exact h.aged (aged_workingStoreGet s.ws sid id now)
  | take id ns => exact h.take id ns
  | sweep => exact h.aged (aged_workingStoreSweep s.ws now)

theorem Inv.run {cs : List (UInt64 × RingCall)} (h : s.Inv sid capacity now)
    (hclock : (now :: (cs.map Prod.fst ++ [now'])).Pairwise (· ≤ ·)) :
    (s.run sid cs).Inv sid capacity now' := by
  induction cs generalizing s now with
  | nil => exact h.later (by simpa using hclock)
  | cons c cs ih =>
    obtain ⟨hfirst, hrest⟩ := pairwise_cons.1 hclock
    exact ih ((h.later (hfirst c.1 (by simp))).step c.2) hrest

theorem workingStoreGet_eq_take (ws : WorkingStore) (sid : CString) (id now : UInt64) :
    (workingStoreGet ws sid id now).2 = (workingStoreTake ws sid id now none).2.bind recordClone := by
  unfold workingStoreGet workingStoreTake
  cases ws.sessions sid with
  | none => rfl
  | some s =>
    dsimp only
    cases (findSlot id now s.slots).2 with
    | none => rfl
    | some k =>
      simp only [bind_some]
      cases (findSlot id now s.slots).1[k]?.join <;> rfl

theorem length_adds (n : ℕ) : (s.run sid (replicate n (0, .add recordInit 0))).added.length =
    s.added.length + n := by
  induction n generalizing s with
  | zero => rfl
  | succ n ih =>
    rw [replicate_succ, run, foldl_cons, ← run, ih]
    rcases s.step_add sid 0 recordInit 0 with ⟨hnone, -⟩ | ⟨ws, copy, heq, -⟩
    · cases hnone
    · rw [heq, length_append, length_singleton]
      omega

end RingRun

end AegisDB
