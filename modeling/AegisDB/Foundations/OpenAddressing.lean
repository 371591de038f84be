import Mathlib.Data.Finset.Card
import Mathlib.Data.Nat.ModEq

/-!
# Open addressing

Hash tables with linear probing. A slot is empty, holds an entry, or is dead: it held one once, and a
search goes on behind it. `OpenTable` carries what the searches rely on, that a key occurs once and
that no empty slot lies between the home of a key and its slot.

The operations are those of a finite map: `get?_put` says so for the probing functions, and
`mem_entries` for the enumeration in slot order. Putting a new key fails only in a table
without an empty slot (`put?_isSome`); `rehash` keeps the map and drops the dead slots.
-/

namespace AegisDB

open List Option

inductive Slot (K V : Type)
  | empty
  | dead
  | live (k : K) (v : V)
  deriving DecidableEq

namespace Slot

variable {K V : Type}

def isEmpty : Slot K V → Bool
  | empty => true
  | _ => false

def pair? : Slot K V → Option (K × V)
  | live k v => some (k, v)
  | _ => none

theorem pair?_eq_some {s : Slot K V} {e : K × V} : s.pair? = some e ↔ s = live e.1 e.2 := by
  obtain ⟨k, v⟩ := e
  cases s <;> simp [pair?]

end Slot

/-- How a search ends: at the slot of the key, at a slot where the key may go, or nowhere. -/
inductive Probe
  | found (i : ℕ)
  | vacant (i : ℕ)
  | full
  deriving DecidableEq

namespace OpenAddressing

variable {K V : Type} [DecidableEq K] (hash : K → ℕ)

/-- The slot number of the probe `p` for a key. -/
def place (cap : ℕ) (k : K) (p : ℕ) : ℕ := (hash k + p) % cap

/-- Linear probing from the probe `p` on; `reuse` is the first dead slot seen so far. -/
def probeFrom (t : List (Slot K V)) (k : K) : ℕ → ℕ → Option ℕ → Probe
  | 0, _, _ => .full
  | fuel + 1, p, reuse =>
    let i := place hash t.length k p
    match t[i]? with
    | some (.live k' _) => if k' = k then .found i else probeFrom t k fuel (p + 1) reuse
    | some .dead => probeFrom t k fuel (p + 1) (some (reuse.getD i))
    | some .empty => .vacant (reuse.getD i)
    | none => .full

def probe (t : List (Slot K V)) (k : K) : Probe := probeFrom hash t k t.length 0 none

/-- `i` lies on the probe sequence of `k`, with no empty slot before it. -/
def Reachable (t : List (Slot K V)) (k : K) (i : ℕ) : Prop :=
  ∃ d < t.length, place hash t.length k d = i ∧
    ∀ p < d, t[place hash t.length k p]? ≠ some .empty

structure Probing (t : List (Slot K V)) : Prop where
  unique : ∀ {i j : ℕ} {k : K} {v w : V}, t[i]? = some (.live k v) → t[j]? = some (.live k w) →
    i = j
  reachable : ∀ {i : ℕ} {k : K} {v : V}, t[i]? = some (.live k v) → Reachable hash t k i

omit [DecidableEq K] in
theorem probing_replicate (n : ℕ) : Probing hash (replicate n (Slot.empty : Slot K V)) where
  unique h _ := by simp [getElem?_replicate] at h
  reachable h := by simp [getElem?_replicate] at h

variable {hash}

/-- What the search has seen before the probe `p`. -/
structure Passed (hash : K → ℕ) (t : List (Slot K V)) (k : K) (p : ℕ) (reuse : Option ℕ) : Prop where
  other : ∀ q < p, t[place hash t.length k q]? ≠ some .empty ∧
    ∀ v, t[place hash t.length k q]? ≠ some (.live k v)
  dead : ∀ i ∈ reuse, t[i]? = some .dead ∧ Reachable hash t k i

variable {t : List (Slot K V)}

omit [DecidableEq K] in
theorem Passed.absent {k : K} {p : ℕ} {reuse : Option ℕ} (h : Passed hash t k p reuse)
    (ht : Probing hash t) (hend : t.length ≤ p ∨ t[place hash t.length k p]? = some .empty) (i : ℕ)
    (v : V) :
    t[i]? ≠ some (.live k v) := by
  intro hi
  obtain ⟨d, hd, rfl, hchain⟩ := ht.reachable hi
  rcases lt_or_ge d p with hdp | hdp
  · exact (h.other d hdp).2 v hi
  · rcases hend with hend | hend
    · omega
    · rcases hdp.eq_or_lt with rfl | hlt
      · rw [hi] at hend
        cases hend
      · exact hchain p hlt hend

/-- What the end of a search says about the table. -/
def Spec (hash : K → ℕ) (t : List (Slot K V)) (k : K) : Probe → Prop
  | .found i => ∃ v, t[i]? = some (.live k v)
  | .vacant i => (∀ (j : ℕ) v, t[j]? ≠ some (.live k v)) ∧ Reachable hash t k i ∧
      (t[i]? = some .empty ∨ t[i]? = some .dead)
  | .full => (∀ (j : ℕ) v, t[j]? ≠ some (.live k v)) ∧
      ∀ p < t.length, t[place hash t.length k p]? ≠ some .empty

theorem probeFrom_spec (ht : Probing hash t) (k : K) (fuel p : ℕ) (reuse : Option ℕ)
    (hp : p + fuel = t.length) (h : Passed hash t k p reuse) :
    Spec hash t k (probeFrom hash t k fuel p reuse) := by
  induction fuel generalizing p reuse with
  | zero =>
    have hend : p = t.length := by omega
    exact ⟨h.absent ht (.inl hend.ge), fun q hq => (h.other q (by omega)).1⟩
  | succ fuel ih =>
    have hlt : place hash t.length k p < t.length := Nat.mod_lt _ (by omega)
    have hreach : ∀ q < p, t[place hash t.length k q]? ≠ some .empty := fun q hq => (h.other q hq).1
    unfold probeFrom
    simp only
    split
    · rename_i k' v hslot
      split
      · rename_i hk
        subst hk
        exact ⟨v, hslot⟩
      · rename_i hk
        refine ih (p + 1) reuse (by omega) ⟨fun q hq => ?_, h.dead⟩
        rcases Nat.lt_succ_iff_lt_or_eq.1 hq with hq | rfl
        · exact h.other q hq
        · rw [hslot]
          refine ⟨by simp, fun w hw => hk ?_⟩
          cases hw
          rfl
    · rename_i hslot
      refine ih (p + 1) _ (by omega) ⟨fun q hq => ?_, ?_⟩
      · rcases Nat.lt_succ_iff_lt_or_eq.1 hq with hq | rfl
        · exact h.other q hq
        · rw [hslot]
          exact ⟨by simp, by simp⟩
      · intro i hi
        cases reuse with
        | none =>
          obtain rfl : place hash t.length k p = i := by simpa using hi
          exact ⟨hslot, p, by omega, rfl, hreach⟩
        | some j =>
          obtain rfl : j = i := by simpa using hi
          exact h.dead j rfl
    · rename_i hslot
      refine ⟨h.absent ht (.inr hslot), ?_⟩
      cases reuse with
      | none => exact ⟨⟨p, by omega, rfl, hreach⟩, .inl hslot⟩
      | some j => exact ⟨(h.dead j rfl).2, .inr (h.dead j rfl).1⟩
    · rename_i hslot
      rw [List.getElem?_eq_none_iff] at hslot
      omega

theorem probe_spec (ht : Probing hash t) (k : K) : Spec hash t k (probe hash t k) :=
  probeFrom_spec ht k _ 0 none (by omega) ⟨fun q hq => by omega, by simp⟩

omit [DecidableEq K] in
theorem Reachable.mono {t' : List (Slot K V)} {k : K} {i : ℕ} (h : Reachable hash t k i)
    (hlen : t'.length = t.length) (hmono : ∀ j : ℕ, t'[j]? = some .empty → t[j]? = some .empty) :
    Reachable hash t' k i := by
  obtain ⟨d, hd, hpl, hchain⟩ := h
  refine ⟨d, hlen ▸ hd, hlen ▸ hpl, fun p hp hempty => hchain p hp ?_⟩
  rw [hlen] at hempty
  exact hmono _ hempty

omit [DecidableEq K] in
theorem Probing.set_live (ht : Probing hash t) {k : K} {v : V} {i : ℕ} (hi : Reachable hash t k i)
    (hk : ∀ (j : ℕ) w, t[j]? = some (.live k w) → j = i) :
    Probing hash (t.set i (.live k v)) := by
  have hreach : ∀ k' j, Reachable hash t k' j → Reachable hash (t.set i (.live k v)) k' j := by
    refine fun k' j h => h.mono (length_set ..) fun j hj => ?_
    rw [getElem?_set] at hj
    split_ifs at hj
    · cases hj
    · exact hj
  have hget : ∀ {j : ℕ} {k' : K} {w : V}, (t.set i (.live k v))[j]? = some (.live k' w) →
      (j = i ∧ k' = k) ∨ (j ≠ i ∧ t[j]? = some (.live k' w)) := by
    intro j k' w hj
    rw [getElem?_set] at hj
    split_ifs at hj with h
    · cases hj
      exact .inl ⟨h.symm, rfl⟩
    · exact .inr ⟨fun hji => h hji.symm, hj⟩
  constructor
  · intro j j' k' w w' hj hj'
    rcases hget hj with ⟨h, hk'⟩ | ⟨hne, h⟩ <;> rcases hget hj' with ⟨h', hk''⟩ | ⟨hne', h'⟩
    · rw [h, h']
    · exact absurd (hk _ _ (hk' ▸ h')) hne'
    · exact absurd (hk _ _ (hk'' ▸ h)) hne
    · exact ht.unique h h'
  · intro j k' w hj
    rcases hget hj with ⟨rfl, rfl⟩ | ⟨-, h⟩
    · exact hreach k' _ hi
    · exact hreach k' _ (ht.reachable h)

end OpenAddressing

/-! ## Tables -/

open OpenAddressing

/-- A table with linear probing under the hash function `hash`. -/
structure OpenTable {K : Type} (hash : K → ℕ) (V : Type) where
  slots : List (Slot K V)
  probing : Probing hash slots

namespace OpenTable

variable {K V : Type} [DecidableEq K] {hash : K → ℕ}

/-- A table of `n` empty slots. -/
def create (n : ℕ) : OpenTable hash V := ⟨List.replicate n .empty, probing_replicate hash n⟩

def cap (t : OpenTable hash V) : ℕ := t.slots.length

def valueAt (t : OpenTable hash V) (i : ℕ) : Option V :=
  match t.slots[i]? with
  | some (.live _ v) => some v
  | _ => none

def get? (t : OpenTable hash V) (k : K) : Option V :=
  match probe hash t.slots k with
  | .found i => t.valueAt i
  | _ => none

variable {t : OpenTable hash V}

theorem get?_eq_some {k : K} {v : V} :
    t.get? k = some v ↔ ∃ i : ℕ, t.slots[i]? = some (.live k v) := by
  have hspec := probe_spec t.probing k
  unfold get?
  cases hp : probe hash t.slots k with
  | found i =>
    rw [hp] at hspec
    obtain ⟨w, hw⟩ := hspec
    simp only [valueAt, hw, Option.some.injEq]
    constructor
    · rintro rfl
      exact ⟨i, hw⟩
    · rintro ⟨j, hj⟩
      obtain rfl := t.probing.unique hw hj
      rw [hw] at hj
      cases hj
      rfl
  | vacant i | full =>
    rw [hp] at hspec
    simpa using fun j => hspec.1 j v

theorem get?_eq_none {k : K} :
    t.get? k = none ↔ ∀ (i : ℕ) (v : V), t.slots[i]? ≠ some (.live k v) := by
  rw [eq_none_iff_forall_ne_some]
  constructor
  · exact fun h i v hi => h v (get?_eq_some.2 ⟨i, hi⟩)
  · intro h v hv
    obtain ⟨i, hi⟩ := get?_eq_some.1 hv
    exact h i v hi

@[simp] theorem get?_create (n : ℕ) (k : K) : (create n : OpenTable hash V).get? k = none := by
  rw [get?_eq_none]
  intro i v h
  simp [create, getElem?_replicate] at h

/-- The slot a key goes to: its own, or a vacant one; `none` in a table without an empty slot. -/
def slotFor (t : OpenTable hash V) (k : K) : Option ℕ :=
  match probe hash t.slots k with
  | .found i => some i
  | .vacant i => some i
  | .full => none

/-- What is known of the slot a key goes to. -/
structure SlotFor (t : OpenTable hash V) (k : K) (i : ℕ) : Prop where
  reachable : Reachable hash t.slots k i
  only : ∀ (j : ℕ) v, t.slots[j]? = some (.live k v) → j = i
  own : ∀ k' v, t.slots[i]? = some (.live k' v) → k' = k

theorem slotFor_spec {k : K} {i : ℕ} (h : t.slotFor k = some i) : t.SlotFor k i := by
  have hspec := probe_spec t.probing k
  unfold slotFor at h
  cases hp : probe hash t.slots k with
  | found j =>
    simp only [hp] at h
    rw [hp] at hspec
    cases h
    obtain ⟨v, hv⟩ := hspec
    refine ⟨t.probing.reachable hv, fun j w hj => t.probing.unique hj hv, fun k' w hw => ?_⟩
    rw [hv] at hw
    cases hw
    rfl
  | vacant j =>
    simp only [hp] at h
    rw [hp] at hspec
    cases h
    refine ⟨hspec.2.1, fun j v hj => absurd hj (hspec.1 j v), fun k' w hw => ?_⟩
    rcases hspec.2.2 with he | he <;> rw [he] at hw <;> cases hw
  | full => simp [hp] at h

omit [DecidableEq K] in
theorem lt_of_reachable {t : List (Slot K V)} {k : K} {i : ℕ} (h : Reachable hash t k i) :
    i < t.length := by
  obtain ⟨d, hd, rfl, -⟩ := h
  exact Nat.mod_lt _ (by omega)

/-- The table with a value set in the slot of its key. -/
def put? (t : OpenTable hash V) (k : K) (v : V) : Option (OpenTable hash V) :=
  match h : t.slotFor k with
  | some i => some ⟨t.slots.set i (.live k v),
      t.probing.set_live (slotFor_spec h).reachable (slotFor_spec h).only⟩
  | none => none

variable {t' : OpenTable hash V}

theorem put?_eq_some {k : K} {v : V} (h : t.put? k v = some t') :
    ∃ i, t.slotFor k = some i ∧ t'.slots = t.slots.set i (.live k v) := by
  unfold put? at h
  split at h
  · cases h
    exact ⟨_, ‹_›, rfl⟩
  · cases h

omit [DecidableEq K] in
theorem getElem?_set_slotFor {k k' : K} {v w : V} {i j : ℕ} (hi : t.SlotFor k i) (hk : k' ≠ k) :
    (t.slots.set i (.live k v))[j]? = some (.live k' w) ↔ t.slots[j]? = some (.live k' w) := by
  rw [getElem?_set]
  split_ifs with hij hlt
  · subst hij
    refine ⟨fun h => ?_, fun h => absurd (hi.own k' w h) hk⟩
    cases h
    exact absurd rfl hk
  · exact absurd (lt_of_reachable hi.reachable) hlt
  · rfl

theorem get?_put {k : K} {v : V} (h : t.put? k v = some t') (k' : K) :
    t'.get? k' = if k' = k then some v else t.get? k' := by
  obtain ⟨i, hi, hslots⟩ := put?_eq_some h
  have hi := slotFor_spec hi
  split_ifs with hk
  · subst hk
    have hlt := lt_of_reachable hi.reachable
    exact get?_eq_some.2 ⟨i, by rw [hslots, getElem?_set_self hlt]⟩
  · ext w
    rw [get?_eq_some, get?_eq_some, hslots]
    exact exists_congr fun j => getElem?_set_slotFor hi hk

/-- The entries of the table in slot order. -/
def entries (t : OpenTable hash V) : List (K × V) := t.slots.filterMap Slot.pair?

theorem mem_entries {k : K} {v : V} : (k, v) ∈ t.entries ↔ t.get? k = some v := by
  rw [get?_eq_some, entries, mem_filterMap]
  constructor
  · rintro ⟨s, hs, he⟩
    obtain rfl := Slot.pair?_eq_some.1 he
    exact mem_iff_getElem?.1 hs
  · intro h
    exact ⟨.live k v, mem_iff_getElem?.2 h, rfl⟩

omit [DecidableEq K] in
theorem nodup_keys (t : OpenTable hash V) : (t.entries.map Prod.fst).Nodup := by
  rw [entries, map_filterMap, List.Nodup, pairwise_filterMap, pairwise_iff_getElem]
  intro i j hi hj hij k hk k' hk' hkk
  subst hkk
  obtain ⟨⟨k₁, v₁⟩, h₁, rfl⟩ := map_eq_some_iff.1 hk
  obtain ⟨⟨k₂, v₂⟩, h₂, h₁₂⟩ := map_eq_some_iff.1 hk'
  dsimp only at h₁₂
  subst h₁₂
  have h₁ := (getElem?_eq_getElem hi).trans (congrArg some (Slot.pair?_eq_some.1 h₁))
  have h₂ := (getElem?_eq_getElem hj).trans (congrArg some (Slot.pair?_eq_some.1 h₂))
  exact absurd (t.probing.unique h₁ h₂) hij.ne

def used (t : OpenTable hash V) : ℕ := t.slots.countP fun s => !s.isEmpty

omit [DecidableEq K] in
theorem used_create (n : ℕ) : (create n : OpenTable hash V).used = 0 := by
  simp [used, create, countP_replicate, Slot.isEmpty]

omit [DecidableEq K] in
theorem cap_create (n : ℕ) : (create n : OpenTable hash V).cap = n := length_replicate ..

omit [DecidableEq K] in
theorem exists_place {n i : ℕ} (hi : i < n) (k : K) : ∃ d < n, place hash n k d = i := by
  refine ⟨(i + (n - hash k % n)) % n, Nat.mod_lt _ (by omega), ?_⟩
  have hlt : hash k % n < n := Nat.mod_lt _ (by omega)
  have hsum : hash k % n + (i + (n - hash k % n)) = i + n := by omega
  rw [place, Nat.add_mod_mod, ← Nat.mod_add_mod, hsum, Nat.add_mod_right, Nat.mod_eq_of_lt hi]

theorem probe_ne_full (h : t.used < t.cap) (k : K) : probe hash t.slots k ≠ .full := by
  obtain ⟨s, hs, hempty⟩ := countP_lt_length_iff.1 h
  obtain ⟨i, hi⟩ := mem_iff_getElem?.1 hs
  obtain rfl : s = .empty := by
    cases s <;> simp [Slot.isEmpty] at hempty
    rfl
  have hlt := (List.getElem?_eq_some_iff.1 hi).1
  obtain ⟨d, hd, hplace⟩ : ∃ d < _, place hash _ k d = _ := exists_place hlt k
  intro hfull
  have hspec := probe_spec t.probing k
  rw [hfull] at hspec
  exact hspec.2 d hd (hplace ▸ hi)

theorem put?_isSome (h : t.used < t.cap) (k : K) (v : V) : ∃ t', t.put? k v = some t' := by
  have hslot : ∃ j, t.slotFor k = some j := by
    unfold slotFor
    cases hp : probe hash t.slots k with
    | found j | vacant j => exact ⟨j, rfl⟩
    | full => exact absurd hp (probe_ne_full h k)
  obtain ⟨j, hj⟩ := hslot
  unfold put?
  split
  · exact ⟨_, rfl⟩
  · rename_i hnone
    cases hj.symm.trans hnone

theorem cap_put {k : K} {v : V} (h : t.put? k v = some t') : t'.cap = t.cap := by
  obtain ⟨i, -, hslots⟩ := put?_eq_some h
  rw [cap, hslots, length_set, cap]

theorem used_put_le {k : K} {v : V} (h : t.put? k v = some t') : t'.used ≤ t.used + 1 := by
  obtain ⟨i, hi, hslots⟩ := put?_eq_some h
  have hlt := lt_of_reachable (slotFor_spec hi).reachable
  rw [used, hslots, countP_set hlt, used]
  simp only [Slot.isEmpty, Bool.not_false, if_true]
  omega

omit [DecidableEq K] in
theorem length_entries_le_used (t : OpenTable hash V) : t.entries.length ≤ t.used := by
  rw [entries, length_filterMap_eq_countP, used]
  refine countP_mono_left fun s _ hs => ?_
  cases s <;> simp_all [Slot.pair?, Slot.isEmpty]

def putAll : OpenTable hash V → List (K × V) → Option (OpenTable hash V)
  | t, [] => some t
  | t, e :: es => (t.put? e.1 e.2).bind fun t' => putAll t' es

/-- A map after some entries were put into it one after the other. -/
def updateAll (f : K → Option V) (es : List (K × V)) : K → Option V :=
  es.foldl (fun f e k => if k = e.1 then some e.2 else f k) f

theorem updateAll_of_not_mem {f : K → Option V} {es : List (K × V)} {k : K}
    (h : k ∉ es.map Prod.fst) : updateAll f es k = f k := by
  induction es generalizing f with
  | nil => rfl
  | cons e es ih =>
    rw [map_cons, mem_cons, not_or] at h
    rw [updateAll, foldl_cons, ← updateAll, ih h.2, if_neg h.1]

theorem updateAll_eq_some {f : K → Option V} {es : List (K × V)} (hes : (es.map Prod.fst).Nodup)
    {k : K} {v : V} (h : (k, v) ∈ es) : updateAll f es k = some v := by
  induction es generalizing f with
  | nil => cases h
  | cons e es ih =>
    obtain ⟨hnot, hes⟩ := nodup_cons.1 hes
    rw [updateAll, foldl_cons, ← updateAll]
    rcases mem_cons.1 h with rfl | h
    · rw [updateAll_of_not_mem hnot, if_pos rfl]
    · exact ih hes h

theorem updateAll_ne_none {f : K → Option V} {es : List (K × V)} {k : K} :
    updateAll f es k ≠ none ↔ f k ≠ none ∨ k ∈ es.map Prod.fst := by
  induction es generalizing f with
  | nil => simp [updateAll]
  | cons e es ih =>
    rw [updateAll, foldl_cons, ← updateAll, ih, map_cons, mem_cons]
    by_cases hk : k = e.1 <;> simp [hk]

theorem putAll_spec {es : List (K × V)} (h : t.used + es.length ≤ t.cap) :
    ∃ t', t.putAll es = some t' ∧ t'.cap = t.cap ∧ t'.used ≤ t.used + es.length ∧
      t'.get? = updateAll t.get? es := by
  induction es generalizing t with
  | nil => exact ⟨t, rfl, rfl, le_rfl, rfl⟩
  | cons e es ih =>
    rw [length_cons] at h
    obtain ⟨t₁, h₁⟩ := put?_isSome (t := t) (by omega) e.1 e.2
    have hcap := cap_put h₁
    have hused := used_put_le h₁
    obtain ⟨t₂, h₂, hcap₂, hused₂, hget⟩ := ih (t := t₁) (by omega)
    refine ⟨t₂, ?_, by omega, ?_, ?_⟩
    · rw [putAll, h₁, bind_some, h₂]
    · rw [length_cons]
      omega
    · rw [hget, updateAll, updateAll, foldl_cons]
      congr 1
      exact funext fun k => get?_put h₁ k

theorem updateAll_entries (t : OpenTable hash V) : updateAll (fun _ => none) t.entries = t.get? := by
  funext k
  cases hk : t.get? k with
  | some v => exact updateAll_eq_some t.nodup_keys (mem_entries.2 hk)
  | none =>
    rw [updateAll_of_not_mem]
    intro hmem
    obtain ⟨⟨k', v⟩, hv, rfl⟩ := List.mem_map.1 hmem
    rw [mem_entries.1 hv] at hk
    cases hk

/-- The entries of the table in a fresh table of `n` slots. -/
def rehash (t : OpenTable hash V) (n : ℕ) : Option (OpenTable hash V) := putAll (create n) t.entries

/-- Rehashing into a table with room keeps the map, and leaves as many slots in use as there are
entries at most. -/
theorem rehash_spec (t : OpenTable hash V) {n : ℕ} (h : t.entries.length ≤ n) :
    ∃ t', t.rehash n = some t' ∧ t'.cap = n ∧ t'.used ≤ t.entries.length ∧ t'.get? = t.get? := by
  have hroom : (create n : OpenTable hash V).used + t.entries.length ≤
      (create n : OpenTable hash V).cap := by rw [used_create, cap_create, Nat.zero_add]; exact h
  obtain ⟨t', ht', hcap, hused, hget⟩ := putAll_spec hroom
  refine ⟨t', ht', hcap.trans (cap_create n), by rwa [used_create, Nat.zero_add] at hused, ?_⟩
  rw [hget, funext (get?_create n), updateAll_entries]

/-! ## Tables without dead slots -/

theorem not_dead_put {k : K} {v : V} (h : t.put? k v = some t') (hd : .dead ∉ t.slots) :
    .dead ∉ t'.slots := by
  obtain ⟨i, -, hslots⟩ := put?_eq_some h
  rw [hslots]
  intro hmem
  rcases mem_or_eq_of_mem_set hmem with hmem | heq
  · exact hd hmem
  · cases heq

theorem not_dead_putAll {es : List (K × V)} (h : t.putAll es = some t') (hd : .dead ∉ t.slots) :
    .dead ∉ t'.slots := by
  induction es generalizing t with
  | nil =>
    cases h
    exact hd
  | cons e es ih =>
    obtain ⟨t₁, h₁, h₂⟩ := bind_eq_some_iff.1 h
    exact ih h₂ (not_dead_put h₁ hd)

/-- The used slots are the keys there are. -/
theorem used_eq_card (hd : .dead ∉ t.slots) {ks : List K} (hks : ∀ k, t.get? k ≠ none ↔ k ∈ ks) :
    t.used = ks.toFinset.card := by
  have hlen : t.used = (t.entries.map Prod.fst).length := by
    rw [length_map, entries, length_filterMap_eq_countP, used]
    refine countP_congr fun s hs => ?_
    cases s with
    | empty | live => simp [Slot.pair?, Slot.isEmpty]
    | dead => exact absurd hs hd
  rw [hlen, ← toFinset_card_of_nodup t.nodup_keys]
  congr 1
  ext k
  simp only [List.mem_toFinset, ← hks, ne_none_iff_exists', List.mem_map, Prod.exists,
    exists_and_right, exists_eq_right, mem_entries]

end OpenTable

end AegisDB
