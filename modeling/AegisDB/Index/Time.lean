import AegisDB.Foundations.SortedArray
import Mathlib.Data.Multiset.Filter
import Mathlib.Data.Prod.Lex

/-!
# The time index

`time_index.c`: the creation times of the live records in one array sorted by time and id. A lookup
takes the ids of a window of time, and keeps only so many of them: the oldest ones
(`timeIndexRange`) or the most recent ones (`timeIndexRangeRecent`, which also says whether it left
any out). `timeIndexRange_eq` and `timeIndexRangeRecent_eq` say what they return in terms of
the entries of the window; behind any calls these are the entries in the bag of what was added and not
removed (`timeIndexRangeRecent_exact`).

`TimeExact created t` says that the index lists every record once, with its creation time.
-/

namespace AegisDB

open SortedArray List Function SortedBag

structure TimeEntry where
  created : UInt64
  id : UInt64
  deriving DecidableEq

/-- What `cmp_key` compares by. -/
def TimeEntry.key (e : TimeEntry) : ℕ ×ₗ ℕ := toLex (e.created.toNat, e.id.toNat)

theorem TimeEntry.key_injective : Injective TimeEntry.key := by
  rintro ⟨c, i⟩ ⟨c', i'⟩ h
  simp only [TimeEntry.key, EmbeddingLike.apply_eq_iff_eq, Prod.mk.injEq, UInt64.toNat_inj] at h
  rw [h.1, h.2]

abbrev TimeIndex := SortedBag TimeEntry.key

def timeIndexAdd (t : TimeIndex) (created id : UInt64) : TimeIndex := t.insert ⟨created, id⟩

def timeIndexRemove (t : TimeIndex) (created id : UInt64) : TimeIndex := t.remove ⟨created, id⟩

/-- The place where a window begins: the first entry that is not before `start`. -/
def timeLowerBound (t : TimeIndex) (start : UInt64) : ℕ :=
  lowerBound TimeEntry.key t.items (TimeEntry.key ⟨start, 0⟩)

/-- `time_index_range`: the ids of the window, and of them the first `max` unless `max` is zero. -/
def timeIndexRange (t : TimeIndex) (start stop : UInt64) (max : ℕ) : List UInt64 :=
  let es := (t.items.drop (timeLowerBound t start)).takeWhile fun e => e.created ≤ stop
  (if max = 0 then es else es.take max).map TimeEntry.id

/-- `time_index_range_recent`: the last `max` ids of the window, all if that is zero; whether any
were left out. -/
def timeIndexRangeRecent (t : TimeIndex) (start stop : UInt64) (max : ℕ) : List UInt64 × Bool :=
  let lo := timeLowerBound t start
  let hi := partitionPoint (fun e => e.created ≤ stop) t.items lo t.items.length
  if max ≠ 0 ∧ max < hi - lo then
    (((t.items.drop (hi - max)).take max).map TimeEntry.id, true)
  else (((t.items.drop lo).take (hi - lo)).map TimeEntry.id, false)

def timeWindow (t : TimeIndex) (start stop : UInt64) : List TimeEntry :=
  t.items.filter fun e => start ≤ e.created ∧ e.created ≤ stop

theorem TimeEntry.start_le_key {start : UInt64} {e : TimeEntry} :
    TimeEntry.key ⟨start, 0⟩ ≤ e.key ↔ start ≤ e.created := by
  simp only [TimeEntry.key, Prod.Lex.toLex_le_toLex, UInt64.le_iff_toNat_le, UInt64.toNat_zero,
    Nat.zero_le, and_true]
  omega

theorem TimeEntry.created_le {a b : TimeEntry} (h : a.key ≤ b.key) : a.created ≤ b.created := by
  simp only [TimeEntry.key, Prod.Lex.toLex_le_toLex] at h
  rw [UInt64.le_iff_toNat_le]
  omega

section

variable (t : TimeIndex) (start stop : UInt64)

theorem parted_created (xs : List TimeEntry) (h : xs.Pairwise fun a b => a.key ≤ b.key) :
    Parted (fun e : TimeEntry => decide (e.created ≤ stop)) xs := by
  refine h.imp fun hab hb => ?_
  rw [decide_eq_true_eq] at hb ⊢
  exact UInt64.le_trans (TimeEntry.created_le hab) hb

theorem drop_timeLowerBound :
    t.items.drop (timeLowerBound t start) = t.items.filter fun e => start ≤ e.created := by
  rw [timeLowerBound, drop_lowerBound]
  simp only [TimeEntry.start_le_key]

/-- A window of time begins at its place and ends where the times exceed its end. -/
theorem takeWhile_drop_timeLowerBound :
    (t.items.drop (timeLowerBound t start)).takeWhile (fun e => e.created ≤ stop) =
      timeWindow t start stop := by
  have hsorted := t.sorted.sublist (drop_sublist (timeLowerBound t start) t.items)
  rw [(parted_created stop _ hsorted).takeWhile_eq_filter, drop_timeLowerBound, filter_filter,
    timeWindow]
  simp [Bool.and_comm]

theorem timeIndexRange_eq (max : ℕ) :
    timeIndexRange t start stop max =
      (if max = 0 then timeWindow t start stop else (timeWindow t start stop).take max).map
        TimeEntry.id := by
  simp only [timeIndexRange, takeWhile_drop_timeLowerBound]

theorem timeIndexRangeRecent_eq (max : ℕ) :
    timeIndexRangeRecent t start stop max =
      if max ≠ 0 ∧ max < (timeWindow t start stop).length then
        (((timeWindow t start stop).drop ((timeWindow t start stop).length - max)).map TimeEntry.id,
          true)
      else ((timeWindow t start stop).map TimeEntry.id, false) := by
  have hsorted := t.sorted.sublist (drop_sublist (timeLowerBound t start) t.items)
  have hhi := partitionPoint_drop (parted_created stop _ hsorted) (t.lowerBound_le _)
  have hwin := takeWhile_drop_timeLowerBound t start stop
  rw [hwin] at hhi
  -- the window is what stands between the two places
  have hsplit : t.items.drop (timeLowerBound t start) = timeWindow t start stop ++
      (t.items.drop (timeLowerBound t start)).dropWhile fun e => e.created ≤ stop := by
    rw [← hwin, takeWhile_append_dropWhile]
  simp only [timeIndexRangeRecent, hhi, Nat.add_sub_cancel_left]
  split
  · rename_i h
    have hplace : timeLowerBound t start + (timeWindow t start stop).length - max =
        timeLowerBound t start + ((timeWindow t start stop).length - max) := by omega
    rw [hplace, ← drop_drop, hsplit, drop_append_of_le_length (by omega),
      take_left' (by simp; omega)]
  · rw [hsplit, take_left]

end

/-! ## What the index lists -/

/-- The index lists the creation times of the records. -/
structure TimeExact (created : UInt64 → Option UInt64) (t : TimeIndex) : Prop where
  nodup : t.items.Nodup
  mem : ∀ e, e ∈ t.items ↔ created e.id = some e.created

theorem timeExact_empty : TimeExact (fun _ => none) (empty : TimeIndex) := by
  constructor <;> simp [empty]

section

variable {created : UInt64 → Option UInt64} {t t' : TimeIndex} {id c : UInt64}

theorem TimeExact.unique (h : TimeExact created t) (h' : TimeExact created t') : t = t' := by
  refine ext_perm TimeEntry.key_injective ?_
  rw [perm_ext_iff_of_nodup h.nodup h'.nodup]
  intro e
  rw [h.mem, h'.mem]

theorem TimeExact.add (h : TimeExact created t) (hid : created id = none) :
    TimeExact (update created id (some c)) (timeIndexAdd t c id) := by
  have hperm := t.perm_insert ⟨c, id⟩
  have hnot (c' : UInt64) : (⟨c', id⟩ : TimeEntry) ∉ t.items := by
    rw [h.mem, hid]
    simp
  constructor
  · rw [timeIndexAdd, hperm.nodup_iff]
    exact nodup_cons.2 ⟨hnot c, h.nodup⟩
  · rintro ⟨c', id'⟩
    rw [timeIndexAdd, hperm.mem_iff, mem_cons]
    by_cases hid' : id' = id
    · subst hid'
      simp [hnot, eq_comm]
    · simp [hid', h.mem]

theorem TimeExact.remove (h : TimeExact created t) (hid : created id = some c) :
    TimeExact (update created id none) (timeIndexRemove t c id) := by
  have hitems := items_remove TimeEntry.key_injective t ⟨c, id⟩
  constructor
  · rw [timeIndexRemove, hitems]
    exact h.nodup.erase _
  · rintro ⟨c', id'⟩
    rw [timeIndexRemove, hitems, h.nodup.mem_erase_iff, h.mem]
    by_cases hid' : id' = id
    · subst hid'
      simp only [ne_eq, TimeEntry.mk.injEq, and_true, hid, Option.some.injEq, update_self,
        reduceCtorEq, iff_false, not_and]
      intro hne heq
      exact hne heq.symm
    · simp [hid']

end

/-! ## Runs -/

/-- A call that changes the index. -/
inductive TimeCall
  | add (created id : UInt64)
  | remove (created id : UInt64)

def timeStep (t : TimeIndex) : TimeCall → TimeIndex
  | .add created id => timeIndexAdd t created id
  | .remove created id => timeIndexRemove t created id

/-- The entries behind a call, as a bag: an entry that was added twice is there twice. -/
def timeBag (m : Multiset TimeEntry) : TimeCall → Multiset TimeEntry
  | .add created id => ⟨created, id⟩ ::ₘ m
  | .remove created id => m.erase ⟨created, id⟩

theorem items_timeStep (t : TimeIndex) (c : TimeCall) :
    ((timeStep t c).items : Multiset TimeEntry) = timeBag t.items c := by
  cases c with
  | add created id => exact Multiset.coe_eq_coe.2 (t.perm_insert ⟨created, id⟩)
  | remove created id =>
    simp only [timeStep, timeBag, timeIndexRemove, Multiset.coe_erase,
      items_remove TimeEntry.key_injective]

theorem items_timeSteps (cs : List TimeCall) (t : TimeIndex) :
    ((cs.foldl timeStep t).items : Multiset TimeEntry) = cs.foldl timeBag t.items := by
  induction cs generalizing t with
  | nil => rfl
  | cons c cs ih => rw [foldl_cons, ih, items_timeStep, foldl_cons]

/-- Behind any calls, a window is in the order of times and ids; its last entries are returned, and
the flag says whether any were dropped. -/
theorem timeIndexRangeRecent_exact (cs : List TimeCall) (start stop : UInt64) (max : ℕ) :
    ∃ dropped kept : List TimeEntry,
      (dropped ++ kept).Pairwise (fun a b => a.key ≤ b.key) ∧
      ((dropped ++ kept : List TimeEntry) : Multiset TimeEntry) =
        (cs.foldl timeBag 0).filter (fun e => start ≤ e.created ∧ e.created ≤ stop) ∧
      kept.length =
        (if max = 0 then (dropped ++ kept).length else min max (dropped ++ kept).length) ∧
      timeIndexRangeRecent (cs.foldl timeStep .empty) start stop max =
        (kept.map TimeEntry.id, decide (dropped ≠ [])) := by
  obtain ⟨t, ht⟩ : ∃ t, cs.foldl timeStep .empty = t := ⟨_, rfl⟩
  have hbag : (timeWindow t start stop : Multiset TimeEntry) =
      (cs.foldl timeBag 0).filter fun e => start ≤ e.created ∧ e.created ≤ stop := by
    rw [timeWindow, ← Multiset.filter_coe, ← ht, items_timeSteps]
    rfl
  have hsorted : (timeWindow t start stop).Pairwise fun a b => a.key ≤ b.key :=
    t.sorted.sublist filter_sublist
  rw [ht, timeIndexRangeRecent_eq]
  generalize timeWindow t start stop = window at *
  by_cases hcut : max ≠ 0 ∧ max < window.length
  · refine ⟨window.take (window.length - max), window.drop (window.length - max), ?_⟩
    have hdropped : window.take (window.length - max) ≠ [] := by
      rw [ne_eq, ← length_eq_zero_iff, length_take]
      omega
    rw [take_append_drop, if_pos hcut, if_neg hcut.1, length_drop]
    exact ⟨hsorted, hbag, by omega, by simp [hdropped]⟩
  · refine ⟨[], window, hsorted, hbag, ?_, by simp [hcut]⟩
    rw [nil_append]
    split <;> omega

end AegisDB
