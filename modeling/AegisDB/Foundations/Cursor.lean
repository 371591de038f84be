import AegisDB.Foundations.Bytes

/-!
# Reading a byte string from a cursor

A cursor reader takes the bytes that are left, and either fails or returns a value with the bytes
after it. A decoder built from such readers is related to the encoder that wrote its input by two
notions.

* `Reads p s a`: in front of any further bytes, `p` reads exactly `s` and returns `a`. A round trip
  is a chain of `Reads.bind`, one link a field.
* `Ensures p P`: whatever the input, a value `p` returns satisfies `P`. What a decoder guarantees of
  the values it accepts is a chain of `Ensures.bind`.
-/

namespace AegisDB

open Bytes

variable {s : Bytes}

/-- Readers over the bytes that are left; `none` is the sticky error flag of a cursor. -/
abbrev Cur := StateT Bytes Option

namespace Cur

variable {α β : Type}

theorem run_bind_eq_some {p : Cur α} {f : α → Cur β} {t : Bytes} {b : β} :
    (p >>= f).run s = some (b, t) ↔ ∃ a u, p.run s = some (a, u) ∧ (f a).run u = some (b, t) := by
  simp only [StateT.run_bind]
  constructor
  · intro h
    obtain ⟨⟨a, u⟩, h₁, h₂⟩ := Option.bind_eq_some_iff.1 h
    exact ⟨a, u, h₁, h₂⟩
  · rintro ⟨a, u, h₁, h₂⟩
    exact Option.bind_eq_some_iff.2 ⟨(a, u), h₁, h₂⟩

/-- The next `n` bytes. -/
def take (n : ℕ) : Cur Bytes := fun s => if n ≤ s.length then some (s.take n, s.drop n) else none

def fail : Cur α := fun _ => none

/-- Go on only if `c` holds. -/
def require (c : Prop) [Decidable c] : Cur Unit := if c then pure () else fail

def ofOption : Option α → Cur α
  | some a => pure a
  | none => fail

/-- `p` repeated `n` times. -/
def many : (n : ℕ) → Cur α → Cur {l : List α // l.length = n}
  | 0, _ => pure ⟨[], rfl⟩
  | n + 1, p => do
    let a ← p
    let as ← many n p
    pure ⟨a :: as.1, congrArg (· + 1) as.2⟩

/-! ## What a reader reads -/

/-- In front of any bytes, `p` reads `s` and returns `a`. -/
def Reads (p : Cur α) (s : Bytes) (a : α) : Prop := ∀ rest, p.run (s ++ rest) = some (a, rest)

namespace Reads

theorem pure (a : α) : Reads (Pure.pure a : Cur α) [] a := fun _ => rfl

theorem bind {p : Cur α} {f : α → Cur β} {t : Bytes} {a : α} {b : β} (h₁ : Reads p s a)
    (h₂ : Reads (f a) t b) : Reads (p >>= f) (s ++ t) b := fun rest => by
  rw [List.append_assoc]
  exact run_bind_eq_some.2 ⟨a, t ++ rest, h₁ _, h₂ rest⟩

theorem take {n : ℕ} (h : s.length = n) : Reads (Cur.take n) s s := fun rest => by
  subst h
  simp [Cur.take, StateT.run]

theorem require {c : Prop} [Decidable c] (h : c) : Reads (Cur.require c) [] () := by
  unfold Cur.require
  rw [if_pos h]
  exact pure ()

theorem require_bind {c : Prop} [Decidable c] {f : Unit → Cur β} {b : β} (h : c)
    (hf : Reads (f ()) s b) : Reads (Cur.require c >>= f) s b := by
  simpa using (require h).bind hf

theorem bind_last {p : Cur α} {f : α → Cur β} {a : α} {b : β} (h : Reads p s a)
    (hf : Reads (f a) [] b) : Reads (p >>= f) s b := by
  simpa using h.bind hf

theorem bind_pure {p : Cur α} {g : α → β} {a : α} (h : Reads p s a) :
    Reads (p >>= fun x => Pure.pure (g x)) s (g a) := h.bind_last (pure (g a))

theorem ofOption {o : Option α} {a : α} (h : o = some a) : Reads (Cur.ofOption o) [] a := h ▸ pure a

theorem many {p : Cur α} {enc : α → Bytes} :
    ∀ {n : ℕ} {l : List α} (hn : l.length = n), (∀ a ∈ l, Reads p (enc a) a) →
      Reads (Cur.many n p) (l.flatMap enc) ⟨l, hn⟩
  | 0, [], _, _ => pure _
  | n + 1, a :: l, hn, h => by
    have ha := h a (by simp)
    have hl : Reads (Cur.many n p) (l.flatMap enc) ⟨l, Nat.succ.inj hn⟩ :=
      many _ fun x hx => h x (List.mem_cons_of_mem a hx)
    have hcons := hl.bind_pure (β := {l : List α // l.length = n + 1})
      (g := fun as => ⟨a :: as.1, congrArg (· + 1) as.2⟩)
    exact ha.bind hcons

end Reads

/-! ## What a reader ensures -/

/-- Every value `p` returns satisfies `P`. -/
def Ensures (p : Cur α) (P : α → Prop) : Prop := ∀ s a t, p.run s = some (a, t) → P a

namespace Ensures

theorem trivial (p : Cur α) : Ensures p fun _ => True := fun _ _ _ _ => True.intro

theorem mono {p : Cur α} {P Q : α → Prop} (h : Ensures p P) (hPQ : ∀ a, P a → Q a) :
    Ensures p Q := fun s a t hs => hPQ a (h s a t hs)

theorem pure {P : α → Prop} {a : α} (h : P a) : Ensures (Pure.pure a : Cur α) P := by
  intro s b t hs
  cases hs
  exact h

theorem fail {P : α → Prop} : Ensures (Cur.fail : Cur α) P := by
  intro s a t hs
  cases hs

theorem bind {p : Cur α} {f : α → Cur β} {P : α → Prop} {Q : β → Prop} (h₁ : Ensures p P)
    (h₂ : ∀ a, P a → Ensures (f a) Q) : Ensures (p >>= f) Q := by
  intro s b t hs
  obtain ⟨a, u, ha, hb⟩ := run_bind_eq_some.1 hs
  exact h₂ a (h₁ s a u ha) u b t hb

theorem take (n : ℕ) : Ensures (Cur.take n) fun b => b.length = n := by
  intro s a t hs
  simp only [Cur.take, StateT.run] at hs
  split at hs
  · cases hs
    simpa using ‹n ≤ s.length›
  · cases hs

theorem ofOption (o : Option α) : Ensures (Cur.ofOption o) fun a => o = some a := by
  cases o with
  | none => exact fail
  | some a => exact pure rfl

theorem many {p : Cur α} {P : α → Prop} (h : Ensures p P) :
    ∀ n, Ensures (Cur.many n p) fun l => ∀ a ∈ l.1, P a
  | 0 => pure (by simp)
  | n + 1 => h.bind fun a ha => (many h n).bind fun l hl => pure fun x hx => by
      rcases List.mem_cons.1 hx with rfl | hx
      · exact ha
      · exact hl x hx

end Ensures

def remaining : Cur ℕ := fun s => some (s.length, s)

theorem Reads.remaining_bind {f : ℕ → Cur β} {b : β}
    (h : ∀ n, s.length ≤ n → Reads (f n) s b) : Reads (Cur.remaining >>= f) s b := fun rest =>
  run_bind_eq_some.2 ⟨_, _, rfl, h (s ++ rest).length (by simp) rest⟩

/-- The number in the next `n` bytes. -/
def word (n : ℕ) : Cur ℕ := do
  let b ← take n
  pure (Bytes.leNat b)

theorem Reads.word {n v : ℕ} (h : v < 256 ^ n) : Reads (Cur.word n) (leBytes n v) v := by
  have := (Reads.take (length_leBytes n v)).bind_pure (g := leNat)
  rwa [leNat_leBytes_of_lt h] at this

def getU8 : Cur UInt8 := do
  let v ← word 1
  pure (UInt8.ofNat v)

def getU16 : Cur UInt16 := do
  let v ← word 2
  pure (UInt16.ofNat v)

def getU32 : Cur UInt32 := do
  let v ← word 4
  pure (UInt32.ofNat v)

def getU64 : Cur UInt64 := do
  let v ← word 8
  pure (UInt64.ofNat v)

theorem Reads.getU8 (v : UInt8) : Reads Cur.getU8 (leBytes 1 v.toNat) v := by
  have := (Reads.word (n := 1) v.toNat_lt).bind_pure (g := UInt8.ofNat)
  rwa [UInt8.ofNat_toNat] at this

theorem Reads.getU16 (v : UInt16) : Reads Cur.getU16 (leBytes 2 v.toNat) v := by
  have := (Reads.word (n := 2) v.toNat_lt).bind_pure (g := UInt16.ofNat)
  rwa [UInt16.ofNat_toNat] at this

theorem Reads.getU32 (v : UInt32) : Reads Cur.getU32 (leBytes 4 v.toNat) v := by
  have := (Reads.word (n := 4) v.toNat_lt).bind_pure (g := UInt32.ofNat)
  rwa [UInt32.ofNat_toNat] at this

theorem Reads.getU64 (v : UInt64) : Reads Cur.getU64 (leBytes 8 v.toNat) v := by
  have := (Reads.word (n := 8) v.toNat_lt).bind_pure (g := UInt64.ofNat)
  rwa [UInt64.ofNat_toNat] at this

end Cur

end AegisDB
