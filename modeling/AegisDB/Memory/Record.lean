import AegisDB.Foundations.Bytes
import AegisDB.Foundations.Float32
import Mathlib.Data.List.Lex
import Mathlib.Data.List.TakeWhile
import Mathlib.Data.Prod.Lex

/-!
# Memory records

The persisted entity of the store, with the fields of `MemoryRecord`, and the functions of
`record.c` that build one: `recordSetFact`, `recordAddRoute`, `recordClone`. Allocation always
succeeds here, so that a function returns the error of its source only for a bad argument.

`MemoryRecord.WellFormed` says what a record is for: every string and count fits its field of the
wire format, a fact has its predicate and its object, and the routes of a derivation are strictly
sorted.
-/

namespace AegisDB

open List Option Function

/-! ## C strings -/

/-- A NUL-terminated string: its bytes up to the terminator. -/
def CString := {s : Bytes // (0 : UInt8) ∉ s}

namespace CString

instance : DecidableEq CString := inferInstanceAs (DecidableEq {s : Bytes // (0 : UInt8) ∉ s})

/-- The bytes of the string, as `strlen` counts them. -/
def bytes (s : CString) : Bytes := s.1

/-- What string functions see of a buffer: the bytes before the first NUL. -/
def ofBytes (raw : Bytes) : CString :=
  ⟨raw.takeWhile (· ≠ 0), fun h => by simpa using List.mem_takeWhile_imp h⟩

def empty : CString := ⟨[], by simp⟩

theorem ofBytes_bytes (s : CString) : ofBytes s.bytes = s := by
  apply Subtype.ext
  change s.1.takeWhile (· ≠ 0) = s.1
  rw [takeWhile_eq_self_iff]
  intro x hx
  simpa using fun h : x = 0 => s.2 (h ▸ hx)

theorem length_ofBytes_le (raw : Bytes) : (ofBytes raw).bytes.length ≤ raw.length :=
  (takeWhile_sublist _).length_le

end CString

/-! ## The fields of a record -/

inductive MemoryType
  | working
  | episodic
  | semantic
  deriving DecidableEq, Repr

/-- The value of a memory type on the wire. -/
def MemoryType.toNat : MemoryType → ℕ
  | .working => 0
  | .episodic => 1
  | .semantic => 2

def MemoryType.ofNat? : ℕ → Option MemoryType
  | 0 => some .working
  | 1 => some .episodic
  | 2 => some .semantic
  | _ => none

theorem MemoryType.ofNat?_toNat (t : MemoryType) : MemoryType.ofNat? t.toNat = some t := by
  cases t <;> rfl

/-- A directed edge between two records; `kind` may be `NULL`. -/
structure Relationship where
  fromId : UInt64
  toId : UInt64
  kind : Option CString
  deriving DecidableEq

/-- What the object position of a fact holds. -/
inductive FactKind
  | none
  | objId
  | objString
  deriving DecidableEq, Repr

def FactKind.toNat : FactKind → ℕ
  | .none => 0
  | .objId => 1
  | .objString => 2

/-- The optional machine-readable rendering of what a record asserts. -/
structure Fact where
  kind : FactKind
  subject : UInt64
  predicate : Option CString
  objectId : UInt64
  objectStr : Option CString
  deriving DecidableEq

def Fact.zeroed : Fact := ⟨.none, 0, Option.none, 0, Option.none⟩

/-- Which inference rule produced a derived record. -/
inductive DerivRule
  | none
  | transitive
  | symmetric
  | inverse
  deriving DecidableEq, Repr

/-- The value of a rule on the wire, by which routes are also ordered. -/
def DerivRule.toNat : DerivRule → ℕ
  | .none => 0
  | .transitive => 1
  | .symmetric => 2
  | .inverse => 3

/-- The rule of a wire value that a derived record may carry. -/
def DerivRule.ofNat? : ℕ → Option DerivRule
  | 1 => some .transitive
  | 2 => some .symmetric
  | 3 => some .inverse
  | _ => Option.none

theorem DerivRule.ofNat?_toNat {r : DerivRule} (h : r ≠ .none) :
    DerivRule.ofNat? r.toNat = some r := by
  cases r <;> first | rfl | exact absurd rfl h

theorem DerivRule.toNat_injective : Injective DerivRule.toNat := by
  intro a b h
  cases a <;> cases b <;> first | rfl | cases h

def derivMaxPremises : ℕ := 8

def derivMaxRoutes : ℕ := 4

/-- One way a conclusion follows: a rule, the depth of the chain and the records it fired on. -/
structure DerivRoute where
  rule : DerivRule
  depth : UInt16
  premises : List UInt64
  deriving DecidableEq

/-- The vectors of a record, one after the other in one block of floats. -/
structure Embedding where
  dim : ℕ
  vecCount : ℕ
  floats : List F32
  size_eq : floats.length = vecCount * dim
  deriving DecidableEq

def Embedding.absent : Embedding := ⟨0, 0, [], rfl⟩

structure MemoryRecord where
  /-- The identity of the record; one frame a version is logged under it. -/
  id : UInt64
  type : MemoryType
  created : UInt64
  updated : UInt64
  importance : F32
  confidence : F32
  agentId : Option CString
  tags : List CString
  embedding : Embedding
  relationships : List Relationship
  fact : Fact
  routes : List DerivRoute
  data : Bytes
  expiresAt : UInt64
  deleted : Bool
  deriving DecidableEq

/-- The record `record_init` leaves behind. -/
def recordInit : MemoryRecord where
  id := 0
  type := .working
  created := 0
  updated := 0
  importance := F32.zero
  confidence := F32.one
  agentId := none
  tags := []
  embedding := Embedding.absent
  relationships := []
  fact := Fact.zeroed
  routes := []
  data := []
  expiresAt := 0
  deleted := false

/-- `record_set_fact`; `none` is its error. -/
def recordSetFact (kind : FactKind) (subject : UInt64) (predicate : Option CString)
    (objectId : UInt64) (objectStr : Option CString) : Option Fact :=
  match kind, predicate with
  | .none, _ => some Fact.zeroed
  | _, none => none
  | .objId, some p =>
    if p.bytes = [] then none else some ⟨.objId, subject, some p, objectId, none⟩
  | .objString, some p =>
    if p.bytes = [] then none
    else objectStr.map fun o => ⟨.objString, subject, some p, 0, some o⟩

/-- Nothing is set without a kind, and a kind comes with a non-empty predicate and the object of
that kind alone. -/
inductive Fact.Shaped : Fact → Prop
  | zeroed : Fact.Shaped Fact.zeroed
  | objId (subject : UInt64) (p : CString) (objectId : UInt64) (hp : p.bytes ≠ []) :
    Fact.Shaped ⟨.objId, subject, some p, objectId, none⟩
  | objString (subject : UInt64) (p o : CString) (hp : p.bytes ≠ []) :
    Fact.Shaped ⟨.objString, subject, some p, 0, some o⟩

theorem recordSetFact_shaped {k : FactKind} {s : UInt64} {p : Option CString} {i : UInt64}
    {o : Option CString} {f : Fact} (h : recordSetFact k s p i o = some f) : f.Shaped := by
  unfold recordSetFact at h
  split at h
  · cases h
    exact .zeroed
  · cases h
  · split at h
    · cases h
    · cases h
      exact .objId _ _ _ ‹_›
  · split at h
    · cases h
    · obtain ⟨o, rfl, rfl⟩ := map_eq_some_iff.1 h
      exact .objString _ _ _ ‹_›

theorem Fact.Shaped.recordSetFact_eq {f : Fact} (h : f.Shaped) :
    recordSetFact f.kind f.subject f.predicate f.objectId f.objectStr = some f := by
  cases h with
  | zeroed => rfl
  | objId s p i hp | objString s p o hp => simp [recordSetFact, hp]

/-! ## The order of routes -/

/-- The loop of `route_cmp` over the premises both routes have. -/
def premisesCmp : List UInt64 → List UInt64 → Ordering
  | x :: xs, y :: ys => if x ≠ y then (if x < y then .lt else .gt) else premisesCmp xs ys
  | _, _ => .eq

/-- `route_cmp`: the premises first, then their number, then the rule; the depth plays no part. -/
def routeCmp (a b : DerivRoute) : Ordering :=
  (premisesCmp a.premises b.premises).then
    (if a.premises.length ≠ b.premises.length then
      (if a.premises.length < b.premises.length then .lt else .gt)
    else if a.rule ≠ b.rule then (if a.rule.toNat < b.rule.toNat then .lt else .gt)
    else .eq)

/-- What `routeCmp` compares by: the premises in dictionary order, then the rule. -/
def DerivRoute.key (a : DerivRoute) : List ℕ ×ₗ ℕ :=
  toLex (a.premises.map UInt64.toNat, a.rule.toNat)

theorem premisesCmp_spec (xs ys : List UInt64) :
    (premisesCmp xs ys).then (if xs.length ≠ ys.length then
      (if xs.length < ys.length then .lt else .gt) else .eq) =
    if xs.map UInt64.toNat < ys.map UInt64.toNat then .lt
    else if xs = ys then .eq else .gt := by
  induction xs generalizing ys with
  | nil => cases ys <;> simp [premisesCmp]
  | cons x xs ih =>
    cases ys with
    | nil => simp [premisesCmp]
    | cons y ys =>
      have ih := ih ys
      simp only [premisesCmp, length_cons, map_cons, cons_lt_cons_iff,
        List.cons.injEq, ← UInt64.lt_iff_toNat_lt, UInt64.toNat_inj]
      by_cases hxy : x = y
      · simpa [hxy] using ih
      · by_cases hlt : x < y <;> simp [hxy, hlt, Ordering.then]

theorem DerivRoute.key_lt_iff {a b : DerivRoute} : a.key < b.key ↔
    a.premises.map UInt64.toNat < b.premises.map UInt64.toNat ∨
      a.premises = b.premises ∧ a.rule.toNat < b.rule.toNat := by
  have hinj : Injective UInt64.toNat := fun _ _ => UInt64.toNat_inj.1
  simp only [DerivRoute.key, Prod.Lex.toLex_lt_toLex, hinj.list_map.eq_iff]

theorem DerivRoute.key_eq_iff {a b : DerivRoute} :
    a.key = b.key ↔ a.premises = b.premises ∧ a.rule = b.rule := by
  have hinj : Injective UInt64.toNat := fun _ _ => UInt64.toNat_inj.1
  simp only [DerivRoute.key, EmbeddingLike.apply_eq_iff_eq, Prod.mk.injEq, hinj.list_map.eq_iff,
    DerivRule.toNat_injective.eq_iff]

theorem routeCmp_spec (a b : DerivRoute) :
    routeCmp a b = if a.key < b.key then .lt else if a.key = b.key then .eq else .gt := by
  have h := premisesCmp_spec a.premises b.premises
  unfold routeCmp
  simp only [DerivRoute.key_lt_iff, DerivRoute.key_eq_iff]
  by_cases hp : a.premises = b.premises
  · -- equal premises: the rule decides
    simp only [hp, lt_self_iff_false, if_false, ne_eq, not_true_eq_false, if_true] at h ⊢
    have hcmp : premisesCmp b.premises b.premises = .eq := by simpa using h
    by_cases hru : a.rule = b.rule <;> simp [hcmp, hru]
  · simp only [hp, false_and, or_false, if_false] at h ⊢
    rw [← h]
    cases hc : premisesCmp a.premises b.premises <;> try rfl
    by_cases hl : a.premises.length = b.premises.length
    · rw [hc, hl, if_neg (by simp)] at h
      split_ifs at h <;> cases h
    · simp [hl]

theorem routeCmp_lt_iff {a b : DerivRoute} : routeCmp a b = .lt ↔ a.key < b.key := by
  rw [routeCmp_spec]
  split_ifs <;> simp_all

theorem routeCmp_eq_iff {a b : DerivRoute} : routeCmp a b = .eq ↔ a.key = b.key := by
  rw [routeCmp_spec]
  split_ifs with h₁ h₂
  · simp [h₁.ne]
  · simp [h₂]
  · simp [h₂]

theorem routeCmp_gt_iff {a b : DerivRoute} : routeCmp a b = .gt ↔ b.key < a.key := by
  rw [routeCmp_spec]
  split_ifs with h₁ h₂
  · simp [h₁.le]
  · simp [h₂]
  · simpa using lt_of_le_of_ne (not_lt.1 h₁) (Ne.symm h₂)

/-- `derivation_depth`: the depth of the shallowest route, zero for an assertion. -/
def derivationDepth : List DerivRoute → UInt16
  | [] => 0
  | rt :: routes =>
    routes.foldl (fun best rt => if rt.depth < best then rt.depth else best) rt.depth

/-! ## Adding a route -/

/-- What `record_add_route` returns: 0 with the routes after it, 1, or -1. -/
inductive AddRoute
  | added (routes : List DerivRoute)
  | redundant
  | refused

/-- The search of `record_add_route` for the sorted position; `none` when the route is already
there. -/
def routeSlot (rt : DerivRoute) : List DerivRoute → Option ℕ
  | [] => some 0
  | x :: xs =>
    match routeCmp rt x with
    | .eq => none
    | .lt => some 0
    | .gt => (routeSlot rt xs).map (· + 1)

/-- The part of `record_add_route` behind its argument checks. -/
def insertRoute (routes : List DerivRoute) (rt : DerivRoute) : AddRoute :=
  match routeSlot rt routes with
  | none => .redundant
  | some i =>
    if derivMaxRoutes ≤ routes.length then
      -- full: the route is dropped, or displaces the last one
      if derivMaxRoutes ≤ i then .redundant
      else .added ((routes.take i ++ rt :: routes.drop i).take derivMaxRoutes)
    else .added (routes.take i ++ rt :: routes.drop i)

def recordAddRoute (routes : List DerivRoute) (rule : DerivRule) (depth : UInt16)
    (premises : List UInt64) : AddRoute :=
  if rule = .none then .refused
  else if premises = [] ∨ derivMaxPremises < premises.length then .refused
  else insertRoute routes ⟨rule, depth, premises⟩

/-- A justification: a rule, and between one and `derivMaxPremises` premises. -/
def DerivRoute.Valid (rt : DerivRoute) : Prop :=
  rt.rule ≠ .none ∧ rt.premises ≠ [] ∧ rt.premises.length ≤ derivMaxPremises

instance (rt : DerivRoute) : Decidable rt.Valid := inferInstanceAs (Decidable (_ ∧ _ ∧ _))

/-- Strictly sorted routes, as `record_add_route` keeps them. -/
def RoutesSorted (routes : List DerivRoute) : Prop :=
  routes.Pairwise fun a b => routeCmp a b = .lt

instance (routes : List DerivRoute) : Decidable (RoutesSorted routes) :=
  inferInstanceAs (Decidable (List.Pairwise _ _))

theorem routesSorted_iff {routes : List DerivRoute} :
    RoutesSorted routes ↔ routes.Pairwise fun a b => a.key < b.key := by
  simp only [RoutesSorted, routeCmp_lt_iff]

variable {rt : DerivRoute} {l : List DerivRoute}

theorem routeSlot_spec {i : ℕ} (hl : RoutesSorted l) (h : routeSlot rt l = some i) :
    i ≤ l.length ∧ (∀ x ∈ l.take i, x.key < rt.key) ∧ ∀ x ∈ l.drop i, rt.key < x.key := by
  induction l generalizing i with
  | nil => cases h; simp
  | cons x xs ih =>
    obtain ⟨hx, hxs⟩ := pairwise_cons.1 (routesSorted_iff.1 hl)
    unfold routeSlot at h
    split at h
    · cases h
    · cases h
      have hlt := routeCmp_lt_iff.1 ‹routeCmp rt x = .lt›
      refine ⟨by simp, by simp, ?_⟩
      intro y hy
      rcases mem_cons.1 hy with rfl | hy
      · exact hlt
      · exact hlt.trans (hx y hy)
    · obtain ⟨j, hj, rfl⟩ := map_eq_some_iff.1 h
      have hgt := routeCmp_gt_iff.1 ‹routeCmp rt x = .gt›
      obtain ⟨hle, hlo, hhi⟩ := ih (routesSorted_iff.2 hxs) hj
      refine ⟨by simpa using hle, ?_, by simpa using hhi⟩
      intro y hy
      rcases mem_cons.1 hy with rfl | hy
      · exact hgt
      · exact hlo y hy

theorem routeSlot_of_forall_lt (h : ∀ x ∈ l, x.key < rt.key) : routeSlot rt l = some l.length := by
  induction l with
  | nil => rfl
  | cons x xs ih =>
    have hx := routeCmp_gt_iff.2 (h x (by simp))
    simp [routeSlot, hx, ih fun y hy => h y (by simp [hy])]

theorem exists_of_routeSlot_eq_none (h : routeSlot rt l = none) : ∃ x ∈ l, x.key = rt.key := by
  induction l with
  | nil => cases h
  | cons x xs ih =>
    unfold routeSlot at h
    split at h
    · exact ⟨x, by simp, (routeCmp_eq_iff.1 ‹routeCmp rt x = .eq›).symm⟩
    · cases h
    · obtain ⟨y, hy, hkey⟩ := ih (by simpa using h)
      exact ⟨y, mem_cons_of_mem x hy, hkey⟩

/-- The routes after an insertion at the sorted position are sorted. -/
theorem routesSorted_insert {i : ℕ} (hl : RoutesSorted l) (h : routeSlot rt l = some i) :
    RoutesSorted (l.take i ++ rt :: l.drop i) := by
  obtain ⟨-, hlo, hhi⟩ := routeSlot_spec hl h
  rw [routesSorted_iff] at hl ⊢
  refine pairwise_append.2 ⟨hl.sublist (take_sublist _ _),
    pairwise_cons.2 ⟨hhi, hl.sublist (drop_sublist _ _)⟩, ?_⟩
  intro x hx y hy
  rcases mem_cons.1 hy with rfl | hy
  · exact hlo x hx
  · exact (hlo x hx).trans (hhi y hy)

/-- What `record_add_route` keeps true of the routes of a record. -/
structure RoutesOk (routes : List DerivRoute) : Prop where
  sorted : RoutesSorted routes
  length_le : routes.length ≤ derivMaxRoutes
  valid : ∀ rt ∈ routes, rt.Valid

theorem RoutesOk.nil : RoutesOk [] := ⟨List.Pairwise.nil, by simp, by simp⟩

theorem insertRoute_ok {l' : List DerivRoute} (hl : RoutesOk l) (hrt : rt.Valid)
    (h : insertRoute l rt = .added l') : RoutesOk l' ∧ l' ≠ [] := by
  unfold insertRoute at h
  split at h
  · cases h
  · rename_i i hi
    have hsorted := routesSorted_insert hl.sorted hi
    have hvalid : ∀ x ∈ l.take i ++ rt :: l.drop i, x.Valid := by
      intro x hx
      rcases mem_append.1 hx with hx | hx
      · exact hl.valid x (mem_of_mem_take hx)
      · rcases mem_cons.1 hx with rfl | hx
        · exact hrt
        · exact hl.valid x (mem_of_mem_drop hx)
    have hle := (routeSlot_spec hl.sorted hi).1
    split_ifs at h with hfull <;> cases h
    · refine ⟨⟨hsorted.sublist (take_sublist _ _), by simp,
        fun x hx => hvalid x (mem_of_mem_take hx)⟩, by simp [derivMaxRoutes]⟩
    · refine ⟨⟨hsorted, ?_, hvalid⟩, by simp⟩
      simp only [length_append, length_take, length_cons, length_drop]
      omega

theorem recordAddRoute_ok {l' : List DerivRoute} {rule : DerivRule} {d : UInt16} {ps : List UInt64}
    (hl : RoutesOk l) (h : recordAddRoute l rule d ps = .added l') :
    RoutesOk l' ∧ l' ≠ [] := by
  unfold recordAddRoute at h
  split at h
  · cases h
  · split at h
    · cases h
    · have hps : ps ≠ [] ∧ ps.length ≤ derivMaxPremises := by
        simpa only [not_or, not_lt] using ‹¬ (ps = [] ∨ derivMaxPremises < ps.length)›
      exact insertRoute_ok hl ⟨‹rule ≠ .none›, hps⟩ h

/-- Routes are read back in their order: each one goes behind those before it. -/
theorem recordAddRoute_append (hv : rt.Valid) (hlt : ∀ x ∈ l, routeCmp x rt = .lt)
    (hlen : l.length < derivMaxRoutes) :
    recordAddRoute l rt.rule rt.depth rt.premises = .added (l ++ [rt]) := by
  obtain ⟨hr, hne, hle⟩ := hv
  have hslot : routeSlot rt l = some l.length :=
    routeSlot_of_forall_lt fun x hx => routeCmp_lt_iff.1 (hlt x hx)
  simp [recordAddRoute, insertRoute, hr, hne, not_lt.2 hle, hslot, not_le.2 hlen]

/-- The loop of `record_clone` over the routes; `none` when one is refused. -/
def addRoutes : List DerivRoute → List DerivRoute → Option (List DerivRoute)
  | routes, [] => some routes
  | routes, rt :: rts =>
    match recordAddRoute routes rt.rule rt.depth rt.premises with
    | .added routes => addRoutes routes rts
    | .redundant => addRoutes routes rts
    | .refused => none

/-- `record_clone`: the fact and the routes are set anew, and half an embedding is none. -/
def recordClone (src : MemoryRecord) : Option MemoryRecord :=
  (recordSetFact src.fact.kind src.fact.subject src.fact.predicate src.fact.objectId
    src.fact.objectStr).bind fun fact =>
  (addRoutes [] src.routes).map fun routes =>
    { src with
      fact
      routes
      embedding :=
        if src.embedding.dim ≠ 0 ∧ src.embedding.vecCount ≠ 0 then src.embedding else .absent }

theorem agentId_of_recordClone {r copy : MemoryRecord} (h : recordClone r = some copy) :
    copy.agentId = r.agentId := by
  obtain ⟨fact, -, h⟩ := bind_eq_some_iff.1 h
  obtain ⟨routes, -, rfl⟩ := map_eq_some_iff.1 h
  rfl

theorem addRoutes_ok {routes rts routes' : List DerivRoute} (h : RoutesOk routes)
    (hadd : addRoutes routes rts = some routes') : RoutesOk routes' := by
  induction rts generalizing routes with
  | nil =>
    cases hadd
    exact h
  | cons rt rts ih =>
    unfold addRoutes at hadd
    split at hadd
    · exact ih (recordAddRoute_ok h ‹_›).1 hadd
    · exact ih h hadd
    · cases hadd

theorem addRoutes_append {routes rts : List DerivRoute} (h : RoutesOk (routes ++ rts)) :
    addRoutes routes rts = some (routes ++ rts) := by
  induction rts generalizing routes with
  | nil => simp [addRoutes]
  | cons rt rts ih =>
    have hlen := h.length_le
    have hlt := (pairwise_append.1 h.sorted).2.2
    rw [length_append, length_cons] at hlen
    rw [addRoutes, recordAddRoute_append (h.valid rt (by simp)) (fun x hx => hlt x hx rt (by simp))
      (by omega)]
    have happend : RoutesOk ((routes ++ [rt]) ++ rts) := by simpa using h
    simpa using ih happend

end AegisDB
