import AegisDB.Foundations.GrowingTable
import AegisDB.Inference.Rules
import AegisDB.Storage.HashIndex
import Mathlib.Data.List.Rotate

/-!
# The inference pass

`inference.c`: one application of the declared rules to a snapshot of facts. `seen` is the table of
the triples there are, as facts or as conclusions of this pass, and `adj` the table of the id-valued
facts by subject and predicate. A cap on the conclusions or on the candidates ends a pass early.

After phase 1 the tables list the facts (`tablesExact_indexFacts`), so that the candidates of a fact
are the firings of the rules on it (`mem_firingsIn`).
-/

namespace AegisDB

open List Function

/-! ## The tables -/

/-- The bytes of `str_hash64` (FNV-1a). -/
def strHash64From : UInt64 → List UInt8 → UInt64
  | h, [] => h
  | h, b :: s => strHash64From ((h ^^^ b.toUInt64) * 1099511628211) s

def strHash64 (s : CString) : UInt64 :=
  let h := strHash64From 1469598103934665603 s.bytes
  if h = 0 then 1 else h

def tripleHash (t : FactTriple) : ℕ :=
  let object := match t.object with
    | .id o => mix64 o
    | .str s => strHash64 s
  (mix64 (mix64 t.subject ^^^ strHash64 t.predicate ^^^ object)).toNat

def spHash (k : UInt64 × CString) : ℕ := (mix64 (mix64 k.1 ^^^ strHash64 k.2)).toNat

/-- `Seen`: for each triple `none` when it is a fact (`SEEN_INPUT`), and otherwise the place of its
conclusion. -/
abbrev Seen := OpenTable tripleHash (Option ℕ)

/-- `Adj`: the places of the facts with a subject and a predicate. -/
abbrev Adj := OpenTable spHash (List ℕ)

def adjAdd (adj : Adj) (k : UInt64 × CString) (i : ℕ) : Adj :=
  adj.insert k ((adj.get? k).getD [] ++ [i])

/-- Phase 1, from place `i` on: all facts are seen, and those with an id as object are joined. -/
def indexFacts : List InferFact → ℕ → Seen × Adj → Seen × Adj
  | [], _, tables => tables
  | f :: fs, i, (seen, adj) =>
    indexFacts fs (i + 1) (seen.insert f.triple none,
      match f.triple.object with
      | .id _ => adjAdd adj (f.triple.subject, f.triple.predicate) i
      | .str _ => adj)

/-! ## The pass -/

structure InferConclusion where
  routes : List InferRoute
  confidence : F32
  triple : FactTriple

structure InferOpts where
  /-- `max_depth`, zero for the default. -/
  maxDepth : UInt16
  /-- `max_conclusions`, zero for none. -/
  maxConclusions : ℕ
  /-- `max_candidates`, zero for the default. -/
  maxCandidates : ℕ
  startIndex : ℕ
  /-- `confidence_floor`, not above zero for the default. -/
  confidenceFloor : F32

namespace InferOpts

/-- `INFER_DEFAULT_MAX_DEPTH`. -/
def depthLimit (opts : InferOpts) : UInt16 := if opts.maxDepth = 0 then 4 else opts.maxDepth

/-- `INFER_DEFAULT_MAX_CANDIDATES`. -/
def candidateLimit (opts : InferOpts) : ℕ :=
  if opts.maxCandidates = 0 then 1000000 else opts.maxCandidates

/-- `INFER_DEFAULT_CONFIDENCE_FLOOR`, the float 0.1. -/
def floor (opts : InferOpts) : F32 :=
  if F32.zero.Lt opts.confidenceFloor then opts.confidenceFloor else ⟨0x3DCCCCCD⟩

end InferOpts

structure InferResult where
  items : List InferConclusion
  truncated : Bool
  candidatesExamined : ℕ
  factsScanned : ℕ

def routesInsert (routes : List InferRoute) (rt : InferRoute) : List InferRoute :=
  match routeSlot rt.toDerivRoute (routes.map InferRoute.toDerivRoute) with
  | none => routes
  | some i =>
    if derivMaxRoutes ≤ routes.length then
      if derivMaxRoutes ≤ i then routes
      else (routes.take i ++ rt :: routes.drop i).take derivMaxRoutes
    else routes.take i ++ rt :: routes.drop i

def conclusionConfidence (routes : List InferRoute) : F32 :=
  routes.foldl (fun best rt => if best.Lt rt.confidence then rt.confidence else best) .zero

/-- A conclusion with the confidence of its routes. -/
def concluded (t : FactTriple) (routes : List InferRoute) : InferConclusion :=
  ⟨routes, conclusionConfidence routes, t⟩

/-- The locals of `infer_run` that its scan changes. -/
structure PassState where
  items : List InferConclusion
  seen : Seen
  cands : ℕ
  stop : Bool
  truncated : Bool

def offer (maxDepth : UInt16) (maxConc : ℕ) (t : FactTriple) (rt : InferRoute) (deepest : UInt16)
    (s : PassState) : PassState :=
  if maxDepth ≤ deepest then s
  else
    let placed := { rt with depth := deepest + 1 }
    match s.seen.get? t with
    | some none => s
    | some (some i) =>
      { s with items := s.items.modify i fun cur => concluded t (routesInsert cur.routes placed) }
    | none =>
      if maxConc ≠ 0 ∧ maxConc ≤ s.items.length then { s with stop := true, truncated := true }
      else
        { s with
          items := s.items ++ [concluded t (routesInsert [] placed)]
          seen := s.seen.insert t (some s.items.length) }

/-- The joins of a fact with a later one; only facts with an id as object are in `adj`. -/
def joinFiring (f g : InferFact) : Option Firing :=
  match g.triple.object with
  | .id d => some ⟨.transitive, ⟨f.triple.subject, f.triple.predicate, .id d⟩, f, some g⟩
  | .str _ => none

/-- `adj_get`: the facts behind the places under a key. -/
def Adj.facts (adj : Adj) (facts : List InferFact) (k : UInt64 × CString) : List InferFact :=
  ((adj.get? k).getD []).filterMap fun j => facts[j]?

/-- The candidates of one fact, in the order in which the scan comes to them. -/
def firingsOf (registry : List PredicateSpec) (partners : UInt64 × CString → List InferFact)
    (f : InferFact) : List Firing :=
  match f.triple.object with
  | .str _ => []
  | .id o =>
    match predicateRegistryGet registry f.triple.predicate with
    | none => []
    | some spec =>
      (if spec.symmetric then
        [⟨.symmetric, ⟨o, f.triple.predicate, .id f.triple.subject⟩, f, none⟩] else []) ++
      (spec.inverseOf.toList.map fun q => ⟨.inverse, ⟨o, q, .id f.triple.subject⟩, f, none⟩) ++
      (if spec.transitive then
        (partners (o, f.triple.predicate)).filterMap (joinFiring f) else [])

variable (mul : F32 → F32 → F32)

/-- One candidate: counted, and offered unless the budget is spent. After `stop` the scan looks at
no other. -/
def examine (opts : InferOpts) (s : PassState) (c : Firing) : PassState :=
  if s.stop then s
  else if opts.candidateLimit < s.cands + 1 then
    { s with cands := s.cands + 1, stop := true, truncated := true }
  else
    let (rt, deepest) := routeOf mul opts.floor c.rule c.premise c.second
    offer opts.depthLimit opts.maxConclusions c.triple rt deepest { s with cands := s.cands + 1 }

/-- Phase 2 over the facts that are left, with the number of facts the scan came to. -/
def scanFacts (opts : InferOpts) (firings : InferFact → List Firing) :
    List InferFact → PassState × ℕ → PassState × ℕ
  | [], r => r
  | f :: fs, (s, scanned) =>
    if s.stop then (s, scanned)
    else scanFacts opts firings fs ((firings f).foldl (examine mul opts) s, scanned + 1)

/-- `infer_run`; the scan begins at `start_index` and wraps. -/
def inferRun (registry : Option (List PredicateSpec)) (facts : List InferFact) (opts : InferOpts) :
    InferResult :=
  match registry with
  | none => ⟨[], false, 0, 0⟩
  | some registry =>
    if facts.length = 0 then ⟨[], false, 0, 0⟩
    else
      let (seen, adj) := indexFacts facts 0 (.create 0, .create 0)
      let (s, scanned) := scanFacts mul opts (firingsOf registry (adj.facts facts))
        (facts.rotate (opts.startIndex % facts.length)) (⟨[], seen, 0, false, false⟩, 0)
      ⟨s.items, s.truncated, s.cands, scanned⟩

/-! ## What the tables hold -/

/-- A fact with an id as object, under its subject and predicate. -/
def InferFact.Joins (k : UInt64 × CString) (f : InferFact) : Prop :=
  (f.triple.subject, f.triple.predicate) = k ∧ ∃ d, f.triple.object = .id d

instance (k : UInt64 × CString) (f : InferFact) : Decidable (f.Joins k) :=
  match h : f.triple.object with
  | .id d => decidable_of_iff ((f.triple.subject, f.triple.predicate) = k)
      ⟨fun hk => ⟨hk, d, h⟩, And.left⟩
  | .str _ => isFalse fun hf => by obtain ⟨-, d, hd⟩ := hf; rw [h] at hd; cases hd

/-- The tables after the facts `done` of phase 1. -/
structure TablesExact (facts done : List InferFact) (tables : Seen × Adj) : Prop where
  seen : ∀ t, tables.1.get? t = if t ∈ done.map InferFact.triple then some none else none
  adj : ∀ k, tables.2.facts facts k = done.filter fun f => f.Joins k

theorem tablesExact_create (facts : List InferFact) :
    TablesExact facts [] (.create 0, .create 0) := by
  constructor <;> intros <;> simp [Adj.facts]

variable {facts : List InferFact}

theorem Adj.facts_add {i : ℕ} {f : InferFact} (adj : Adj) (hi : facts[i]? = some f)
    (k k' : UInt64 × CString) :
    (adjAdd adj k i).facts facts k' = adj.facts facts k' ++ if k' = k then [f] else [] := by
  unfold Adj.facts adjAdd
  rw [OpenTable.get?_insert, update_apply]
  split_ifs with hk
  · subst hk
    simp [hi]
  · simp

theorem TablesExact.step {done : List InferFact} {f : InferFact} {seen : Seen} {adj : Adj}
    (h : TablesExact facts done (seen, adj)) (hf : facts[done.length]? = some f) :
    TablesExact facts (done ++ [f]) (seen.insert f.triple none,
      match f.triple.object with
      | .id _ => adjAdd adj (f.triple.subject, f.triple.predicate) done.length
      | .str _ => adj) where
  seen t := by
    rw [OpenTable.get?_insert, update_apply, h.seen]
    by_cases ht : t = f.triple <;> simp [ht]
  adj k := by
    rw [filter_append, ← h.adj k]
    cases ho : f.triple.object with
    | id d =>
      rw [Adj.facts_add adj hf]
      congr 1
      by_cases hk : k = (f.triple.subject, f.triple.predicate)
      · have hj : f.Joins k := ⟨hk.symm, d, ho⟩
        rw [if_pos hk]
        simp [hj]
      · have hj : ¬ f.Joins k := fun hj => hk hj.1.symm
        simp [hk, hj]
    | str s =>
      have hj : ¬ f.Joins k := by
        rintro ⟨-, d, hd⟩
        rw [ho] at hd
        cases hd
      simp [hj]

theorem TablesExact.run (fs : List InferFact) {done : List InferFact} {tables : Seen × Adj}
    (h : TablesExact facts done tables) (hfacts : facts = done ++ fs) :
    TablesExact facts facts (indexFacts fs done.length tables) := by
  induction fs generalizing done tables with
  | nil =>
    rw [append_nil] at hfacts
    rwa [hfacts] at h ⊢
  | cons f fs ih =>
    have hf : facts[done.length]? = some f := by simp [hfacts]
    have hnext := ih (h.step hf) (by simp [hfacts])
    rwa [length_append] at hnext

/-- After phase 1 all facts are seen, and the facts of each key are listed in their order. -/
theorem tablesExact_indexFacts (facts : List InferFact) :
    TablesExact facts facts (indexFacts facts 0 (.create 0, .create 0)) :=
  (tablesExact_create facts).run facts rfl

/-- The candidates of one fact when the partners of a join are found among the facts. -/
def firingsIn (registry : List PredicateSpec) (facts : List InferFact) : InferFact → List Firing :=
  firingsOf registry fun k => facts.filter fun f => f.Joins k

theorem TablesExact.firingsOf_eq {tables : Seen × Adj} (h : TablesExact facts facts tables)
    (registry : List PredicateSpec) :
    firingsOf registry (tables.2.facts facts) = firingsIn registry facts := by
  rw [firingsIn, ← funext h.adj]

theorem joinFiring_eq_some {f g : InferFact} {c : Firing} :
    joinFiring f g = some c ↔ ∃ d, g.triple.object = .id d ∧
      c = ⟨.transitive, ⟨f.triple.subject, f.triple.predicate, .id d⟩, f, some g⟩ := by
  unfold joinFiring
  cases g.triple.object <;> simp [eq_comm]

theorem mem_firingsIn {registry : List PredicateSpec} {f : InferFact} (hf : f ∈ facts)
    {c : Firing} :
    c ∈ firingsIn registry facts f ↔ Fires registry facts c ∧ c.premise = f := by
  unfold firingsIn firingsOf
  constructor
  · intro hc
    cases ho : f.triple.object with
    | str s => simp [ho] at hc
    | id o =>
      cases hspec : predicateRegistryGet registry f.triple.predicate with
      | none => simp [ho, hspec] at hc
      | some spec =>
        simp only [ho, hspec, mem_append, mem_ite_nil_right, mem_singleton,
          mem_map, Option.mem_toList, mem_filterMap, mem_filter,
          joinFiring_eq_some, decide_eq_true_eq] at hc
        rcases hc with (⟨hrule, rfl⟩ | ⟨q, hrule, rfl⟩) | ⟨hrule, g, ⟨hg, hkey, -⟩, d, hd, rfl⟩
        · exact ⟨.symmetric hf ho hspec hrule, rfl⟩
        · exact ⟨.inverse hf ho hspec hrule, rfl⟩
        · obtain ⟨hsubject, hpredicate⟩ := Prod.mk.inj hkey
          exact ⟨.transitive hf ho hspec hrule hg hsubject hpredicate hd, rfl⟩
  · rintro ⟨hfires, rfl⟩
    cases hfires with
    | symmetric hf ho hspec hrule | inverse hf ho hspec hrule => simp [ho, hspec, hrule]
    | @transitive f g o d spec hf ho hspec hrule hg hsubject hpredicate hobject =>
      simp only [ho, hspec, hrule, if_true, mem_append, mem_filterMap,
        mem_filter, joinFiring_eq_some, decide_eq_true_eq]
      refine .inr ⟨g, ⟨hg, ?_, d, hobject⟩, d, hobject, rfl⟩
      rw [hsubject, hpredicate]

end AegisDB
