import AegisDB.Index.Tags

/-!
# The reverse edge index

`edge_index.c`: the sources of the edges that point at each record, with the kinds of the edges
interned. An edge without a kind, or with an empty one, is filed without; an edge whose kind cannot be
interned is filed with an unknown one. The open-addressed table of targets is a posting table here.

`EdgesExact out alive e` says that the index lists exactly the edges of the records in `out` whose
target is alive, all with a known kind. It is kept when a record comes or goes, and a lookup then
returns the sources of those edges (`EdgesExact.mem_edgeIndexSources`).
-/

namespace AegisDB

open List InternTable Function

variable {kinds : InternTable CString}

def edgeMaxKinds : ℕ := 4096

def edgeMaxKindLen : ℕ := 64

/-- The number of a kind: `EDGE_KIND_NONE`, an interned one, or `EDGE_KIND_UNKNOWN`. -/
inductive KindId
  | none
  | interned (i : ℕ)
  | unknown
  deriving DecidableEq

def KindId.rank : KindId → ℕ ×ₗ ℕ
  | .none => toLex (0, 0)
  | .interned i => toLex (1, i)
  | .unknown => toLex (2, 0)

theorem KindId.rank_injective : Injective KindId.rank := by
  intro a b h
  cases a <;> cases b <;> simp_all [KindId.rank]

structure EdgePost where
  fromId : UInt64
  kind : KindId
  deriving DecidableEq

/-- What `post_cmp` compares by. -/
def EdgePost.key (p : EdgePost) : ℕ ×ₗ (ℕ ×ₗ ℕ) := toLex (p.fromId.toNat, p.kind.rank)

theorem EdgePost.key_injective : Injective EdgePost.key := by
  rintro ⟨a, k⟩ ⟨a', k'⟩ h
  simp only [EdgePost.key, EmbeddingLike.apply_eq_iff_eq, Prod.mk.injEq, UInt64.toNat_inj,
    KindId.rank_injective.eq_iff] at h
  rw [h.1, h.2]

/-- `EdgeIndex`, without its counters. -/
structure EdgeIndex where
  kinds : InternTable CString
  targets : Postings UInt64 EdgePost.key

def edgeIndexCreate : EdgeIndex := ⟨.empty, .empty⟩

/-- The label of an edge: an empty kind carries no more than none. -/
def kindLabel (kind : Option CString) : Option CString := kind.filter fun k => k.bytes ≠ []

def kindIntern (e : EdgeIndex) (kind : Option CString) : EdgeIndex × KindId :=
  match kindLabel kind with
  | none => (e, .none)
  | some k =>
    if edgeMaxKindLen < k.bytes.length then (e, .unknown)
    else ({ e with kinds := (e.kinds.intern edgeMaxKinds k).1 },
      (e.kinds.intern edgeMaxKinds k).2.elim .unknown .interned)

def kindLookup (kinds : InternTable CString) (kind : Option CString) : KindId :=
  match kindLabel kind with
  | none => .none
  | some k => (kinds.find? k).elim .unknown .interned

def edgeIndexAdd (e : EdgeIndex) (fromId toId : UInt64) (kind : Option CString) : EdgeIndex :=
  let (e, k) := kindIntern e kind
  { e with targets := e.targets.add toId ⟨fromId, k⟩ }

def edgeIndexRemove (e : EdgeIndex) (fromId toId : UInt64) (kind : Option CString) : EdgeIndex :=
  { e with targets := e.targets.remove toId (EdgePost.key ⟨fromId, kindLookup e.kinds kind⟩) }

def edgeIndexRemoveTarget (e : EdgeIndex) (id : UInt64) : EdgeIndex :=
  { e with targets := e.targets.clear id }

structure EdgeSource where
  fromId : UInt64
  kind : Option CString
  kindUnknown : Bool
  deriving DecidableEq

/-- The source of a posting, with `kind_name`. -/
def EdgeIndex.source (e : EdgeIndex) (p : EdgePost) : EdgeSource where
  fromId := p.fromId
  kind :=
    match p.kind with
    | .interned i => e.kinds.name? i
    | _ => none
  kindUnknown := p.kind = .unknown

/-- One of the kinds is that of the posting, or its kind is unknown and one of the kinds was never
interned. -/
def kindKept (e : EdgeIndex) (kinds : List CString) (k : KindId) : Bool :=
  let wanted := (kinds.filter fun s => s.bytes ≠ []).map fun s => kindLookup e.kinds (some s)
  (k = .unknown ∧ .unknown ∈ wanted) ∨ k ∈ wanted.filter (· ≠ .unknown)

def edgeIndexSources (e : EdgeIndex) (toId : UInt64) (kinds : List CString) : List EdgeSource :=
  ((e.targets.under toId).filter fun p => kinds = [] ∨ kindKept e kinds p.kind).map e.source

/-! ## What the index lists -/

/-- The edges of the records whose target is alive are listed, under the numbers of their kinds. -/
structure EdgesExact (out : UInt64 → List Relationship) (alive : UInt64 → Prop) (e : EdgeIndex) :
    Prop where
  holds : ∀ b p, e.targets.Holds b p ↔ alive b ∧ ∃ rel ∈ out p.fromId, rel.toId = b ∧
    kindLookup e.kinds rel.kind = p.kind
  named : ∀ a, ∀ rel ∈ out a, alive rel.toId → kindLookup e.kinds rel.kind ≠ .unknown

theorem edgesExact_create (alive : UInt64 → Prop) :
    EdgesExact (fun _ => []) alive edgeIndexCreate := by
  constructor <;> simp [edgeIndexCreate]

theorem kindLookup_of_le {kinds' : InternTable CString} (hle : kinds.Le kinds')
    {kind : Option CString} (h : kindLookup kinds kind ≠ .unknown) :
    kindLookup kinds' kind = kindLookup kinds kind := by
  unfold kindLookup at h ⊢
  cases hk : kindLabel kind with
  | none => rfl
  | some k =>
    simp only [hk] at h ⊢
    cases hf : kinds.find? k with
    | none => simp [hf] at h
    | some i => rw [find?_of_le hle hf]

theorem le_kindIntern (e : EdgeIndex) (kind : Option CString) :
    e.kinds.Le (kindIntern e kind).1.kinds := by
  unfold kindIntern
  split
  · exact ⟨[], by simp⟩
  · split
    · exact ⟨[], by simp⟩
    · exact e.kinds.le_intern _ _

@[simp] theorem targets_kindIntern (e : EdgeIndex) (kind : Option CString) :
    (kindIntern e kind).1.targets = e.targets := by
  unfold kindIntern
  split
  · rfl
  · split <;> rfl

theorem kindLookup_kindIntern {e : EdgeIndex} {kind : Option CString}
    (h : (kindIntern e kind).2 ≠ .unknown) :
    kindLookup (kindIntern e kind).1.kinds kind = (kindIntern e kind).2 := by
  unfold kindIntern at h ⊢
  unfold kindLookup
  cases hk : kindLabel kind with
  | none => rfl
  | some k =>
    simp only [hk] at h ⊢
    split
    · rename_i hlen
      simp [hlen] at h
    · rw [find?_intern]

section

variable {out out' : UInt64 → List Relationship} {alive alive' : UInt64 → Prop} {e : EdgeIndex}
  {a b : UInt64}

theorem EdgesExact.congr (h : EdgesExact out alive e) (halive : ∀ b, alive' b ↔ alive b)
    (hout : ∀ a rel, alive rel.toId → (rel ∈ out' a ↔ rel ∈ out a)) : EdgesExact out' alive' e where
  holds b p := by
    rw [h.holds b p, halive]
    refine and_congr_right fun hb => exists_congr fun rel => ?_
    constructor
    · rintro ⟨hrel, rfl, hk⟩
      exact ⟨(hout _ _ hb).2 hrel, rfl, hk⟩
    · rintro ⟨hrel, rfl, hk⟩
      exact ⟨(hout _ _ hb).1 hrel, rfl, hk⟩
  named a rel hrel hb := h.named a rel ((hout a rel ((halive _).1 hb)).1 hrel) ((halive _).1 hb)

theorem EdgesExact.addEdge (h : EdgesExact out alive e) {rel : Relationship}
    (halive : alive rel.toId) (hroom : (kindIntern e rel.kind).2 ≠ .unknown) :
    EdgesExact (update out a (out a ++ [rel])) alive
      (edgeIndexAdd e a rel.toId rel.kind) := by
  have hle := le_kindIntern e rel.kind
  have hk := kindLookup_kindIntern hroom
  have hmem (a' : UInt64) (rel' : Relationship) :
      rel' ∈ update out a (out a ++ [rel]) a' ↔ rel' ∈ out a' ∨ a' = a ∧ rel' = rel := by
    by_cases ha : a' = a
    · subst ha
      simp
    · simp [ha]
  -- the kinds that were there keep their numbers
  have hold (a' : UInt64) (rel' : Relationship) (h' : rel' ∈ out a') (hb : alive rel'.toId) :
      kindLookup (kindIntern e rel.kind).1.kinds rel'.kind = kindLookup e.kinds rel'.kind :=
    kindLookup_of_le hle (h.named a' rel' h' hb)
  constructor
  · rintro b ⟨a', k⟩
    simp only [edgeIndexAdd, targets_kindIntern]
    rw [Postings.holds_add EdgePost.key_injective, h.holds]
    constructor
    · rintro (⟨rfl, hp⟩ | ⟨hb, rel', hrel', rfl, hkind⟩)
      · cases hp
        exact ⟨halive, rel, (hmem _ _).2 (.inr ⟨rfl, rfl⟩), rfl, hk⟩
      · exact ⟨hb, rel', (hmem _ _).2 (.inl hrel'), rfl, (hold _ _ hrel' hb).trans hkind⟩
    · rintro ⟨hb, rel', hrel', rfl, hkind⟩
      rcases (hmem _ _).1 hrel' with hrel' | ⟨rfl, rfl⟩
      · exact .inr ⟨hb, rel', hrel', rfl, (hold _ _ hrel' hb).symm.trans hkind⟩
      · exact .inl ⟨rfl, by rw [← hkind, hk]⟩
  · intro a' rel' hrel' hb
    simp only [edgeIndexAdd]
    rcases (hmem _ _).1 hrel' with hrel' | ⟨-, rfl⟩
    · rw [hold _ _ hrel' hb]
      exact h.named a' rel' hrel' hb
    · rw [hk]
      exact hroom

/-- The kinds of several edges can be interned one after the other. -/
def KindsFit (e : EdgeIndex) (a : UInt64) : List Relationship → Prop
  | [] => True
  | rel :: rels => (kindIntern e rel.kind).2 ≠ .unknown ∧
      KindsFit (edgeIndexAdd e a rel.toId rel.kind) a rels

section

variable (h : EdgesExact out alive e)

include h

theorem EdgesExact.addAll {rels : List Relationship} (halive : ∀ rel ∈ rels, alive rel.toId)
    (hroom : KindsFit e a rels) :
    EdgesExact (update out a (out a ++ rels)) alive
      (rels.foldl (fun e rel => edgeIndexAdd e a rel.toId rel.kind) e) := by
  induction rels generalizing e out with
  | nil => simpa using h
  | cons rel rels ih =>
    have h' := h.addEdge (a := a) (halive rel (by simp)) hroom.1
    have := ih h' (fun r hr => halive r (by simp [hr])) hroom.2
    simpa using this

theorem EdgesExact.removeAll :
    EdgesExact (update out a []) alive
      ((out a).foldl (fun e rel => edgeIndexRemove e a rel.toId rel.kind) e) := by
  have hfold (rels : List Relationship) (e : EdgeIndex) :
      (rels.foldl (fun e rel => edgeIndexRemove e a rel.toId rel.kind) e).kinds = e.kinds ∧
      ∀ b p, (rels.foldl (fun e rel => edgeIndexRemove e a rel.toId rel.kind) e).targets.Holds b p ↔
        e.targets.Holds b p ∧ ¬ ∃ rel ∈ rels, rel.toId = b ∧
          p = ⟨a, kindLookup e.kinds rel.kind⟩ := by
    induction rels generalizing e with
    | nil => simp
    | cons rel rels ih =>
      obtain ⟨hkinds, hholds⟩ := ih (edgeIndexRemove e a rel.toId rel.kind)
      refine ⟨hkinds, fun b p => ?_⟩
      rw [foldl_cons, hholds, edgeIndexRemove, Postings.holds_remove,
        EdgePost.key_injective.eq_iff, exists_mem_cons_iff, not_or, and_assoc,
        eq_comm]
  obtain ⟨hkinds, hholds⟩ := hfold (out a) e
  have hmem (a' : UInt64) (rel : Relationship) :
      rel ∈ update out a [] a' ↔ rel ∈ out a' ∧ a' ≠ a := by
    by_cases ha : a' = a
    · subst ha
      simp
    · simp [ha]
  constructor
  · rintro b ⟨a', k⟩
    rw [hholds, h.holds, hkinds]
    constructor
    · rintro ⟨⟨hb, rel, hrel, rfl, hk⟩, hnot⟩
      refine ⟨hb, rel, (hmem _ _).2 ⟨hrel, ?_⟩, rfl, hk⟩
      rintro rfl
      exact hnot ⟨rel, hrel, rfl, by rw [hk]⟩
    · rintro ⟨hb, rel, hrel, rfl, hk⟩
      obtain ⟨hrel, ha⟩ := (hmem _ _).1 hrel
      refine ⟨⟨hb, rel, hrel, rfl, hk⟩, ?_⟩
      rintro ⟨rel', -, -, hp⟩
      exact ha (congrArg EdgePost.fromId hp)
  · intro a' rel hrel hb
    rw [hkinds]
    exact h.named a' rel ((hmem _ _).1 hrel).1 hb

theorem EdgesExact.removeTarget :
    EdgesExact out (fun b => alive b ∧ b ≠ a) (edgeIndexRemoveTarget e a) where
  holds b p := by
    rw [edgeIndexRemoveTarget, Postings.holds_clear, h.holds]
    tauto
  named a' rel hrel hb := h.named a' rel hrel hb.1

theorem EdgesExact.arrive (hnew : ∀ a', ∀ rel ∈ out a', rel.toId ≠ a) :
    EdgesExact out (fun b => alive b ∨ b = a) e where
  holds b p := by
    rw [h.holds]
    constructor
    · rintro ⟨hb, h'⟩
      exact ⟨.inl hb, h'⟩
    · rintro ⟨hb | rfl, rel, hrel, hto, hk⟩
      · exact ⟨hb, rel, hrel, hto, hk⟩
      · exact absurd hto (hnew _ rel hrel)
  named a' rel hrel hb := by
    rcases hb with hb | hb
    · exact h.named a' rel hrel hb
    · exact absurd hb (hnew a' rel hrel)

end

end

section

variable {out : UInt64 → List Relationship} {alive : UInt64 → Prop} {e : EdgeIndex} {b : UInt64}

variable {kind : Option CString}

theorem kindLookup_eq_none : kindLookup kinds kind = .none ↔ kindLabel kind = none := by
  unfold kindLookup
  cases kindLabel kind with
  | none => simp
  | some k => cases hf : kinds.find? k <;> simp [hf]

theorem kindLookup_eq_interned {i : ℕ} :
    kindLookup kinds kind = .interned i ↔ ∃ k, kindLabel kind = some k ∧ kinds.find? k = some i := by
  unfold kindLookup
  cases kindLabel kind with
  | none => simp
  | some k => cases hf : kinds.find? k <;> simp [hf]

theorem source_kind {p : EdgePost} (h : kindLookup e.kinds kind = p.kind) (hk : p.kind ≠ .unknown) :
    (e.source p).kind = kindLabel kind := by
  unfold EdgeIndex.source
  cases hp : p.kind with
  | none =>
    rw [hp, kindLookup_eq_none] at h
    rw [h]
  | interned i =>
    rw [hp, kindLookup_eq_interned] at h
    obtain ⟨k, hlabel, hfind⟩ := h
    rw [hlabel]
    exact find?_eq_some.1 hfind
  | unknown => exact absurd hp hk

theorem kindKept_iff {kinds : List CString} {k : KindId} (h : kindLookup e.kinds kind = k)
    (hk : k ≠ .unknown) :
    kindKept e kinds k = true ↔ ∃ s ∈ kinds, kindLabel kind = some s := by
  have hlabel {s : CString} (hs : s.bytes ≠ []) : kindLabel (some s) = some s := by
    simp [kindLabel, hs]
  simp only [kindKept, hk, false_and, false_or, decide_eq_true_eq, mem_filter, mem_map,
    ne_eq, not_false_eq_true, and_true, decide_not, Bool.not_eq_true', decide_eq_false_iff_not]
  subst h
  constructor
  · rintro ⟨s, ⟨hs, hne⟩, heq⟩
    refine ⟨s, hs, ?_⟩
    cases hi : kindLookup e.kinds kind with
    | none =>
      rw [hi, kindLookup_eq_none, hlabel hne] at heq
      cases heq
    | interned i =>
      rw [hi, kindLookup_eq_interned] at heq
      obtain ⟨s', hs', hf⟩ := heq
      rw [hlabel hne, Option.some.injEq] at hs'
      obtain ⟨k, hk', hf'⟩ := kindLookup_eq_interned.1 hi
      rw [hk', hs', find?_injective hf hf']
    | unknown => exact absurd hi hk
  · rintro ⟨s, hs, hkind⟩
    have hne : s.bytes ≠ [] := by
      obtain ⟨-, h⟩ := Option.filter_eq_some_iff.1 hkind
      simpa using h
    refine ⟨s, ⟨hs, hne⟩, ?_⟩
    unfold kindLookup
    rw [hkind, hlabel hne]

section

variable (h : EdgesExact out alive e)

include h

theorem EdgesExact.known_of_holds {p : EdgePost} (hp : e.targets.Holds b p) :
    p.kind ≠ .unknown := by
  obtain ⟨hb, rel, hrel, rfl, hk⟩ := (h.holds b p).1 hp
  rw [← hk]
  exact h.named _ rel hrel hb

/-- A lookup returns the sources of the edges to a record that is alive, with the labels of the
edges. -/
theorem EdgesExact.mem_edgeIndexSources {kinds : List CString} {src : EdgeSource} :
    src ∈ edgeIndexSources e b kinds ↔ alive b ∧ src.kindUnknown = false ∧
      ∃ rel ∈ out src.fromId, rel.toId = b ∧ src.kind = kindLabel rel.kind ∧
        (kinds = [] ∨ ∃ s ∈ kinds, kindLabel rel.kind = some s) := by
  simp only [edgeIndexSources, mem_map, mem_filter, decide_eq_true_eq]
  constructor
  · rintro ⟨p, ⟨hp, hkept⟩, rfl⟩
    have hknown := h.known_of_holds hp
    obtain ⟨hb, rel, hrel, hto, hk⟩ := (h.holds b p).1 hp
    refine ⟨hb, by simpa [EdgeIndex.source] using hknown, rel, hrel, hto, source_kind hk hknown, ?_⟩
    exact hkept.imp_right (kindKept_iff hk hknown).1
  · rintro ⟨hb, hunknown, rel, hrel, rfl, hkind, hkept⟩
    have hknown := h.named _ rel hrel hb
    refine ⟨⟨src.fromId, kindLookup e.kinds rel.kind⟩,
      ⟨(h.holds _ _).2 ⟨hb, rel, hrel, rfl, rfl⟩, hkept.imp_right (kindKept_iff rfl hknown).2⟩, ?_⟩
    have hsrc := source_kind (p := ⟨src.fromId, kindLookup e.kinds rel.kind⟩) rfl hknown
    obtain ⟨a, k, u⟩ := src
    simp only [EdgeSource.mk.injEq, EdgeIndex.source] at hsrc hkind hunknown ⊢
    exact ⟨trivial, hsrc.trans hkind.symm, by simp [hunknown, hknown]⟩

theorem EdgesExact.nodup_edgeIndexSources (kinds : List CString) :
    (edgeIndexSources e b kinds).Nodup := by
  refine List.Nodup.map_on ?_ ((e.targets.nodup_under b).filter _)
  rintro p hp q hq heq
  have hp := (mem_filter.1 hp).1
  have hq := (mem_filter.1 hq).1
  obtain ⟨-, rel, -, -, hk⟩ := (h.holds b p).1 hp
  obtain ⟨-, rel', -, -, hk'⟩ := (h.holds b q).1 hq
  have hlabel : kindLabel rel.kind = kindLabel rel'.kind := by
    rw [← source_kind hk (h.known_of_holds hp), ← source_kind hk' (h.known_of_holds hq), heq]
  have hkind : p.kind = q.kind := by
    rw [← hk, ← hk', kindLookup, kindLookup, hlabel]
  obtain ⟨a, k⟩ := p
  obtain ⟨a', k'⟩ := q
  obtain rfl : a = a' := congrArg EdgeSource.fromId heq
  obtain rfl : k = k' := hkind
  rfl

/-- Two indexes that list the same edges answer alike, up to the order. -/
theorem EdgesExact.sources_perm {e' : EdgeIndex} (h' : EdgesExact out alive e')
    (kinds : List CString) :
    (edgeIndexSources e b kinds).Perm (edgeIndexSources e' b kinds) := by
  rw [perm_ext_iff_of_nodup (h.nodup_edgeIndexSources kinds) (h'.nodup_edgeIndexSources kinds)]
  intro src
  rw [h.mem_edgeIndexSources, h'.mem_edgeIndexSources]

end

end

end AegisDB
