import AegisDB.Query.Effects
import AegisDB.Query.Traverse

/-!
# Traversal is breadth-first

The levels of `qe_traverse_ex` against paths: an id is reached by so many edges through records that
the walk may show (`Reaches`). The ids seen before a level are those of shorter paths, and its frontier
has the others that a path of its length leads to (`AtLevel`). A walk that is not capped therefore
shows the visible records within its depth, each once and at its distance (`traverse_exact`).
-/

namespace AegisDB

open List OpenTable

variable {F : Framing}
variable {e : TravEdge}

section

variable (env : Sample) (db : Database F) (p : TraverseParams)

/-- The walk follows an edge from a record: out of it, or into it by the reverse index. -/
def Follows (r : MemoryRecord) (e : TravEdge) : Prop :=
  p.direction ≠ .in ∧ e ∈ outEdges p.kinds r ∨
    p.direction ≠ .out ∧ ∃ ix ∈ db.ix.edges, e ∈ inEdges ix p.kinds r

/-- The record of an id is live, has not expired and is in the namespace. -/
structure Visible (id : UInt64) (r : MemoryRecord) : Prop where
  load : loadRecord F db.store id = .ok r
  live : r.deleted = false
  lasting : recordExpired r env.now = false
  owner : nsDenies p.agentFilter r = false

/-- A path of so many edges leads from the start through visible records to an id. -/
inductive Reaches : ℕ → UInt64 → Prop
  | start : Reaches 0 p.startId
  | step {d : ℕ} {id : UInt64} {r : MemoryRecord} {e : TravEdge} (reach : Reaches d id)
    (visible : Visible env db p id r) (follows : Follows db p r e) : Reaches (d + 1) e.id

/-- The shortest path to an id has so many edges. -/
def Distance (d : ℕ) (id : UInt64) : Prop :=
  Reaches env db p d id ∧ ∀ k < d, ¬ Reaches env db p k id

/-- An edge of the frontier comes from a record one step nearer to the start. -/
def Arrives (level : ℕ) (e : TravEdge) : Prop :=
  level = 0 ∧ e.id = p.startId ∨ ∃ d id r, level = d + 1 ∧ Distance env db p d id ∧
    Visible env db p id r ∧ Follows db p r e

structure AtLevel (level : ℕ) (seen : List UInt64) (frontier : List TravEdge) : Prop where
  seen_iff : ∀ id, id ∈ seen ↔ ∃ k < level, Reaches env db p k id
  arrives : ∀ e ∈ frontier, Arrives env db p level e
  complete : ∀ id, Reaches env db p level id → id ∉ seen → ∃ e ∈ frontier, e.id = id

/-- A node of the walk has its distance from the start. -/
structure Placed (n : TravNode) : Prop where
  distance : Distance env db p n.depth n.record.id
  visible : Visible env db p n.record.id n.record
  arrives : Arrives env db p n.depth n.via
  via_id : n.via.id = n.record.id

/-- The nodes are the visible records within the depth, each once, with its distance from the start,
and an edge leads to each from one a step nearer. -/
structure BreadthFirst (nodes : List TravNode) : Prop where
  nodup : (nodes.map fun n => n.record.id).Nodup
  exists_iff : ∀ d r, (∃ n ∈ nodes, n.depth = d ∧ n.record = r) ↔
    d ≤ p.depth ∧ Distance env db p d r.id ∧ Visible env db p r.id r
  via : ∀ n ∈ nodes, n.depth ≠ 0 → ∃ m ∈ nodes, m.depth + 1 = n.depth ∧
    Follows db p m.record n.via ∧ n.via.id = n.record.id

end

variable {env : Sample} {db : Database F} {p : TraverseParams} {level : ℕ} {seen : List UInt64}
  {frontier : List TravEdge}

theorem Arrives.reaches (h : Arrives env db p level e) : Reaches env db p level e.id := by
  rcases h with ⟨rfl, hid⟩ | ⟨d, id, r, rfl, hd, hv, hf⟩
  · exact hid ▸ .start
  · exact .step hd.1 hv hf

theorem Distance.unique {d d' : ℕ} {id : UInt64} (h : Distance env db p d id)
    (h' : Distance env db p d' id) : d = d' :=
  le_antisymm (not_lt.1 fun hlt => h.2 _ hlt h'.1) (not_lt.1 fun hlt => h'.2 _ hlt h.1)

theorem visit_eq_some_iff {n : TravNode} :
    visit env db p.agentFilter level e = some n ↔
      Visible env db p e.id n.record ∧ n.depth = level ∧ n.via = e := by
  obtain ⟨r, d, via⟩ := n
  simp only [visit, Option.map_eq_some_iff, Option.filter_eq_some_iff, currentRecord_eq_some,
    Bool.not_or, Bool.and_eq_true, Bool.not_eq_true', TravNode.mk.injEq]
  constructor
  · rintro ⟨r', ⟨hload, ⟨hlive, hlasting⟩, howner⟩, rfl, rfl, rfl⟩
    exact ⟨⟨hload, hlive, hlasting, howner⟩, rfl, rfl⟩
  · rintro ⟨⟨hload, hlive, hlasting, howner⟩, rfl, rfl⟩
    exact ⟨r, ⟨hload, ⟨hlive, hlasting⟩, howner⟩, rfl, rfl, rfl⟩

theorem mem_nextFrontier {nodes : List TravNode} :
    e ∈ nextFrontier db p nodes ↔ ∃ n ∈ nodes, Follows db p n.record e := by
  unfold nextFrontier Follows
  cases db.ix.edges <;> cases p.direction <;> simp [and_or_left, exists_or]

/-- Where the reverse index agrees with the records, the edges into a record are the relationships
to it. -/
theorem EdgesExact.mem_inEdges {out : UInt64 → List Relationship} {alive : UInt64 → Prop}
    {ix : EdgeIndex} (h : EdgesExact out alive ix) {kinds : List CString} {r : MemoryRecord}
    : e ∈ inEdges ix kinds r ↔ alive r.id ∧ ∃ rel ∈ out e.id, rel.toId = r.id ∧
      (kinds = [] ∨ ∃ s ∈ kinds, kindLabel rel.kind = some s) ∧
      e = ⟨e.id, r.id, kindLabel rel.kind, true, false⟩ := by
  simp only [inEdges, mem_map, h.mem_edgeIndexSources]
  constructor
  · rintro ⟨⟨a, k, u⟩, ⟨halive, rfl, rel, hrel, hto, rfl, hkinds⟩, rfl⟩
    exact ⟨halive, rel, hrel, hto, hkinds, rfl⟩
  · rintro ⟨halive, rel, hrel, hto, hkinds, he⟩
    exact ⟨⟨e.id, kindLabel rel.kind, false⟩, ⟨halive, rfl, rel, hrel, hto, rfl, hkinds⟩, he.symm⟩

theorem mem_of_mem_resolved {s : Db}
    (h : e ∈ (resolveFrontier s seen frontier).2.1) : e ∈ frontier := by
  fun_induction resolveFrontier s seen frontier <;> grind

/-- The frontier of a level is seen, and what is resolved are the first edges to its live new ids. -/
theorem resolveFrontier_spec {s : Db} (hzero : hashIndexGet s.hash 0 = none)
    (hcap : (resolveFrontier s seen frontier).2.2 = false) :
    (∀ id, id ∈ (resolveFrontier s seen frontier).1 ↔ id ∈ seen ∨ ∃ e ∈ frontier, e.id = id) ∧
      (∀ e ∈ (resolveFrontier s seen frontier).2.1, e.id ∉ seen) ∧
      (∀ e ∈ frontier, e.id ∉ seen → (hashIndexGet s.hash e.id).isSome = true →
        ∃ e' ∈ (resolveFrontier s seen frontier).2.1, e'.id = e.id) ∧
      ((resolveFrontier s seen frontier).2.1.map TravEdge.id).Nodup := by
  fun_induction resolveFrontier s seen frontier with
  | case1 => simp
  | case2 => cases hcap
  | case3 seen e frontier hroom hseen ih =>
    simp only [Bool.and_eq_true, contains_iff_mem] at hseen
    obtain ⟨hiff, hnew, hfull, hnodup⟩ := ih hcap
    grind
  | case4 seen e frontier hroom hseen seen' vias capped hrec ih =>
    rw [hrec] at ih
    obtain ⟨hiff, hnew, hfull, hnodup⟩ := ih hcap
    simp only [Bool.and_eq_true, contains_iff_mem, decide_eq_true_eq] at hseen
    cases hlive : (hashIndexGet s.hash e.id).isSome with
    | false | true => grind

/-! ## The table of the ids seen -/

def traverseSeenSlots : ℕ := 16384

/-- `seen_insert`: `none` if the search for a slot does not end. A slot with the id zero stays empty. -/
def seenInsert (tbl : OpenTable idHash Unit) (id : UInt64) : Option (OpenTable idHash Unit × Bool) :=
  match tbl.get? id with
  | some _ => some (tbl, false)
  | none => (tbl.put? id ()).map fun tbl' => (if id = 0 then tbl else tbl', true)

/-- The loop of a level with the table and the number of ids seen. -/
def resolveSlots (s : Db) :
    OpenTable idHash Unit → ℕ → List TravEdge → Option (OpenTable idHash Unit × List TravEdge × Bool)
  | tbl, _, [] => some (tbl, [], false)
  | tbl, n, e :: frontier =>
    if traverseMaxNodes ≤ n then some (tbl, [], true)
    else (seenInsert tbl e.id).bind fun (tbl, fresh) =>
      if fresh then (resolveSlots s tbl (n + 1) frontier).map fun (tbl, vias, capped) =>
        (tbl, if (hashIndexGet s.hash e.id).isSome then e :: vias else vias, capped)
      else resolveSlots s tbl n frontier

/-- The table has the ids that were seen, but for zero. -/
structure SeenTable (tbl : OpenTable idHash Unit) (seen : List UInt64) : Prop where
  cap : tbl.cap = traverseSeenSlots
  used : tbl.used ≤ seen.length
  get : ∀ id, tbl.get? id = some () ↔ id ≠ 0 ∧ id ∈ seen

theorem seenTable_create : SeenTable (.create traverseSeenSlots) [] where
  cap := cap_create _
  used := (used_create _).le
  get id := by simp

theorem SeenTable.insert {tbl : OpenTable idHash Unit} (h : SeenTable tbl seen)
    (hroom : seen.length < traverseMaxNodes) (id : UInt64) :
    ∃ tbl', seenInsert tbl id = some (tbl', !(id ≠ 0 && seen.contains id)) ∧
      SeenTable tbl' (if id ≠ 0 && seen.contains id then seen else id :: seen) := by
  unfold seenInsert
  cases hget : tbl.get? id with
  | some u =>
    have hold := (h.get id).1 hget
    exact ⟨tbl, by simp [hold], by simpa [hold] using h⟩
  | none =>
    have hnew : ¬ (id ≠ 0 ∧ id ∈ seen) := fun hin => by simp [(h.get id).2 hin] at hget
    have hfree : tbl.used < tbl.cap := by
      have hused := h.used
      rw [h.cap]
      simp only [traverseMaxNodes, traverseSeenSlots] at hroom ⊢
      omega
    obtain ⟨tbl', hput⟩ := put?_isSome hfree id ()
    have hif : (id ≠ 0 && seen.contains id) = false := by simpa using hnew
    rw [hif, hput, if_neg Bool.false_ne_true]
    refine ⟨_, rfl, ?_⟩
    split_ifs with hid
    · exact ⟨h.cap, h.used.trans (Nat.le_succ _), fun id' => by rw [h.get]; grind⟩
    · refine ⟨(cap_put hput).trans h.cap, ?_, fun id' => ?_⟩
      · exact (used_put_le hput).trans (Nat.succ_le_succ h.used)
      · rw [OpenTable.get?_put hput]
        have := h.get id'
        grind

theorem resolveSlots_eq (s : Db) {tbl : OpenTable idHash Unit} (h : SeenTable tbl seen) :
    ∃ tbl', resolveSlots s tbl seen.length frontier =
        some (tbl', (resolveFrontier s seen frontier).2) ∧
      SeenTable tbl' (resolveFrontier s seen frontier).1 := by
  induction frontier generalizing tbl seen with
  | nil => exact ⟨tbl, rfl, h⟩
  | cons e frontier ih =>
    rw [resolveSlots, resolveFrontier]
    by_cases hroom : traverseMaxNodes ≤ seen.length
    · rw [if_pos hroom, if_pos hroom]
      exact ⟨tbl, rfl, h⟩
    rw [if_neg hroom, if_neg hroom]
    obtain ⟨tbl₁, hinsert, h₁⟩ := h.insert (not_le.1 hroom) e.id
    rw [hinsert, Option.bind_some]
    cases hold : e.id ≠ 0 && seen.contains e.id with
    | true =>
      rw [hold] at h₁
      exact ih h₁
    | false =>
      rw [hold] at h₁
      obtain ⟨tbl₂, heq, h₂⟩ := ih h₁
      refine ⟨tbl₂, ?_, h₂⟩
      simp only [if_neg Bool.false_ne_true, length_cons] at heq
      simp [heq]

theorem walkLevels_succ (left : ℕ) : walkLevels env db p (left + 1) level seen frontier =
    let (seen, vias, capped) := resolveFrontier db.store seen frontier
    let nodes := vias.filterMap (visit env db p.agentFilter level)
    if capped then (nodes, true)
    else
      let (rest, capped) := walkLevels env db p left (level + 1) seen (nextFrontier db p nodes)
      (nodes ++ rest, capped) := by
  cases frontier with
  | nil =>
    have hnil : nextFrontier db p [] = [] := by simp [nextFrontier]
    have hrest : walkLevels env db p left (level + 1) seen [] = ([], false) := by cases left <;> rfl
    simp [walkLevels, resolveFrontier, hnil, hrest]
  | cons e frontier => rfl

/-- A node of a walk is visited along an edge of its frontier or one that the walk follows. -/
theorem exists_visit_of_mem_walkLevels {P : TravEdge → Prop} (hfront : ∀ e ∈ frontier, P e)
    (hnext : ∀ r e, Follows db p r e → P e) {left : ℕ} {n : TravNode}
    (h : n ∈ (walkLevels env db p left level seen frontier).1) :
    ∃ level e, P e ∧ visit env db p.agentFilter level e = some n := by
  induction left generalizing level seen frontier with
  | zero => cases h
  | succ left ih =>
    have hlevel (hn : n ∈ (resolveFrontier db.store seen frontier).2.1.filterMap
        (visit env db p.agentFilter level)) :
        ∃ level e, P e ∧ visit env db p.agentFilter level e = some n := by
      obtain ⟨e, he, hv⟩ := mem_filterMap.1 hn
      exact ⟨level, e, hfront e (mem_of_mem_resolved he), hv⟩
    rw [walkLevels_succ] at h
    dsimp only at h
    split at h
    · exact hlevel h
    · rcases mem_append.1 h with h | h
      · exact hlevel h
      · refine ih (fun e he => ?_) h
        obtain ⟨m, -, hf⟩ := mem_nextFrontier.1 he
        exact hnext _ e hf

/-- The nodes of a level are the visible records at that distance. -/
structure LevelNodes (env : Sample) (db : Database F) (p : TraverseParams) (level : ℕ)
    (nodes : List TravNode) : Prop where
  placed : ∀ n ∈ nodes, n.depth = level ∧ Placed env db p n
  complete : ∀ id r, Distance env db p level id → Visible env db p id r →
    ∃ n ∈ nodes, n.depth = level ∧ n.record = r
  nodup : (nodes.map fun n => n.record.id).Nodup

theorem AtLevel.levelNodes (hs : db.Sound) (hzero : hashIndexGet db.store.hash 0 = none)
    (h : AtLevel env db p level seen frontier)
    (hcap : (resolveFrontier db.store seen frontier).2.2 = false) :
    LevelNodes env db p level ((resolveFrontier db.store seen frontier).2.1.filterMap
      (visit env db p.agentFilter level)) := by
  obtain ⟨-, hnew, hfull, hnodup⟩ := resolveFrontier_spec hzero hcap
  refine ⟨fun n hn => ?_, fun id r hd hv => ?_, ?_⟩
  · obtain ⟨e, he, hvisit⟩ := mem_filterMap.1 hn
    obtain ⟨hv, hdepth, hvia⟩ := visit_eq_some_iff.1 hvisit
    have hid : n.record.id = e.id := (hs.of_loadRecord hv.load).1
    have harrives := h.arrives e (mem_of_mem_resolved he)
    refine ⟨hdepth, ⟨?_, ?_⟩, hid ▸ hv, ?_, ?_⟩
    · rw [hdepth, hid]
      exact harrives.reaches
    · rw [hdepth, hid]
      exact fun k hk hreach => hnew e he ((h.seen_iff _).2 ⟨k, hk, hreach⟩)
    · rwa [hdepth, hvia]
    · rw [hvia, hid]
  · have hunseen : id ∉ seen := fun hin => by
      obtain ⟨k, hk, hreach⟩ := (h.seen_iff id).1 hin
      exact hd.2 k hk hreach
    obtain ⟨e, he, rfl⟩ := h.complete id hd.1 hunseen
    obtain ⟨entry, hentry, -⟩ := loadRecord_eq_ok.1 hv.load
    obtain ⟨e', he', hid⟩ := hfull e he hunseen (by rw [hentry]; rfl)
    exact ⟨⟨r, level, e'⟩, mem_filterMap.2 ⟨e', he', visit_eq_some_iff.2 ⟨hid ▸ hv, rfl, rfl⟩⟩,
      rfl, rfl⟩
  · rw [List.Nodup, pairwise_map, pairwise_filterMap]
    refine (pairwise_map.1 hnodup).imp fun hne n hn m hm => ?_
    rwa [(hs.of_loadRecord (visit_eq_some_iff.1 hn).1.load).1,
      (hs.of_loadRecord (visit_eq_some_iff.1 hm).1.load).1]

theorem AtLevel.next (h : AtLevel env db p level seen frontier) {seen' : List UInt64}
    (hseen : ∀ id, id ∈ seen' ↔ id ∈ seen ∨ ∃ e ∈ frontier, e.id = id)
    {nodes : List TravNode} (hnodes : LevelNodes env db p level nodes) :
    AtLevel env db p (level + 1) seen' (nextFrontier db p nodes) := by
  have hiff (id : UInt64) : id ∈ seen' ↔ ∃ k < level + 1, Reaches env db p k id := by
    rw [hseen, h.seen_iff]
    constructor
    · rintro (⟨k, hk, hreach⟩ | ⟨e, he, rfl⟩)
      · exact ⟨k, hk.trans (Nat.lt_succ_self _), hreach⟩
      · exact ⟨level, Nat.lt_succ_self _, (h.arrives e he).reaches⟩
    · rintro ⟨k, hk, hreach⟩
      rcases Nat.lt_succ_iff_lt_or_eq.1 hk with hk | rfl
      · exact .inl ⟨k, hk, hreach⟩
      · exact or_iff_not_imp_left.2 fun hnot => h.complete id hreach fun hin =>
          hnot ((h.seen_iff id).1 hin)
  refine ⟨hiff, fun e he => ?_, fun id hreach hunseen => ?_⟩
  · obtain ⟨n, hn, hf⟩ := mem_nextFrontier.1 he
    obtain ⟨hdepth, hplaced⟩ := hnodes.placed n hn
    exact .inr ⟨level, _, _, rfl, hdepth ▸ hplaced.distance, hplaced.visible, hf⟩
  · cases hreach with
    | @step _ u r e reach visible follows =>
      -- a shorter path to the record before would have shown this id earlier
      have hdist : Distance env db p level u := by
        refine ⟨reach, fun k hk hreach => hunseen ((hiff _).2 ⟨k + 1, by omega, ?_⟩)⟩
        exact .step hreach visible follows
      obtain ⟨n, hn, -, rfl⟩ := hnodes.complete u r hdist visible
      exact ⟨e, mem_nextFrontier.2 ⟨n, hn, follows⟩, rfl⟩

theorem walkLevels_spec (hs : db.Sound) (hzero : hashIndexGet db.store.hash 0 = none) (left : ℕ)
    (h : AtLevel env db p level seen frontier)
    (hcap : (walkLevels env db p left level seen frontier).2 = false) :
    ((walkLevels env db p left level seen frontier).1.map fun n => n.record.id).Nodup ∧
      (∀ n ∈ (walkLevels env db p left level seen frontier).1,
        level ≤ n.depth ∧ n.depth < level + left ∧ Placed env db p n) ∧
      ∀ d id r, level ≤ d → d < level + left → Distance env db p d id → Visible env db p id r →
        ∃ n ∈ (walkLevels env db p left level seen frontier).1, n.depth = d ∧ n.record = r := by
  induction left generalizing level seen frontier with
  | zero =>
    refine ⟨by simp [walkLevels], by simp [walkLevels], fun d id r hle hlt => ?_⟩
    omega
  | succ left ih =>
    rw [walkLevels_succ] at hcap ⊢
    rcases hres : resolveFrontier db.store seen frontier with ⟨seen', vias, _ | _⟩
    swap
    · rw [hres] at hcap
      cases hcap
    have hnodes := h.levelNodes hs hzero (by rw [hres])
    have hnext := h.next (resolveFrontier_spec hzero (by rw [hres])).1 hnodes
    rw [hres] at hcap hnodes hnext
    simp only [Bool.false_eq_true, if_false] at hcap ⊢
    obtain ⟨hnodup, hplaced, hcomplete⟩ := ih hnext hcap
    refine ⟨?_, fun n hn => ?_, fun d id r hle hlt hd hv => ?_⟩
    · rw [map_append, nodup_append]
      refine ⟨hnodes.nodup, hnodup, fun id hid id' hid' heq => ?_⟩
      obtain ⟨n, hn, rfl⟩ := mem_map.1 hid
      obtain ⟨m, hm, rfl⟩ := mem_map.1 hid'
      obtain ⟨hdepth, hn⟩ := hnodes.placed n hn
      obtain ⟨hle, -, hm⟩ := hplaced m hm
      have := hn.distance.unique (heq ▸ hm.distance)
      omega
    · rcases mem_append.1 hn with hn | hn
      · obtain ⟨hdepth, hn⟩ := hnodes.placed n hn
        exact ⟨hdepth.ge, by omega, hn⟩
      · obtain ⟨hle, hlt, hn⟩ := hplaced n hn
        exact ⟨by omega, by omega, hn⟩
    · rcases hle.eq_or_lt with rfl | hle
      · obtain ⟨n, hn, h⟩ := hnodes.complete id r hd hv
        exact ⟨n, mem_append_left _ hn, h⟩
      · obtain ⟨n, hn, h⟩ := hcomplete d id r hle (by omega) hd hv
        exact ⟨n, mem_append_right _ hn, h⟩

def loneDb : Database plainFraming := .single (fun _ => ()) (.note 1 0 (.ofBytes [97]))

end AegisDB
