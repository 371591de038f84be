import AegisDB.Query.Records

/-!
# Traversal

`qe_traverse_ex`: a breadth-first walk along relationships, level by level. A level resolves the ids of
its frontier that were not seen yet, loads their records, keeps those that are live and belong to the
caller, and makes the next frontier of the edges out of them and, from the reverse index, of the edges
into them. The walk stops when it has seen `TRAVERSE_MAX_NODES` ids.
-/

namespace AegisDB

variable {F : Framing}

def traverseMaxNodes : ℕ := 8192

inductive TraverseDirection
  | out
  | in
  | both
  deriving DecidableEq

structure TraverseParams where
  startId : UInt64
  depth : ℕ
  agentFilter : Option CString
  direction : TraverseDirection
  kinds : List CString

/-- `TravEdge`: an id to visit, and the edge that reached it. -/
structure TravEdge where
  id : UInt64
  viaId : UInt64
  viaKind : Option CString
  incoming : Bool
  kindUncertain : Bool

/-- `TravNode`: a record with how the walk reached it. -/
structure TravNode where
  record : MemoryRecord
  depth : ℕ
  via : TravEdge

def kindWanted (kinds : List CString) (kind : Option CString) : Bool :=
  kinds.isEmpty || kind.any kinds.contains

/-- The ids of a frontier that are live and not seen yet, what was seen so far, and whether that is
at its limit. The id zero marks a free slot, so that it is never found. -/
def resolveFrontier (db : Db) : List UInt64 → List TravEdge → List UInt64 × List TravEdge × Bool
  | seen, [] => (seen, [], false)
  | seen, e :: frontier =>
    if traverseMaxNodes ≤ seen.length then (seen, [], true)
    else if e.id ≠ 0 && seen.contains e.id then resolveFrontier db seen frontier
    else
      let (seen, vias, capped) := resolveFrontier db (e.id :: seen) frontier
      (seen, if (hashIndexGet db.hash e.id).isSome then e :: vias else vias, capped)

/-- The record of an id, if the walk may show it. -/
def visit (env : Sample) (db : Database F) (agent : Option CString) (level : ℕ) (e : TravEdge) :
    Option TravNode :=
  ((currentRecord F db.store e.id).filter fun r =>
    !(r.deleted || recordExpired r env.now || nsDenies agent r)).map fun r => ⟨r, level, e⟩

def outEdges (kinds : List CString) (r : MemoryRecord) : List TravEdge :=
  (r.relationships.filter fun rel => kindWanted kinds rel.kind).map fun rel =>
    ⟨rel.toId, r.id, rel.kind, false, false⟩

def inEdges (e : EdgeIndex) (kinds : List CString) (r : MemoryRecord) : List TravEdge :=
  (edgeIndexSources e r.id kinds).map fun s => ⟨s.fromId, r.id, s.kind, true, s.kindUnknown⟩

/-- The next frontier: the edges out of all records of a level, then those into them. -/
def nextFrontier (db : Database F) (p : TraverseParams) (nodes : List TravNode) : List TravEdge :=
  (if p.direction ≠ .in then nodes.flatMap fun n => outEdges p.kinds n.record else []) ++
    if p.direction ≠ .out then
      nodes.flatMap fun n => (db.ix.edges.map fun e => inEdges e p.kinds n.record).getD []
    else []

/-- The levels of the walk that are left, and whether it has reached its limit. -/
def walkLevels (env : Sample) (db : Database F) (p : TraverseParams) :
    ℕ → ℕ → List UInt64 → List TravEdge → List TravNode × Bool
  | 0, _, _, _ => ([], false)
  | left + 1, level, seen, frontier =>
    if frontier.isEmpty then ([], false)
    else
      let (seen, vias, capped) := resolveFrontier db.store seen frontier
      let nodes := vias.filterMap (visit env db p.agentFilter level)
      if capped then (nodes, true)
      else
        let (rest, capped) := walkLevels env db p left (level + 1) seen (nextFrontier db p nodes)
        (nodes ++ rest, capped)

/-- `qe_traverse_ex`. -/
def qeTraverse (cfg : DbConfig) (env : Sample) (db : Database F) (p : TraverseParams) :
    Except Status (List TravNode × Bool) :=
  if !cfg.phase 4 then .error .notReady
  else if p.direction ≠ .out ∧ db.ix.edges.isNone then .error .notReady
  else .ok (walkLevels env db p (p.depth + 1) 0 [] [⟨p.startId, 0, none, false, false⟩])

/-! ## What a walk shows -/

section

variable {env : Sample} {db : Database F}

theorem visit_eq_some {agent : Option CString} {level : ℕ} {e : TravEdge} {n : TravNode}
    (h : visit env db agent level e = some n) :
    loadRecord F db.store e.id = .ok n.record ∧ nsDenies agent n.record = false := by
  obtain ⟨r, hr, rfl⟩ := Option.map_eq_some_iff.1 h
  obtain ⟨hload, hkeep⟩ := Option.filter_eq_some_iff.1 hr
  simp only [Bool.not_or, Bool.and_eq_true, Bool.not_eq_true'] at hkeep
  exact ⟨currentRecord_eq_some.1 hload, hkeep.2⟩

end

end AegisDB
