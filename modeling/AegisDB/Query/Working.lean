import AegisDB.Memory.Record

/-!
# Working memory

`working_buffer.c`: each session has a ring of slots and a counter of its own for the ids of its
records. A record is added under the head of the ring, where it evicts the one that was there; it
expires, and it is taken out of the ring when it is promoted. The buckets of sessions are a map here.
-/

namespace AegisDB

open Function

def recordExpired (r : MemoryRecord) (now : UInt64) : Bool := r.expiresAt ≠ 0 && r.expiresAt ≤ now

/-- A time and a span, saturated: `ttl > UINT64_MAX - now ? UINT64_MAX : now + ttl`. -/
def saturatingAdd (now ttl : UInt64) : UInt64 :=
  if 0xFFFFFFFFFFFFFFFF - now < ttl then 0xFFFFFFFFFFFFFFFF else now + ttl

structure WorkingSession where
  slots : List (Option MemoryRecord)
  head : ℕ
  nextId : UInt64

structure WorkingStore where
  sessions : CString → Option WorkingSession
  capacity : ℕ
  defaultTtl : UInt64

def workingStoreCreate (capacity : ℕ) (defaultTtl : UInt64) : WorkingStore where
  sessions := fun _ => none
  capacity := if capacity ≠ 0 then capacity else 256
  defaultTtl := if defaultTtl ≠ 0 then defaultTtl else 3600000

/-- `get_session` that creates the session when it is missing. -/
def getSession (ws : WorkingStore) (sid : CString) : WorkingSession :=
  (ws.sessions sid).getD ⟨List.replicate ws.capacity none, 0, 1⟩

/-- `find_slot`: the place of a record, and the ring without the expired records in front of it. -/
def findSlot (id now : UInt64) : List (Option MemoryRecord) → List (Option MemoryRecord) × Option ℕ
  | [] => ([], none)
  | none :: slots =>
    let (slots, k) := findSlot id now slots
    (none :: slots, k.map (· + 1))
  | some r :: slots =>
    if recordExpired r now then
      let (slots, k) := findSlot id now slots
      (none :: slots, k.map (· + 1))
    else if r.id = id then (some r :: slots, some 0)
    else
      let (slots, k) := findSlot id now slots
      (some r :: slots, k.map (· + 1))

/-- The record as `working_store_add` keeps it. -/
def workingCopy (ws : WorkingStore) (s : WorkingSession) (rec : MemoryRecord) (now ttl : UInt64) :
    MemoryRecord :=
  { rec with
    type := .working
    id := s.nextId
    created := now
    updated := now
    expiresAt := saturatingAdd now (if ttl ≠ 0 then ttl else ws.defaultTtl) }

/-- `working_store_add`; `none` when the record cannot be copied. -/
def workingStoreAdd (ws : WorkingStore) (sid : CString) (rec : MemoryRecord) (now ttl : UInt64) :
    Option (WorkingStore × UInt64) :=
  (recordClone rec).map fun rec =>
    let s := getSession ws sid
    let copy := workingCopy ws s rec now ttl
    let s' : WorkingSession :=
      { slots := s.slots.set s.head (some copy)
        head := (s.head + 1) % s.slots.length
        nextId := s.nextId + 1 }
    ({ ws with sessions := update ws.sessions sid (some s') }, copy.id)

def workingStoreGet (ws : WorkingStore) (sid : CString) (id now : UInt64) :
    WorkingStore × Option MemoryRecord :=
  match ws.sessions sid with
  | none => (ws, none)
  | some s =>
    let (slots, k) := findSlot id now s.slots
    ({ ws with sessions := update ws.sessions sid (some { s with slots }) },
      k.bind fun k => (slots[k]?.join).bind recordClone)

/-- `working_store_take`; `none` is its error. -/
def workingStoreTake (ws : WorkingStore) (sid : CString) (id now : UInt64) (ns : Option CString) :
    WorkingStore × Option MemoryRecord :=
  match ws.sessions sid with
  | none => (ws, none)
  | some s =>
    let (slots, k) := findSlot id now s.slots
    let keep := { ws with sessions := update ws.sessions sid (some { s with slots }) }
    match k.bind fun k => slots[k]?.join.map fun r => (k, r) with
    | none => (keep, none)
    | some (k, r) =>
      -- a namespaced caller takes its own records only
      if ns.isSome && r.agentId ≠ ns then (keep, none)
      else
        ({ ws with
            sessions := update ws.sessions sid (some { s with slots := slots.set k none }) },
          some r)

/-- `working_store_sweep`, but for its count. -/
def workingStoreSweep (ws : WorkingStore) (now : UInt64) : WorkingStore :=
  { ws with
    sessions := fun sid => (ws.sessions sid).map fun s =>
      { s with slots := s.slots.map fun o => o.filter fun r => !recordExpired r now } }

end AegisDB
