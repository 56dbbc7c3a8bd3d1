import CompactingArena.Chain.MergeSort
import CompactingArena.Word
/-!
# The header table

One record of 32 bytes describes each chunk.  The table grows downward from the
end of the region: the record at position `i` occupies the `i`th place below
`high`.  Records that describe chunks lie on the header chain, linked by
`next`.  Records that describe none are unused and wait on the free-record
chain, linked by `nextUnused` and recycled in last-in, first-out order.
-/

namespace CompactingArena

structure Record where
  addr : Nat
  size : Nat
  /-- The next record of the header chain. -/
  next : Option Handle
  /-- The next record of the free-record chain. -/
  nextUnused : Option Handle
  state : ChunkState
deriving DecidableEq

namespace Record

/-- The bytes that a record occupies in the region. -/
def bytes : Nat := 32

/-- The records that allocations leave in reserve: compaction may need up to
two fresh records in the middle of a pass. -/
def reserved : Nat := 2

/-- The address of a record that describes no chunk. -/
def unset : Nat := Word.max

/-- A record that describes no chunk. -/
def unused : Record := ⟨unset, 0, none, none, .free⟩

def isUnused (r : Record) : Bool := r.addr == unset

def acme (r : Record) : Act Nat := Word.add r.addr r.size

end Record

structure HeaderTable where
  records : Array Record
  /-- The top of the table, which is the end of the region. -/
  high : Nat
  chain : Option Handle
  freeRecords : Option Handle

namespace HeaderTable

def empty (high : Nat) : HeaderTable := ⟨#[], high, none, none⟩

def capacity (t : HeaderTable) : Nat := t.records.size

def footprint (t : HeaderTable) : Nat := t.capacity * Record.bytes

/-- The lowest offset that the table occupies.  It wraps around if the table
reaches below offset zero. -/
def low (t : HeaderTable) : Nat :=
  if t.footprint ≤ t.high then t.high - t.footprint
  else t.high + Word.modulus - t.footprint

/-- The lowest offset as operations compute it: a debug build ends in a fault
where it wraps around. -/
def lowest (t : HeaderTable) : Act Nat := Word.sub t.high t.footprint

def hasFreeRecord (t : HeaderTable) : Bool := t.freeRecords.isSome

def get? (t : HeaderTable) (h : Handle) : Option Record := t.records[h.index]?

def get (t : HeaderTable) (h : Handle) : Act Record :=
  Act.ofOption .index (t.get? h)

def set (t : HeaderTable) (h : Handle) (record : Record) : HeaderTable :=
  { t with records := t.records.setIfInBounds h.index record }

def update (t : HeaderTable) (h : Handle) (f : Record → Record) : Act HeaderTable := do
  let record ← t.get h
  return t.set h (f record)

/-- The record that a handle names, if it describes a chunk. -/
def live? (t : HeaderTable) (h : Handle) : Option Record :=
  (t.get? h).filter fun record => !record.isUnused

instance : Linked HeaderTable Handle where
  size := capacity
  next? t h := (t.get? h).map (·.next)
  setNext t h next :=
    { t with records := t.records.modify h.index fun record => { record with next } }

def next (t : HeaderTable) (h : Handle) : Act (Option Handle) :=
  Chain.next t h

def setNext (t : HeaderTable) (h : Handle) (next : Option Handle) : HeaderTable :=
  Linked.setNext t h next

/-! ## The record view -/

theorem get_eq {t : HeaderTable} {h : Handle} {record : Record}
    (hget : t.get? h = some record) : t.get h = pure record := by
  rw [get, hget, Act.ofOption]

theorem update_eq {t : HeaderTable} {h : Handle} {record : Record}
    (hget : t.get? h = some record) (f : Record → Record) :
    t.update h f = pure (t.set h (f record)) := by
  rw [update, get_eq hget, pure_bind]

@[simp] theorem capacity_set (t : HeaderTable) (h : Handle) (record : Record) :
    (t.set h record).capacity = t.capacity :=
  Array.size_setIfInBounds

@[simp] theorem low_set (t : HeaderTable) (h : Handle) (record : Record) :
    (t.set h record).low = t.low := by
  simp only [low, footprint, capacity_set]
  rfl

theorem lowest_eq {t : HeaderTable} (hfits : t.footprint ≤ t.high) : t.lowest = pure t.low := by
  rw [lowest, Word.sub_eq hfits, low, if_pos hfits]

/-- Whatever build computes the lowest offset without a fault computes this one. -/
theorem eq_low_of_lowest {t : HeaderTable} {build : Build} {n : Nat}
    (hlowest : t.lowest.result build = .ok n) : n = t.low := by
  by_cases hfits : t.footprint ≤ t.high
  · rw [lowest_eq hfits] at hlowest
    exact (Except.ok.inj hlowest).symm
  · rw [lowest, Word.sub, if_neg hfits] at hlowest
    rw [low, if_neg hfits]
    cases build with
    | debug => cases hlowest
    | release =>
        have hpos : 0 < Word.modulus := by decide
        rw [← Except.ok.inj hlowest]
        exact Nat.mod_eq_of_lt (by omega)

theorem get?_isSome_iff (t : HeaderTable) (h : Handle) :
    (t.get? h).isSome = true ↔ h.index < t.capacity := by
  simp [get?, capacity]

/-- Replacing a record changes that record and no other. -/
theorem get?_set (t : HeaderTable) (h other : Handle) (record : Record) :
    (t.set h record).get? other =
      if h = other then (t.get? other).map fun _ => record else t.get? other := by
  simp only [get?, set, Array.getElem?_setIfInBounds, ← Handle.ext_iff]
  by_cases heq : h = other
  · subst heq
    by_cases hlt : h.index < t.records.size <;> simp [hlt]
  · simp [heq]

/-- Setting a link changes one field of one record. -/
theorem get?_setNext (t : HeaderTable) (h other : Handle) (next : Option Handle) :
    (t.setNext h next).get? other =
      if h = other then (t.get? other).map fun record => { record with next }
      else t.get? other := by
  simp only [get?, setNext, Linked.setNext, Array.getElem?_modify, ← Handle.ext_iff]

@[simp] theorem capacity_setNext (t : HeaderTable) (h : Handle) (next : Option Handle) :
    (t.setNext h next).capacity = t.capacity :=
  Array.size_modify

instance : LawfulLinked HeaderTable where
  size_setNext := capacity_setNext
  next?_setNext t h other next := by
    change ((t.setNext h next).get? other).map (·.next) = _
    rw [get?_setNext]
    by_cases heq : h = other
    · simp only [heq, if_true, Linked.next?, Option.map_map]
      rfl
    · simp only [heq, if_false, Linked.next?]
  length_le t l hnodup hsome := by
    have hindices : (l.map Handle.index).Nodup :=
      List.pairwise_map.mpr (hnodup.imp fun hne heq => hne (Handle.ext_iff.mpr heq))
    have hsub : l.map Handle.index ⊆ List.range t.capacity := by
      intro i hi
      obtain ⟨h, hh, rfl⟩ := List.mem_map.mp hi
      rw [List.mem_range, ← get?_isSome_iff]
      simpa [Linked.next?] using hsome h hh
    have hlength := hindices.length_le_of_subset hsub
    rwa [List.length_map, List.length_range] at hlength

/-! ## Obtaining and releasing records -/

/-- Takes the record `h` off the free-record chain. -/
def recycle (t : HeaderTable) (h : Handle) : Act HeaderTable := do
  let record ← t.get h
  return { t with freeRecords := record.nextUnused }

/-- Adds a record at the lower end of the table, provided that `reserve` more
would still fit between the table and `floor`. -/
def carve (t : HeaderTable) (floor reserve : Nat) : Act (Option (Handle × HeaderTable)) := do
  let needed := (← Word.add 1 reserve) * Record.bytes
  if (← t.lowest) < floor + needed then
    return none
  match Handle.ofIndex? t.capacity with
  | none => return none
  | some h =>
      let t := { t with records := t.records.push Record.unused }
      Act.log (.carved h t.footprint)
      return some (h, t)

/-- Obtains a record, and recycles one before carving one.  The record is
unlocked and describes no chunk yet; `linked` puts it at the head of the header
chain. -/
def allocate (t : HeaderTable) (linked : Bool) (floor reserve : Nat) :
    Act (Option (Handle × HeaderTable)) := do
  let obtained ← match t.freeRecords with
    | some h => do pure (some (h, ← t.recycle h))
    | none => t.carve floor reserve
  match obtained with
  | none => return none
  | some (h, t) =>
      let next := if linked then t.chain else none
      let t ← t.update h fun _ => { Record.unused with state := .unlocked, next }
      let chain := if linked then some h else t.chain
      return some (h, { t with chain })

/-- Marks a record unused and puts it on the free-record chain.  Its link on
the header chain stays, so that a walk in progress can go on. -/
def release (t : HeaderTable) (h : Handle) : Act HeaderTable := do
  let record ← t.get h
  Act.expect (!record.isUnused) (.releasedTwice h)
  let t ← t.update h fun record =>
    { record with addr := Record.unset, size := 0, state := .free, nextUnused := t.freeRecords }
  return { t with freeRecords := some h }

/-- Links the unused records of a table in ascending order, and returns the
head of that chain. -/
def linkUnused (records : Array Record) : Option Handle × Array Record :=
  (List.range records.size).foldr
    (fun index (head, records) =>
      match records[index]? with
      | some record =>
          if record.isUnused then
            (Handle.ofIndex? index,
              records.setIfInBounds index { record with nextUnused := head })
          else
            (head, records)
      | none => (head, records))
    (none, records)

/-- The records without the unused ones at the end. -/
def trimmed (records : Array Record) : Array Record :=
  (records.toList.reverse.dropWhile Record.isUnused).reverse.toArray

/-- Drops the unused records at the end of the table, and returns how many they
were.  If there were any, the free-record chain is rebuilt. -/
def shrink (t : HeaderTable) : Act (Nat × HeaderTable) := do
  let kept := trimmed t.records
  let popped := t.capacity - kept.size
  if popped = 0 then
    return (0, t)
  let (freeRecords, records) := linkUnused kept
  let t := { t with records, freeRecords }
  Act.log (.tableShrunk popped t.footprint)
  return (popped, t)

/-- The free-record chain from a link on, up to `limit` records. -/
def freeRecordsFrom (t : HeaderTable) : Nat → Option Handle → List Handle
  | 0, _ | _, none => []
  | limit + 1, some h => h :: t.freeRecordsFrom limit ((t.get? h).bind (·.nextUnused))

/-- The free-record chain; a chain that returns to itself is cut off one record
past the size of the table. -/
def freeRecordList (t : HeaderTable) : List Handle :=
  t.freeRecordsFrom (t.capacity + 1) t.freeRecords

/-- The handles on the header chain, at most as many as there are records. -/
def chained (t : HeaderTable) : Act (List Handle) :=
  Chain.take t t.capacity t.chain

/-- Brings the header chain into the order of ascending addresses. -/
def sortChain (t : HeaderTable) : Act HeaderTable := do
  let addr (t : HeaderTable) h := ((t.get? h).map (·.addr)).getD 0
  let (chain, t) ← Chain.mergeSort (fun t a b => decide (addr t a ≤ addr t b)) t t.chain
  return { t with chain }

end HeaderTable

end CompactingArena
