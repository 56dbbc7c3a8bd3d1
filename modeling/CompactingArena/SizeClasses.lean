import CompactingArena.HeaderTable
import CompactingArena.Region.Trailer
import CompactingArena.Word.Rounding
/-!
# Size classes

Free chunks are filed in one list for each power of two: class `k` holds the
sizes from `2 ^ k` up to `2 ^ (k + 1)`.  The lists thread through the trailers
of the chunks, so their links lie in the region; only the heads are kept here.
A chunk whose trailer does not name its own record is a broken invariant.
-/

namespace CompactingArena

/-- The heads of the free lists, one for each class. -/
structure SizeClasses where
  heads : Array (Option Handle)

namespace SizeClasses

/-- Enough classes for any chunk of a region, all of them empty. -/
def ofRegionSize (size : Nat) : Act SizeClasses := do
  let largest ← Word.ceilLog2 size
  return ⟨.replicate (largest + 1) none⟩

def count (c : SizeClasses) : Nat := c.heads.size

def classOf (c : SizeClasses) (size : Nat) : Act Nat := do
  return min (← Word.log2 size) (c.count - 1)

def head (c : SizeClasses) (sizeClass : Nat) : Act (Option Handle) :=
  Act.ofOption .index c.heads[sizeClass]?

def setHead (c : SizeClasses) (sizeClass : Nat) (head : Option Handle) : SizeClasses :=
  ⟨c.heads.setIfInBounds sizeClass head⟩

def clear (c : SizeClasses) : SizeClasses := ⟨.replicate c.count none⟩

/-- Files the free chunk of `h` at the head of its class and writes its
trailer. -/
def insert (c : SizeClasses) (headers : HeaderTable) (region : Region) (h : Handle) :
    Act (SizeClasses × Region) := do
  let record ← headers.get h
  Act.expect record.state.isFree .assertion
  let sizeClass ← c.classOf record.size
  let acme ← record.acme
  let next ← c.head sizeClass
  let region ← region.writeTrailer acme ⟨Handle.toWord (some h), Handle.toWord next⟩
  return (c.setHead sizeClass (some h), region)

/-- The chunk filed after that of `h`, read from its trailer. -/
def nextOf (headers : HeaderTable) (region : Region) (h : Handle) :
    Act (Except Violation (Option Handle)) := do
  match headers.live? h with
  | none => return .error (.trailerMismatch h)
  | some record =>
      let trailer ← region.readTrailer (← record.acme)
      if Handle.ofWord? trailer.owner = some h then
        return .ok (Handle.ofWord? trailer.next)
      else
        return .error (.trailerMismatch h)

/-- Takes the chunk of `h` out of its class; `previous` is the chunk filed
before it, or `none` if it is the head. -/
def unlink (c : SizeClasses) (headers : HeaderTable) (region : Region) (sizeClass : Nat)
    (previous : Option Handle) (h : Handle) :
    Act (Except Violation (SizeClasses × Region)) := do
  match ← nextOf headers region h with
  | .error violation => return .error violation
  | .ok next =>
      match previous with
      | none => return .ok (c.setHead sizeClass next, region)
      | some previous =>
          let record ← headers.get previous
          let region ← region.writeTrailerNext (← record.acme) (Handle.toWord next)
          return .ok (c, region)

/-- Takes the head out of a class, unless the class is empty. -/
def pop (c : SizeClasses) (headers : HeaderTable) (region : Region) (sizeClass : Nat) :
    Act (Except Violation (Option (Handle × SizeClasses × Region))) := do
  match ← c.head sizeClass with
  | none => return .ok none
  | some h =>
      match ← c.unlink headers region sizeClass none h with
      | .error violation => return .error violation
      | .ok (c, region) => return .ok (some (h, c, region))

section Walk

variable {β : Type} (headers : HeaderTable) (region : Region) (visit : β → Handle → Act β)

/-- Visits the chunks of a list from a link on, at most `limit` of them. -/
def walkFrom : Nat → Option Handle → β → Act (β × Except Violation Unit)
  | _, none, acc => return (acc, .ok ())
  | 0, some _, acc => return (acc, .error .cycleDetected)
  | limit + 1, some h, acc => do
      let acc ← visit acc h
      match ← nextOf headers region h with
      | .error violation => return (acc, .error violation)
      | .ok next => walkFrom limit next acc

/-- Visits every chunk filed in a class, in list order, until the list ends or
turns out to be broken. -/
def walk (c : SizeClasses) (sizeClass : Nat) (acc : β) :
    Act (β × Except Violation Unit) := do
  walkFrom headers region visit headers.capacity (← c.head sizeClass) acc

end Walk

/-- The handles filed in a class, as far as its list can be followed. -/
def filed (c : SizeClasses) (headers : HeaderTable) (region : Region) (sizeClass : Nat) :
    Act (List Handle × Except Violation Unit) := do
  let (seen, verdict) ←
    walk headers region (fun seen h => pure (h :: seen)) c sizeClass ([] : List Handle)
  return (seen.reverse, verdict)

end SizeClasses

end CompactingArena
