import CompactingArena.Arena.Audit
/-!
# Freeing
-/

namespace CompactingArena.Arena

/-- Whether a chunk that ends at `acme` lies outside of the memory in use, or the
header table has grown into that memory. -/
def isOutside (a : Arena) (acme : Nat) : Act Bool := do
  if a.memoryHigh < acme then
    return true
  return (← a.headers.lowest) < a.memoryHigh

/-- Frees the chunk of `h`, whose record is `record`, and files it. -/
def reclaim (a : Arena) (h : Handle) (record : Record) : Act Arena := do
  let acme ← record.acme
  if ← a.isOutside acme then
    Act.violate (.outOfBounds acme)
    return a
  let region ← match a.config.poison with
    | none => pure a.region
    | some byte => do
        a.region.fill record.addr (← Word.sub record.size Trailer.bytes) byte
  let headers ← a.headers.update h fun record => { record with state := .free }
  let (classes, region) ← a.classes.insert headers region h
  let counters ← a.counters.accountFree record.size
  let a := { a with region, headers, classes, counters }
  Act.log (.freed h record.size record.addr)
  a.selfCheck
  return a

/-- Frees the chunk of `h`.  A free chunk stays as it is. -/
def free (a : Arena) (h : Handle) : Act Arena := do
  match a.headers.live? h with
  | none =>
      Act.expect false (.danglingFree h)
      Act.log (.danglingFree h)
      return a
  | some record => if record.state.isFree then return a else a.reclaim h record

/-- Frees the chunk of `h`, and refuses handles without a chunk in use. -/
def tryFree (a : Arena) (h : Handle) : Act (Except Misuse Unit × Arena) := do
  match a.permit h with
  | .error misuse => return (.error misuse, a)
  | .ok record => return (.ok (), ← a.reclaim h record)

end CompactingArena.Arena
