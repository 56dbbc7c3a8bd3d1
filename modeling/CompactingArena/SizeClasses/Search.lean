import CompactingArena.SizeClasses
/-!
# Searching the free lists

A request is served from the classes above its own first, lowest to highest,
because every chunk there is large enough; failing that, its own class is
searched for the first fit.  A chunk that was filed lower than its size
warrants is filed anew on the way.  The lists may change even where the search
fails, so the searches return them in every case.
-/

namespace CompactingArena.SizeClasses

/-- What a search found, and the free lists it leaves. -/
abbrev Found : Type := Except Violation (Option Handle) × SizeClasses × Region

section Search

variable (headers : HeaderTable)

/-- Pops a class until its head belongs there.  Of the chunks popped, at most
`limit` may belong elsewhere. -/
def popFit (sizeClass : Nat) : Nat → SizeClasses → Region → Act Found
  | limit, c, region => do
      match ← c.pop headers region sizeClass with
      | .error violation => return (.error violation, c, region)
      | .ok none => return (.ok none, c, region)
      | .ok (some (h, c, region)) =>
          match limit with
          | 0 => return (.error .cycleDetected, c, region)
          | limit + 1 =>
              let size := (← headers.get h).size
              if size < 1 <<< sizeClass then
                return (.error (.sizeClassMismatch sizeClass size), c, region)
              else if sizeClass < (← c.classOf size) then
                Act.log (.demoted h size sizeClass)
                let (c, region) ← c.insert headers region h
                popFit sizeClass limit c region
              else
                return (.ok (some h), c, region)

/-- Pops the first of the given classes that has a chunk. -/
def popFirst : List Nat → SizeClasses → Region → Act Found
  | [], c, region => return (.ok none, c, region)
  | sizeClass :: rest, c, region => do
      match ← popFit headers sizeClass headers.capacity c region with
      | (.ok none, c, region) => popFirst rest c region
      | found => return found

/-- Ends a scan without a fit in the class itself: a chunk that was filed anew
is larger than the class and heads its new class, so it is taken. -/
def takeDemoted (demoted : Option Handle) (c : SizeClasses) (region : Region) : Act Found := do
  match demoted with
  | none => return (.ok none, c, region)
  | some h =>
      let sizeClass ← c.classOf (← headers.get h).size
      Act.expect ((← c.head sizeClass) == some h) .assertion
      match ← c.pop headers region sizeClass with
      | .error violation => return (.error violation, c, region)
      | .ok none => return (.ok none, c, region)
      | .ok (some (h, c, region)) => return (.ok (some h), c, region)

/-- Scans a class from `current` on for a chunk of at least `least` bytes.
`previous` is the last chunk passed that stays in the class, and `demoted` the
last one that was filed anew. -/
def scanFrom (sizeClass least : Nat) :
    Nat → Option Handle → Option Handle → Option Handle → SizeClasses → Region → Act Found
  | _, _, none, demoted, c, region => takeDemoted headers demoted c region
  | 0, _, some _, _, c, region => return (.error .cycleDetected, c, region)
  | limit + 1, previous, some h, demoted, c, region => do
      match ← nextOf headers region h with
      | .error violation => return (.error violation, c, region)
      | .ok next =>
          let size := (← headers.get h).size
          if size < 1 <<< sizeClass then
            return (.error (.sizeClassMismatch sizeClass size), c, region)
          else if sizeClass < (← c.classOf size) then
            match ← c.unlink headers region sizeClass previous h with
            | .error violation => return (.error violation, c, region)
            | .ok (c, region) =>
                let (c, region) ← c.insert headers region h
                scanFrom sizeClass least limit previous next (some h) c region
          else if least ≤ size then
            match ← c.unlink headers region sizeClass previous h with
            | .error violation => return (.error violation, c, region)
            | .ok (c, region) => return (.ok (some h), c, region)
          else
            scanFrom sizeClass least limit (some h) next demoted c region

end Search

/-- Takes a free chunk of at least `least` bytes out of the free lists. -/
def find (c : SizeClasses) (headers : HeaderTable) (region : Region) (least : Nat) :
    Act Found := do
  let natural ← c.classOf least
  let above := List.range' (natural + 1) (c.count - (natural + 1))
  match ← popFirst headers above c region with
  | (.ok none, c, region) =>
      let head ← c.head natural
      scanFrom headers natural least headers.capacity none head none c region
  | found => return found

end CompactingArena.SizeClasses
