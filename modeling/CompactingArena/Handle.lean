/-!
# Handles

A handle names a record of the header table by its position.  It stays valid
while the chunk it describes moves.  Free chunks store handles in the region
itself, so a link packs into one word: zero for no handle, and otherwise the
position plus one.
-/

namespace CompactingArena

/-- The number of positions that a handle can name: one less than there are
words of 32 bits, so that the packed form of every handle is one of those. -/
def Handle.limit : Nat := 0xffffffff

/-- An address-stable reference to a chunk: the position of its record. -/
structure Handle where
  index : Nat
  index_lt : index < Handle.limit
deriving DecidableEq

namespace Handle

/-- The handle for a position, unless no handle can name it. -/
def ofIndex? (index : Nat) : Option Handle :=
  if h : index < limit then some ⟨index, h⟩ else none

def toWord : Option Handle → Nat
  | none => 0
  | some h => h.index + 1

/-- Unpacks a word; zero and words above 32 bits name no handle. -/
def ofWord? : Nat → Option Handle
  | 0 => none
  | index + 1 => ofIndex? index

def text (h : Handle) : String :=
  "Handle(" ++ toString h.index ++ ")"

theorem ext_iff {h g : Handle} : h = g ↔ h.index = g.index := by
  cases h
  cases g
  simp

@[simp] theorem ofIndex?_index (h : Handle) : ofIndex? h.index = some h := by
  simp [ofIndex?, h.index_lt]

theorem index_of_ofIndex? {index : Nat} {h : Handle}
    (hh : ofIndex? index = some h) : h.index = index := by
  unfold ofIndex? at hh
  split at hh <;> simp_all
  exact hh ▸ rfl

theorem ofIndex?_eq_none_iff {index : Nat} : ofIndex? index = none ↔ limit ≤ index := by
  unfold ofIndex?
  split
  · simpa using ‹index < limit›
  · simpa using ‹¬index < limit›

@[simp] theorem ofWord?_toWord (link : Option Handle) :
    ofWord? (toWord link) = link := by
  cases link <;> simp [toWord, ofWord?]

theorem toWord_le (link : Option Handle) : toWord link ≤ limit := by
  cases link with
  | none => exact Nat.zero_le limit
  | some h => exact h.index_lt

end Handle

end CompactingArena
