import CompactingArena.Region
import CompactingArena.Word
/-!
# Trailers

The last 16 bytes of a free chunk hold two little-endian words: the packed
handle of the chunk's record and that of the next chunk in the same free list.
A trailer is named by the offset at which its chunk ends.
-/

namespace CompactingArena

/-- The record at the end of a free chunk. -/
structure Trailer where
  /-- The packed handle of the chunk's own record. -/
  owner : Nat
  /-- The packed handle of the next chunk in the same free list. -/
  next : Nat
deriving DecidableEq

/-- The bytes of a trailer, and so the least size of a chunk. -/
def Trailer.bytes : Nat := 16

/-- The low `count` bytes of `n`, the lowest first. -/
def littleEndian : Nat → Nat → List UInt8
  | 0, _ => []
  | count + 1, n => UInt8.ofNat n :: littleEndian count (n / 256)

/-- The number that bytes stand for, the lowest first. -/
def ofLittleEndian : List UInt8 → Nat
  | [] => 0
  | byte :: rest => byte.toNat + 256 * ofLittleEndian rest

namespace Region

/-- The word of 8 bytes at an offset. -/
def word (r : Region) (offset : Nat) : Nat :=
  ofLittleEndian ((List.range 8).map fun i => r.byte (offset + i))

def readTrailer (r : Region) (acme : Nat) : Act Trailer := do
  let start ← Word.sub acme Trailer.bytes
  r.check start Trailer.bytes
  return ⟨r.word start, r.word (start + 8)⟩

def writeTrailer (r : Region) (acme : Nat) (trailer : Trailer) : Act Region := do
  let start ← Word.sub acme Trailer.bytes
  r.check start Trailer.bytes
  return r.overlay start
    ⟨(littleEndian 8 trailer.owner ++ littleEndian 8 trailer.next).toArray⟩

/-- Rewrites only the link of the trailer of the chunk that ends at `acme`. -/
def writeTrailerNext (r : Region) (acme next : Nat) : Act Region := do
  let trailer ← r.readTrailer acme
  r.writeTrailer acme { trailer with next }

end Region

@[simp] theorem length_littleEndian (count n : Nat) :
    (littleEndian count n).length = count := by
  induction count generalizing n with
  | zero => rfl
  | succ count ih => simp [littleEndian, ih]

/-- Bytes keep a number that has no bits beyond theirs. -/
theorem ofLittleEndian_littleEndian (count n : Nat) (h : n >>> (8 * count) = 0) :
    ofLittleEndian (littleEndian count n) = n := by
  induction count generalizing n with
  | zero => exact h.symm
  | succ count ih =>
      have hrest : (n / 256) >>> (8 * count) = 0 := by
        rw [← h, show 8 * (count + 1) = 8 + 8 * count by omega, Nat.shiftRight_add,
          Nat.shiftRight_eq_div_pow n 8]
      simp only [littleEndian, ofLittleEndian, ih (n / 256) hrest, UInt8.toNat_ofNat']
      omega

end CompactingArena
