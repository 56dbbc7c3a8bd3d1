import CompactingArena.Act
/-!
# Word arithmetic

Sizes and offsets are natural numbers below `Word.modulus`.  A sum, difference
or product that leaves this range is a fault in a debug build and wraps around
in a release build; inside the range an operation is the one on `Nat`, in both
builds alike.
-/

namespace CompactingArena.Word

/-- The number of values of a word of 64 bits. -/
def modulus : Nat := 0x10000000000000000

def max : Nat := modulus - 1

/-- The outcome of an operation whose exact value no word holds. -/
def overflow (wrapped : Nat) : Act Nat :=
  Act.failInDebug .overflow (wrapped % modulus)

def add (x y : Nat) : Act Nat :=
  if x + y < modulus then pure (x + y) else overflow (x + y)

def sub (x y : Nat) : Act Nat :=
  if y ≤ x then pure (x - y) else overflow (x + modulus - y)

theorem add_eq {x y : Nat} (h : x + y < modulus) : add x y = pure (x + y) :=
  if_pos h

theorem sub_eq {x y : Nat} (h : y ≤ x) : sub x y = pure (x - y) :=
  if_pos h

end CompactingArena.Word
