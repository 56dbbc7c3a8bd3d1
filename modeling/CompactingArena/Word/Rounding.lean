import CompactingArena.Word
/-!
# Rounding and logarithms of sizes
-/

namespace CompactingArena.Word

/-- The alignment of chunks and regions: the width of a word in bytes. -/
def alignment : Nat := 8

/-- Rounds up to a multiple of `mask + 1`, unless the result leaves the range
of words.  A debug build checks that `mask + 1` is a power of two. -/
def alignUpBy (size mask : Nat) : Act (Option Nat) := do
  Act.expect (mask + 1 < modulus && mask &&& (mask + 1) == 0) .assertion
  if size + mask < modulus then
    return some (size + mask - ((size + mask) &&& mask))
  else
    return none

/-- Rounds up to a multiple of the alignment. -/
def alignUp (size : Nat) : Option Nat :=
  if size + (alignment - 1) < modulus then
    some ((size + (alignment - 1)) / alignment * alignment)
  else
    none

/-- The floor of the binary logarithm. -/
def log2 (size : Nat) : Act Nat :=
  if size = 0 then Act.fail .logarithm else pure size.log2

/-- The ceiling of the binary logarithm.  Release builds do not check that
`size` is not zero, and answer for the wrapped predecessor. -/
def ceilLog2 (size : Nat) : Act Nat :=
  match size with
  | 0 => Act.failInDebug .assertion (max.log2 + 1)
  | 1 => pure 0
  | n + 1 => pure (n.log2 + 1)

theorem alignUpBy_alignment (size : Nat) :
    alignUpBy size (alignment - 1) = pure (alignUp size) := by
  have hmask (n : Nat) : n - (n &&& 7) = n / 8 * 8 := by
    have := Nat.and_two_pow_sub_one_eq_mod n 3
    simp only [Nat.reducePow, Nat.reduceSub] at this
    omega
  have hcheck : (alignment - 1 + 1 < modulus &&
      (alignment - 1) &&& (alignment - 1 + 1) == 0) = true := by
    decide
  unfold alignUpBy alignUp
  rw [hcheck, Act.expect_true]
  simp only [pure_bind, alignment, Nat.reduceSub, hmask]
  by_cases h : size + 7 < modulus <;> simp only [h, if_true, if_false]

theorem alignUp_eq_some_iff {size rounded : Nat} :
    alignUp size = some rounded ↔
      size + 7 < modulus ∧ size ≤ rounded ∧ rounded < size + 8 ∧ rounded % 8 = 0 := by
  unfold alignUp alignment
  split
  · simp only [Option.some.injEq]
    omega
  · simp
    omega

theorem log2_eq {size : Nat} (h : 0 < size) : log2 size = pure size.log2 :=
  if_neg (by omega)

end CompactingArena.Word
