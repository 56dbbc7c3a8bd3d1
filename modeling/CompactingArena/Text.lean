/-!
# Texts

The texts that messages share.  Offsets are printed in lower-case hexadecimal
behind `0x`.  A region is printed by its size alone: where it lies in memory is
nobody's business.
-/

namespace CompactingArena.Text

/-- The lower-case hexadecimal text of `n`, without leading zeros. -/
def hex (n : Nat) : String :=
  "0x" ++ String.ofList (Nat.toDigits 16 n)

/-- A region of `size` bytes as it stands in messages. -/
def region (size : Nat) : String :=
  "Region(<base>..[" ++ toString size ++ "])"

end CompactingArena.Text
