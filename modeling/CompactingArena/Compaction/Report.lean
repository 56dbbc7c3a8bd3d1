/-!
# Compaction reports
-/

namespace CompactingArena

structure CompactionReport where
  /-- Slides executed. -/
  passes : Nat := 0
  /-- Bytes of client data copied. -/
  bytesMoved : Nat := 0
  /-- How far the high-water mark dropped. -/
  reclaimed : Nat := 0
  /-- Whether the compaction ran out of work rather than time. -/
  completed : Bool := false
deriving DecidableEq

def CompactionReport.text (r : CompactionReport) : String :=
  "CompactionReport \x7b passes: " ++ toString r.passes ++
    ", bytes_moved: " ++ toString r.bytesMoved ++
    ", reclaimed: " ++ toString r.reclaimed ++
    ", completed: " ++ toString r.completed ++ " \x7d"

end CompactingArena
