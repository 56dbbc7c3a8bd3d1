import CompactingArena.Proofs.Compaction.Passes
/-!
# How often a compaction splits a hole

A slide past pinned chunks splits its hole if it leaves enough of it for a free chunk.
`Arena.splits` counts such slides along the rounds of a compaction.  These are the only
slides that ask for a record beside the one that describes the place of the run, and so
the only ones that can find all records in use.
-/

namespace CompactingArena

open Layout

/-- Whether a slide moves its run past other chunks and leaves enough of the hole for a
free chunk. -/
def Slide.splits (job : Slide) : Bool :=
  job.beforeMoved ≠ job.hole.last && Trailer.bytes ≤ job.hole.size - job.moved.size

namespace Arena

/-- Whether what the next pass finds is a slide that splits its hole. -/
def Progress.splits (build : Build) (p : Progress) : Bool :=
  match (p.arena.headers.findSlide p.cursor).result build with
  | .ok (.slide job) => job.splits
  | _ => false

/-- The number of the holes that the next `limit` rounds split. -/
def splitsFrom (build : Build) (budget : Nat) (clock : Readings) : Nat → Progress → Nat
  | 0, _ => 0
  | limit + 1, p =>
      match (passInTime budget clock p).result build with
      | .ok (.next p') => (p.splits build).toNat + splitsFrom build budget clock limit p'
      | _ => 0

/-- The number of the holes that the passes over a sorted chain split. -/
def splits (build : Build) (budget : Nat) (clock : Readings) (a : Arena) : Nat :=
  splitsFrom build budget clock passLimit { arena := a }

variable {a : Arena} {chunks moved done todo : List Chunk} {spare : List Handle} {build : Build}
  {budget splits : Nat} {clock : Readings} {p : Progress} {prospect : Prospect}

/-- A pass splits a hole if what there is to see does. -/
theorem Pending.splits_eq (h : Pending a chunks budget clock p splits moved done todo spare)
    (build : Build) (hsees : Sees todo prospect) : p.splits build = prospect.splits := by
  obtain ⟨search, hfind, hfinds⟩ := h.compacts.laid.findSlide h.compacts.tiles hsees
  rw [Progress.splits, h.cursor, hfind, Act.result_pure]
  cases hfinds with
  | nothing => rfl
  | obstructed => rfl
  | adjacent => simp [Slide.splits, Prospect.splits, runOf]
  | @past before hole barrier moved rest f b m =>
      cases hsees with
      | past =>
          -- chunks lie between the hole and the run, so that the two are told apart
          have hnodup := h.compacts.laid.nodup_handles
          rw [← List.append_assoc] at hnodup
          have hapart : tip b.handle barrier ≠ tip f.handle hole := tip_ne_tip hnodup
          simp [Slide.splits, Prospect.splits, runOf, hapart]

/-- What the rounds that are left split comes on top of what has been split before. -/
theorem Pending.ensures_loop (h : Pending a chunks budget clock p splits moved done todo spare)
    (hcount : (used chunks).length < Word.modulus) (hbytes : bytes (used chunks) < Word.modulus)
    (build : Build) (limit : Nat) :
    Act.Ensures build (Act.loop (Arena.passInTime budget clock) limit p) fun (report, b) =>
      ∃ chunks' spare', Compacted a chunks budget clock report
        (splits + splitsFrom build budget clock limit p) b chunks' spare' := by
  induction limit generalizing p splits moved done todo spare with
  | zero => exact .of_fail
  | succ limit ih =>
      rintro ⟨report, b⟩ hloop
      rw [Act.loop_succ] at hloop
      obtain ⟨round, hround, hrest⟩ := Act.of_result_bind_ok hloop
      have hpass := (h.passInTime hcount hbytes).of_ok hround
      rw [splitsFrom, hround]
      rcases round with p' | answer
      · obtain ⟨⟨prospect, done', todo', spare', honward⟩, -⟩ := hpass
        -- what this round splits passes from the count of the rest to the count so far
        have hcompacted := ih honward.pending _ hrest
        rw [← h.splits_eq build honward.sees, Nat.add_assoc] at hcompacted
        exact hcompacted
      · obtain ⟨⟨chunks', spare', -, hcompacted⟩, -⟩ := hpass
        obtain rfl := Except.ok.inj hrest
        exact ⟨chunks', spare', hcompacted⟩

/-- The passes of a compaction split as many holes as they are counted to. -/
theorem Laid.ensures_runPasses (hlaid : a.Laid chunks spare)
    (htiles : Tiles 0 chunks a.memoryHigh) (haccounts : Accounts a.counters chunks) :
    Act.Ensures build (Arena.runPasses budget clock passLimit a) fun (report, b) =>
      ∃ chunks' spare',
        Compacted a chunks budget clock report (a.splits build budget clock) b chunks' spare' := by
  obtain ⟨hbytes, hcount⟩ := hlaid.bytes_used_lt htiles
  have hrun := (hlaid.pending htiles haccounts budget clock).ensures_loop (by omega) hbytes build
    passLimit
  rw [Nat.zero_add] at hrun
  exact hrun

end Arena

end CompactingArena
