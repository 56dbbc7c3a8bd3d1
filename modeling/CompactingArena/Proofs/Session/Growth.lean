import CompactingArena.Proofs.Arena.Statistics
import CompactingArena.Proofs.Compaction.Copies
import CompactingArena.Proofs.Compaction.Splits
import CompactingArena.Proofs.Session.Completion
/-!
# How chunks grow in a compaction

A run that moves past pinned chunks leaves a part of the hole that it has filled.
That part stays free if it can hold a trailer and if there is a record for it, and
otherwise the last chunk of the run absorbs it.  Allocations leave two records in
reserve, but a compaction may need one for every hole that it splits: chunks grow by
as much as a free chunk needs only once it has split more holes than there were
records to be had.
-/

namespace CompactingArena.Arena

open Layout

/-- The number of records to be had before the table meets the high-water mark: those
that wait to be recycled, and those that there is room for. -/
def attainableRecords (a : Arena) : Nat :=
  a.headers.freeRecordList.length +
    min ((a.headerLow - a.memoryHigh) / Record.bytes) (Handle.limit - a.headers.capacity)

/-- A chunk is in use both before and after, and has grown by as much as a free chunk
needs. -/
def Fattens (a a' : Arena) (h : Handle) : Prop :=
  ∃ r r', a.inUse? h = some r ∧ a'.inUse? h = some r' ∧ r.size + Trailer.bytes ≤ r'.size

variable {a a' b : Arena} {chunks chunks' sorted done todo : List Chunk}
  {spare spare' : List Handle} {fat copied : List Handle} {deeds : List Deed} {build : Build}
  {config : Config} {available size budget passes splits : Nat} {clock : Readings}
  {report : CompactionReport} {p p' : Progress} {h : Handle}

/-- Each chunk has a record, and the others are to be had. -/
theorem Laid.recordLimit_eq (hlaid : a.Laid chunks spare) :
    a.recordLimit = chunks.length + a.attainableRecords := by
  have hcapacity := hlaid.kept.length_eq
  have hnamed := hlaid.kept.capacity_le
  have hrecycled := hlaid.kept.freeRecordList
  have hroom := hlaid.room
  have hbytes : Record.bytes = 32 := rfl
  rw [length_handles] at hcapacity
  rw [recordLimit, attainableRecords, hrecycled, hlaid.low_eq]
  unfold HeaderTable.footprint at hroom ⊢
  rw [hbytes] at hroom ⊢
  omega

theorem Laid.attainableRecords_eq_zero (hlaid : a.Laid chunks spare)
    (hspent : a.headers.Spent a.memoryHigh) : a.attainableRecords = 0 := by
  have hlimit := hlaid.recordLimit_le hspent
  rw [hlaid.recordLimit_eq] at hlimit
  omega

theorem Laid.fattens_iff (hlaid : a.Laid chunks spare) (hlaid' : a'.Laid chunks' spare') :
    a.Fattens a' h ↔ ∃ c ∈ used chunks, ∃ c' ∈ used chunks',
      c.handle = h ∧ c'.handle = h ∧ c.size + Trailer.bytes ≤ c'.size := by
  constructor
  · rintro ⟨r, r', hr, hr', hsize⟩
    obtain ⟨c, hc, hhandle, -, hdesc⟩ := hlaid.inUse?_eq_some_iff.mp hr
    obtain ⟨c', hc', hhandle', -, hdesc'⟩ := hlaid'.inUse?_eq_some_iff.mp hr'
    rw [hdesc.size, hdesc'.size] at hsize
    exact ⟨c, hc, c', hc', hhandle, hhandle', hsize⟩
  · rintro ⟨c, hc, c', hc', rfl, hhandle', hsize⟩
    obtain ⟨r, hget, hdesc⟩ := hlaid.chained.get (mem_used.mp hc).1
    obtain ⟨r', hget', hdesc'⟩ := hlaid'.chained.get (mem_used.mp hc').1
    rw [← hdesc.size, ← hdesc'.size] at hsize
    exact ⟨r, r', hlaid.inUse?_eq_some_iff.mpr ⟨c, hc, rfl, hget, hdesc⟩,
      hlaid'.inUse?_eq_some_iff.mpr ⟨c', hc', hhandle', hhandle' ▸ hget', hdesc'⟩, hsize⟩

/-! ## One round -/

/-- A round lets a chunk grow by as much as a free chunk needs only if it splits a hole, and
if there is then no record to be had. -/
theorem Laid.splits_of_fattens (hlaid : a.Laid chunks spare) (htiles : Tiles 0 chunks a.memoryHigh)
    (haccounts : Accounts a.counters chunks)
    (hcopies : Copies build budget clock { arena := a } copied (.next p))
    (hround : (passInTime budget clock p).result build = .ok (.next p'))
    (hfat : p.arena.Fattens p'.arena h) :
    p.splits build = true ∧ p'.arena.attainableRecords = 0 := by
  obtain ⟨hbytes, hcount⟩ := hlaid.bytes_used_lt htiles
  obtain ⟨splits, moved, done, todo, spare, hpending, -⟩ :=
    hlaid.copied_of_copies htiles haccounts hcopies
  obtain ⟨⟨prospect, done', todo', spare', honward⟩, -⟩ :=
    (hpending.passInTime (by omega) hbytes).of_ok hround
  have hbefore := hpending.compacts.laid
  have hafter := honward.pending.compacts.laid
  rcases honward.thrifty with hthin | ⟨hsplits, hspent⟩
  · obtain ⟨c, hc, c', hc', rfl, hhandle, hsize⟩ := (hbefore.fattens_iff hafter).mp hfat
    obtain ⟨d, hd, hsame, hless⟩ := hthin c' hc'
    obtain rfl : d = c := hbefore.eq_of_handle_eq (mem_used.mp hd).1 (mem_used.mp hc).1
      (hsame.trans hhandle)
    omega
  · exact ⟨(hpending.splits_eq build honward.sees).trans hsplits,
      hafter.attainableRecords_eq_zero hspent⟩

/-! ## A whole compaction -/

section Swells

variable {headers : HeaderTable}
  (hswells : Swells { a with headers } sorted passes splits done todo fat)
  (hlaid : a.Laid chunks spare) (hperm : sorted.Perm chunks)
include hswells hlaid hperm

/-- Every chunk that has grown so much needed a record that was not to be had. -/
theorem Swells.length_le : fat.length ≤ splits - a.attainableRecords := by
  have hlimit := hlaid.recordLimit_eq
  have hsame : recordLimit { a with headers } = a.recordLimit := rfl
  rcases hswells.few with rfl | hfew
  · exact Nat.zero_le _
  · rw [hsame, hperm.length_eq] at hfew
    omega

variable (hlaid' : a'.Laid chunks' spare') (hused : used chunks' = used (done ++ todo))
include hlaid' hused

/-- The chunks in use are the same before and after, and what the passes have left of them
stays. -/
theorem Swells.fattens_iff : a.Fattens a' h ↔ h ∈ fat := by
  have hmem : ∀ c, c ∈ used sorted ↔ c ∈ used chunks := fun c => (used_perm hperm).mem_iff
  rw [hlaid.fattens_iff hlaid', hused, used_append]
  constructor
  · rintro ⟨c, hc, c', hc', rfl, hhandle, hsize⟩
    have hsame : ∀ d ∈ used sorted, d.handle = c'.handle → d = c := fun d hd heq =>
      hlaid.eq_of_handle_eq (mem_used.mp ((hmem d).mp hd)).1 (mem_used.mp hc).1
        (heq.trans hhandle)
    rcases List.mem_append.mp hc' with hc' | hc'
    · obtain ⟨d, hd, heq, hless | hfat⟩ := hswells.sizes c' hc'
      · obtain rfl := hsame d hd heq
        omega
      · exact hhandle ▸ hfat
    · obtain rfl := hsame c' (hswells.left c' hc') rfl
      have hleast : 0 < Trailer.bytes := by decide
      omega
  · intro hfat
    obtain ⟨c', hc', c, hc, hhandle', hhandle, hsize⟩ := hswells.grown h hfat
    exact ⟨c, (hmem c).mp hc, c', List.mem_append_left _ hc', hhandle, hhandle', hsize⟩

end Swells

/-- Sorting and settling let no chunk grow: what a compaction lets grow, its passes do. -/
theorem Sound.ensures_swells (hsound : a.Sound chunks spare) (build : Build) (budget : Nat)
    (clock : Readings) :
    ∃ headers sorted, a.sortChain = pure { a with headers } ∧ sorted.Perm chunks ∧
      Arena.Laid { a with headers } sorted spare ∧ Tiles 0 sorted a.memoryHigh ∧
      Act.Ensures build (a.compact budget clock) fun (report, a') =>
        ∃ done todo fat chunks' spare',
          Compaction a chunks budget clock report a' chunks' spare' ∧
          used chunks' = used (done ++ todo) ∧
          Arena.splits build budget clock { a with headers } ≤ report.passes ∧
          Swells { a with headers } sorted report.passes
            (Arena.splits build budget clock { a with headers }) done todo fat := by
  obtain ⟨headers, sorted, hsort, hperm, hlaid, htiles⟩ := hsound.toLaid.sortChain
  refine ⟨headers, sorted, hsort, hperm, hlaid, htiles, ?_⟩
  rw [compact_eq, hsort, pure_bind]
  refine (hlaid.ensures_runPasses htiles (hsound.accounts.perm hperm)).bind ?_
  rintro ⟨report, b⟩ ⟨chunks', spare', hcompacted⟩ ⟨report', c⟩ hfinish
  obtain ⟨⟨hpasses, spare'', hcompaction⟩, -⟩ := (hcompacted.agrees_finish hlaid hperm htiles
    hsound.covers.enough hsound.covers.nonempty).of_ok hfinish
  obtain ⟨skips, moved, done, todo, rfl, -, htrail, -⟩ := hcompacted.trail
  obtain ⟨fat, hswells⟩ := htrail.swells
  rw [← hpasses] at hswells
  exact ⟨done, todo, fat, _, spare'', hcompaction, by rw [used_trimmed, used_merged],
    hpasses ▸ htrail.splits_le, hswells⟩

/-- The free bytes that a compaction does not give back to the top are lost to the
growth of chunks. -/
theorem Compaction.free_le
    (hcompaction : Compaction a chunks budget clock report a' chunks' spare')
    (hlaid : a.Laid chunks spare)
    (hgrown : bytes (used chunks') ≤ bytes (used chunks) + (Trailer.bytes - 1) * report.passes) :
    bytes (frees chunks) ≤
      bytes (frees chunks') + report.reclaimed + (Trailer.bytes - 1) * report.passes := by
  have hsum := bytes_frees_add_used chunks
  have hsum' := bytes_frees_add_used chunks'
  have htop := hlaid.fills.top_eq
  have htop' := hcompaction.tiles.top_eq
  have hreclaimed := hcompaction.reclaimed
  have hhigh := hcompaction.high
  omega

/-- A chunk grows by as much as a free chunk needs only in a round that splits a hole and
finds no record to be had, and so only as many do as there are holes split beyond the
records to be had before.  If none does, free bytes are lost to the rests of holes only. -/
theorem growth_of_compact
    (hestablish : (establish config available size).result build = .ok (.ok a))
    (hruns : Runs build a deeds b) (budget : Nat) (clock : Readings) :
    ∃ sorted, b.sortChain = pure sorted ∧
      (∀ copied p p', Copies build budget clock { arena := sorted } copied (.next p) →
        (passInTime budget clock p).result build = .ok (.next p') →
        ∀ h, p.arena.Fattens p'.arena h →
          p.splits build = true ∧ p'.arena.attainableRecords = 0) ∧
      Act.Delivers build (b.counters.Crowded b.region.size) (b.compact budget clock)
        fun (report, b') =>
          sorted.splits build budget clock ≤ report.passes ∧
          (∀ fat : List Handle, fat.Nodup → (∀ h ∈ fat, b.Fattens b' h) →
            fat.length ≤ sorted.splits build budget clock - b.attainableRecords) ∧
          ∃ free free', b.totalFreeBytes = pure free ∧ b'.totalFreeBytes = pure free' ∧
            ((∀ h, ¬b.Fattens b' h) → free ≤ free' + report.reclaimed + 15 * report.passes) := by
  obtain ⟨chunks, spare, hsound⟩ := hruns.sound (sound_of_establish hestablish)
  obtain ⟨headers, sorted, hsort, hperm, hlaid, htiles, hensures⟩ :=
    hsound.ensures_swells build budget clock
  refine ⟨{ b with headers }, hsort, fun copied p p' hcopies hround h =>
    hlaid.splits_of_fattens htiles (hsound.accounts.perm hperm) hcopies hround, ?_⟩
  apply (hensures.mono ?_).delivers (hsound.compact budget clock)
  rintro ⟨report, b'⟩ ⟨done, todo, fat, chunks', spare', hcompaction, hused, hsplits, hswells⟩
  have hfattens : ∀ h, b.Fattens b' h ↔ h ∈ fat := fun h =>
    hswells.fattens_iff hsound.toLaid hperm hcompaction.sound.toLaid hused
  refine ⟨hsplits, fun fat' hnodup hfat' => ?_, _, _, hsound.totalFreeBytes,
    hcompaction.sound.totalFreeBytes, fun hnone => ?_⟩
  · have hsubset : fat' ⊆ fat := fun h hh => (hfattens h).mp (hfat' h hh)
    exact (hnodup.subperm hsubset).length_le.trans (hswells.length_le hsound.toLaid hperm)
  · obtain rfl : fat = [] :=
      List.eq_nil_iff_forall_not_mem.mpr fun h hh => hnone h ((hfattens h).mpr hh)
    have hgrown := hswells.bytes rfl
    rw [← hused, bytes_perm (used_perm hperm)] at hgrown
    exact hcompaction.free_le hsound.toLaid hgrown

/-! ## A compaction that runs out of records -/

/-- Three holes that are filled from above a pinned chunk, in an arena that has room
for two more records. -/
def cramped : List Op :=
  [.allocate 48, .allocate 16, .allocate 16, .allocate 16,
    .allocate 48, .allocate 16, .allocate 16, .allocate 16,
    .allocate 96, .allocate 16, .allocate 16, .allocate 3328,
    .lock (nth 1), .lock (nth 3), .lock (nth 5), .lock (nth 7), .lock (nth 9), .lock (nth 11),
    .free (nth 0), .free (nth 4), .free (nth 8)]

/-- The records to be had, the bytes that are not accounted for, and the size of one
chunk in use. -/
def measured (a : Arena) (h : Handle) : Nat × Nat × Option Nat :=
  (a.attainableRecords, a.memoryHigh - a.counters.allocatedBytes, (a.inUse? h).map (·.size))

/-- Calls operations on a new arena, and compacts it between two measurements. -/
def compactMeasured (ops : List Op) (h : Handle) :
    Act ((Nat × Nat × Option Nat) × CompactionReport × (Nat × Nat × Option Nat)) := do
  let s ← Session.run .refusing ops ⟨small, []⟩
  let (report, a) ← s.arena.compact 0 .still
  return (s.arena.measured h, report, a.measured h)

theorem compactMeasured_cramped : (compactMeasured cramped (nth 10)).result .release =
    .ok ((2, 192, some 16), ⟨3, 48, 0, true⟩, (0, 112, some 96)) := by
  decide +kernel

theorem of_compactMeasured_cramped : ∃ s a r r', ∃ report : CompactionReport,
    (Session.run .refusing cramped ⟨small, []⟩).result .release = .ok s ∧
    (s.arena.compact 0 .still).result .release = .ok (report, a) ∧
    s.arena.attainableRecords = 2 ∧ report.passes = 3 ∧ report.reclaimed = 0 ∧
    s.arena.totalFreeBytes = pure 192 ∧ a.totalFreeBytes = pure 112 ∧
    s.arena.inUse? (nth 10) = some r ∧ r.size = 16 ∧
    a.inUse? (nth 10) = some r' ∧ r'.size = 96 := by
  obtain ⟨s, hrun, h⟩ := Act.of_result_bind_ok compactMeasured_cramped
  obtain ⟨⟨report, a⟩, hcompact, h⟩ := Act.of_result_bind_ok h
  simp only [Act.result_pure, Except.ok.injEq, Prod.mk.injEq, measured] at h
  obtain ⟨⟨hattainable, hfree, hsize⟩, rfl, -, hfree', hsize'⟩ := h
  obtain ⟨r, hr, hsize⟩ := Option.map_eq_some_iff.mp hsize
  obtain ⟨r', hr', hsize'⟩ := Option.map_eq_some_iff.mp hsize'
  obtain ⟨deeds, hruns⟩ := Session.runs_of_run hrun
  obtain ⟨chunks, spare, hsound⟩ := hruns.sound (sound_of_establish (establish_small .release))
  obtain ⟨chunks', spare', hcompaction⟩ := (hsound.compact 0 .still).of_ok hcompact
  refine ⟨s, a, r, r', _, hrun, hcompact, hattainable, rfl, rfl, ?_, ?_, hr, hsize, hr', hsize'⟩
  · rw [hsound.totalFreeBytes_eq_sub, hfree]
  · rw [hcompaction.sound.totalFreeBytes_eq_sub, hfree']

/-- Of the three chunks that move, only the one for which there is no record grows by as
much as a free chunk needs. -/
theorem growth_of_compact_cramped :
    ∃ s report a, (Session.run .refusing cramped ⟨small, []⟩).result .release = .ok s ∧
      (s.arena.compact 0 .still).result .release = .ok (report, a) ∧ report.passes = 3 ∧
      ∀ h, s.arena.Fattens a h ↔ h = nth 10 := by
  obtain ⟨s, a, r, r', report, hrun, hcompact, hattainable, hpasses, -, -, -, hr, hsize, hr',
    hsize'⟩ := of_compactMeasured_cramped
  obtain ⟨deeds, hruns⟩ := Session.runs_of_run hrun
  obtain ⟨sorted, -, -, hdelivers⟩ := growth_of_compact (establish_small .release) hruns 0 .still
  obtain ⟨hsplits, hfew, -⟩ := hdelivers.of_ok hcompact
  have hfattens : s.arena.Fattens a (nth 10) :=
    ⟨r, r', hr, hr', by rw [hsize, hsize']; decide⟩
  refine ⟨s, report, a, hrun, hcompact, hpasses, fun h => ⟨fun hother => ?_, fun heq => ?_⟩⟩
  · by_contra hne
    have hpair := hfew [h, nth 10] (by simpa using hne) (by simp [hother, hfattens])
    rw [hattainable, List.length_cons, List.length_singleton] at hpair
    omega
  · exact heq ▸ hfattens

/-- A chunk in use grows by eighty bytes, and more free bytes are lost than the rests
of three holes. -/
theorem compact_fat : ∃ s a r r', ∃ report : CompactionReport,
    (establish {} 4096 4096).result .release = .ok (.ok small) ∧
    (Session.run .refusing cramped ⟨small, []⟩).result .release = .ok s ∧
    (s.arena.compact 0 .still).result .release = .ok (report, a) ∧
    s.arena.inUse? (nth 10) = some r ∧ a.inUse? (nth 10) = some r' ∧
    ¬r'.size < r.size + 16 ∧ s.arena.totalFreeBytes = pure 192 ∧ a.totalFreeBytes = pure 112 ∧
    ¬192 ≤ 112 + report.reclaimed + 15 * report.passes := by
  obtain ⟨s, a, r, r', report, hrun, hcompact, -, hpasses, hreclaimed, hfree, hfree', hr, hsize,
    hr', hsize'⟩ := of_compactMeasured_cramped
  exact ⟨s, a, r, r', report, establish_small .release, hrun, hcompact, hr, hr', by omega, hfree,
    hfree', by omega⟩

end CompactingArena.Arena
