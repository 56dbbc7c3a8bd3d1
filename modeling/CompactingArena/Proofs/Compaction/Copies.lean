import CompactingArena.Proofs.Compaction.Passes
/-!
# What a compaction copies

A pass that slides copies the chunks of one run, one after the other.  `Progress.copies`
reads off which they are before the pass begins, and `Copies` gathers them over the
rounds of a compaction.  No chunk is copied twice: what was copied is behind the cursor
from then on, and no later pass brings it back.
-/

namespace CompactingArena

open Layout

/-- The handles of the chunks that `moveRun` copies, one after the other. -/
def movedBy (last : Handle) : Nat → Option Handle → HeaderTable → List Handle
  | _, none, _ => []
  | 0, some _, _ => []
  | limit + 1, some h, t =>
      match t.get? h with
      | none => []
      | some record => h :: if h = last then [] else movedBy last limit record.next t

/-- Copies one chunk down. -/
def copyDown (distance : Nat) (x : HeaderTable × Region) (h : Handle) :
    Act (HeaderTable × Region) := do
  let record ← x.1.get h
  let addr ← Word.sub record.addr distance
  let headers ← x.1.update h fun record => { record with addr }
  let region ← x.2.copyWithin record.addr addr record.size
  return (headers, region)

variable {t t' : HeaderTable} {region : Region} {last : Handle} {start stop : Option Handle}
  {l : List Chunk} {c : Chunk} {distance limit : Nat} {build : Build}

/-- Only the links matter. -/
theorem movedBy_congr (h : ∀ g, (t'.get? g).map Record.next = (t.get? g).map Record.next) :
    movedBy last limit start t' = movedBy last limit start t := by
  induction limit generalizing start with
  | zero => cases start <;> rfl
  | succ limit ih =>
      cases start with
      | none => rfl
      | some g =>
          have hg := h g
          rw [movedBy, movedBy]
          rcases hget : t.get? g with - | r
          · rw [hget, Option.map_none, Option.map_eq_none_iff] at hg
            rw [hg]
          · rw [hget, Option.map_some, Option.map_eq_some_iff] at hg
            obtain ⟨r', hget', hnext⟩ := hg
            simp only [hget', hnext, ih]

/-- A run that was moved was moved by copying these chunks in this order. -/
theorem copyDown_of_moveRun {x : HeaderTable × Region}
    (h : (moveRun distance last limit start t region).result build = .ok x) :
    ((movedBy last limit start t).foldlM (copyDown distance) (t, region)).result build =
      .ok x := by
  induction limit generalizing start t region with
  | zero =>
      cases start with
      | none => exact h
      | some g => exact absurd h (by simp [moveRun])
  | succ limit ih =>
      cases start with
      | none => exact h
      | some g =>
          rw [moveRun] at h
          obtain ⟨r, hr, h⟩ := Act.of_result_bind_ok h
          obtain ⟨addr, haddr, h⟩ := Act.of_result_bind_ok h
          obtain ⟨t₁, ht₁, h⟩ := Act.of_result_bind_ok h
          obtain ⟨region₁, hregion₁, h⟩ := Act.of_result_bind_ok h
          have hget : t.get? g = some r := Act.of_ofOption hr
          have hcopy : (copyDown distance (t, region) g).result build = .ok (t₁, region₁) := by
            rw [copyDown, Act.result_bind_ok hr, Act.result_bind_ok haddr, Act.result_bind_ok ht₁,
              Act.result_bind_ok hregion₁, Act.result_pure]
          simp only [movedBy, hget]
          rw [List.foldlM_cons, Act.result_bind_ok hcopy]
          by_cases hlast : g = last
          · rw [if_pos hlast] at h ⊢
            exact h
          · rw [if_neg hlast] at h ⊢
            rw [HeaderTable.update_eq hget, Act.result_pure, Except.ok.injEq] at ht₁
            have hlinks : ∀ f, (t₁.get? f).map Record.next = (t.get? f).map Record.next := by
              intro f
              rw [← ht₁, HeaderTable.get?_set]
              by_cases hf : f = g
              · rw [hf, if_pos rfl, hget]
                rfl
              · rw [if_neg fun heq => hf heq.symm]
            rw [← movedBy_congr hlinks]
            exact ih h

/-- What is copied of a run are all its chunks. -/
theorem HeaderTable.Lists.movedBy (h : t.Lists start (c :: l) stop)
    (hnodup : (handles (c :: l)).Nodup) (hlimit : l.length < limit) :
    movedBy (tip c.handle l) limit start t = handles (c :: l) := by
  induction l generalizing c start limit with
  | nil =>
      obtain ⟨limit, rfl⟩ : ∃ n, limit = n + 1 := ⟨limit - 1, by omega⟩
      obtain ⟨rfl, r, hget, -, -⟩ := h
      rw [CompactingArena.movedBy, hget]
      exact congrArg _ (if_pos rfl)
  | cons d l ih =>
      obtain ⟨limit, rfl⟩ : ∃ n, limit = n + 1 := ⟨limit - 1, by omega⟩
      obtain ⟨rfl, r, hget, -, hrest⟩ := h
      obtain ⟨hfresh, hnodup⟩ := List.nodup_cons.mp hnodup
      have hne : c.handle ≠ tip c.handle (d :: l) := fun heq => hfresh (heq ▸ tip_mem d l)
      rw [CompactingArena.movedBy, hget]
      simp only [if_neg hne]
      rw [handles_cons c, ← ih hrest hnodup (by simpa using hlimit)]
      rfl

namespace Arena

variable {a : Arena} {chunks moved done todo : List Chunk} {spare : List Handle}
  {budget splits : Nat} {clock : Readings} {p : Progress} {copied : List Handle}
  {round : Act.Round Progress (CompactionReport × Arena)} {prospect : Prospect}

/-- The handles of the chunks that the next pass copies, if there is time for it. -/
def Progress.copies (build : Build) (budget : Nat) (clock : Readings) (p : Progress) :
    List Handle :=
  if timeIsUp budget (clock 0) (clock p.readings) then []
  else
    match (p.arena.headers.findSlide p.cursor).result build with
    | .ok (.slide job) =>
        movedBy job.moved.last p.arena.headers.walkLimit (some job.moved.first) p.arena.headers
    | _ => []

section Region

variable {job : Slide} {holeAddr vacatedAddr remainder : Nat} {rest : Option Handle} {pass : Pass}
  {a' : Arena}

theorem region_relinkAdjacent :
    Act.Ensures build (a.relinkAdjacent job holeAddr rest) fun (_, a') => a'.region = a.region := by
  rw [relinkAdjacent]
  refine .after fun addr => .after fun fresh => ?_
  rcases fresh with - | ⟨hole, headers⟩
  · exact .of_pure rfl
  · exact .of_pure rfl

theorem region_keepRest (spare : Option (Handle × HeaderTable)) :
    Act.Ensures build (a.keepRest job remainder spare) fun (_, a') => a'.region = a.region := by
  rcases spare with - | ⟨spare, headers⟩
  · rw [keepRest, fold_eq]
    refine Act.Ensures.bind (.after fun _ => .after fun _ => .after fun _ => .after fun _ =>
      .of_pure rfl) fun a' (hregion : a'.region = a.region) => .of_pure hregion
  · exact .of_pure rfl

theorem region_relinkPast :
    Act.Ensures build (a.relinkPast job holeAddr vacatedAddr rest) fun (_, a') =>
      a'.region = a.region := by
  rw [relinkPast_eq]
  refine .after fun fresh => ?_
  rcases fresh with - | ⟨vacated, headers⟩
  · exact .of_pure rfl
  refine .after fun remainder => ?_
  split
  · exact region_keepRest none
  · exact .after fun _ => .after fun spare => region_keepRest spare

/-- A slide changes the region by copying the chunks of its run, and in no other way. -/
theorem copyDown_of_slide (h : (a.slide job).result build = .ok (.ok pass, a')) :
    ∃ distance headers,
      ((movedBy job.moved.last a.headers.walkLimit (some job.moved.first) a.headers).foldlM
        (copyDown distance) (a.headers, a.region)).result build = .ok (headers, a'.region) := by
  rw [Arena.slide] at h
  obtain ⟨hole, -, h⟩ := Act.of_result_bind_ok h
  obtain ⟨moved, -, h⟩ := Act.of_result_bind_ok h
  obtain ⟨distance, -, h⟩ := Act.of_result_bind_ok h
  by_cases hzero : distance = 0
  · rw [if_pos hzero] at h
    exact absurd h (by simp)
  rw [if_neg hzero] at h
  obtain ⟨rest, -, h⟩ := Act.of_result_bind_ok h
  obtain ⟨⟨headers, region⟩, hmove, h⟩ := Act.of_result_bind_ok h
  obtain ⟨headers', -, h⟩ := Act.of_result_bind_ok h
  have hend : ∀ x : Except Violation Unit × Arena, x.2.region = region →
      (finishSlide job distance hole.addr x).result build = .ok (.ok pass, a') →
      a'.region = region := by
    rintro ⟨violation | ⟨⟩, b⟩ hregion hfinish
    · exact absurd hfinish (by simp [finishSlide])
    · obtain ⟨-, -, hfinish⟩ := Act.of_result_bind_ok hfinish
      rw [Act.result_pure, Except.ok.injEq, Prod.mk.injEq] at hfinish
      exact hfinish.2 ▸ hregion
  suffices hregion : a'.region = region from
    ⟨distance, headers, hregion ▸ copyDown_of_moveRun hmove⟩
  by_cases hadjacent : job.beforeMoved = job.hole.last
  · rw [if_pos hadjacent] at h
    obtain ⟨⟨violation | ⟨⟩, b⟩, hlinked, h⟩ := Act.of_result_bind_ok h
    · exact hend (.error violation, b) (region_relinkAdjacent _ hlinked) h
    · exact hend (.ok (), b) (region_relinkAdjacent _ hlinked) h
  · rw [if_neg hadjacent] at h
    obtain ⟨⟨violation | ⟨⟩, b⟩, hlinked, h⟩ := Act.of_result_bind_ok h
    · exact hend (.error violation, b) (region_relinkPast _ hlinked) h
    · exact hend (.ok (), b) (region_relinkPast _ hlinked) h

/-- A round that is not the last one changes the region by these copies, and in no other
way. -/
theorem copyDown_of_passInTime {p' : Progress}
    (h : (passInTime budget clock p).result build = .ok (.next p')) :
    ∃ distance headers,
      ((p.copies build budget clock).foldlM (copyDown distance)
        (p.arena.headers, p.arena.region)).result build = .ok (headers, p'.arena.region) := by
  rw [passInTime] at h
  by_cases hup : timeIsUp budget (clock 0) (clock p.readings) = true
  · rw [if_pos hup] at h
    exact absurd h (by simp)
  rw [if_neg hup] at h
  obtain ⟨⟨result, a'⟩, hpass, h⟩ := Act.of_result_bind_ok h
  rw [compactionPass] at hpass
  obtain ⟨search, hsearch, hpass⟩ := Act.of_result_bind_ok hpass
  rw [Progress.copies, if_neg hup, hsearch]
  cases search with
  | done =>
      obtain ⟨rfl, rfl⟩ := Prod.mk.inj (Except.ok.inj hpass)
      exact absurd h (by simp)
  | skip next =>
      obtain ⟨rfl, rfl⟩ := Prod.mk.inj (Except.ok.inj hpass)
      obtain rfl := Act.Round.next.inj (Except.ok.inj h)
      exact ⟨0, _, rfl⟩
  | slide job =>
      rcases result with violation | pass
      · obtain ⟨-, -, h⟩ := Act.of_result_bind_ok h
        exact absurd h (by simp)
      obtain ⟨distance, headers, hcopies⟩ := copyDown_of_slide hpass
      cases pass with
      | slid next bytes =>
          obtain ⟨passes, -, h⟩ := Act.of_result_bind_ok h
          obtain ⟨moved, -, h⟩ := Act.of_result_bind_ok h
          obtain rfl := Act.Round.next.inj (Except.ok.inj h)
          exact ⟨distance, headers, hcopies⟩
      | skipped next =>
          obtain rfl := Act.Round.next.inj (Except.ok.inj h)
          exact ⟨distance, headers, hcopies⟩
      | done => exact absurd h (by simp)

end Region

/-- The rounds of a compaction from `p` on lead to `round`, and have copied the chunks
whose handles are in `copied`, in this order. -/
inductive Copies (build : Build) (budget : Nat) (clock : Readings) (p : Progress) :
    List Handle → Act.Round Progress (CompactionReport × Arena) → Prop
  | start : Copies build budget clock p [] (.next p)
  | round {copied : List Handle} {p' : Progress}
      {round : Act.Round Progress (CompactionReport × Arena)}
      (h : Copies build budget clock p copied (.next p'))
      (hround : (passInTime budget clock p').result build = .ok round) :
      Copies build budget clock p (copied ++ p'.copies build budget clock) round

/-- A pass copies the chunks that there are to see. -/
theorem Pending.copies_eq (h : Pending a chunks budget clock p splits moved done todo spare)
    (hsees : Sees todo prospect)
    (htime : timeIsUp budget (clock 0) (clock p.readings) = false) :
    p.copies build budget clock = handles prospect.run := by
  have hlaid := h.compacts.laid
  have hlists := (HeaderTable.lists_append.mp hlaid.chained).2
  have hlength := hlaid.length_le
  have hnodup := hlaid.nodup_handles
  rw [List.length_append] at hlength
  rw [handles_append] at hnodup
  have hnodup := hnodup.of_append_right
  obtain ⟨search, hfind, hfinds⟩ := hlaid.findSlide h.compacts.tiles hsees
  have hwalk : p.arena.headers.walkLimit = 2 * (p.arena.headers.capacity + 1) := rfl
  rw [Progress.copies, htime, if_neg Bool.false_ne_true, h.cursor, hfind, Act.result_pure]
  cases hfinds with
  | nothing => rfl
  | obstructed => rfl
  | adjacent =>
      cases hsees with
      | adjacent =>
          obtain ⟨-, hrest⟩ := HeaderTable.lists_append.mp hlists
          obtain ⟨-, hrest⟩ := HeaderTable.lists_append.mp hrest
          obtain ⟨hrun, -⟩ := HeaderTable.lists_append.mp hrest
          simp only [handles_append, List.nodup_append'] at hnodup
          simp only [List.length_append, List.length_cons] at hlength
          exact hrun.movedBy hnodup.2.1.2.1.1 (by omega)
  | past =>
      cases hsees with
      | past =>
          obtain ⟨-, hrest⟩ := HeaderTable.lists_append.mp hlists
          obtain ⟨-, hrest⟩ := HeaderTable.lists_append.mp hrest
          obtain ⟨-, hrest⟩ := HeaderTable.lists_append.mp hrest
          obtain ⟨hrun, -⟩ := HeaderTable.lists_append.mp hrest
          simp only [handles_append, List.nodup_append'] at hnodup
          simp only [List.length_append, List.length_cons] at hlength
          exact hrun.movedBy hnodup.2.1.2.1.2.1.1 (by omega)

/-- Once the time is up, or nothing is left to slide, nothing is copied. -/
theorem Pending.copies_eq_nil (h : Pending a chunks budget clock p splits moved done todo spare)
    (hend : timeIsUp budget (clock 0) (clock p.readings) = true ∨ Sees todo .nothing) :
    p.copies build budget clock = [] := by
  by_cases hup : timeIsUp budget (clock 0) (clock p.readings) = true
  · rw [Progress.copies, if_pos hup]
  · exact h.copies_eq (hend.resolve_left hup) (Bool.eq_false_iff.mpr hup)

/-- What the rounds that lead to `round` have copied: chunks that could move, each of
them once. -/
def Copied (a : Arena) (chunks : List Chunk) (budget : Nat) (clock : Readings)
    (copied : List Handle) : Act.Round Progress (CompactionReport × Arena) → Prop
  | .next p => ∃ splits moved done todo spare,
      Pending a chunks budget clock p splits moved done todo spare ∧ handles moved = copied
  | .done _ => ∃ moved, moved.Subperm (unlocked chunks) ∧ handles moved = copied

theorem Copied.exists_subperm (h : Copied a chunks budget clock copied round) :
    ∃ moved, moved.Subperm (unlocked chunks) ∧ handles moved = copied := by
  cases round with
  | next p =>
      obtain ⟨splits, moved, done, todo, spare, hpending, hcopied⟩ := h
      obtain ⟨skips, htrail, -⟩ := hpending.trail
      exact ⟨moved, htrail.moved_subperm, hcopied⟩
  | done answer => exact h

section Run

variable (hlaid : a.Laid chunks spare) (htiles : Tiles 0 chunks a.memoryHigh)
  (haccounts : Accounts a.counters chunks)
include hlaid htiles haccounts

theorem Laid.copied_of_copies (h : Copies build budget clock { arena := a } copied round) :
    Copied a chunks budget clock copied round := by
  obtain ⟨hbytes, hcount⟩ := hlaid.bytes_used_lt htiles
  induction h with
  | start => exact ⟨0, [], [], chunks, spare, hlaid.pending htiles haccounts budget clock, rfl⟩
  | @round copied p round _ hround ih =>
      obtain ⟨splits, moved, done, todo, spare, hpending, rfl⟩ := ih
      have hpass := (hpending.passInTime (by omega) (by omega)).of_ok hround
      rcases round with p' | ⟨report, a'⟩
      · obtain ⟨⟨prospect, done', todo', spare', honward⟩, -⟩ := hpass
        refine ⟨_, _, done', todo', spare', honward.pending, ?_⟩
        rw [handles_append, hpending.copies_eq honward.sees honward.inTime]
      · obtain ⟨⟨-, -, hend, -⟩, -⟩ := hpass
        rw [hpending.copies_eq_nil hend, List.append_nil]
        obtain ⟨skips, htrail, -⟩ := hpending.trail
        exact ⟨moved, htrail.moved_subperm, rfl⟩

/-- No chunk is copied twice, and none but those that may move. -/
theorem Laid.nodup_of_copies (h : Copies build budget clock { arena := a } copied round) :
    copied.Nodup ∧ copied ⊆ handles (unlocked chunks) := by
  obtain ⟨moved, ⟨rest, hperm, hrest⟩, rfl⟩ :=
    (hlaid.copied_of_copies htiles haccounts h).exists_subperm
  have hpart : (handles rest).Sublist (handles (unlocked chunks)) := hrest.map _
  have hsame : (handles rest).Perm (handles moved) := hperm.map _
  have hwhole : (handles (unlocked chunks)).Sublist (handles chunks) := List.filter_sublist.map _
  exact ⟨hsame.nodup_iff.mp (hlaid.nodup_handles.sublist (hpart.trans hwhole)),
    fun h hh => hpart.subset (hsame.mem_iff.mpr hh)⟩

end Run

end Arena

end CompactingArena
