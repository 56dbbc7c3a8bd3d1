import CompactingArena.Proofs.Arena.Compaction
import CompactingArena.Proofs.Arena.Framed
/-!
# Compaction heals the free lists

A compaction goes by the header chain alone and builds the free lists anew, and of the
counters it makes no use but to count.  In a release build it therefore ends on any
arena whose table is in order, and leaves one that passes the audit.

What is known of compactions speaks of arenas whose chunks in use are accounted for.
Stale links can lead to a chunk being handed out twice, and then the counters are off;
but a release build does the same whatever the counters hold, which the `echoes_`
lemmas follow from the one step that looks at them up to the whole compaction.
-/

namespace CompactingArena.Arena

open Act Layout

/-- The same arena with other counters. -/
def Recounted (a b : Arena) : Prop := ∃ counters, b = { a with counters }

section Echoes

variable {α : Type} (a : Arena) (counters : Counters)

/-- The same answer, and the same arena up to the counters. -/
def Retold : α × Arena → α × Arena → Prop
  | (answer, b), (answer', b') => answer = answer' ∧ b.Recounted b'

theorem echoes_growCounters (job : Slide) (remainder : Nat) :
    Echoes (fun _ _ => True) (a.growCounters job remainder)
      (growCounters { a with counters } job remainder) := by
  apply Echoes.of_ends
  rw [growCounters]
  split
  · exact .of_pure trivial
  · exact .bind_ok (result_log _ _) (Counters.ends_accountFold counters remainder)

theorem echoes_fold (job : Slide) (remainder : Nat) :
    Echoes Recounted (a.fold job remainder) (fold { a with counters } job remainder) := by
  rw [fold_eq, fold_eq]
  apply (echoes_growCounters a counters job remainder).bind
  intro _ counters' _
  exact .after fun _ => .after fun _ => .after fun _ => .of_pure ⟨counters', rfl⟩

theorem echoes_relinkAdjacent (job : Slide) (holeAddr : Nat) (rest : Option Handle) :
    Echoes Retold (a.relinkAdjacent job holeAddr rest)
      (relinkAdjacent { a with counters } job holeAddr rest) := by
  refine .after fun addr => .after fun got => ?_
  cases got with
  | none => exact .of_pure ⟨rfl, counters, rfl⟩
  | some got => exact .of_pure ⟨rfl, counters, rfl⟩

theorem echoes_keepRest (job : Slide) (remainder : Nat) (got : Option (Handle × HeaderTable)) :
    Echoes Retold (a.keepRest job remainder got) (keepRest { a with counters } job remainder got) := by
  cases got with
  | none => exact (echoes_fold a counters job remainder).bind fun _ _ h => .of_pure ⟨rfl, h⟩
  | some got => exact .of_pure ⟨rfl, counters, rfl⟩

theorem echoes_relinkPast (job : Slide) (holeAddr vacatedAddr : Nat) (rest : Option Handle) :
    Echoes Retold (a.relinkPast job holeAddr vacatedAddr rest)
      (relinkPast { a with counters } job holeAddr vacatedAddr rest) := by
  refine .after fun got => ?_
  cases got with
  | none => exact .of_pure ⟨rfl, counters, rfl⟩
  | some got =>
      refine .after fun remainder => ?_
      split
      · exact .after fun spare => echoes_keepRest { a with headers := _ } counters job remainder spare
      · exact .after fun addr => .after fun spare =>
          echoes_keepRest { a with headers := _ } counters job remainder spare

theorem echoes_slide (job : Slide) :
    Echoes Retold (a.slide job) (slide { a with counters } job) := by
  refine .after fun hole => .after fun moved => .after fun distance => ?_
  split
  · exact .of_pure ⟨rfl, counters, rfl⟩
  refine .after fun rest => .after fun (headers, region) => .after fun headers => ?_
  split
  · apply (echoes_relinkAdjacent { a with headers := _, region } counters job hole.addr rest).bind
    rintro ⟨linked, b⟩ ⟨_, b'⟩ ⟨rfl, hb⟩
    cases linked with
    | error violation => exact .of_pure ⟨rfl, hb⟩
    | ok done => exact .after fun _ => .of_pure ⟨rfl, hb⟩
  · apply (echoes_relinkPast { a with headers := _, region } counters job hole.addr moved.addr
      rest).bind
    rintro ⟨linked, b⟩ ⟨_, b'⟩ ⟨rfl, hb⟩
    cases linked with
    | error violation => exact .of_pure ⟨rfl, hb⟩
    | ok done => exact .after fun _ => .of_pure ⟨rfl, hb⟩

theorem echoes_compactionPass (cursor : Option Handle) :
    Echoes Retold (a.compactionPass cursor) (compactionPass { a with counters } cursor) := by
  refine .after fun search => ?_
  cases search with
  | done => exact .of_pure ⟨rfl, counters, rfl⟩
  | skip cursor => exact .of_pure ⟨rfl, counters, rfl⟩
  | slide job => exact echoes_slide a counters job

/-- As far, but for the counters. -/
def Abreast (p q : Progress) : Prop := ∃ arena, p.arena.Recounted arena ∧ q = { p with arena }

theorem echoes_passInTime (budget : Nat) (clock : Readings) {p q : Progress} (h : Abreast p q) :
    Echoes (Echoes.InStep Abreast Retold) (passInTime budget clock p)
      (passInTime budget clock q) := by
  obtain ⟨_, ⟨counters, rfl⟩, rfl⟩ := h
  unfold passInTime
  split
  · exact .of_pure ⟨rfl, counters, rfl⟩
  apply (echoes_compactionPass p.arena counters p.cursor).bind
  rintro ⟨pass, b⟩ ⟨_, b'⟩ ⟨rfl, hb⟩
  rcases pass with violation | (⟨next, bytes⟩ | next | _)
  · exact .after fun _ => .of_pure ⟨rfl, hb⟩
  · exact .after fun passes => .after fun moved => .of_pure ⟨b', hb, rfl⟩
  · exact .of_pure ⟨b', hb, rfl⟩
  · exact .of_pure ⟨rfl, hb⟩

theorem echoes_runPasses (budget : Nat) (clock : Readings) (limit : Nat) :
    Echoes Retold (runPasses budget clock limit a) (runPasses budget clock limit { a with counters }) :=
  .loop (fun _ _ => echoes_passInTime budget clock) limit _ _ ⟨_, ⟨counters, rfl⟩, rfl⟩

theorem checkAscending_recounted (previous : Nat) (l : List Handle) :
    checkAscending { a with counters } previous l = a.checkAscending previous l := by
  induction l generalizing previous with
  | nil => rfl
  | cons h l ih =>
      simp only [checkAscending, ih]

theorem echoes_sortChain :
    Echoes Recounted a.sortChain (sortChain { a with counters }) := by
  refine .after fun headers => .after fun chained => ?_
  have hsame := checkAscending_recounted { a with headers } counters 0 chained
  have hcheck : Echoes Eq (checkAscending { a with headers } 0 chained)
      (checkAscending { a with headers, counters } 0 chained) := fun u hu =>
    ⟨u, (congrArg (·.result .release) hsame).trans hu, rfl⟩
  exact hcheck.bind fun _ _ _ => .of_pure ⟨counters, rfl⟩

theorem echoes_settle : Echoes Recounted a.settle (settle { a with counters }) := by
  refine .after fun got => ?_
  obtain ⟨ended, headers⟩ := got
  simp only
  split
  · exact .after fun _ => .of_pure ⟨counters, rfl⟩
  · exact .after fun _ => .after fun _ => .after fun _ => .after fun _ => .after fun _ =>
      .of_pure ⟨counters, rfl⟩

/-- A release build compacts alike whatever the counters hold. -/
theorem echoes_compact (budget : Nat) (clock : Readings) :
    Echoes Retold (a.compact budget clock) (compact { a with counters } budget clock) := by
  apply (echoes_sortChain a counters).bind
  rintro b _ ⟨counters₁, rfl⟩
  apply (echoes_runPasses b counters₁ budget clock passLimit).bind
  rintro ⟨report, c⟩ ⟨_, _⟩ ⟨rfl, counters₂, rfl⟩
  apply (echoes_settle c counters₂).bind
  rintro d _ ⟨counters₃, rfl⟩
  apply (Echoes.of_ends (Counters.ends_accountCompaction _ _ _)).bind
  intro _ counters₄ _
  refine .after fun _ => ?_
  exact (Echoes.of_ends (ends_iff.mpr ⟨(), result_selfCheck_release _, trivial⟩)).bind
    fun _ _ _ => .of_pure ⟨rfl, counters₄, rfl⟩

end Echoes

/-- A release build's compaction of an arena whose table is in order ends, and leaves one that
passes the audit. -/
theorem Steady.ends_compact {a : Arena} (hsteady : a.Steady) (budget : Nat) (clock : Readings) :
    Ends (a.compact budget clock) fun (_, b) => ∃ chunks spare, b.Orderly chunks spare := by
  obtain ⟨chunks, spare, hframed⟩ := hsteady
  set counters : Counters := { a.counters with
    allocationCount := (used chunks).length, allocatedBytes := bytes (used chunks) }
  have hlaid : Laid { a with counters } chunks spare := hframed.toLaid.congr rfl rfl rfl
  have hends := (hlaid.agrees_compact ⟨rfl, rfl⟩ hframed.enough hframed.nonempty budget clock).ends
  obtain ⟨⟨report, b⟩, hcompact, chunks', spare', hcompaction⟩ := ends_iff.mp hends
  obtain ⟨⟨_, _⟩, hcompact', rfl, counters', rfl⟩ :=
    echoes_compact { a with counters } a.counters budget clock _ hcompact
  have horderly := hcompaction.sound.toOrderly
  exact ends_iff.mpr ⟨_, hcompact', chunks', spare',
    ⟨horderly.toLaid.congr rfl rfl rfl, horderly.topped, horderly.covers, horderly.tight⟩⟩

end CompactingArena.Arena
