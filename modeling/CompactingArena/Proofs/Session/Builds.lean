import CompactingArena.Proofs.Session.Calls
import CompactingArena.Proofs.Session.Shape
/-!
# Careful clients meet no fault

A debug build checks what a release build takes for granted.  None of these checks
ever fails in a session of careful clients, so that the two builds do the same.  That
is an invariant of sessions: the arena is sound, and it has as many bytes in use as
were ever allocated, or fewer.
-/

namespace CompactingArena

namespace Arena

variable {a b : Arena} {chunks : List Chunk} {spare : List Handle} {c : Chunk} {n size : Nat}

/-- What holds of the arenas of careful clients between operations. -/
structure Intact (a : Arena) : Prop where
  sound : ∃ chunks spare, a.Sound chunks spare
  backed : a.counters.Backed

theorem Keeps.intact (hkeeps : a.Keeps b) (hintact : a.Intact) (hascends : a.ascends b = true) :
    b.Intact :=
  ⟨hkeeps.1, hkeeps.2 (of_decide_eq_true hascends) hintact.backed⟩

theorem not_wraps_of_ascends (hascends : a.ascends b = true) :
    ¬a.counters.Wraps n b.counters := fun hwraps =>
  hwraps.2 (of_decide_eq_true hascends)

/-- An act whose totals stay within words has one result. -/
theorem yields_of_keeps {x : Act Arena} {post : Arena → Prop} (hbacked : a.counters.Backed)
    (hcare : x.afterwards a.ascends = true)
    (hagrees : x.Agrees (fun b => a.counters.Wraps n b.counters) post)
    (hpost : ∀ b, post b → a.Keeps b) : ∃ b, x.Yields b ∧ b.Intact := by
  have hascends := fun b => @Act.of_afterwards _ _ _ b hcare
  obtain ⟨b, hyields, hb⟩ := hagrees.yields fun b h => not_wraps_of_ascends (hascends b h)
  have hle := of_decide_eq_true (hascends b (hyields .release))
  exact ⟨b, hyields, (hpost b hb).1, (hpost b hb).2 hle hbacked⟩

theorem Served.yields_concludeAllocation (hserved : a.Served chunks spare c)
    (hbacked : a.counters.Backed)
    (hcare : (a.concludeAllocation c.handle size).afterwards a.ascends = true) :
    ∃ b, (a.concludeAllocation c.handle size).Yields b ∧ b.Intact := by
  apply yields_of_keeps hbacked hcare (hserved.concludeAllocation ⟨rfl, rfl⟩ size)
  rintro b ⟨hsound, -, hbacks⟩
  exact ⟨⟨chunks, spare, hsound⟩, hbacks⟩

theorem Intact.yields_refuseAllocation (hintact : a.Intact)
    (hcare : (a.refuseAllocation size).afterwards a.ascends = true) :
    ∃ b, (a.refuseAllocation size).Yields b ∧ b.Intact := by
  obtain ⟨⟨chunks, spare, hsound⟩, hbacked⟩ := hintact
  apply yields_of_keeps hbacked hcare (hsound.refuseAllocation size)
  rintro b ⟨hsound', -, hbacks⟩
  exact ⟨⟨chunks, spare, hsound'⟩, hbacks⟩

end Arena

namespace Session

open Arena

variable {lasting : Bool} {handler : Handler} {s : Session}

/-- A server whose careful requests end alike in the two builds and leave the arena
intact. -/
def Concordant (lasting : Bool) (serve : Server) (judge : Care.Judge) : Prop :=
  ∀ requested s, s.arena.Intact → judge requested s = true →
    Act.Concurs lasting (serve requested s) fun (_, s') => s'.arena.Intact

section Plans

variable {serve : Server} {judge : Care.Judge}

/-- A careful call that is no request has one result. -/
theorem yields_perform {op : Op} (hop : ∀ n, op ≠ .allocate n) (hintact : s.arena.Intact)
    (hcare : Care.perform serve judge op s = true) :
    ∃ reply s', (s.perform serve op).Yields (reply, s') ∧ s'.arena.Intact := by
  obtain ⟨⟨chunks, spare, hsound⟩, hbacked⟩ := hintact
  have hcare : (op.permitted s.arena && (s.perform serve op).afterwards
      fun r => s.arena.ascends r.2.arena) = true := by
    cases op with
    | allocate n => exact absurd rfl (hop n)
    | _ => exact hcare
  rw [Bool.and_eq_true] at hcare
  obtain ⟨hpermitted, hascends⟩ := hcare
  have hascends := fun r => @Act.of_afterwards _ _ _ r hascends
  obtain ⟨⟨reply, s'⟩, hyields, hkeeps⟩ := (agrees_perform hsound hbacked serve hop
    hpermitted).yields fun r h => not_wraps_of_ascends (hascends r h)
  exact ⟨reply, s', hyields,
    hkeeps.intact ⟨⟨_, _, hsound⟩, hbacked⟩ (hascends _ (hyields .release))⟩

theorem concurs_perform (hserve : Concordant lasting serve judge) {op : Op}
    (hintact : s.arena.Intact) (hcare : Care.perform serve judge op s = true) :
    Act.Concurs lasting (s.perform serve op) fun (_, s') => s'.arena.Intact := by
  by_cases hop : ∃ n, op = .allocate n
  · obtain ⟨n, rfl⟩ := hop
    exact hserve n s hintact hcare
  · obtain ⟨reply, s', hyields, hintact'⟩ := yields_perform (not_exists.mp hop) hintact hcare
    exact .of_yields hyields hintact'

theorem concurs_follow (hserve : Concordant lasting serve judge) {plan : Plan}
    (hintact : s.arena.Intact) (hcare : Care.follow serve judge plan s = true) :
    Act.Concurs lasting (follow serve plan s) fun (_, s') => s'.arena.Intact := by
  induction plan generalizing s with
  | giveUp => exact .of_yields (Act.yields_pure _) hintact
  | retry => exact .of_yields (Act.yields_pure _) hintact
  | say event next ih => exact .bind_yields (Act.yields_log _) (ih hintact hcare)
  | perform op next ih =>
      rw [Care.follow, Bool.and_eq_true] at hcare
      obtain ⟨hperform, hnext⟩ := hcare
      rw [follow]
      apply (concurs_perform hserve hintact hperform).bind
      rintro ⟨reply, s'⟩ hrelease hintact'
      have hnext := Act.of_afterwards hnext hrelease
      exact ih reply s'.arena hintact' hnext

end Plans

theorem concordant_request {serveChunk : Server} {judgeChunk : Care.Judge}
    (hserve : ∀ requested size, chunkSize? requested = some size → ∀ s, s.arena.Intact →
      judgeChunk size s = true →
      Act.Concurs lasting (serveChunk size s) fun (_, s') => s'.arena.Intact) :
    Concordant lasting (request serveChunk) (Care.request judgeChunk) := by
  intro requested s hintact hcare
  rw [Care.request] at hcare
  rw [request]
  cases hsize : chunkSize? requested with
  | none => exact .bind_yields (Act.yields_log _) (.of_yields (Act.yields_pure _) hintact)
  | some size =>
      rw [hsize] at hcare
      exact hserve requested size hsize s hintact hcare

/-- By induction on the rounds: a round that finds no room leaves the arena to the
handler, whose own requests have one round less. -/
theorem concurs_serveChunk (rounds : Nat) {requested size : Nat}
    (hsize : chunkSize? requested = some size) (hintact : s.arena.Intact)
    (hcare : Care.serveChunk lasting handler rounds size s = true) :
    Act.Concurs lasting (serveChunk handler rounds size s) fun (_, s') => s'.arena.Intact := by
  induction rounds generalizing s requested size with
  | zero => exact .of_endless hcare
  | succ rounds ih =>
      obtain ⟨⟨chunks, spare, hsound⟩, hbacked⟩ := hintact
      obtain ⟨-, hleast, haligned⟩ := chunkSize?_eq_some hsize
      rw [Care.serveChunk] at hcare
      have hcare := fun got b => @Act.of_afterwards _ _ _ (got, b) hcare
      simp only [Bool.and_eq_true] at hcare
      obtain ⟨⟨got, b⟩, hattempt, hgot⟩ := (hsound.tryAllocate hleast haligned).yields
        fun (got, b) h => not_wraps_of_ascends (hcare got b h).1
      obtain ⟨hascends, hrest⟩ := hcare got b (hattempt .release)
      rw [serveChunk]
      apply Act.Concurs.bind_yields hattempt
      cases got with
      | some h =>
          obtain ⟨chunks', spare', c, hserved, rfl, hserves, -⟩ := hgot
          have hbacked' : b.counters.Backed :=
            hserves.backs (of_decide_eq_true hascends) hbacked
          obtain ⟨b', hconcluded, hintact'⟩ := hserved.yields_concludeAllocation hbacked' hrest
          exact .bind_yields hconcluded (.of_yields (Act.yields_pure _) hintact')
      | none =>
          obtain rfl : b = s.arena := hgot.1
          obtain ⟨hfollow, hagain⟩ := Bool.and_eq_true_iff.mp hrest
          have hserver : Concordant lasting (request (serveChunk handler rounds))
              (Care.request (Care.serveChunk lasting handler rounds)) :=
            concordant_request fun _ _ hsize _ => ih hsize
          have hintact : s.arena.Intact := ⟨⟨chunks, spare, hsound⟩, hbacked⟩
          have hplan := concurs_follow hserver (s := ⟨s.arena, s.shortages ++ [size]⟩) hintact
            hfollow
          apply hplan.bind
          rintro ⟨again, s'⟩ hrelease hintact'
          have hagain := Act.of_afterwards hagain hrelease
          cases again with
          | true => exact ih hsize hintact' hagain
          | false =>
              obtain ⟨b', hrefused, hintact''⟩ := hintact'.yields_refuseAllocation hagain
              exact .bind_yields hrefused (.of_yields (Act.yields_pure _) hintact'')

theorem concordant_allocate (lasting : Bool) (handler : Handler) :
    Concordant lasting (allocate handler) (Care.allocate lasting handler) := by
  intro requested s hintact hcare
  exact concordant_request (fun _ _ hsize _ => concurs_serveChunk _ hsize) requested s hintact hcare

theorem concurs_call {op : Op} (hintact : s.arena.Intact)
    (hcare : Care.call lasting handler op s = true) :
    Act.Concurs lasting (s.call handler op) fun (_, s') => s'.arena.Intact :=
  concurs_perform (concordant_allocate lasting handler) hintact hcare

theorem concurs_run {ops : List Op} (hintact : s.arena.Intact)
    (hcare : Care.run lasting handler ops s = true) :
    Act.Concurs lasting (run handler ops s) fun s' => s'.arena.Intact := by
  induction ops generalizing s with
  | nil => exact .of_yields (Act.yields_pure _) hintact
  | cons op ops ih =>
      rw [Care.run, Bool.and_eq_true] at hcare
      obtain ⟨hcall, hrest⟩ := hcare
      rw [run]
      apply (concurs_call hintact hcall).bind
      rintro ⟨reply, s'⟩ hrelease hintact'
      have hrest := Act.of_afterwards hrest hrelease
      exact ih hintact' hrest

/-- Care is taken up to any moment and after it. -/
theorem Care.of_run_append {before after : List Op}
    (hcare : Care.run lasting handler (before ++ after) s = true) :
    Care.run lasting handler before s = true ∧
      ∀ s', (Session.run handler before s).result .release = .ok s' →
        Care.run lasting handler after s' = true := by
  induction before generalizing s with
  | nil =>
      refine ⟨rfl, fun s' hrun => ?_⟩
      rw [Session.run, Act.result_pure, Except.ok.injEq] at hrun
      exact hrun ▸ hcare
  | cons op before ih =>
      rw [List.cons_append, Care.run, Bool.and_eq_true] at hcare
      obtain ⟨hcall, hrest⟩ := hcare
      constructor
      · rw [Care.run, Bool.and_eq_true]
        refine ⟨hcall, ?_⟩
        unfold Act.afterwards at hrest ⊢
        cases hfirst : (s.call handler op).result .release with
        | error fault => rfl
        | ok r =>
            rw [hfirst] at hrest
            exact (ih hrest).1
      · intro s' hrun
        obtain ⟨r, hfirst, hrun⟩ := Act.of_result_bind_ok hrun
        have hrest := Act.of_afterwards hrest hfirst
        exact (ih hrest).2 s' hrun

/-- Careful clients meet no fault, and what they see and leave behind is the same in
either build.  If their handler of shortages may ask for a request to be tried again
without end (`lasting`), that is the only way not to come to an end. -/
theorem builds_agree {config : Config} {available size : Nat} {a : Arena} {ops : List Op}
    (hestablish : (establish config available size).result .release = .ok (.ok a))
    (hcare : Care.run lasting handler ops ⟨a, []⟩ = true) :
    (establish config available size).result .debug = .ok (.ok a) ∧
      (run handler ops ⟨a, []⟩).result .debug = (run handler ops ⟨a, []⟩).result .release ∧
      (∀ fault, (run handler ops ⟨a, []⟩).result .debug = .error fault →
        fault = .endless ∧ lasting = true) ∧
      ∀ before op after s, ops = before ++ op :: after →
        (run handler before ⟨a, []⟩).result .debug = .ok s →
        s.arena.Answers ∧
          (s.call handler op).result .debug = (s.call handler op).result .release ∧
          ((∀ n, op ≠ .allocate n) →
            ∃ reply s', (s.call handler op).result .debug = .ok (reply, s')) := by
  obtain ⟨hyields, hsound, hcounters⟩ := of_establish hestablish
  have hintact : a.Intact := ⟨⟨_, _, hsound⟩, by rw [hcounters]; exact Nat.le_refl _⟩
  have hrun := concurs_run (s := ⟨a, []⟩) hintact hcare
  refine ⟨hyields .debug, hrun.1, fun fault => hrun.of_error, ?_⟩
  rintro before op after s rfl hbefore
  obtain ⟨hcare, hafter⟩ := Care.of_run_append hcare
  have hrun := concurs_run (s := ⟨a, []⟩) hintact hcare
  have hafter := hafter s (hrun.release hbefore)
  have hintact : s.arena.Intact := hrun.of_ok hbefore
  rw [Care.run, Bool.and_eq_true] at hafter
  obtain ⟨hcall, -⟩ := hafter
  obtain ⟨chunks, spare, hsound⟩ := hintact.sound
  refine ⟨hsound.answers hintact.backed, (concurs_call hintact hcall).1, fun hop => ?_⟩
  obtain ⟨reply, s', hyields, -⟩ := yields_perform hop hintact hcall
  exact ⟨reply, s', hyields .debug⟩

theorem builds_agree_sampler :
    Care.run false .compacting sampler ⟨small, []⟩ = true ∧
      ∃ s, (run .compacting sampler ⟨small, []⟩).result .debug = .ok s ∧
        (run .compacting sampler ⟨small, []⟩).result .release = .ok s := by
  have hcare : Care.run false .compacting sampler ⟨small, []⟩ = true := by decide +kernel
  obtain ⟨-, hagree, hfault, -⟩ := builds_agree (establish_small .release) hcare
  refine ⟨hcare, ?_⟩
  cases hrun : (run .compacting sampler ⟨small, []⟩).result .debug with
  | ok s => exact ⟨s, rfl, hagree ▸ hrun⟩
  | error fault => exact absurd (hfault fault hrun).2 (by decide)

end Session

end CompactingArena
