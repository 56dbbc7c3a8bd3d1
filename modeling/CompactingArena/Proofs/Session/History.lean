import CompactingArena.Session
import CompactingArena.Proofs.Act
/-!
# Histories

A history is what happens to an arena, deed by deed.  A request for memory is
not one deed but several: each attempt to serve it is one, and between a failed
attempt and the next the handler may do anything.  `Arena.Runs` therefore lets
every deed follow every other, which leaves the handler out of the picture; that
sessions do nothing else, whatever their handler, is `Session.runs_of_run`.
-/

namespace CompactingArena

/-- One thing that happens to an arena. -/
inductive Deed
  /-- An attempt to serve a request for `requested` bytes hands out `h`. -/
  | grant (requested : Nat) (h : Handle)
  /-- An attempt to serve a request for `requested` bytes finds no room. -/
  | shortage (requested : Nat)
  /-- A request for `requested` bytes is given up. -/
  | refusal (requested : Nat)
  /-- Any other operation is called and answers. -/
  | call (op : Op) (reply : op.Reply)

namespace Arena

/-- A deed leads from one arena to the next. -/
inductive Does (build : Build) : Arena → Deed → Arena → Prop
  | grant {a b c : Arena} {requested size : Nat} {h : Handle}
      (hsize : chunkSize? requested = some size)
      (hserved : (a.tryAllocate size).result build = .ok (some h, b))
      (hconcluded : (b.concludeAllocation h size).result build = .ok c) :
      Does build a (.grant requested h) c
  | shortage {a b : Arena} {requested size : Nat} (hsize : chunkSize? requested = some size)
      (hserved : (a.tryAllocate size).result build = .ok (none, b)) :
      Does build a (.shortage requested) b
  | refusal {a b : Arena} {requested size : Nat} (hsize : chunkSize? requested = some size)
      (hrefused : (a.refuseAllocation size).result build = .ok b) :
      Does build a (.refusal requested) b
  | call {a b : Arena} {op : Op} {reply : op.Reply} {serve : Session.Server}
      {shortages shortages' : List Nat} (hop : ∀ n, op ≠ .allocate n)
      (hcall : (Session.perform serve op ⟨a, shortages⟩).result build =
        .ok (reply, ⟨b, shortages'⟩)) :
      Does build a (.call op reply) b

/-- Deeds lead from one arena to another, one after the other. -/
inductive Runs (build : Build) : Arena → List Deed → Arena → Prop
  | nil (a : Arena) : Runs build a [] a
  | cons {a b c : Arena} {deed : Deed} {deeds : List Deed} (hdeed : Does build a deed b)
      (hrest : Runs build b deeds c) : Runs build a (deed :: deeds) c

variable {build : Build} {a b c : Arena}

theorem Runs.append {deeds rest : List Deed} (h : Runs build a deeds b)
    (hrest : Runs build b rest c) : Runs build a (deeds ++ rest) c := by
  induction h with
  | nil => exact hrest
  | cons hdeed _ ih => exact .cons hdeed (ih hrest)

theorem Does.runs {deed : Deed} (h : Does build a deed b) : Runs build a [deed] b :=
  .cons h (.nil b)

end Arena

namespace Session

open Arena

variable {build : Build} {s s' : Session} {handler : Handler}

/-- What is expected of a server: it does its deeds, and the last of them grants
the handle that it answers. -/
def Grants (build : Build) (requested : Nat) (s : Session) (answer : Except OutOfMemory Handle)
    (s' : Session) : Prop :=
  ∃ deeds a, Runs build s.arena deeds a ∧
    match answer with
    | .ok h => Does build a (.grant requested h) s'.arena
    | .error _ => a = s'.arena

/-- A server whose answers are granted. -/
def Serves (build : Build) (serve : Server) : Prop :=
  ∀ requested s answer s', (serve requested s).result build = .ok (answer, s') →
    Grants build requested s answer s'

theorem Grants.runs {requested : Nat} {answer : Except OutOfMemory Handle}
    (h : Grants build requested s answer s') : ∃ deeds, Runs build s.arena deeds s'.arena := by
  obtain ⟨deeds, a, hruns, hlast⟩ := h
  cases answer with
  | error e => exact ⟨deeds, hlast ▸ hruns⟩
  | ok h => exact ⟨_, hruns.append hlast.runs⟩

theorem Grants.after {requested : Nat} {answer : Except OutOfMemory Handle} {deeds : List Deed}
    {r : Session} (h : Grants build requested s answer s')
    (hbefore : Runs build r.arena deeds s.arena) : Grants build requested r answer s' := by
  obtain ⟨deeds', a, hruns, hlast⟩ := h
  exact ⟨deeds ++ deeds', a, hbefore.append hruns, hlast⟩

theorem runs_of_perform {serve : Server} (hserve : Serves build serve) {op : Op}
    {reply : op.Reply} (h : (s.perform serve op).result build = .ok (reply, s')) :
    ∃ deeds, Runs build s.arena deeds s'.arena := by
  by_cases hop : ∃ n, op = .allocate n
  · obtain ⟨n, rfl⟩ := hop
    exact (hserve n s reply s' h).runs
  · exact ⟨_, (Does.call (not_exists.mp hop) h).runs⟩

theorem runs_of_follow {serve : Server} (hserve : Serves build serve) {plan : Plan} {again : Bool}
    (h : (follow serve plan s).result build = .ok (again, s')) :
    ∃ deeds, Runs build s.arena deeds s'.arena := by
  induction plan generalizing s with
  | giveUp =>
      simp only [follow, Act.result_pure, Except.ok.injEq, Prod.mk.injEq] at h
      exact ⟨[], h.2 ▸ .nil _⟩
  | retry =>
      simp only [follow, Act.result_pure, Except.ok.injEq, Prod.mk.injEq] at h
      exact ⟨[], h.2 ▸ .nil _⟩
  | say event next ih =>
      rw [follow, Act.result_bind_ok (Act.result_log _ _)] at h
      exact ih h
  | perform op next ih =>
      rw [follow] at h
      obtain ⟨⟨reply, r⟩, hperform, hrest⟩ := Act.of_result_bind_ok h
      obtain ⟨deeds, hdeeds⟩ := runs_of_perform hserve hperform
      obtain ⟨rest, hrest⟩ := ih reply r.arena hrest
      exact ⟨deeds ++ rest, hdeeds.append hrest⟩

theorem serves_request {serveChunk : Server}
    (hserve : ∀ requested size, chunkSize? requested = some size → ∀ s answer s',
      (serveChunk size s).result build = .ok (answer, s') → Grants build requested s answer s') :
    Serves build (request serveChunk) := by
  intro requested s answer s' h
  rw [request] at h
  cases hsize : chunkSize? requested with
  | some size =>
      rw [hsize] at h
      exact hserve requested size hsize s answer s' h
  | none =>
      rw [hsize] at h
      simp only at h
      rw [Act.result_bind_ok (Act.result_log _ _), Act.result_pure, Except.ok.injEq,
        Prod.mk.injEq] at h
      obtain ⟨rfl, rfl⟩ := h
      exact ⟨[], s.arena, .nil _, rfl⟩

/-- However many rounds it takes, a request is a history. -/
theorem grants_of_serveChunk (handler : Handler) (rounds : Nat) {requested size : Nat}
    (hsize : chunkSize? requested = some size) {answer : Except OutOfMemory Handle}
    (h : (serveChunk handler rounds size s).result build = .ok (answer, s')) :
    Grants build requested s answer s' := by
  induction rounds generalizing s requested size answer s' with
  | zero =>
      rw [serveChunk] at h
      exact absurd h (by simp)
  | succ rounds ih =>
      rw [serveChunk] at h
      obtain ⟨⟨got, a⟩, hserved, hrest⟩ := Act.of_result_bind_ok h
      cases got with
      | some g =>
          obtain ⟨a', hconcluded, hdone⟩ := Act.of_result_bind_ok hrest
          rw [Act.result_pure, Except.ok.injEq, Prod.mk.injEq] at hdone
          obtain ⟨rfl, rfl⟩ := hdone
          exact ⟨[], s.arena, .nil _, .grant hsize hserved hconcluded⟩
      | none =>
          have hshortage := (Does.shortage hsize hserved).runs
          obtain ⟨⟨again, r⟩, hfollow, hrest⟩ := Act.of_result_bind_ok hrest
          obtain ⟨deeds, hdeeds⟩ :=
            runs_of_follow (serves_request fun _ _ hsize _ _ _ => ih hsize) hfollow
          have hbefore := hshortage.append hdeeds
          cases again with
          | true => exact (ih hsize hrest).after hbefore
          | false =>
              obtain ⟨a', hrefused, hdone⟩ := Act.of_result_bind_ok hrest
              rw [Act.result_pure, Except.ok.injEq, Prod.mk.injEq] at hdone
              obtain ⟨rfl, rfl⟩ := hdone
              exact ⟨_, a', hbefore.append (Does.refusal hsize hrefused).runs, rfl⟩

theorem serves_allocate (handler : Handler) : Serves build (allocate handler) := by
  intro requested s answer s' h
  exact serves_request (fun _ _ hsize _ _ _ => grants_of_serveChunk handler _ hsize) requested s
    answer s' h

/-- Whatever the handler does, a session is a history. -/
theorem runs_of_run {ops : List Op} (h : (run handler ops s).result build = .ok s') :
    ∃ deeds, Runs build s.arena deeds s'.arena := by
  induction ops generalizing s with
  | nil =>
      rw [run, Act.result_pure, Except.ok.injEq] at h
      exact ⟨[], h ▸ .nil _⟩
  | cons op ops ih =>
      rw [run] at h
      obtain ⟨⟨reply, r⟩, hcall, hrest⟩ := Act.of_result_bind_ok h
      obtain ⟨deeds, hdeeds⟩ := runs_of_perform (serves_allocate handler) hcall
      obtain ⟨rest, hrest⟩ := ih hrest
      exact ⟨deeds ++ rest, hdeeds.append hrest⟩

end Session

end CompactingArena
