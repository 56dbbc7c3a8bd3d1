import CompactingArena.Proofs.Session.Ledger
/-!
# What the running totals tell

`Session.Count` goes along a session and counts how its calls end, those of the handler
among them.  The running totals follow: every request that is granted, every one that gets
a chunk from the free lists, and all that compactions report.  Requests that are refused
are counted as well, but not those whose size overflows when it is rounded up: these are
refused before anything else happens.
-/

namespace CompactingArena

open Act Layout

/-- How often calls ended in which way. -/
structure Outcomes where
  /-- Requests that were granted. -/
  granted : Nat := 0
  /-- Requests that were granted with a chunk from the free lists. -/
  reused : Nat := 0
  /-- Requests that were refused. -/
  refused : Nat := 0
  /-- Requests that were refused because their size overflows when it is rounded up. -/
  oversized : Nat := 0
  /-- The passes that compactions reported. -/
  passes : Nat := 0
  /-- The bytes that compactions reported as moved. -/
  bytesMoved : Nat := 0
deriving DecidableEq

namespace Outcomes

instance : Zero Outcomes := ⟨{}⟩

instance : Add Outcomes where
  add o p :=
    { granted := o.granted + p.granted
      reused := o.reused + p.reused
      refused := o.refused + p.refused
      oversized := o.oversized + p.oversized
      passes := o.passes + p.passes
      bytesMoved := o.bytesMoved + p.bytesMoved }

theorem zero_add (o : Outcomes) : 0 + o = o := by
  change Outcomes.mk _ _ _ _ _ _ = o
  simp only [show (0 : Outcomes) = {} from rfl, Nat.zero_add]

theorem add_assoc (o p q : Outcomes) : o + p + q = o + (p + q) := by
  change Outcomes.mk _ _ _ _ _ _ = Outcomes.mk _ _ _ _ _ _
  congr 1 <;> exact Nat.add_assoc _ _ _

end Outcomes

/-- What is counted after an act that ends with a value. -/
def Act.counted {α : Type} (x : Act α) (build : Build) (count : α → Outcomes) : Outcomes :=
  match x.result build with
  | .ok a => count a
  | .error _ => 0

theorem Act.counted_eq {α : Type} {x : Act α} {build : Build} {count : α → Outcomes} {a : α}
    (hx : x.result build = .ok a) : x.counted build count = count a := by
  rw [counted, hx]

/-- Whether a handle names a free chunk. -/
def Arena.offers (a : Arena) (h : Handle) : Bool :=
  (a.headers.live? h).any fun r => r.state.isFree

namespace Session.Count

/-- What counts the calls of handlers while a request is served. -/
abbrev Counter : Type := Nat → Session → Outcomes

/-- How a request ended. -/
def answered (requested : Nat) : Except OutOfMemory Handle → Outcomes
  | .ok _ => { granted := 1 }
  | .error _ =>
      { refused := 1, oversized := if (Arena.chunkSize? requested).isNone then 1 else 0 }

section Plans

variable (build : Build) (serve : Server) (count : Counter)

def perform (op : Op) (s : Session) : Outcomes :=
  match op with
  | .allocate requested =>
      count requested s + (serve requested s).counted build fun (answer, _) =>
        answered requested answer
  | .compact budget clock =>
      (s.arena.compact budget clock).counted build fun (report, _) =>
        { passes := report.passes, bytesMoved := report.bytesMoved }
  | _ => 0

def follow : Plan → Session → Outcomes
  | .giveUp, _ | .retry, _ => 0
  | .say _ next, s => follow next s
  | .perform op next, s =>
      perform build serve count op s + (s.perform serve op).counted build fun (reply, s') =>
        follow (next reply s'.arena) s'

end Plans

def request (countChunk : Counter) : Counter := fun requested s =>
  match Arena.chunkSize? requested with
  | none => 0
  | some size => countChunk size s

/-- Counts the calls of the handler in at most so many rounds, and whether the chunk that
is handed out at last was a free one before. -/
def serveChunk (build : Build) (handler : Handler) : Nat → Counter
  | 0, _, _ => 0
  | rounds + 1, size, s =>
      (s.arena.tryAllocate size).counted build fun
        | (some h, _) => { reused := if s.arena.offers h then 1 else 0 }
        | (none, arena) =>
            let serve := Session.request (Session.serveChunk handler rounds)
            let plan := handler.plan s.shortages size arena
            let s := { arena, shortages := s.shortages ++ [size] }
            follow build serve (request (serveChunk build handler rounds)) plan s +
              (Session.follow serve plan s).counted build fun (again, s) =>
                if again then serveChunk build handler rounds size s else 0

def allocate (build : Build) (handler : Handler) : Counter := fun requested s =>
  request (serveChunk build handler (handler.rounds s.arena.region.size)) requested s

def call (build : Build) (handler : Handler) (op : Op) (s : Session) : Outcomes :=
  perform build (Session.allocate handler) (allocate build handler) op s

/-- How the calls of a session end, and those of its handler. -/
def run (build : Build) (handler : Handler) : List Op → Session → Outcomes
  | [], _ => 0
  | op :: rest, s =>
      call build handler op s + (s.call handler op).counted build fun (_, s') =>
        run build handler rest s'

end Session.Count

/-! ## The totals of the counters -/

namespace Counters

variable {c c' : Counters} {o : Outcomes} {build : Build} {size : Nat}

/-- The totals tell of these outcomes, as words. -/
structure Shows (c : Counters) (o : Outcomes) : Prop where
  granted : c.totalAllocationCount = o.granted % Word.modulus
  reused : c.freeListHits = o.reused % Word.modulus
  /-- Of the refusals only those are counted whose size could be rounded up. -/
  refused : ∃ counted, o.refused = counted + o.oversized ∧ c.oomCount = counted % Word.modulus
  passes : c.totalCompactionPasses = o.passes % Word.modulus
  bytesMoved : c.totalBytesMoved = o.bytesMoved % Word.modulus

/-- A total to which an amount is added. -/
theorem ensures_add_mod {total amount n : Nat} (h : total = n % Word.modulus) :
    Ensures build (Word.add total amount) fun total' =>
      total' = (n + amount) % Word.modulus :=
  Word.ensures_add.mono fun total' htotal => by rw [htotal, h, Nat.mod_add_mod]

variable (h : c.Shows o)
include h

theorem Shows.accountAlloc :
    Ensures build (c.accountAlloc size) (·.Shows (o + { granted := 1 })) := by
  rw [Counters.accountAlloc]
  exact .after fun _ => .after fun _ => (ensures_add_mod h.granted).bind fun _ hgranted =>
    .after fun _ => .of_pure ⟨hgranted, h.reused, h.refused, h.passes, h.bytesMoved⟩

theorem Shows.accountReuse :
    Ensures build (c.accountReuse size) (·.Shows (o + { reused := 1 })) := by
  rw [Counters.accountReuse]
  exact (ensures_add_mod h.reused).bind fun _ hreused => .after fun _ =>
    .of_pure ⟨h.granted, hreused, h.refused, h.passes, h.bytesMoved⟩

theorem Shows.accountOom :
    Ensures build c.accountOom (·.Shows (o + { refused := 1 })) := by
  have ⟨counted, hrefused, hcount⟩ := h.refused
  rw [Counters.accountOom]
  refine (ensures_add_mod hcount).bind fun _ hoom => .of_pure
    ⟨h.granted, h.reused, ⟨counted + 1, ?_, hoom⟩, h.passes, h.bytesMoved⟩
  change o.refused + 1 = counted + 1 + o.oversized
  omega

theorem Shows.accountCompaction {passes moved : Nat} :
    Ensures build (c.accountCompaction passes moved)
      (·.Shows (o + { passes := passes, bytesMoved := moved })) := by
  rw [Counters.accountCompaction]
  exact .after fun _ => (ensures_add_mod h.passes).bind fun _ hpasses =>
    (ensures_add_mod h.bytesMoved).bind fun _ hmoved =>
      .of_pure ⟨h.granted, h.reused, h.refused, hpasses, hmoved⟩

theorem Shows.accountFree : Ensures build (c.accountFree size) (·.Shows o) := by
  rw [Counters.accountFree]
  exact .after fun _ => .after fun _ =>
    .of_pure ⟨h.granted, h.reused, h.refused, h.passes, h.bytesMoved⟩

theorem Shows.accountFold : Ensures build (c.accountFold size) (·.Shows o) := by
  rw [Counters.accountFold]
  exact .after fun _ => .after fun _ =>
    .of_pure ⟨h.granted, h.reused, h.refused, h.passes, h.bytesMoved⟩

theorem Shows.folds (hfolds : c.Folds build c') : c'.Shows o := by
  induction hfolds with
  | refl => exact h
  | fold _ hfold ih => exact ih.accountFold _ hfold

theorem Shows.add_zero : c.Shows (o + 0) :=
  ⟨h.granted, h.reused, h.refused, h.passes, h.bytesMoved⟩

end Counters

/-! ## Attempts -/

namespace Arena

variable {a b : Arena} {chunks chunks' : List Chunk} {spare spare' : List Handle} {c : Chunk}
  {h : Handle} {size high : Nat} {build : Build} {o : Outcomes}

theorem Laid.offers_eq_true (hlaid : a.Laid chunks spare) (hc : c ∈ chunks)
    (hfree : c.isFree = true) : a.offers c.handle = true := by
  have ⟨r, hget, hdesc⟩ := hlaid.chained.get hc
  have hlive := hlaid.live?_eq_some_iff.mpr ⟨c, hc, rfl, hget, hdesc⟩
  rw [offers, hlive, Option.any_some, hdesc.state]
  exact hfree

/-- A chunk that is handed out was free before unless it raises the high-water mark. -/
theorem Source.offers_eq (hsource : a.Source size high chunks c chunks')
    (hlaid : a.Laid chunks spare) (hlaid' : b.Laid chunks' spare') (hpos : 0 < size) :
    a.offers c.handle = decide (high = a.memoryHigh) := by
  cases hsource with
  | fresh h _ hhigh =>
      have hnew := hlaid.live?_eq_none_iff.mpr (List.nodup_cons.mp hlaid'.nodup_handles).1
      rw [offers, hnew, decide_eq_false (by omega)]
      rfl
  | @whole _ _ d hfree _ _ hhigh =>
      rw [decide_eq_true hhigh]
      exact hlaid.offers_eq_true (c := d) (by simp) hfree
  | @part _ _ d g hfree _ _ hhigh =>
      rw [decide_eq_true hhigh]
      exact hlaid.offers_eq_true (c := d) (by simp) hfree

theorem Sound.shows_tryAllocate (hsound : a.Sound chunks spare) (hleast : Trailer.bytes ≤ size)
    (haligned : size % Word.alignment = 0)
    (htry : (a.tryAllocate size).result build = .ok (some h, b)) (hshows : a.counters.Shows o) :
    b.counters.Shows (o + { reused := if a.offers h then 1 else 0 }) := by
  have hpos : 0 < size := Nat.lt_of_lt_of_le (by decide) hleast
  obtain ⟨chunks', spare', c, hserved, rfl, hserves, -⟩ :=
    (hsound.tryAllocate hleast haligned).of_ok htry
  rw [hserves.source.offers_eq hsound.toLaid hserved.toLaid hpos]
  cases ensures_tryAllocate _ htry with
  | fresh hhigh hcounters =>
      have hhigh : b.memoryHigh = a.memoryHigh + size := hhigh
      rw [hcounters, decide_eq_false (by omega)]
      exact hshows.add_zero
  | reused hhigh hcounters =>
      rw [decide_eq_true hhigh]
      exact hshows.accountReuse _ hcounters

theorem Relinquishes.shows (hfrees : a.Relinquishes build b) (hshows : a.counters.Shows o) :
    b.counters.Shows o := by
  rcases hfrees with hsame | ⟨n, hcounters⟩
  · exact hsame ▸ hshows
  · exact hshows.accountFree _ hcounters

end Arena

/-! ## Sessions -/

namespace Session

open Arena

variable {build : Build} {s s' : Session} {handler : Handler} {chunks : List Chunk}
  {spare : List Handle} {o : Outcomes}

/-- What is expected of a server: it is granted what it answers, and the totals tell how
the calls of the handler and this request end. -/
structure Reckons (build : Build) (serve : Server) (count : Count.Counter) : Prop where
  serves : Serves build serve
  shows : ∀ requested s answer s' o chunks spare, s.arena.Sound chunks spare →
    (serve requested s).result build = .ok (answer, s') → s.arena.counters.Shows o →
    s'.arena.counters.Shows (o + (count requested s + Count.answered requested answer))

/-- Other operations than requests and compactions account for a free at most. -/
theorem relinquishes_of_perform {serve : Server} {op : Op} {reply : op.Reply}
    (hop : ∀ n, op ≠ .allocate n) (hop' : ∀ budget clock, op ≠ .compact budget clock)
    (hperform : (s.perform serve op).result build = .ok (reply, s')) :
    s.arena.Relinquishes build s'.arena := by
  cases op with
  | allocate n => exact absurd rfl (hop n)
  | free h => exact ensures_free _ (of_updating hperform)
  | tryFree h => exact ensures_tryFree _ (of_changing hperform)
  | lock h => exact .inl (ensures_pin _ (of_changing hperform))
  | weakLock h => exact .inl (ensures_pin _ (of_changing hperform))
  | unlock h => exact .inl (ensures_unlock _ (of_updating hperform))
  | tryLock h => exact .inl (ensures_tryPin _ (of_changing hperform))
  | tryWeakLock h => exact .inl (ensures_tryPin _ (of_changing hperform))
  | tryUnlock h => exact .inl (ensures_tryUnlock _ (of_changing hperform))
  | write h start bytes =>
      obtain ⟨outcome, hwrite, hperform⟩ := of_result_bind_ok hperform
      cases outcome with
      | error refusal =>
          cases hperform
          exact .inl rfl
      | ok arena =>
          cases hperform
          exact .inl (ensures_write _ hwrite)
  | compact budget clock => exact absurd rfl (hop' budget clock)
  | totalFreeBytes => exact .inl (congrArg _ (of_asking hperform))
  | largestFreeChunk => exact .inl (congrArg _ (of_asking hperform))
  | highestUsed exact => exact .inl (congrArg _ (of_asking hperform))

section Plans

variable {serve : Server} {count : Count.Counter} (hserve : Reckons build serve count)
include hserve

theorem Reckons.sound_perform {op : Op} {reply : op.Reply} (hsound : s.arena.Sound chunks spare)
    (hperform : (s.perform serve op).result build = .ok (reply, s')) :
    ∃ chunks' spare', s'.arena.Sound chunks' spare' := by
  obtain ⟨deeds, hruns⟩ := runs_of_perform hserve.serves hperform
  exact hruns.sound hsound

theorem Reckons.perform {op : Op} {reply : op.Reply} (hsound : s.arena.Sound chunks spare)
    (hperform : (s.perform serve op).result build = .ok (reply, s'))
    (hshows : s.arena.counters.Shows o) :
    s'.arena.counters.Shows (o + Count.perform build serve count op s) := by
  by_cases hop : ∃ n, op = .allocate n
  · obtain ⟨n, rfl⟩ := hop
    have hserved : (serve n s).result build = .ok (reply, s') := hperform
    rw [Count.perform, counted_eq hserved]
    exact hserve.shows n s reply s' o chunks spare hsound hserved hshows
  by_cases hop' : ∃ budget clock, op = .compact budget clock
  · obtain ⟨budget, clock, rfl⟩ := hop'
    have hcompact : (s.arena.compact budget clock).result build =
        .ok ((reply : CompactionReport), s'.arena) := of_changing hperform
    obtain ⟨counters, hfolds, hcounters⟩ := ensures_compact _ hcompact
    rw [Count.perform, counted_eq hcompact]
    exact (hshows.folds hfolds).accountCompaction _ hcounters
  · have hzero : Count.perform build serve count op s = 0 := by
      cases op
      case allocate n => exact absurd ⟨n, rfl⟩ hop
      case compact budget clock => exact absurd ⟨budget, clock, rfl⟩ hop'
      all_goals rfl
    rw [hzero]
    exact ((relinquishes_of_perform (fun n h => hop ⟨n, h⟩)
      (fun budget clock h => hop' ⟨budget, clock, h⟩) hperform).shows hshows).add_zero

theorem Reckons.follow {plan : Plan} {again : Bool} (hsound : s.arena.Sound chunks spare)
    (hfollow : (Session.follow serve plan s).result build = .ok (again, s'))
    (hshows : s.arena.counters.Shows o) :
    s'.arena.counters.Shows (o + Count.follow build serve count plan s) := by
  induction plan generalizing s chunks spare o with
  | giveUp =>
      cases Except.ok.inj hfollow
      exact hshows.add_zero
  | retry =>
      cases Except.ok.inj hfollow
      exact hshows.add_zero
  | say event next ih =>
      rw [Session.follow, result_bind_ok (result_log _ _)] at hfollow
      exact ih hsound hfollow hshows
  | perform op next ih =>
      rw [Session.follow] at hfollow
      obtain ⟨⟨reply, r⟩, hperform, hrest⟩ := of_result_bind_ok hfollow
      obtain ⟨chunks', spare', hsound'⟩ := hserve.sound_perform hsound hperform
      rw [Count.follow, counted_eq hperform, ← Outcomes.add_assoc]
      exact ih reply r.arena hsound' hrest (hserve.perform hsound hperform hshows)

end Plans

/-- A request whose size overflows is refused at once, and not counted. -/
theorem reckons_request {serveChunk : Server} {countChunk : Count.Counter}
    (hserves : Serves build (Session.request serveChunk))
    (hshows : ∀ requested size, chunkSize? requested = some size → ∀ s answer s' o chunks spare,
      s.arena.Sound chunks spare → (serveChunk size s).result build = .ok (answer, s') →
      s.arena.counters.Shows o →
      s'.arena.counters.Shows (o + (countChunk size s + Count.answered requested answer))) :
    Reckons build (Session.request serveChunk) (Count.request countChunk) := by
  refine ⟨hserves, fun requested s answer s' o chunks spare hsound hserved ho => ?_⟩
  rw [Session.request] at hserved
  rw [Count.request]
  cases hsize : chunkSize? requested with
  | some size =>
      rw [hsize] at hserved
      exact hshows requested size hsize s answer s' o chunks spare hsound hserved ho
  | none =>
      simp only [hsize, result_bind_ok (result_log _ _)] at hserved
      cases Except.ok.inj hserved
      obtain ⟨counted, hrefused, hcount⟩ := ho.refused
      rw [Outcomes.zero_add, Count.answered, hsize]
      refine ⟨ho.granted, ho.reused, ⟨counted, ?_, hcount⟩, ho.passes, ho.bytesMoved⟩
      change o.refused + 1 = counted + (o.oversized + 1)
      omega

theorem Count.answered_error {requested size : Nat} (hsize : chunkSize? requested = some size)
    (e : OutOfMemory) : Count.answered requested (.error e) = { refused := 1 } := by
  rw [answered, hsize]
  rfl

/-- However many rounds it takes, the totals tell how the request and the calls of the
handler end. -/
theorem shows_serveChunk (handler : Handler) (rounds : Nat) {requested size : Nat}
    (hsize : chunkSize? requested = some size) {answer : Except OutOfMemory Handle}
    (hsound : s.arena.Sound chunks spare)
    (hserved : (serveChunk handler rounds size s).result build = .ok (answer, s'))
    (hshows : s.arena.counters.Shows o) :
    s'.arena.counters.Shows
      (o + (Count.serveChunk build handler rounds size s + Count.answered requested answer)) := by
  induction rounds generalizing s requested size answer s' chunks spare o with
  | zero =>
      rw [serveChunk] at hserved
      exact absurd hserved (by simp)
  | succ rounds ih =>
      obtain ⟨_, hleast, haligned⟩ := chunkSize?_eq_some hsize
      rw [serveChunk] at hserved
      obtain ⟨⟨got, a⟩, htry, hrest⟩ := of_result_bind_ok hserved
      rw [Count.serveChunk, counted_eq htry]
      cases got with
      | some g =>
          obtain ⟨a', hconclude, hdone⟩ := of_result_bind_ok hrest
          cases Except.ok.inj hdone
          obtain ⟨_, hcounters⟩ := ensures_concludeAllocation _ hconclude
          rw [← Outcomes.add_assoc]
          exact (hsound.shows_tryAllocate hleast haligned htry hshows).accountAlloc _ hcounters
      | none =>
          obtain ⟨rfl, -⟩ := (hsound.tryAllocate hleast haligned).of_ok htry
          obtain ⟨⟨again, r⟩, hfollow, hrest⟩ := of_result_bind_ok hrest
          have hserve : Reckons build (Session.request (serveChunk handler rounds))
              (Count.request (Count.serveChunk build handler rounds)) :=
            reckons_request (serves_request fun _ _ hsize _ _ _ =>
              grants_of_serveChunk handler rounds hsize) fun _ _ hsize _ _ _ _ _ _ hsound =>
              ih hsize hsound
          have hafter := hserve.follow (s := { s with shortages := s.shortages ++ [size] }) hsound
            hfollow hshows
          obtain ⟨deeds, hruns⟩ := runs_of_follow hserve.serves hfollow
          obtain ⟨chunks', spare', hsound'⟩ := hruns.sound hsound
          simp only [counted_eq hfollow]
          rw [Outcomes.add_assoc, ← Outcomes.add_assoc o]
          cases again with
          | true => exact ih hsize hsound' hrest hafter
          | false =>
              obtain ⟨a', hrefused, hdone⟩ := of_result_bind_ok hrest
              cases Except.ok.inj hdone
              rw [if_neg Bool.false_ne_true, Outcomes.zero_add, Count.answered_error hsize]
              exact hafter.accountOom _ (ensures_refuseAllocation _ hrefused)

theorem reckons_allocate (handler : Handler) :
    Reckons build (allocate handler) (Count.allocate build handler) := by
  refine ⟨serves_allocate handler, fun requested s => ?_⟩
  exact (reckons_request (serves_request fun _ _ hsize _ _ _ =>
    grants_of_serveChunk handler _ hsize) fun _ _ hsize _ _ _ _ _ _ =>
    shows_serveChunk handler _ hsize).shows requested s

/-- Along a session the totals tell how its calls end. -/
theorem shows_run {ops : List Op} (hsound : s.arena.Sound chunks spare)
    (hrun : (run handler ops s).result build = .ok s') (hshows : s.arena.counters.Shows o) :
    s'.arena.counters.Shows (o + Count.run build handler ops s) := by
  induction ops generalizing s chunks spare o with
  | nil =>
      cases Except.ok.inj hrun
      exact hshows.add_zero
  | cons op ops ih =>
      rw [run] at hrun
      obtain ⟨⟨reply, r⟩, hcall, hrest⟩ := of_result_bind_ok hrun
      have hserve : Reckons build (allocate handler) (Count.allocate build handler) :=
        reckons_allocate handler
      obtain ⟨chunks', spare', hsound'⟩ := hserve.sound_perform hsound hcall
      rw [Count.run, counted_eq hcall, ← Outcomes.add_assoc]
      exact ih hsound' hrest (hserve.perform hsound hcall hshows)

end Session

namespace Arena

variable {build : Build} {a : Arena} {config : Config} {available size : Nat} {handler : Handler}
  {ops : List Op} {s : Session}

/-- The totals tell, as words, how many requests were granted, how many of them with a chunk
from the free lists, and what all compactions reported.  They tell how many requests were
refused exactly if the size of none of these overflows. -/
theorem totals_of_run
    (hestablish : (establish config available size).result build = .ok (.ok a))
    (hrun : (Session.run handler ops ⟨a, []⟩).result build = .ok s) :
    let o := Session.Count.run build handler ops ⟨a, []⟩
    s.arena.counters.totalAllocationCount = o.granted % Word.modulus ∧
      s.arena.counters.freeListHits = o.reused % Word.modulus ∧
      s.arena.counters.totalCompactionPasses = o.passes % Word.modulus ∧
      s.arena.counters.totalBytesMoved = o.bytesMoved % Word.modulus ∧
      s.arena.counters.oomCount = (o.refused - o.oversized) % Word.modulus ∧
      o.oversized ≤ o.refused ∧
      (o.refused < Word.modulus → (s.arena.counters.oomCount = o.refused ↔ o.oversized = 0)) := by
  intro o
  have ⟨_, hsound, hcounters⟩ := of_establish hestablish
  have hnone : a.counters.Shows 0 := by
    rw [hcounters]
    exact ⟨rfl, rfl, ⟨0, rfl, rfl⟩, rfl, rfl⟩
  have hshows := Session.shows_run hsound hrun hnone
  rw [Outcomes.zero_add] at hshows
  have ⟨counted, hrefused, hoom⟩ := hshows.refused
  have hrefused : o.refused = counted + o.oversized := hrefused
  refine ⟨hshows.granted, hshows.reused, hshows.passes, hshows.bytesMoved, ?_, by omega,
    fun hfit => ?_⟩
  · rw [hoom, hrefused, Nat.add_sub_cancel]
  · rw [hoom, Nat.mod_eq_of_lt (by omega)]
    omega

/-- A session whose requests are granted, in part with a chunk that was freed before, or
refused after a compaction or at once. -/
def requests : List Op :=
  [.allocate 16, .allocate 48, .allocate 16, .free (nth 0), .allocate 16, .free (nth 1),
    .allocate 5000, .allocate Word.max]

theorem totals_of_requests :
    ∃ s, (Session.run .compacting requests ⟨small, []⟩).result .release = .ok s ∧
      Session.Count.run .release .compacting requests ⟨small, []⟩ = ⟨4, 1, 2, 1, 1, 16⟩ ∧
      s.arena.counters.totalAllocationCount = 4 ∧ s.arena.counters.freeListHits = 1 ∧
      s.arena.counters.totalCompactionPasses = 1 ∧ s.arena.counters.totalBytesMoved = 16 ∧
      s.arena.counters.oomCount = 1 := by
  have hok : ((Session.run .compacting requests ⟨small, []⟩).result .release).isOk = true := by
    decide +kernel
  have hcount : Session.Count.run .release .compacting requests ⟨small, []⟩ =
      ⟨4, 1, 2, 1, 1, 16⟩ := by
    decide +kernel
  have ⟨s, hrun⟩ := exists_of_isOk hok
  have htotals := totals_of_run (establish_small .release) hrun
  rw [hcount] at htotals
  have ⟨hgranted, hreused, hpasses, hmoved, hoom, _⟩ := htotals
  exact ⟨s, hrun, hcount, hgranted, hreused, hpasses, hmoved, hoom⟩

/-- A request that is refused because its size overflows is not counted. -/
theorem oomCount_of_oversized :
    ∃ s, (Session.allocate .refusing Word.max ⟨small, []⟩).result .release =
        .ok (.error .outOfMemory, s) ∧
      (Session.Count.run .release .refusing [.allocate Word.max] ⟨small, []⟩).refused = 1 ∧
      s.arena.counters.oomCount = 0 :=
  ⟨⟨small, []⟩, rfl, by decide +kernel, rfl⟩

end Arena

end CompactingArena
