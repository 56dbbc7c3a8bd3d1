import CompactingArena.Compaction.Search
import CompactingArena.Proofs.Compaction.Prospect
import CompactingArena.Proofs.HeaderTable.Records
/-!
# The search for a slide

`HeaderTable.findSlide` finds what `Sees` says of the chunks after the cursor,
named by the records at the ends of the runs.
-/

namespace CompactingArena

open Layout

namespace Layout

/-- The record of the last chunk, or `h` if there is no chunk. -/
def tip (h : Handle) : List Chunk → Handle
  | [] => h
  | c :: l => tip c.handle l

/-- The link to the last chunk, or `link` if there is no chunk. -/
def exit (link : Option Handle) : List Chunk → Option Handle
  | [] => link
  | c :: l => exit (some c.handle) l

/-- A run of chunks by its ends. -/
def runOf (c : Chunk) (l : List Chunk) : Run := ⟨c.handle, tip c.handle l, bytes (c :: l)⟩

@[simp] theorem exit_nil (link : Option Handle) : exit link [] = link := rfl

@[simp] theorem exit_cons (link : Option Handle) (c : Chunk) (l : List Chunk) :
    exit link (c :: l) = some (tip c.handle l) := by
  induction l generalizing c link with
  | nil => rfl
  | cons d l ih => exact ih (some c.handle) d

theorem exit_append (link : Option Handle) (l m : List Chunk) :
    exit link (l ++ m) = exit (exit link l) m := by
  induction l generalizing link with
  | nil => rfl
  | cons c l ih => exact ih (some c.handle)

/-- Only the handles of the chunks matter. -/
theorem exit_congr {link : Option Handle} {l m : List Chunk} (h : handles l = handles m) :
    exit link l = exit link m := by
  induction l generalizing link m with
  | nil =>
      obtain rfl : m = [] := by simpa [handles] using h.symm
      rfl
  | cons c l ih =>
      obtain ⟨d, m, rfl⟩ : ∃ d m', m = d :: m' := List.exists_cons_of_ne_nil (by
        rintro rfl
        simp at h)
      obtain ⟨hhandle, hrest⟩ := List.cons.inj h
      rw [exit, exit, hhandle]
      exact ih hrest

theorem tip_lowered (distance : Nat) (c : Chunk) (l : List Chunk) :
    tip (c.lowered distance).handle (l.map (Chunk.lowered distance)) = tip c.handle l := by
  have h : exit none _ = exit none _ := exit_congr (handles_lowered distance (c :: l))
  rwa [List.map_cons, exit_cons, exit_cons, Option.some.injEq] at h

theorem exists_concat (c : Chunk) (l : List Chunk) :
    ∃ front last, c :: l = front ++ [last] ∧ last.handle = tip c.handle l := by
  induction l generalizing c with
  | nil => exact ⟨[], c, rfl, rfl⟩
  | cons d l ih =>
      obtain ⟨front, last, hsplit, hlast⟩ := ih d
      exact ⟨c :: front, last, by rw [hsplit]; rfl, hlast⟩

theorem tip_mem (c : Chunk) (l : List Chunk) : tip c.handle l ∈ handles (c :: l) := by
  obtain ⟨front, last, hsplit, hlast⟩ := exists_concat c l
  rw [hsplit, ← hlast]
  exact handle_mem (by simp)

theorem length_le_bytes {l : List Chunk} (hpos : ∀ c ∈ l, 0 < c.size) : l.length ≤ bytes l := by
  induction l with
  | nil => exact le_refl _
  | cons c l ih =>
      have hc := hpos c (by simp)
      have hl := ih fun d hd => hpos d (by simp [hd])
      rw [List.length_cons, bytes_cons]
      omega

/-- How a search names what it sees. -/
inductive Finds (cursor : Option Handle) : Prospect → Search → Prop
  | nothing : Finds cursor .nothing .done
  | obstructed {before hole barrier rest : List Chunk} {p : Chunk} :
      Finds cursor (.obstructed before hole (p :: barrier) rest) (.skip (tip p.handle barrier))
  | adjacent {before hole moved rest : List Chunk} {f m : Chunk} :
      Finds cursor (.adjacent before (f :: hole) (m :: moved) rest)
        (.slide
          { beforeHole := exit cursor before
            hole := runOf f hole
            afterHole := m.handle
            beforeMoved := tip f.handle hole
            moved := runOf m moved })
  | past {before hole barrier moved rest : List Chunk} {f p m : Chunk} :
      Finds cursor (.past before (f :: hole) (p :: barrier) (m :: moved) rest)
        (.slide
          { beforeHole := exit cursor before
            hole := runOf f hole
            afterHole := p.handle
            beforeMoved := tip p.handle barrier
            moved := runOf m moved })

end Layout

namespace HeaderTable

variable {t : HeaderTable} {start before : Option Handle} {l m run rest : List Chunk} {c d : Chunk}
  {limit room : Nat}

theorem Lists.next (h : t.Lists start (l ++ c :: m) none) :
    t.next c.handle = pure (entry m none) := by
  obtain ⟨-, -, r, hget, -, hm⟩ := lists_append.mp h
  rw [next_eq hget, hm.start_eq]

theorem Lists.next_tip (h : t.Lists start (c :: l ++ m) none) :
    t.next (tip c.handle l) = pure (entry m none) := by
  obtain ⟨front, last, hsplit, hlast⟩ := exists_concat c l
  rw [hsplit, List.append_assoc] at h
  rw [← hlast]
  exact h.next

theorem Lists.state (h : t.Lists start (l ++ c :: m) none) :
    ∃ r, t.get c.handle = pure r ∧ r.Describes c ∧ r.next = entry m none := by
  obtain ⟨-, -, r, hget, hdesc, hm⟩ := lists_append.mp h
  exact ⟨r, get_eq hget, hdesc, hm.start_eq⟩

/-! ## The hole -/

theorem Lists.findFree_none (h : t.Lists start l none) (hbusy : Busy l)
    (hlimit : l.length ≤ limit) : t.findFree limit before start = pure none := by
  induction l generalizing start before limit with
  | nil =>
      obtain rfl : start = none := h
      cases limit <;> rfl
  | cons c l ih =>
      obtain ⟨limit, rfl⟩ : ∃ n, limit = n + 1 := ⟨limit - 1, by simp at hlimit; omega⟩
      obtain ⟨rfl, r, hget, hdesc, hrest⟩ := h
      have hc : r.state.isFree = false := hdesc.state ▸ hbusy c (by simp)
      rw [findFree, get_eq hget, pure_bind, next_eq hget, pure_bind, hc, if_neg Bool.false_ne_true]
      exact ih hrest (fun d hd => hbusy d (by simp [hd])) (by simpa using hlimit)

theorem Lists.findFree_some (h : t.Lists start (l ++ c :: m) none) (hbusy : Busy l)
    (hfree : c.isFree = true) (hlimit : l.length < limit) :
    t.findFree limit before start = pure (some (exit before l, c.handle)) := by
  induction l generalizing start before limit with
  | nil =>
      obtain ⟨limit, rfl⟩ : ∃ n, limit = n + 1 := ⟨limit - 1, by omega⟩
      obtain ⟨rfl, r, hget, hdesc, -⟩ := h
      have hc : r.state.isFree = true := hdesc.state ▸ hfree
      rw [findFree, get_eq hget, pure_bind, hc, if_pos rfl]
      rfl
  | cons d l ih =>
      obtain ⟨limit, rfl⟩ : ∃ n, limit = n + 1 := ⟨limit - 1, by simp at hlimit; omega⟩
      obtain ⟨rfl, r, hget, hdesc, hrest⟩ := h
      have hd : r.state.isFree = false := hdesc.state ▸ hbusy d (by simp)
      rw [findFree, get_eq hget, pure_bind, next_eq hget, pure_bind, hd, if_neg Bool.false_ne_true]
      exact ih hrest (fun e he => hbusy e (by simp [he])) (by simpa using hlimit)

/-! ## Runs -/

/-- A run ends where its condition fails of the next chunk. -/
theorem Lists.loop_extendRun {accept : Record → Nat → Act Bool} {first : Handle} {sum : Nat}
    (h : t.Lists (some c.handle) (c :: run ++ rest) none) (hlimit : run.length < limit)
    (hbytes : sum + bytes run < Word.modulus)
    (haccept : ∀ d ∈ run, ∀ r : Record, r.Describes d → ∀ part, part + d.size ≤ sum + bytes run →
      accept r part = pure true)
    (hstop : ∀ d ∈ rest.head?, ∀ r : Record, r.Describes d →
      accept r (sum + bytes run) = pure false) :
    Act.loop (t.extendRun accept) limit ⟨first, c.handle, sum⟩ =
      pure ⟨first, tip c.handle run, sum + bytes run⟩ := by
  induction run generalizing c sum limit with
  | nil =>
      obtain ⟨limit, rfl⟩ : ∃ n, limit = n + 1 := ⟨limit - 1, by omega⟩
      have hnext : t.next c.handle = pure (entry rest none) := Lists.next (l := []) h
      rw [Act.loop_succ, extendRun, hnext, pure_bind]
      cases rest with
      | nil => rfl
      | cons d rest =>
          obtain ⟨r, hget, hdesc, -⟩ := Lists.state (l := [c]) h
          have hrefused := hstop d (by simp) r hdesc
          rw [bytes_nil, Nat.add_zero] at hrefused
          simp only [entry_cons, hget, pure_bind, hrefused]
          rfl
  | cons d run ih =>
      obtain ⟨limit, rfl⟩ : ∃ n, limit = n + 1 := ⟨limit - 1, by simp at hlimit; omega⟩
      rw [bytes_cons] at hbytes haccept hstop
      have hnext : t.next c.handle = pure (some d.handle) := Lists.next (l := []) h
      obtain ⟨r, hget, hdesc, -⟩ := Lists.state (l := [c]) h
      have hrest : t.Lists (some d.handle) (d :: run ++ rest) none :=
        (lists_append.mp (show t.Lists _ ([c] ++ (d :: run ++ rest)) none from h)).2
      have haccepted := haccept d (by simp) r hdesc sum (by omega)
      have hadd : Word.add sum r.size = pure (sum + d.size) := by
        rw [hdesc.size, Word.add_eq (by omega)]
      rw [Act.loop_succ, extendRun, hnext, pure_bind]
      simp only [hget, pure_bind, haccepted, if_true, hadd]
      rw [ih hrest (by simpa using hlimit) (by omega)
        (fun e he r hr part hpart => haccept e (by simp [he]) r hr part (by omega))
        (fun e he r hr => by rw [Nat.add_assoc]; exact hstop e he r hr)]
      rw [bytes_cons, Nat.add_assoc]
      rfl

theorem Lists.runFrom {accept : Record → Nat → Act Bool}
    (h : t.Lists start (c :: run ++ rest) none) (hlimit : run.length < runLimit)
    (hbytes : bytes (c :: run) < Word.modulus)
    (haccept : ∀ d ∈ run, ∀ r : Record, r.Describes d → ∀ part, part + d.size ≤ bytes (c :: run) →
      accept r part = pure true)
    (hstop : ∀ d ∈ rest.head?, ∀ r : Record, r.Describes d →
      accept r (bytes (c :: run)) = pure false) :
    t.runFrom c.handle accept = pure (runOf c run) := by
  have hstart : start = some c.handle := h.start_eq
  subst hstart
  obtain ⟨r, hget, hdesc, -⟩ := Lists.state (l := []) h
  rw [bytes_cons] at hbytes haccept hstop
  rw [HeaderTable.runFrom, hget, pure_bind, hdesc.size]
  exact h.loop_extendRun hlimit hbytes haccept hstop

/-! ## Candidates behind a barrier -/

theorem findCandidate_end (t : HeaderTable) (room limit : Nat) (h : Handle) :
    t.findCandidate room limit h none = pure .none := by
  cases limit <;> rfl

/-- Chunks that stay are passed. -/
theorem Lists.findCandidate_pass {h : Handle} (hlists : t.Lists start (l ++ m) none)
    (hbusy : Busy l) (hlarge : ∀ d ∈ l, d.state = .unlocked → room < d.size)
    (hlimit : l.length ≤ limit) :
    t.findCandidate room limit h start =
      t.findCandidate room (limit - l.length) (tip h l) (entry m none) := by
  induction l generalizing start h limit with
  | nil =>
      have hstart : start = entry m none := (lists_append.mp hlists).1
      rw [hstart]
      rfl
  | cons d l ih =>
      obtain ⟨limit, rfl⟩ : ∃ n, limit = n + 1 := ⟨limit - 1, by simp at hlimit; omega⟩
      obtain ⟨rfl, r, hget, hdesc, hrest⟩ := hlists
      have hd : r.state.isFree = false := hdesc.state ▸ hbusy d (by simp)
      have hstays : ¬(r.state = .unlocked ∧ r.size ≤ room) := by
        rintro ⟨hstate, hsize⟩
        rw [hdesc.state] at hstate
        rw [hdesc.size] at hsize
        have hlarge := hlarge d (by simp) hstate
        omega
      rw [findCandidate, get_eq hget, pure_bind, hd, if_neg Bool.false_ne_true, if_neg hstays,
        ih hrest (fun e he => hbusy e (by simp [he])) (fun e he => hlarge e (by simp [he]))
          (by simpa using hlimit)]
      rw [List.length_cons, Nat.add_sub_add_right]
      rfl

/-! ## The search as a whole -/

/-- The search for chunks to slide into a given hole. -/
def slideInto (t : HeaderTable) (beforeHole : Option Handle) (hole : Run) :
    Option Handle → Act Search
  | none => return .done
  | some afterHole => do
      if (← t.get afterHole).state.isPinned then
        match ← t.findCandidate hole.size t.walkLimit hole.last (some afterHole) with
        | .none => return .done
        | .hole cursor => return .skip cursor
        | .found beforeMoved first =>
            let moved ← t.runFrom first (unlockedWithin hole.size)
            return .slide { beforeHole, hole, afterHole, beforeMoved, moved }
      else
        let moved ← t.runFrom afterHole anyUnlocked
        return .slide { beforeHole, hole, afterHole, beforeMoved := hole.last, moved }

/-- The search for a hole and for what to slide into it. -/
def searchFrom (t : HeaderTable) (cursor start : Option Handle) : Act Search := do
  match ← t.findFree t.walkLimit cursor start with
  | none => return .done
  | some (beforeHole, first) =>
      let hole ← t.runFrom first fun record _ => pure record.state.isFree
      t.slideInto beforeHole hole (← t.next hole.last)

/-- The link from which a search sets out. -/
def startOf (t : HeaderTable) : Option Handle → Act (Option Handle)
  | none => pure t.chain
  | some h => t.next h

theorem findSlide_eq (t : HeaderTable) (cursor : Option Handle) :
    t.findSlide cursor = t.startOf cursor >>= t.searchFrom cursor := by
  cases cursor <;> rfl

/-- A run that a word can measure is not taken to be endless. -/
theorem length_lt_runLimit {l : List Chunk} (hpos : ∀ d ∈ c :: l, 0 < d.size)
    (hbytes : bytes (c :: l) < Word.modulus) : l.length < runLimit := by
  have hle := length_le_bytes hpos
  rw [List.length_cons] at hle
  unfold runLimit
  omega

section Search

variable {cursor : Option Handle} {hole barrier moved : List Chunk} {f p m : Chunk}
  {busy after : List Chunk}

/-- The first hole is found as a whole, and the search goes on behind it. -/
theorem Lists.searchFrom_hole (h : t.Lists start (busy ++ (hole ++ after)) none)
    (cursor : Option Handle) (hlimit : (busy ++ (hole ++ after)).length < t.walkLimit)
    (hbytes : bytes (busy ++ (hole ++ after)) < Word.modulus)
    (hpos : ∀ c ∈ busy ++ (hole ++ after), 0 < c.size) (hbusy : Busy busy) (hhole : Hole hole)
    (hafter : ∀ c ∈ after.head?, c.isFree = false) :
    ∃ f l, hole = f :: l ∧ t.Lists (entry after none) after none ∧
      t.searchFrom cursor start =
        t.slideInto (exit cursor busy) (runOf f l) (entry after none) := by
  obtain ⟨f, hole, rfl⟩ := List.exists_cons_of_ne_nil hhole.nonempty
  have hfree := hhole.free
  have hrest := (lists_append.mp h).2
  rw [bytes_append, bytes_append] at hbytes
  have hlength : hole.length < runLimit :=
    length_lt_runLimit (fun c hc => hpos c (List.mem_append_right _ (List.mem_append_left _ hc)))
      (by omega)
  have hrun : t.runFrom f.handle (fun record _ => pure record.state.isFree) =
      pure (runOf f hole) := by
    refine hrest.runFrom hlength (by omega) (fun d hd r hr part _ => ?_) fun d hd r hr => ?_
    · have hd := hfree d (by simp [hd])
      rw [hr.state]
      exact congrArg pure hd
    · have hd := hafter d hd
      rw [hr.state]
      exact congrArg pure hd
  refine ⟨f, hole, rfl, (lists_append.mp hrest).2, ?_⟩
  rw [searchFrom, Lists.findFree_some h hbusy (hfree f (by simp)) (by
    rw [List.length_append] at hlimit
    omega), pure_bind]
  simp only [hrun, pure_bind]
  rw [show (runOf f hole).last = tip f.handle hole from rfl, hrest.next_tip, pure_bind]

theorem Lists.slideInto_adjacent {beforeHole : Option Handle} {hole : Run}
    (h : t.Lists (some m.handle) (m :: moved ++ rest) none)
    (hbytes : bytes (m :: moved) < Word.modulus) (hpos : ∀ c ∈ m :: moved, 0 < c.size)
    (hmoved : Movable (m :: moved)) (hrest : ∀ c ∈ rest.head?, c.state ≠ .unlocked) :
    t.slideInto beforeHole hole (some m.handle) =
      pure (.slide
        { beforeHole, hole, afterHole := m.handle, beforeMoved := hole.last,
          moved := runOf m moved }) := by
  have hlength : moved.length < runLimit := length_lt_runLimit hpos hbytes
  obtain ⟨r, hget, hdesc, -⟩ := Lists.state (l := []) h
  have hstate : r.state.isPinned = false := by
    rw [hdesc.state, hmoved.unlocked m (by simp)]
    rfl
  have hrun : t.runFrom m.handle anyUnlocked = pure (runOf m moved) := by
    refine h.runFrom hlength hbytes (fun d hd r hr part _ => ?_) fun d hd r hr => ?_
    · have hd := hmoved.unlocked d (by simp [hd])
      rw [anyUnlocked, hr.state, hd]
      rfl
    · have hd := hrest d hd
      rw [anyUnlocked, hr.state, decide_eq_false hd]
  rw [slideInto, hget, pure_bind, hstate, if_neg Bool.false_ne_true, hrun, pure_bind]

theorem Lists.slideInto_barrier (h : t.Lists (some p.handle) (p :: barrier ++ rest) none)
    (beforeHole : Option Handle) (hole : Run)
    (hlimit : (p :: barrier ++ rest).length < t.walkLimit)
    (hbarrier : Barrier hole.size (p :: barrier)) :
    ∃ limit, t.slideInto beforeHole hole (some p.handle) = do
      match ← t.findCandidate hole.size (limit + 1) (tip p.handle barrier) (entry rest none) with
      | .none => return .done
      | .hole cursor => return .skip cursor
      | .found beforeMoved first =>
          let moved ← t.runFrom first (unlockedWithin hole.size)
          return .slide { beforeHole, hole, afterHole := p.handle, beforeMoved, moved } := by
  obtain ⟨p', l', heq, hpinned⟩ := hbarrier.pinned
  obtain ⟨rfl, rfl⟩ : p = p' ∧ barrier = l' := by simpa using heq
  obtain ⟨r, hget, hdesc, -⟩ := Lists.state (l := []) h
  have hstate : r.state.isPinned = true := hdesc.state ▸ hpinned
  rw [List.length_append] at hlimit
  obtain ⟨limit, hsub⟩ : ∃ n, t.walkLimit - (p :: barrier).length = n + 1 :=
    ⟨t.walkLimit - (p :: barrier).length - 1, by omega⟩
  have hpass := h.findCandidate_pass (h := hole.last) hbarrier.busy hbarrier.large
    (show (p :: barrier).length ≤ t.walkLimit by omega)
  refine ⟨limit, ?_⟩
  rw [slideInto, hget, pure_bind, hstate, if_pos rfl, hpass, hsub]
  rfl

/-- A run that fits into the hole is found behind the barrier. -/
theorem Lists.runFrom_within (h : t.Lists start (m :: moved ++ rest) none)
    (hbytes : bytes (m :: moved ++ rest) < Word.modulus) (hpos : ∀ c ∈ m :: moved, 0 < c.size)
    (hmoved : Movable (m :: moved)) (hfits : bytes (m :: moved) ≤ room)
    (hrest : ∀ c ∈ rest.head?, c.state = .unlocked → room < bytes (m :: moved) + c.size) :
    t.runFrom m.handle (unlockedWithin room) = pure (runOf m moved) := by
  rw [bytes_append] at hbytes
  have hlength : moved.length < runLimit := length_lt_runLimit hpos (by omega)
  refine h.runFrom hlength (by omega) (fun d hd r hr part hpart => ?_) fun d hd r hr => ?_
  · have hd := hmoved.unlocked d (by simp [hd])
    rw [unlockedWithin, hr.state, hr.size, if_pos hd, Word.add_eq (by omega), pure_bind,
      decide_eq_true (by omega : part + d.size ≤ room)]
  · have hsize : d.size ≤ bytes rest := size_le_bytes (List.mem_of_mem_head? hd)
    rw [unlockedWithin, hr.state, hr.size]
    by_cases hunlocked : d.state = .unlocked
    · have hlarge := hrest d hd hunlocked
      rw [if_pos hunlocked, Word.add_eq (by omega), pure_bind, decide_eq_false (by omega)]
    · rw [if_neg hunlocked]

end Search

/-- The search finds what there is to see after the cursor. -/
theorem Lists.findSlide {todo : List Chunk} {prospect : Prospect} {cursor : Option Handle}
    (h : t.Lists start todo none) (hcursor : t.startOf cursor = pure start)
    (hlength : todo.length ≤ t.capacity) (hbytes : bytes todo < Word.modulus)
    (hpos : ∀ c ∈ todo, 0 < c.size) (hsees : Sees todo prospect) :
    ∃ search, t.findSlide cursor = pure search ∧ Finds cursor prospect search := by
  have hlimit : todo.length < t.walkLimit := by
    unfold walkLimit
    omega
  rw [findSlide_eq, hcursor, pure_bind]
  cases hsees with
  | solid hbusy =>
      refine ⟨.done, ?_, .nothing⟩
      rw [searchFrom, h.findFree_none hbusy (by omega), pure_bind]
  | @top busy hole hbusy hhole =>
      have h' : t.Lists start (busy ++ (hole ++ [])) none := by rwa [List.append_nil]
      obtain ⟨f, l, rfl, -, hsearch⟩ := h'.searchFrom_hole cursor (by rwa [List.append_nil])
        (by rwa [List.append_nil]) (by rwa [List.append_nil]) hbusy hhole (by simp)
      exact ⟨.done, hsearch, .nothing⟩
  | @walled busy hole barrier hbusy hhole hbarrier =>
      obtain ⟨f, hole, rfl, hrest, hsearch⟩ := h.searchFrom_hole cursor hlimit hbytes hpos hbusy
        hhole fun c hc => hbarrier.busy c (List.mem_of_mem_head? hc)
      obtain ⟨p, l, rfl, -⟩ := id hbarrier.pinned
      have hrest : t.Lists (some p.handle) (p :: l ++ []) none := by simpa using hrest
      obtain ⟨limit, hinto⟩ := hrest.slideInto_barrier (exit cursor busy) (runOf f hole)
        (by simp at hlimit ⊢; omega) hbarrier
      rw [hsearch, entry_cons, hinto, entry_nil, findCandidate_end, pure_bind]
      exact ⟨.done, rfl, .nothing⟩
  | @obstructed busy hole barrier rest g hbusy hhole hbarrier hg =>
      obtain ⟨p, l, rfl, -⟩ := id hbarrier.pinned
      obtain ⟨f, hole, rfl, hrest, hsearch⟩ := h.searchFrom_hole cursor hlimit hbytes hpos hbusy
        hhole fun c hc => hbarrier.busy c (by simpa using Or.inl (Option.some.inj hc).symm)
      obtain ⟨r, hget, hdesc, -⟩ := Lists.state (l := p :: l) hrest
      have hstate : r.state.isFree = true := hdesc.state ▸ hg
      obtain ⟨limit, hinto⟩ := Lists.slideInto_barrier hrest (exit cursor busy) (runOf f hole)
        (by simp at hlimit ⊢; omega) hbarrier
      rw [hsearch, entry_append, entry_cons, hinto, entry_cons, findCandidate, hget, pure_bind,
        hstate, if_pos rfl]
      exact ⟨_, rfl, .obstructed⟩
  | @adjacent busy hole moved rest hbusy hhole hmoved hrest' =>
      obtain ⟨m, moved, rfl⟩ := List.exists_cons_of_ne_nil hmoved.nonempty
      obtain ⟨f, hole, rfl, hrest, hsearch⟩ := h.searchFrom_hole cursor hlimit hbytes hpos hbusy
        hhole fun c hc => hmoved.busy c (by simpa using Or.inl (Option.some.inj hc).symm)
      rw [bytes_append, bytes_append, bytes_append] at hbytes
      have hposmoved : ∀ c ∈ m :: moved, 0 < c.size := fun c hc =>
        hpos c (by simp only [List.mem_append]; exact .inr (.inr (.inl hc)))
      rw [hsearch, entry_append, entry_cons,
        Lists.slideInto_adjacent hrest (by omega) hposmoved hmoved hrest']
      exact ⟨_, rfl, .adjacent⟩
  | @past busy hole barrier moved rest hbusy hhole hbarrier hmoved hfits hrest' =>
      obtain ⟨p, l, rfl, -⟩ := id hbarrier.pinned
      obtain ⟨m, moved, rfl⟩ := List.exists_cons_of_ne_nil hmoved.nonempty
      obtain ⟨f, hole, rfl, hrest, hsearch⟩ := h.searchFrom_hole cursor hlimit hbytes hpos hbusy
        hhole fun c hc => hbarrier.busy c (by simpa using Or.inl (Option.some.inj hc).symm)
      rw [bytes_append, bytes_append, bytes_append] at hbytes
      obtain ⟨r, hget, hdesc, -⟩ := Lists.state (l := p :: l) hrest
      have hbusy' : r.state.isFree = false := hdesc.state ▸ hmoved.busy m (by simp)
      have hcandidate : r.state = .unlocked ∧ r.size ≤ (runOf f hole).size := by
        rw [hdesc.state, hdesc.size]
        exact ⟨hmoved.unlocked m (by simp), (size_le_bytes (by simp)).trans hfits⟩
      have hposmoved : ∀ c ∈ m :: moved, 0 < c.size := fun c hc =>
        hpos c (by simp only [List.mem_append]; exact .inr (.inr (.inr (.inl hc))))
      have hrun := (lists_append.mp hrest).2.runFrom_within (by omega) hposmoved hmoved hfits
        hrest'
      obtain ⟨limit, hinto⟩ := Lists.slideInto_barrier hrest (exit cursor busy) (runOf f hole)
        (by simp at hlimit ⊢; omega) hbarrier
      rw [hsearch, entry_append, entry_cons, hinto, entry_append, entry_cons, findCandidate, hget,
        pure_bind, hbusy', if_neg Bool.false_ne_true, if_pos hcandidate]
      simp only [pure_bind]
      rw [show (runOf f hole).size = bytes (f :: hole) from rfl, hrun, pure_bind]
      exact ⟨_, rfl, .past⟩

end HeaderTable

end CompactingArena
