import CompactingArena.Proofs.Act
import CompactingArena.Proofs.Compaction.Slide
import CompactingArena.Proofs.Counters
/-!
# Relinking after a slide

A record obtained for free bytes is put between two parts of the chain.  Doing
so once or twice joins the parts that are left when a run has moved.
-/

namespace CompactingArena

namespace Layout

/-! ## Growing the last chunk of a run -/

/-- The last chunk grows by `n` bytes. -/
def stretched (n : Nat) : List Chunk → List Chunk
  | [] => []
  | [c] => [{ c with size := c.size + n }]
  | c :: d :: l => c :: stretched n (d :: l)

variable {n base top : Nat} {l : List Chunk} {c : Chunk}

theorem stretched_concat (n : Nat) (l : List Chunk) (c : Chunk) :
    stretched n (l ++ [c]) = l ++ [{ c with size := c.size + n }] := by
  induction l with
  | nil => rfl
  | cons d l ih =>
      obtain ⟨e, k, hk⟩ : ∃ e k, l ++ [c] = e :: k :=
        List.exists_cons_of_ne_nil (by simp)
      rw [hk] at ih
      rw [List.cons_append, hk, stretched, ih]
      rfl

@[simp] theorem stretched_zero (l : List Chunk) : stretched 0 l = l := by
  rcases List.eq_nil_or_concat l with rfl | ⟨l, c, rfl⟩
  · rfl
  · rw [List.concat_eq_append, stretched_concat]
    rfl

@[simp] theorem handles_stretched (n : Nat) (l : List Chunk) :
    handles (stretched n l) = handles l := by
  rcases List.eq_nil_or_concat l with rfl | ⟨l, c, rfl⟩
  · rfl
  · rw [List.concat_eq_append, stretched_concat]
    simp

theorem Tiles.stretched (h : Tiles base l top) (hne : l ≠ []) (n : Nat) :
    Tiles base (stretched n l) (top + n) := by
  obtain ⟨front, last, rfl⟩ := List.eq_nil_or_concat l |>.resolve_left hne
  rw [List.concat_eq_append] at h ⊢
  rw [stretched_concat]
  rw [tiles_append] at h ⊢
  obtain ⟨hfront, haddr, htop⟩ := h
  refine ⟨hfront, haddr, ?_⟩
  rw [tiles_nil] at htop ⊢
  simp only
  omega

end Layout

open Layout

namespace HeaderTable

variable {t t' : HeaderTable} {start stop : Option Handle} {l m : List Chunk} {c : Chunk}
  {held spare : List Handle} {floor addr size : Nat}

/-- No record waits to be recycled, and there is no room above `floor` for another
one. -/
def Spent (t : HeaderTable) (floor : Nat) : Prop :=
  t.freeRecords = none ∧ (t.low < floor + Record.bytes ∨ t.capacity = Handle.limit)

theorem Spent.set (h : t.Spent floor) (g : Handle) (r : Record) : (t.set g r).Spent floor := by
  rw [Spent, low_set, capacity_set]
  exact h

theorem Spent.setNext (h : t.Spent floor) (g : Handle) (next : Option Handle) :
    (t.setNext g next).Spent floor := by
  have hlow : (t.setNext g next).low = t.low := by
    simp only [low, footprint, capacity_setNext]
    rfl
  rw [Spent, hlow, capacity_setNext]
  exact h

theorem Kept.freeRecord (hkept : t.Kept held spare) (hfits : t.footprint ≤ t.high)
    (floor addr size : Nat) :
    ∃ got, (t.freeRecord floor addr size).Yields got ∧
      match got with
      | none => spare = [] ∧ t.Spent floor
      | some (g, t') => (∃ r, t'.get? g = some r ∧ r.Describes ⟨g, addr, size, .free⟩) ∧
          (∀ h, h ≠ g → t'.get? h = t.get? h) ∧ t'.chain = t.chain ∧ t'.high = t.high ∧
          ∃ spare', t'.Kept (g :: held) spare' ∧
            (spare = g :: spare' ∧ t'.capacity = t.capacity ∨
              spare = [] ∧ t'.capacity = t.capacity + 1 ∧ floor + Record.bytes ≤ t.low) := by
  obtain ⟨got, halloc, hgot⟩ := hkept.allocate hfits false floor
    (show 1 + 0 < Word.modulus by decide)
  rw [HeaderTable.freeRecord]
  cases got with
  | none =>
      obtain ⟨rfl, hroom⟩ := hgot
      rw [Nat.add_zero, Nat.one_mul] at hroom
      exact ⟨none, halloc.bind (Act.yields_pure _), rfl, hkept.recycled, hroom⟩
  | some got =>
      obtain ⟨g, t'⟩ := got
      obtain ⟨hobtains, spare', hkept', hspare⟩ := hgot
      have hself := hobtains.get_self
      refine ⟨some (g, t'.set g { t.obtained false with addr, size, state := .free }),
        halloc.bind ?_, ⟨{ t.obtained false with addr, size, state := .free }, ?_, ⟨rfl, rfl, rfl⟩⟩,
        fun h hh => ?_, hobtains.chain, hobtains.high, spare',
        hkept'.set (by simp) _, ?_⟩
      · simp only [update_eq hself, pure_bind]
        exact Act.yields_pure _
      · exact hobtains.get?_set_self _
      · exact hobtains.get?_set_other _ hh
      · rw [capacity_set]
        rwa [Nat.add_zero, Nat.one_mul] at hspare

/-- How a table looks after the free chunk `d` was put between two parts of the
chain. -/
structure Inserts (t t' : HeaderTable) (start : Option Handle) (l m : List Chunk) (d : Chunk)
    (changed : Handle) (held : List Handle) : Prop where
  lists : t'.Lists start (l ++ d :: m) none
  fresh : d.handle ∉ held
  get_other : ∀ h, h ≠ changed → h ≠ d.handle → t'.get? h = t.get? h
  chain : t'.chain = t.chain
  high : t'.high = t.high

/-- A part of the chain that was there before stays. -/
theorem Inserts.lists_other {k : List Chunk} {d : Chunk} {changed : Handle} {out : Option Handle}
    (h : t.Inserts t' start l m d changed held) (hk : t.Lists stop k out)
    (hheld : handles k ⊆ held) (hchanged : changed ∉ handles k) : t'.Lists stop k out := by
  refine hk.congr fun c hc => h.get_other _ ?_ ?_
  · exact fun heq => hchanged (heq ▸ handle_mem hc)
  · exact fun heq => h.fresh (heq ▸ hheld (handle_mem hc))

/-- A record obtained for free bytes is put between two parts of the chain. -/
theorem Kept.insertFree (hkept : t.Kept held spare) (hfits : t.footprint ≤ t.high)
    (h : t.Lists start (c :: l) stop)
    (hm : t.Lists (entry m none) m none) (hheld : handles (c :: l ++ m) ⊆ held)
    (hnodup : (handles (c :: l ++ m)).Nodup) (floor addr size : Nat) :
    ∃ got, (t.freeRecord floor addr size).Yields got ∧
      match got with
      | none => spare = [] ∧ t.Spent floor
      | some (g, t₁) =>
          t.Inserts ((t₁.setNext (tip c.handle l) (some g)).setNext g (entry m none)) start (c :: l)
              m ⟨g, addr, size, .free⟩ (tip c.handle l) held ∧
            ∃ spare', ((t₁.setNext (tip c.handle l) (some g)).setNext g (entry m none)).Kept
                (g :: held) spare' ∧
              (spare = g :: spare' ∧ t₁.capacity = t.capacity ∨
                spare = [] ∧ t₁.capacity = t.capacity + 1 ∧ floor + Record.bytes ≤ t.low) := by
  obtain ⟨got, hrecord, hgot⟩ := hkept.freeRecord hfits floor addr size
  refine ⟨got, hrecord, ?_⟩
  cases got with
  | none => exact hgot
  | some got =>
      obtain ⟨g, t₁⟩ := got
      obtain ⟨⟨r, hget, hdesc⟩, hother, hchain, hhigh, spare', hkept', hspare⟩ := hgot
      have hfresh : g ∉ held := hkept'.fresh
      have hout : g ∉ handles (c :: l ++ m) := fun hmem => hfresh (hheld hmem)
      have hsame : ∀ e ∈ c :: l ++ m, t₁.get? e.handle = t.get? e.handle := fun e he =>
        hother _ fun heq => hout (heq ▸ handle_mem he)
      have hl : t₁.Lists _ _ _ := h.congr fun e he => hsame e (List.mem_append_left _ he)
      have hm' : t₁.Lists _ _ _ := hm.congr fun e he => hsame e (List.mem_append_right _ he)
      have hnodup' : (handles (c :: l ++ ⟨g, addr, size, .free⟩ :: m)).Nodup :=
        nodup_handles_middle.mpr ⟨hout, hnodup⟩
      have htip : tip c.handle l ∈ held :=
        hheld (by rw [handles_append]; exact List.mem_append_left _ (tip_mem c l))
      have hjoin := hl.join (d := ⟨g, addr, size, .free⟩) hm' hget hdesc hnodup'
      refine ⟨⟨hjoin, hfresh, fun k hk hk' => ?_, hchain, hhigh⟩, spare', ?_, hspare⟩
      · rw [get?_setNext, if_neg (Ne.symm hk'), get?_setNext, if_neg (Ne.symm hk), hother k hk']
      · exact (hkept'.setNext (by simp [htip]) _).setNext (by simp) _

/-! ## Joining what a slide leaves -/

/-- The chain lists `chunks`, and the table stays clear of `floor`. -/
structure Joined (t : HeaderTable) (chunks : List Chunk) (spare : List Handle)
    (floor top : Nat) : Prop where
  lists : t.Lists t.chain chunks none
  kept : t.Kept (handles chunks) spare
  high : t.high = top
  room : floor + t.footprint ≤ top

/-- The chain leads to a run, whose last link is still to be set, and `rest` is
to follow. -/
structure Parted (t : HeaderTable) (low run rest : List Chunk) (spare : List Handle)
    (floor top : Nat) : Prop where
  before : t.Lists t.chain low (entry run none)
  moved : ∃ stop, t.Lists (entry run none) run stop
  after : t.Lists (entry rest none) rest none
  kept : t.Kept (handles (low ++ (run ++ rest))) spare
  high : t.high = top
  room : floor + t.footprint ≤ top

section Joining

variable {low mid rest : List Chunk} {s : Handle} {top : Nat} {r : Record}

theorem perm_insert (l m : List Chunk) (d : Chunk) :
    (d.handle :: handles (l ++ m)).Perm (handles (l ++ d :: m)) := by
  rw [handles_append, handles_append, handles_cons]
  exact List.perm_middle.symm

theorem Parted.nodup (h : t.Parted low (c :: l) rest spare floor top) :
    (handles (c :: l ++ rest)).Nodup ∧ tip c.handle l ∉ handles low ∧
      tip c.handle l ∉ handles rest := by
  have hnodup := h.kept.nodup_held
  rw [handles_append, List.nodup_append] at hnodup
  obtain ⟨-, hnodup, hlow⟩ := hnodup
  have htip := tip_mem c l
  refine ⟨hnodup, fun hmem => hlow _ hmem _ ?_ rfl, fun hmem => ?_⟩
  · rw [handles_append]
    exact List.mem_append_left _ htip
  · rw [handles_append, List.nodup_append] at hnodup
    exact hnodup.2.2 _ htip _ hmem rfl

/-- A free chunk goes between the run and the rest, if there is a record for
it. -/
theorem Parted.insertFree (h : t.Parted low (c :: l) rest spare floor top) (addr size : Nat) :
    ∃ got, (t.freeRecord floor addr size).Yields got ∧
      match got with
      | none => spare = [] ∧ t.Spent floor
      | some (g, t₁) => ∃ spare',
          Joined ((t₁.setNext (tip c.handle l) (some g)).setNext g (entry rest none))
            (low ++ (c :: l ++ ⟨g, addr, size, .free⟩ :: rest)) spare' floor top := by
  obtain ⟨hnodup, hlow, -⟩ := h.nodup
  obtain ⟨stop, hmoved⟩ := h.moved
  obtain rfl := h.high
  obtain ⟨got, hrecord, hgot⟩ := h.kept.insertFree (le_of_add_le_right h.room) hmoved h.after
    (by rw [handles_append low]; exact List.subset_append_right _ _) hnodup floor addr size
  refine ⟨got, hrecord, ?_⟩
  cases got with
  | none => exact hgot
  | some got =>
      obtain ⟨g, t₁⟩ := got
      obtain ⟨hinserts, spare', hkept, hspare⟩ := hgot
      refine ⟨spare', ?_, ?_, hinserts.high, ?_⟩
      · refine lists_append.mpr ⟨?_, hinserts.lists⟩
        rw [hinserts.chain]
        refine hinserts.lists_other h.before ?_ hlow
        rw [handles_append low]
        exact List.subset_append_left _ _
      · apply hkept.perm
        rw [← List.append_assoc, ← List.append_assoc]
        exact perm_insert (low ++ c :: l) rest ⟨g, addr, size, .free⟩
      · apply room_of_capacity 0 h.room
        rw [capacity_setNext, capacity_setNext]
        exact hspare.imp And.right And.right

/-- The last chunk of the run grows, and the rest follows. -/
theorem Parted.stretch (h : t.Parted low (c :: l) rest spare floor top)
    (hget : t.get? (tip c.handle l) = some r) (n : Nat) :
    Joined ((t.set (tip c.handle l) { r with size := r.size + n }).setNext (tip c.handle l)
        (entry rest none))
      (low ++ (stretched n (c :: l) ++ rest)) spare floor top := by
  obtain ⟨hnodup, hlow, hrest⟩ := h.nodup
  obtain ⟨stop, hmoved⟩ := h.moved
  have htip := tip_mem c l
  have hheld : tip c.handle l ∈ handles (low ++ (c :: l ++ rest)) := by
    simp only [handles_append, List.mem_append]
    exact .inr (.inl htip)
  have hhandles : handles (low ++ (stretched n (c :: l) ++ rest)) =
      handles (low ++ (c :: l ++ rest)) := by
    rw [handles_append, handles_append, handles_append, handles_append, handles_stretched]
  refine ⟨lists_append.mpr ⟨?_, lists_append.mpr ⟨?_, (h.after.set hrest).setNext hrest⟩⟩, ?_,
    h.high, ?_⟩
  · have hentry : entry (stretched n (c :: l) ++ rest) none = entry (c :: l) none := by
      cases l <;> rfl
    rw [hentry]
    exact (h.before.set hlow).setNext hlow
  · obtain ⟨front, last, hsplit, hlast⟩ := exists_concat c l
    have hentry : entry (stretched n (c :: l) ++ rest) none = entry (c :: l) none := by
      cases l <;> rfl
    rw [hentry]
    rw [hsplit] at hmoved ⊢
    rw [stretched_concat, ← hlast]
    rw [← hlast] at hget
    have hnodup' : (handles (front ++ [last])).Nodup := by
      rw [← hsplit]
      rw [handles_append, List.nodup_append] at hnodup
      exact hnodup.1
    have hfront : last.handle ∉ handles front := by
      rw [handles_append, List.nodup_append] at hnodup'
      exact fun hmem => hnodup'.2.2 _ hmem _ (by simp) rfl
    have hdesc := hmoved.describes (c := last) (by simp) hget
    have hgrown : Record.Describes { r with size := r.size + n }
        { last with size := last.size + n } :=
      ⟨hdesc.addr, by rw [hdesc.size], hdesc.state⟩
    have hset :=
      hmoved.replace (d := { last with size := last.size + n }) hnodup' hget rfl hgrown rfl
    exact hset.setNext_last (c := { last with size := last.size + n }) hfront _
  · rw [hhandles]
    exact (h.kept.set hheld _).setNext hheld _
  · have hroom := h.room
    unfold footprint at hroom ⊢
    rwa [capacity_setNext, capacity_set]

/-- The parts of the chain after a run was moved past the chunks of `mid` and its
hole was given up. -/
structure Cleared (t : HeaderTable) (low run mid rest : List Chunk) (spare : List Handle)
    (floor top : Nat) : Prop where
  before : t.Lists t.chain low (entry run none)
  moved : t.Lists (entry run none) run (entry rest none)
  passed : t.Lists (entry mid (entry run none)) mid (entry run none)
  after : t.Lists (entry rest none) rest none
  kept : t.Kept (handles (low ++ (run ++ (mid ++ rest)))) spare
  high : t.high = top
  room : floor + t.footprint ≤ top

/-- A free chunk goes where the run was, behind the chunks that it passed. -/
theorem Cleared.vacate {p : Chunk} {k : List Chunk}
    (h : t.Cleared low (c :: l) (p :: k) rest (s :: spare) floor top) (addr size : Nat) :
    ∃ g t₁, (t.freeRecord floor addr size).Yields (some (g, t₁)) ∧
      Parted ((t₁.setNext (tip p.handle k) (some g)).setNext g (entry rest none)) low (c :: l)
        (p :: k ++ ⟨g, addr, size, .free⟩ :: rest) spare floor top := by
  have hnodup := h.kept.nodup_held
  rw [handles_append low, List.nodup_append, handles_append (c :: l), List.nodup_append] at hnodup
  obtain ⟨-, ⟨-, hnodup, hrun⟩, hlow⟩ := hnodup
  have htip : tip p.handle k ∈ handles (p :: k ++ rest) := by
    rw [handles_append]
    exact List.mem_append_left _ (tip_mem p k)
  obtain rfl := h.high
  obtain ⟨got, hrecord, hgot⟩ := h.kept.insertFree (le_of_add_le_right h.room) h.passed h.after
    (fun g hg => by simp only [handles_append low, handles_append (c :: l), List.mem_append, hg,
      or_true]) hnodup floor addr size
  cases got with
  | none => exact absurd hgot (by simp)
  | some got =>
      obtain ⟨g, t₁⟩ := got
      obtain ⟨hinserts, spare', hkept, hspare⟩ := hgot
      obtain ⟨heq, hcapacity⟩ : s :: spare = g :: spare' ∧ t₁.capacity = t.capacity := by
        rcases hspare with hspare | hspare
        · exact hspare
        · exact absurd hspare.1 (by simp)
      obtain ⟨rfl, rfl⟩ : s = g ∧ spare = spare' := by simpa using heq
      refine ⟨s, t₁, hrecord, ⟨?_, ⟨entry rest none, ?_⟩, hinserts.lists, ?_, hinserts.high, ?_⟩⟩
      · rw [hinserts.chain]
        refine hinserts.lists_other h.before (fun g hg => ?_) fun hmem => ?_
        · simp only [handles_append low, List.mem_append, hg, true_or]
        · exact hlow _ hmem _ (List.mem_append_right _ htip) rfl
      · refine hinserts.lists_other h.moved (fun g hg => ?_) fun hmem => hrun _ hmem _ htip rfl
        simp only [handles_append low, handles_append (c :: l), List.mem_append, hg, true_or,
          or_true]
      · apply hkept.perm
        rw [← List.append_assoc, ← List.append_assoc, ← List.append_assoc, ← List.append_assoc]
        exact perm_insert (low ++ c :: l ++ p :: k) rest ⟨s, addr, size, .free⟩
      · refine room_of_capacity 0 h.room (.inl ?_)
        rw [capacity_setNext, capacity_setNext, hcapacity]

/-- Nothing lies between a run and the hole next to it. -/
theorem Cleared.parted {run : List Chunk} (h : t.Cleared low run [] rest spare floor top) :
    t.Parted low run rest spare floor top :=
  ⟨h.before, ⟨_, h.moved⟩, h.after, h.kept, h.high, h.room⟩

end Joining

end HeaderTable

/-! ## Relinking -/

namespace Arena

open HeaderTable

variable {a : Arena} {low l mid k rest : List Chunk} {c p : Chunk} {s : Handle}
  {spare : List Handle} {job : Slide} {holeAddr vacatedAddr top remainder : Nat}

/-- The table is joined again; the counters follow the growth of the last moved
chunk by `n` bytes. -/
def Rejoined (a a' : Arena) (n : Nat) (chunks : List Chunk) (spare : List Handle)
    (top : Nat) : Prop :=
  a'.headers.Joined chunks spare a.memoryHigh top ∧ a.counters.Grown n a'.counters ∧
    a' = { a with headers := a'.headers, counters := a'.counters }

theorem relinkAdjacent_eq (job : Slide) (holeAddr : Nat)
    (h : a.headers.Cleared low (c :: l) [] rest (s :: spare) a.memoryHigh top)
    (hlast : job.moved.last = tip c.handle l)
    (hadd : holeAddr + job.moved.size < Word.modulus) :
    ∃ g spare' a', (a.relinkAdjacent job holeAddr (entry rest none)).Yields (.ok (), a') ∧
      Rejoined a a' 0
        (low ++ (c :: l ++ ⟨g, holeAddr + job.moved.size, job.hole.size, .free⟩ :: rest)) spare'
        top := by
  obtain ⟨got, hrecord, hgot⟩ := h.parted.insertFree (holeAddr + job.moved.size) job.hole.size
  cases got with
  | none => exact absurd hgot (by simp)
  | some got =>
      obtain ⟨g, t₁⟩ := got
      obtain ⟨spare', hjoined⟩ := hgot
      rw [← hlast] at hjoined
      refine ⟨g, spare',
        { a with headers := (t₁.setNext job.moved.last (some g)).setNext g (entry rest none) }, ?_,
        hjoined, .inl ⟨rfl, rfl⟩, rfl⟩
      rw [relinkAdjacent, Word.add_eq hadd, pure_bind]
      exact hrecord.bind (Act.yields_pure _)

/-- The counters after the last moved chunk grew. -/
def growCounters (a : Arena) (job : Slide) (remainder : Nat) : Act Counters :=
  if remainder = 0 then pure a.counters
  else do
    Act.log (.folded remainder job.moved.last)
    a.counters.accountFold remainder

theorem fold_eq (a : Arena) (job : Slide) (remainder : Nat) :
    a.fold job remainder = do
      let counters ← a.growCounters job remainder
      let size ← Word.add (← a.headers.get job.moved.last).size remainder
      let headers ← a.headers.update job.moved.last fun record => { record with size }
      return { a with
        headers := headers.setNext job.moved.last (some job.afterHole)
        counters } := by
  unfold fold growCounters
  split
  · rfl
  · simp only [bind_assoc]

theorem agrees_growCounters (job : Slide)
    (hbytes : a.counters.allocatedBytes + remainder < Word.modulus) :
    Act.Agrees (a.growCounters job remainder) a.counters.Overdrawn
      (a.counters.Grown remainder) := by
  by_cases hzero : remainder = 0
  · rw [growCounters, if_pos hzero]
    exact .of_pure (.inl ⟨hzero, rfl⟩)
  · rw [growCounters, if_neg hzero]
    apply Act.Agrees.bind_yields (Act.yields_log _)
    exact Counters.agrees_accountFold (Nat.pos_of_ne_zero hzero) hbytes

theorem agrees_fold (h : a.headers.Parted low (c :: l) rest spare a.memoryHigh top)
    (hlast : job.moved.last = tip c.handle l) (hafter : some job.afterHole = entry rest none)
    (hsize : bytes (c :: l) + remainder < Word.modulus)
    (hbytes : a.counters.allocatedBytes + remainder < Word.modulus) :
    Act.Agrees (a.fold job remainder) (fun a' => a.counters.Overdrawn a'.counters) fun a' =>
      Rejoined a a' remainder (low ++ (stretched remainder (c :: l) ++ rest)) spare top ∧
        ∀ floor, a.headers.Spent floor → a'.headers.Spent floor := by
  obtain ⟨stop, hmoved⟩ := h.moved
  obtain ⟨front, last, hsplit, htip⟩ := exists_concat c l
  obtain ⟨r, hget, hdesc⟩ := hmoved.get (c := last) (by rw [hsplit]; simp)
  have hlastSize : last.size ≤ bytes (c :: l) := size_le_bytes (by rw [hsplit]; simp)
  rw [htip] at hget
  have hadd : r.size + remainder < Word.modulus := by
    rw [hdesc.size]
    omega
  have hjoined := h.stretch hget remainder
  rw [← hafter] at hjoined
  rw [fold_eq]
  apply (agrees_growCounters job hbytes).bind
  intro counters hgrown
  rw [hlast, get_eq hget, pure_bind, Word.add_eq hadd, pure_bind, update_eq hget, pure_bind]
  exact .of_pure ⟨⟨⟨hjoined, hgrown, rfl⟩, fun _ hspent => (hspent.set _ _).setNext _ _⟩, id⟩

/-- What is left of a hole above a run that moved past other chunks: the last
moved chunk grows by it, or a free chunk remains. -/
inductive Leaves (addr size : Nat) : Nat → List Chunk → Prop
  | folded : Leaves addr size size []
  | spared (g : Handle) (hleast : Trailer.bytes ≤ size) :
      Leaves addr size 0 [⟨g, addr, size, .free⟩]

/-- What is left becomes one free chunk or part of the last moved chunk, not both. -/
theorem Leaves.length_add {addr size n : Nat} {gap : List Chunk} (h : Leaves addr size n gap) :
    gap.length + (if n < Trailer.bytes then 0 else 1) =
      (decide (Trailer.bytes ≤ size)).toNat := by
  cases h with
  | folded =>
      by_cases hsmall : size < Trailer.bytes
      · rw [if_pos hsmall, decide_eq_false (Nat.not_le_of_lt hsmall)]
        rfl
      · rw [if_neg hsmall, decide_eq_true (Nat.le_of_not_lt hsmall)]
        rfl
  | spared g hleast =>
      rw [if_pos (by decide), decide_eq_true hleast]
      rfl

/-- Keeps the rest of a hole by the record that was obtained for it, if one
was. -/
def keepRest (a : Arena) (job : Slide) (remainder : Nat) :
    Option (Handle × HeaderTable) → Act (Except Violation Unit × Arena)
  | some (spare, headers) =>
      let headers := headers.setNext job.moved.last (some spare)
      return (.ok (), { a with headers := headers.setNext spare (some job.afterHole) })
  | none => do return (.ok (), ← a.fold job remainder)

theorem relinkPast_eq (a : Arena) (job : Slide) (holeAddr vacatedAddr : Nat)
    (after : Option Handle) :
    a.relinkPast job holeAddr vacatedAddr after = (do
      match ← a.headers.freeRecord a.memoryHigh vacatedAddr job.moved.size with
      | none => return (.error .headerExhausted, a)
      | some (vacated, headers) =>
          let headers := headers.setNext job.beforeMoved (some vacated)
          let a := { a with headers := headers.setNext vacated after }
          let remainder ← Word.sub job.hole.size job.moved.size
          if remainder < Trailer.bytes then
            a.keepRest job remainder none
          else do
            let addr ← Word.add holeAddr job.moved.size
            a.keepRest job remainder (← a.headers.freeRecord a.memoryHigh addr remainder)) := by
  unfold relinkPast
  refine bind_congr fun got => ?_
  cases got with
  | none => rfl
  | some got =>
      refine bind_congr fun remainder => ?_
      split
      · rfl
      · rfl

theorem agrees_relinkPast (job : Slide) (holeAddr vacatedAddr : Nat)
    (h : a.headers.Cleared low (c :: l) (p :: k) rest (s :: spare) a.memoryHigh top)
    (hlast : job.moved.last = tip c.handle l) (hbefore : job.beforeMoved = tip p.handle k)
    (hafter : job.afterHole = p.handle) (hmoved : job.moved.size = bytes (c :: l))
    (hfits : job.moved.size ≤ job.hole.size) (hadd : holeAddr + job.hole.size < Word.modulus)
    (hbytes : a.counters.allocatedBytes + job.hole.size < Word.modulus) :
    Act.Agrees (a.relinkPast job holeAddr vacatedAddr (entry rest none))
      (fun (_, a') => a.counters.Overdrawn a'.counters)
      fun (linked, a') => linked = .ok () ∧ ∃ g n gap spare',
        Leaves (holeAddr + job.moved.size) (job.hole.size - job.moved.size) n gap ∧
        (n < Trailer.bytes ∨ a'.headers.Spent a.memoryHigh) ∧
        Rejoined a a' n (low ++ (stretched n (c :: l) ++
          (gap ++ (p :: k ++ ⟨g, vacatedAddr, job.moved.size, .free⟩ :: rest)))) spare' top := by
  obtain ⟨g, t₁, hrecord, hparted⟩ := h.vacate vacatedAddr job.moved.size
  rw [relinkPast_eq]
  apply Act.Agrees.bind_yields hrecord
  simp only [hbefore, Word.sub_eq hfits, pure_bind]
  set t₂ := (t₁.setNext (tip p.handle k) (some g)).setNext g (entry rest none) with ht₂
  set remainder := job.hole.size - job.moved.size with hremainder
  set b : Arena := { a with headers := t₂ } with hb
  set rest' := p :: k ++ ⟨g, vacatedAddr, job.moved.size, .free⟩ :: rest with hrest'
  have hfold : Act.Agrees (b.keepRest job remainder none)
      (fun (_, a') => a.counters.Overdrawn a'.counters) fun (linked, a') =>
      linked = .ok () ∧ Rejoined a a' remainder
        (low ++ (stretched remainder (c :: l) ++ ([] ++ rest'))) spare top ∧
          (t₂.Spent a.memoryHigh → a'.headers.Spent a.memoryHigh) := by
    refine (agrees_fold (a := b) hparted hlast (by rw [hafter]; rfl) (by omega) ?_).bind
      fun a' ⟨ha', hspent⟩ => .of_pure ⟨⟨rfl, ha', hspent _⟩, id⟩
    change a.counters.allocatedBytes + _ < _
    omega
  by_cases hsmall : remainder < Trailer.bytes
  · rw [if_pos hsmall]
    exact hfold.mono fun x ⟨hx, hjoined, _⟩ =>
      ⟨hx, g, remainder, [], spare, .folded, .inl hsmall, hjoined⟩
  · rw [if_neg hsmall, Word.add_eq (by omega), pure_bind]
    obtain ⟨got, hspare, hgot⟩ := hparted.insertFree (holeAddr + job.moved.size) remainder
    apply Act.Agrees.bind_yields hspare
    cases got with
    | none =>
        exact hfold.mono fun x ⟨hx, hjoined, hspent⟩ =>
          ⟨hx, g, remainder, [], spare, .folded, .inr (hspent hgot.2), hjoined⟩
    | some got =>
        obtain ⟨g', t₃⟩ := got
        obtain ⟨spare', hjoined⟩ := hgot
        have hleaves : Leaves (holeAddr + job.moved.size) remainder 0
            [⟨g', holeAddr + job.moved.size, remainder, .free⟩] :=
          .spared g' (Nat.le_of_not_lt hsmall)
        refine .of_pure ⟨rfl, g, 0, _, spare', hleaves, .inl (by decide), ?_, .inl ⟨rfl, rfl⟩, rfl⟩
        rw [stretched_zero, hlast, hafter]
        exact hjoined

end Arena

end CompactingArena
