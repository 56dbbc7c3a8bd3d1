import CompactingArena.Proofs.Layout
import CompactingArena.Proofs.Path
/-!
# The header chain as a layout

`HeaderTable.Lists start l stop` says that the records from the link `start` on
describe the chunks of `l`, and that the last of them links to `stop`.  It reads
only the records of these chunks, so changes elsewhere in the table keep it.
-/

namespace CompactingArena

/-- A record describes a chunk. -/
structure Record.Describes (r : Record) (c : Chunk) : Prop where
  addr : r.addr = c.addr
  size : r.size = c.size
  state : r.state = c.state

theorem Record.Describes.isUnused {r : Record} {c : Chunk} (h : r.Describes c)
    (hlow : c.addr < Record.unset) : r.isUnused = false := by
  rw [Record.isUnused, h.addr]
  exact beq_false_of_ne (Nat.ne_of_lt hlow)

namespace Layout

/-- The link to the first chunk of a layout, or `stop` if there is none. -/
def entry (l : List Chunk) (stop : Option Handle) : Option Handle :=
  match l with
  | [] => stop
  | c :: _ => some c.handle

@[simp] theorem entry_nil (stop : Option Handle) : entry [] stop = stop := rfl

@[simp] theorem entry_cons (c : Chunk) (l : List Chunk) (stop : Option Handle) :
    entry (c :: l) stop = some c.handle := rfl

theorem entry_append (l m : List Chunk) (stop : Option Handle) :
    entry (l ++ m) stop = entry l (entry m stop) := by
  cases l <;> rfl

end Layout

namespace HeaderTable

open Layout

/-- The chain from `start` to `stop` describes the chunks of a list. -/
def Lists (t : HeaderTable) : Option Handle → List Chunk → Option Handle → Prop
  | start, [], stop => start = stop
  | start, c :: l, stop =>
      start = some c.handle ∧
        ∃ r, t.get? c.handle = some r ∧ r.Describes c ∧ t.Lists r.next l stop

variable {t t' : HeaderTable} {start stop : Option Handle} {l m : List Chunk} {c : Chunk}

@[simp] theorem lists_nil : t.Lists start [] stop ↔ start = stop := Iff.rfl

theorem lists_cons : t.Lists start (c :: l) stop ↔
    start = some c.handle ∧
      ∃ r, t.get? c.handle = some r ∧ r.Describes c ∧ t.Lists r.next l stop := Iff.rfl

theorem Lists.start_eq (h : t.Lists start l stop) : start = entry l stop := by
  cases l with
  | nil => exact h
  | cons c l => exact h.1

theorem lists_append :
    t.Lists start (l ++ m) stop ↔
      t.Lists start l (entry m stop) ∧ t.Lists (entry m stop) m stop := by
  induction l generalizing start with
  | nil =>
      constructor
      · intro h
        have hstart := Lists.start_eq h
        exact ⟨hstart, hstart ▸ h⟩
      · rintro ⟨rfl, h⟩
        exact h
  | cons c l ih =>
      simp only [List.cons_append, lists_cons, ih]
      constructor
      · rintro ⟨hstart, r, hget, hdesc, hl, hm⟩
        exact ⟨⟨hstart, r, hget, hdesc, hl⟩, hm⟩
      · rintro ⟨⟨hstart, r, hget, hdesc, hl⟩, hm⟩
        exact ⟨hstart, r, hget, hdesc, hl, hm⟩

theorem Lists.get (h : t.Lists start l stop) (hc : c ∈ l) :
    ∃ r, t.get? c.handle = some r ∧ r.Describes c := by
  obtain ⟨before, after, rfl⟩ := List.append_of_mem hc
  obtain ⟨-, -, r, hget, hdesc, -⟩ := lists_append.mp h
  exact ⟨r, hget, hdesc⟩

/-- A handle has one record, and so what is found under the handle of a chunk describes it. -/
theorem Lists.describes (h : t.Lists start l stop) (hc : c ∈ l) {r : Record}
    (hget : t.get? c.handle = some r) : r.Describes c := by
  obtain ⟨r', hget', hdesc⟩ := h.get hc
  obtain rfl : r = r' := Option.some.inj (hget.symm.trans hget')
  exact hdesc

/-- The chain is followed by the links of the records. -/
theorem Lists.path (h : t.Lists start l none) :
    Path (fun h next => (t.get? h).map Record.next = some next) start (handles l) := by
  induction l generalizing start with
  | nil => exact h
  | cons c l ih =>
      obtain ⟨hstart, r, hget, -, hrest⟩ := h
      exact ⟨hstart, r.next, by simp [hget], ih hrest⟩

/-- A chain that ends repeats no record. -/
theorem Lists.nodup (h : t.Lists start l none) : (handles l).Nodup :=
  h.path.nodup fun _ _ _ hnext hnext' => Option.some.inj (hnext.symm.trans hnext')

theorem Lists.congr (h : t.Lists start l stop)
    (hsame : ∀ c ∈ l, t'.get? c.handle = t.get? c.handle) : t'.Lists start l stop := by
  induction l generalizing start with
  | nil => exact h
  | cons c l ih =>
      obtain ⟨hstart, r, hget, hdesc, hrest⟩ := h
      refine ⟨hstart, r, ?_, hdesc, ih hrest fun d hd => hsame d (by simp [hd])⟩
      rw [hsame c (by simp), hget]

/-- A chain apart from the records that change stays as it is. -/
theorem Lists.frame {changed : List Handle} (h : t.Lists start l stop)
    (hother : ∀ g, g ∉ changed → t'.get? g = t.get? g) (hout : (handles l).Disjoint changed) :
    t'.Lists start l stop :=
  h.congr fun _ hc => hother _ (hout (handle_mem hc))

theorem Lists.frame_single {g : Handle} (h : t.Lists start l stop)
    (hother : ∀ k, k ≠ g → t'.get? k = t.get? k) (hout : g ∉ handles l) : t'.Lists start l stop :=
  h.congr fun _ hc => hother _ fun heq => hout (heq ▸ handle_mem hc)

theorem Lists.set (h : t.Lists start l stop) {g : Handle} {record : Record}
    (hg : g ∉ handles l) : (t.set g record).Lists start l stop := by
  apply h.congr
  intro c hc
  rw [get?_set, if_neg]
  rintro rfl
  exact hg (handle_mem hc)

theorem Lists.setNext (h : t.Lists start l stop) {g : Handle} {next : Option Handle}
    (hg : g ∉ handles l) : (t.setNext g next).Lists start l stop := by
  apply h.congr
  intro c hc
  rw [get?_setNext, if_neg]
  rintro rfl
  exact hg (handle_mem hc)

/-- The chain after the last chunk of a list can be replaced. -/
theorem Lists.setNext_last (h : t.Lists start (l ++ [c]) stop) (hc : c.handle ∉ handles l)
    (next : Option Handle) : (t.setNext c.handle next).Lists start (l ++ [c]) next := by
  obtain ⟨hl, -, r, hget, hdesc, -⟩ := lists_append.mp h
  refine lists_append.mpr
    ⟨hl.setNext hc, rfl, { r with next }, ?_, ⟨hdesc.1, hdesc.2, hdesc.3⟩, rfl⟩
  rw [get?_setNext, if_pos rfl, hget]
  rfl

/-- A chunk can be described anew by its own record. -/
theorem Lists.replace (h : t.Lists start (l ++ c :: m) stop)
    (hnodup : (handles (l ++ c :: m)).Nodup) {r record : Record} {d : Chunk}
    (hget : t.get? c.handle = some r) (hhandle : d.handle = c.handle)
    (hdesc : record.Describes d) (hnext : record.next = r.next) :
    (t.set c.handle record).Lists start (l ++ d :: m) stop := by
  obtain ⟨hl, -, r', hget', -, hm⟩ := lists_append.mp h
  obtain rfl : r = r' := Option.some.inj (hget.symm.trans hget')
  have hout : c.handle ∉ handles l ∧ c.handle ∉ handles m := by
    simpa using (nodup_handles_middle.mp hnodup).1
  refine lists_append.mpr ⟨?_, rfl, record, ?_, hdesc, ?_⟩
  · rw [entry_cons, hhandle]
    exact hl.set hout.1
  · rw [hhandle, get?_set, if_pos rfl, hget]
    rfl
  · rw [hnext]
    exact hm.set hout.2

/-! ## Walks along the chain -/

theorem next_eq {h : Handle} {r : Record} (hget : t.get? h = some r) : t.next h = pure r.next := by
  rw [next, Chain.next, Linked.next?]
  change Act.ofOption _ ((t.get? h).map _) = _
  rw [hget]
  rfl

theorem Lists.take (h : t.Lists start l none) (count : Nat) :
    Chain.take t count start = pure ((handles l).take count) := by
  induction l generalizing start count with
  | nil =>
      obtain rfl : start = none := h
      cases count <;> rfl
  | cons c l ih =>
      obtain ⟨rfl, r, hget, -, hrest⟩ := h
      cases count with
      | zero => rfl
      | succ count =>
          have hnext : Chain.next t c.handle = pure r.next := next_eq hget
          rw [Chain.take, hnext, pure_bind, ih hrest, pure_bind]
          rfl

end HeaderTable

end CompactingArena
