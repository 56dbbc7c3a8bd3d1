import CompactingArena.SizeClasses
import CompactingArena.Proofs.Act
import CompactingArena.Proofs.HeaderTable.Chain
import CompactingArena.Proofs.Region
import Mathlib.Logic.Function.Basic
/-!
# Free lists threaded through trailers

`Region.Threads` says which chunks a free list visits; like the links, it is a
matter of the region alone.  `SizeClasses.Files` says so of all classes at once.
Filing a chunk and taking one out write one trailer, that of a free chunk.
-/

namespace CompactingArena

/-- Chunks that share no offset. -/
def Chunk.Apart (c d : Chunk) : Prop := c.acme ≤ d.addr ∨ d.acme ≤ c.addr

/-- A chunk holds its trailer. -/
theorem Chunk.holds_of_inTrailer {c : Chunk} {i : Nat} (hleast : Trailer.bytes ≤ c.size)
    (hi : Region.InTrailer c.acme i) : c.Holds i := by
  unfold Region.InTrailer Chunk.acme at hi
  unfold Chunk.Holds Chunk.acme
  omega

/-- A chunk has a record and a place for its trailer. -/
structure HeaderTable.Places (t : HeaderTable) (r : Region) (c : Chunk) : Prop where
  record : ∃ record, t.get? c.handle = some record ∧ record.Describes c
  least : Trailer.bytes ≤ c.size
  bound : c.acme ≤ r.size

theorem HeaderTable.Places.pos {t : HeaderTable} {r : Region} {c : Chunk} (h : t.Places r c) :
    0 < c.size :=
  lt_of_lt_of_le (by decide) h.least

theorem HeaderTable.Places.low {t : HeaderTable} {r : Region} {c : Chunk} (h : t.Places r c) :
    Trailer.bytes ≤ c.acme :=
  h.least.trans (Nat.le_add_left _ _)

namespace Region

variable {r r' : Region} {link stop : Option Handle} {l m : List Chunk} {c : Chunk}

/-- The free list from a link on visits some chunks, and then goes on at
`stop`. -/
def Threads (r : Region) : Option Handle → List Chunk → Option Handle → Prop
  | link, [], stop => link = stop
  | link, c :: l, stop =>
      link = some c.handle ∧ (r.trailer c.acme).owner = Handle.toWord (some c.handle) ∧
        r.Threads (Handle.ofWord? (r.trailer c.acme).next) l stop

theorem threads_cons : r.Threads link (c :: l) stop ↔
    link = some c.handle ∧ (r.trailer c.acme).owner = Handle.toWord (some c.handle) ∧
      r.Threads (Handle.ofWord? (r.trailer c.acme).next) l stop := Iff.rfl

theorem threads_append :
    r.Threads link (l ++ m) stop ↔ ∃ mid, r.Threads link l mid ∧ r.Threads mid m stop := by
  induction l generalizing link with
  | nil =>
      constructor
      · intro h
        exact ⟨link, rfl, h⟩
      · rintro ⟨mid, rfl, h⟩
        exact h
  | cons c l ih =>
      simp only [List.cons_append, threads_cons, ih]
      constructor
      · rintro ⟨hlink, howner, mid, hl, hm⟩
        exact ⟨mid, ⟨hlink, howner, hl⟩, hm⟩
      · rintro ⟨mid, ⟨hlink, howner, hl⟩, hm⟩
        exact ⟨hlink, howner, mid, hl, hm⟩

/-- A list that ends begins with its first chunk. -/
theorem Threads.link_eq (h : r.Threads link l none) : link = l.head?.map Chunk.handle := by
  cases l with
  | nil => exact h
  | cons c l => exact h.1

theorem Threads.congr (h : r.Threads link l stop)
    (hsame : ∀ c ∈ l, r'.trailer c.acme = r.trailer c.acme) : r'.Threads link l stop := by
  induction l generalizing link with
  | nil => exact h
  | cons c l ih =>
      obtain ⟨hlink, howner, hrest⟩ := h
      unfold Threads
      rw [hsame c (by simp)]
      exact ⟨hlink, howner, ih hrest fun d hd => hsame d (by simp [hd])⟩

/-- The trailer of every visited chunk names the record of the chunk. -/
theorem Threads.owner (h : r.Threads link l stop) (hc : c ∈ l) :
    (r.trailer c.acme).owner = Handle.toWord (some c.handle) := by
  induction l generalizing link with
  | nil => exact absurd hc (by simp)
  | cons d l ih =>
      obtain ⟨-, howner, hrest⟩ := h
      rcases List.mem_cons.mp hc with rfl | hc
      · exact howner
      · exact ih hrest hc

/-- A write to the trailer of one chunk leaves those of others alone. -/
theorem Changed.trailer_apart (h : r.Changed r' (InTrailer c.acme)) {d : Chunk}
    (hc : Trailer.bytes ≤ c.size) (hd : Trailer.bytes ≤ d.size) (hapart : c.Apart d) :
    r'.trailer d.acme = r.trailer d.acme := by
  apply h.trailer (hd.trans (Nat.le_add_left _ _))
  intro i hi hi'
  have hcacme : c.acme = c.addr + c.size := rfl
  have hdacme : d.acme = d.addr + d.size := rfl
  unfold InTrailer at hi hi'
  rcases hapart with h | h <;> omega

end Region

namespace SizeClasses

variable {c : SizeClasses} {t : HeaderTable} {region region' : Region} {filed : Nat → List Chunk}
  {free : List Chunk} {chunk : Chunk} {k : Nat}

/-- The list of each class visits the chunks that are filed in it. -/
structure Files (c : SizeClasses) (region : Region) (filed : Nat → List Chunk) : Prop where
  threads : ∀ k < c.count, ∃ link, c.heads[k]? = some link ∧ region.Threads link (filed k) none

/-- What the operations rely on: the filed chunks have records and share no
offset with one another. -/
structure Filable (t : HeaderTable) (region : Region) (l : List Chunk) : Prop where
  size : region.size ≤ Word.max
  places : ∀ d ∈ l, t.Places region d
  apart : ∀ d ∈ l, ∀ e ∈ l, d ≠ e → d.Apart e

theorem Filable.changed {within : Nat → Prop} {l : List Chunk} (h : Filable t region l)
    (hchanged : region.Changed region' within) : Filable t region' l where
  size := hchanged.size ▸ h.size
  places d hd := by
    obtain ⟨hrecord, hleast, hbound⟩ := h.places d hd
    exact ⟨hrecord, hleast, hchanged.size ▸ hbound⟩
  apart := h.apart

theorem Filable.subset {l m : List Chunk} (h : Filable t region l) (hsub : ∀ d ∈ m, d ∈ l) :
    Filable t region m where
  size := h.size
  places d hd := h.places d (hsub d hd)
  apart d hd e he := h.apart d (hsub d hd) e (hsub e he)

/-- The class that a size is filed in. -/
def classFor (c : SizeClasses) (size : Nat) : Nat := min size.log2 (c.count - 1)

theorem classOf_eq {size : Nat} (h : 0 < size) : c.classOf size = pure (c.classFor size) := by
  rw [classOf, Word.log2_eq h, pure_bind]
  rfl

theorem head_eq {link : Option Handle} (h : c.heads[k]? = some link) :
    c.head k = pure link := by
  rw [head, h]
  rfl

@[simp] theorem count_setHead (c : SizeClasses) (k : Nat) (link : Option Handle) :
    (c.setHead k link).count = c.count :=
  Array.size_setIfInBounds

theorem heads_setHead (c : SizeClasses) (k j : Nat) (link : Option Handle) :
    (c.setHead k link).heads[j]? =
      if k = j then c.heads[j]?.map fun _ => link else c.heads[j]? := by
  rw [setHead, Array.getElem?_setIfInBounds]
  by_cases h : k = j
  · subst h
    by_cases hlt : k < c.heads.size <;> simp [hlt]
  · rw [if_neg h, if_neg h]

/-- A class gets a new head, and the other lists keep their trailers. -/
theorem Files.setHead (h : c.Files region filed) {link : Option Handle} {l : List Chunk}
    (hk : region'.Threads link l none)
    (hsame : ∀ j < c.count, j ≠ k → ∀ d ∈ filed j, region'.trailer d.acme = region.trailer d.acme) :
    (c.setHead k link).Files region' (Function.update filed k l) where
  threads j hj := by
    rw [count_setHead] at hj
    obtain ⟨old, hold, hthreads⟩ := h.threads j hj
    rw [heads_setHead, hold]
    by_cases hne : j = k
    · subst hne
      rw [if_pos rfl, Function.update_self]
      exact ⟨link, rfl, hk⟩
    · rw [if_neg (Ne.symm hne), Function.update_of_ne hne]
      exact ⟨old, rfl, hthreads.congr (hsame j hj hne)⟩

/-! ## One operation at a time -/

theorem acme_eq {record : Record} (hplaces : t.Places region chunk) (hdesc : record.Describes chunk)
    (hsize : region.size ≤ Word.max) : record.acme = pure chunk.acme := by
  have hbound := hplaces.bound
  have hmax : Word.max + 1 = Word.modulus := rfl
  rw [Record.acme, hdesc.addr, hdesc.size, Word.add_eq (by unfold Chunk.acme at hbound; omega)]
  rfl

theorem live?_eq {record : Record} (hplaces : t.Places region chunk)
    (hget : t.get? chunk.handle = some record) (hdesc : record.Describes chunk)
    (hsize : region.size ≤ Word.max) : t.live? chunk.handle = some record := by
  have hbound := hplaces.bound
  have hleast := hplaces.least
  have hsixteen : Trailer.bytes = 16 := rfl
  have hunset : Record.unset = Word.max := rfl
  have hne : record.addr ≠ Record.unset := by
    rw [hdesc.addr]
    unfold Chunk.acme at hbound
    omega
  rw [HeaderTable.live?, hget, Option.filter_some]
  simp [Record.isUnused, hne]

theorem nextOf_eq (hplaces : t.Places region chunk) (hsize : region.size ≤ Word.max)
    (howner : (region.trailer chunk.acme).owner = Handle.toWord (some chunk.handle)) :
    nextOf t region chunk.handle =
      pure (.ok (Handle.ofWord? (region.trailer chunk.acme).next)) := by
  obtain ⟨record, hget, hdesc⟩ := hplaces.record
  rw [nextOf, live?_eq hplaces hget hdesc hsize]
  simp only [acme_eq hplaces hdesc hsize, pure_bind]
  rw [Region.readTrailer_eq hplaces.low hplaces.bound, pure_bind, howner]
  simp only [Handle.ofWord?_toWord, if_true]

theorem classFor_lt (hcount : 0 < c.count) (size : Nat) : c.classFor size < c.count := by
  unfold classFor
  omega

/-- Filing a chunk writes its trailer and makes it the head of its class. -/
theorem insert_eq (hplaces : t.Places region chunk) (hsize : region.size ≤ Word.max)
    {next : Option Handle} (hnext : c.heads[c.classFor chunk.size]? = some next) :
    ∃ region',
      (c.insert t region chunk.handle = do
        Act.expect chunk.isFree .assertion
        return (c.setHead (c.classFor chunk.size) (some chunk.handle), region')) ∧
      region.Changed region' (Region.InTrailer chunk.acme) ∧
      region'.trailer chunk.acme =
        ⟨Handle.toWord (some chunk.handle), Handle.toWord next⟩ := by
  obtain ⟨record, hget, hdesc⟩ := hplaces.record
  have hpos := hplaces.pos
  obtain ⟨region', hwrite, hchanged, htrailer⟩ := Region.writeTrailer_eq hplaces.low hplaces.bound
    ⟨Handle.toWord (some chunk.handle), Handle.toWord next⟩
    (Handle.toWord_lt (some chunk.handle)) (Handle.toWord_lt next)
  refine ⟨region', ?_, hchanged, htrailer⟩
  rw [SizeClasses.insert, HeaderTable.get_eq hget]
  simp only [pure_bind, hdesc.state, classOf_eq hpos, hdesc.size, head_eq hnext,
    acme_eq hplaces hdesc hsize, hwrite]
  rfl

theorem Files.insert (hfiles : c.Files region filed) (hfilable : Filable t region (chunk :: free))
    (hmem : ∀ j < c.count, ∀ d ∈ filed j, d ∈ free) (hchunk : chunk ∉ free)
    (hfree : chunk.isFree = true) (hcount : 0 < c.count) :
    ∃ c' region', c.insert t region chunk.handle = pure (c', region') ∧
      c'.Files region' (Function.update filed (c.classFor chunk.size)
        (chunk :: filed (c.classFor chunk.size))) ∧
      c'.count = c.count ∧ region.Changed region' (Region.InTrailer chunk.acme) := by
  have hplaces := hfilable.places chunk (by simp)
  have hclass := classFor_lt hcount chunk.size
  obtain ⟨next, hnext, hthreads⟩ := hfiles.threads _ hclass
  obtain ⟨region', hinsert, hchanged, htrailer⟩ := insert_eq hplaces hfilable.size hnext
  have hsame : ∀ j < c.count, ∀ d ∈ filed j, region'.trailer d.acme = region.trailer d.acme := by
    intro j hj d hd
    have hd := hmem j hj d hd
    apply hchanged.trailer_apart hplaces.least (hfilable.places d (by simp [hd])).least
    apply hfilable.apart chunk (by simp) d (by simp [hd])
    rintro rfl
    exact hchunk hd
  refine ⟨c.setHead (c.classFor chunk.size) (some chunk.handle), region', ?_, ?_,
    count_setHead _ _ _, hchanged⟩
  · rw [hinsert, hfree, Act.expect_true, pure_bind]
  · refine hfiles.setHead ⟨rfl, by rw [htrailer], ?_⟩ fun j hj _ => hsame j hj
    rw [htrailer, Handle.ofWord?_toWord]
    exact hthreads.congr (hsame _ hclass)

/-- Where one trailer is led past the chunk behind it, this chunk leaves its list. -/
theorem Files.bypass (hfiles : c.Files region filed) {front after : List Chunk} {previous : Chunk}
    {next : Option Handle} (hfiled : filed k = front ++ [previous] ++ chunk :: after)
    (hnodup : (filed k).Nodup) (hdisjoint : ∀ j < c.count, j ≠ k → ∀ d ∈ filed j, d ∉ filed k)
    (hafter : region.Threads next after none)
    (htrailer : region'.trailer previous.acme =
      { region.trailer previous.acme with next := Handle.toWord next })
    (hsame : ∀ j < c.count, ∀ d ∈ filed j, previous ≠ d →
      region'.trailer d.acme = region.trailer d.acme) :
    c.Files region' (Function.update filed k (front ++ [previous] ++ after)) := by
  have hsplit : previous ∉ front ++ chunk :: after := by
    rw [hfiled, List.append_assoc] at hnodup
    exact (List.nodup_cons.mp (List.perm_middle.nodup_iff.mp hnodup)).1
  refine ⟨fun j hj => ?_⟩
  obtain ⟨link, hlink, hthreads⟩ := hfiles.threads j hj
  by_cases hne : j = k
  · subst hne
    rw [Function.update_self]
    have hkeep : ∀ d ∈ front ++ after, region'.trailer d.acme = region.trailer d.acme := by
      intro d hd
      apply hsame j hj d
      · rw [hfiled]
        rcases List.mem_append.mp hd with hd | hd <;> simp [hd]
      · rintro rfl
        exact hsplit (by rcases List.mem_append.mp hd with hd | hd <;> simp [hd])
    rw [hfiled, List.append_assoc] at hthreads
    rw [List.append_assoc]
    obtain ⟨mid, hfront, rfl, howner, -⟩ := Region.threads_append.mp hthreads
    refine ⟨link, hlink, Region.threads_append.mpr ⟨_, hfront.congr fun d hd =>
      hkeep d (by simp [hd]), rfl, ?_, ?_⟩⟩
    · rw [htrailer, howner]
    · rw [htrailer, Handle.ofWord?_toWord]
      exact hafter.congr fun d hd => hkeep d (by simp [hd])
  · rw [Function.update_of_ne hne]
    refine ⟨link, hlink, hthreads.congr fun d hd => hsame j hj d hd ?_⟩
    rintro rfl
    exact hdisjoint j hj hne previous hd (by simp [hfiled])

/-- Taking a chunk out of its class redirects the link to it, which is the head
or lies in the trailer of the chunk before it. -/
theorem Files.unlink (hfiles : c.Files region filed) (hk : k < c.count) {before after : List Chunk}
    (hfiled : filed k = before ++ chunk :: after) (hfilable : Filable t region free)
    (hmem : ∀ j < c.count, ∀ d ∈ filed j, d ∈ free) (hnodup : (filed k).Nodup)
    (hdisjoint : ∀ j < c.count, j ≠ k → ∀ d ∈ filed j, d ∉ filed k) :
    ∃ c' region', c.unlink t region k (before.getLast?.map Chunk.handle) chunk.handle =
        pure (.ok (c', region')) ∧
      c'.Files region' (Function.update filed k (before ++ after)) ∧ c'.count = c.count ∧
      region.Changed region' fun i => ∃ d ∈ before, Region.InTrailer d.acme i := by
  have hsize := hfilable.size
  obtain ⟨link, hlink, hthreads⟩ := hfiles.threads k hk
  rw [hfiled] at hthreads
  obtain ⟨mid, -, rfl, howner, hafter⟩ := Region.threads_append.mp hthreads
  have hplaced : ∀ d ∈ filed k, t.Places region d := fun d hd => hfilable.places d (hmem k hk d hd)
  have hnext := nextOf_eq (hplaced chunk (by simp [hfiled])) hsize howner
  generalize Handle.ofWord? (region.trailer chunk.acme).next = next at hafter hnext
  rcases List.eq_nil_or_concat before with rfl | ⟨front, previous, rfl⟩
  · refine ⟨c.setHead k next, region, ?_, hfiles.setHead hafter fun _ _ _ _ _ => rfl,
      count_setHead _ _ _, .refl _ _⟩
    rw [SizeClasses.unlink, hnext, pure_bind]
    rfl
  · rw [List.concat_eq_append] at hfiled ⊢
    have hprevious : previous ∈ filed k := by simp [hfiled]
    have hplaces := hplaced previous hprevious
    obtain ⟨record, hget, hdesc⟩ := hplaces.record
    obtain ⟨region', hwrite, hchanged, htrailer'⟩ := Region.writeTrailerNext_eq (r := region)
      hplaces.low hplaces.bound (Handle.toWord_lt next)
    have hsame : ∀ j < c.count, ∀ d ∈ filed j, previous ≠ d →
        region'.trailer d.acme = region.trailer d.acme := by
      intro j hj d hd hne
      have hd := hmem j hj d hd
      exact hchanged.trailer_apart hplaces.least (hfilable.places d hd).least
        (hfilable.apart previous (hmem k hk previous hprevious) d hd hne)
    refine ⟨c, region', ?_, hfiles.bypass hfiled hnodup hdisjoint hafter htrailer' hsame, rfl,
      hchanged.mono fun i hi => ⟨previous, by simp, hi⟩⟩
    rw [SizeClasses.unlink, hnext, pure_bind]
    simp only [List.getLast?_append, List.getLast?_singleton, Option.some_or, Option.map_some,
      HeaderTable.get_eq hget, pure_bind, acme_eq hplaces hdesc hsize, hwrite]

end SizeClasses

end CompactingArena
