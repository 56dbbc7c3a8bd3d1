import CompactingArena.Act.Loop
import CompactingArena.Word
/-!
# What acts deliver

Most steps have a single result, the same in either build: `Yields`.  Operations
that keep running totals may also end in an overflow of one of them, which only a
debug build notices: `Agrees` compares the two builds up to that fault, and says by
what a release build shows that it would have come to it.  `Delivers` is what is
left of this if only one build is looked at: total correctness up to an overflow.
In a release build, which lets totals wrap around, it is total correctness: `Ends`.
`Concurs` is for sequences of operations whose totals do not overflow, and `Echoes` for
acts that a release build ends alike because they differ in what they never look at.
-/

namespace CompactingArena.Act

variable {α β σ : Type} {build : Build} {full : Prop}

theorem result_bind_ok {x : Act α} {f : α → Act β} {a : α}
    (hx : x.result build = .ok a) : (x >>= f).result build = (f a).result build := by
  rw [result_bind, hx]
  rfl

/-- A sequence that ends well has a first part that ends well. -/
theorem of_result_bind_ok {x : Act α} {f : α → Act β} {b : β}
    (h : (x >>= f).result build = .ok b) :
    ∃ a, x.result build = .ok a ∧ (f a).result build = .ok b := by
  rw [result_bind] at h
  rcases hx : x.result build with fault | a
  · rw [hx] at h
    exact absurd h (by simp [Except.bind])
  · rw [hx] at h
    exact ⟨a, rfl, h⟩

/-- What follows matters only where there is a result to go on with. -/
theorem bind_congr_ok {x : Act α} {f g : α → Act β}
    (h : ∀ build a, x.result build = .ok a → f a = g a) : x >>= f = x >>= g := by
  funext build
  rw [bind_apply, bind_apply]
  rcases hx : x build with ⟨fault | a, log⟩
  · rfl
  · have hresult : x.result build = .ok a := by rw [result, hx]
    simp only [h build a hresult]

theorem exists_of_isOk {x : Act α} (h : (x.result build).isOk = true) :
    ∃ a, x.result build = .ok a := by
  rcases hx : x.result build with fault | a
  · rw [hx] at h
    exact absurd h (by simp [Except.isOk, Except.toBool])
  · exact ⟨a, rfl⟩

theorem pure_inj {a a' : α} : (pure a : Act α) = pure a' ↔ a = a' :=
  ⟨fun h => Except.ok.inj (congrArg (fun x : Act α => x.result .release) h), fun h => h ▸ rfl⟩

theorem mapM_eq {f : α → Act β} {g : α → β} {l : List α} (h : ∀ x ∈ l, f x = pure (g x)) :
    l.mapM f = pure (l.map g) := by
  induction l with
  | nil => rfl
  | cons x l ih =>
      rw [List.mapM_cons, h x (by simp), pure_bind, ih fun y hy => h y (by simp [hy]), pure_bind,
        List.map_cons]

theorem of_ofOption {fault : Fault} {o : Option α} {a : α}
    (h : (ofOption fault o).result build = .ok a) : o = some a := by
  cases o with
  | none => exact absurd h (by simp [ofOption])
  | some b => exact congrArg some (Except.ok.inj h)

/-- `x` ends with `a` in either build. -/
def Yields (x : Act α) (a : α) : Prop := ∀ build, x.result build = .ok a

theorem yields_pure (a : α) : Yields (pure a) a := fun build => result_pure a build

theorem yields_log (event : Event) : Yields (log event) () := fun build => result_log event build

theorem Yields.bind {x : Act α} {f : α → Act β} {a : α} {b : β} (hx : Yields x a)
    (hf : Yields (f a) b) : Yields (x >>= f) b := fun build =>
  (result_bind_ok (hx build)).trans (hf build)

/-- Both builds of `x` end with one value, that `post` holds of, unless a debug build
finds that a running total overflows; `wrapped` holds then of the value that a release
build ends with. -/
def Agrees (x : Act α) (wrapped post : α → Prop) : Prop :=
  ∃ a, x.result .release = .ok a ∧ post a ∧
    (x.result .debug = .ok a ∨ x.result .debug = .error .overflow ∧ wrapped a)

/-- `x` ends with a value that `post` holds of, unless a debug build finds that a
running total overflows; `full` holds then. -/
def Delivers (build : Build) (full : Prop) (x : Act α) (post : α → Prop) : Prop :=
  match x.result build with
  | .ok a => post a
  | .error fault => build = .debug ∧ fault = .overflow ∧ full

namespace Agrees

variable {x : Act α} {f : α → Act β} {wrapped wrapped' post mid : α → Prop}
  {goal reached : β → Prop}

theorem of_yields {a : α} (hx : Yields x a) (ha : post a) : Agrees x wrapped post :=
  ⟨a, hx .release, ha, .inl (hx .debug)⟩

theorem of_pure {a : α} (ha : post a) : Agrees (pure a) wrapped post :=
  of_yields (yields_pure a) ha

/-- Where a total has overflowed in the first part of a sequence, the second part has
to make sure that the last value tells. -/
theorem bind (hx : Agrees x wrapped mid)
    (hf : ∀ a, mid a → Agrees (f a) reached fun b => goal b ∧ (wrapped a → reached b)) :
    Agrees (x >>= f) reached goal := by
  obtain ⟨a, hrelease, hmid, hdebug⟩ := hx
  obtain ⟨b, hrelease', ⟨hgoal, htells⟩, hdebug'⟩ := hf a hmid
  refine ⟨b, (result_bind_ok hrelease).trans hrelease', hgoal, ?_⟩
  rcases hdebug with hdebug | ⟨hdebug, hover⟩
  · rw [result_bind_ok hdebug]
    exact hdebug'
  · refine .inr ⟨?_, htells hover⟩
    rw [result_bind, hdebug]
    rfl

theorem bind_yields {a : α} (hx : Yields x a) (hf : Agrees (f a) reached goal) :
    Agrees (x >>= f) reached goal := by
  unfold Agrees at hf ⊢
  rw [result_bind_ok (hx .release), result_bind_ok (hx .debug)]
  exact hf

theorem imp (h : Agrees x wrapped mid) (hpost : ∀ a, mid a → post a)
    (hwrapped : ∀ a, mid a → wrapped a → wrapped' a) : Agrees x wrapped' post := by
  obtain ⟨a, hrelease, hmid, hdebug⟩ := h
  exact ⟨a, hrelease, hpost a hmid, hdebug.imp_right (And.imp_right (hwrapped a hmid))⟩

theorem mono (h : Agrees x wrapped mid) (hpost : ∀ a, mid a → post a) : Agrees x wrapped post :=
  h.imp hpost fun _ _ => id

/-- What is known of a value, in either build. -/
theorem of_ok {a : α} (h : Agrees x wrapped post) (hx : x.result build = .ok a) : post a := by
  obtain ⟨b, hrelease, hb, hdebug⟩ := h
  cases build with
  | release =>
      rw [hrelease, Except.ok.injEq] at hx
      exact hx ▸ hb
  | debug =>
      rcases hdebug with hdebug | ⟨hdebug, -⟩
      · rw [hdebug, Except.ok.injEq] at hx
        exact hx ▸ hb
      · rw [hdebug] at hx
        exact absurd hx (by simp)

/-- Unless a release build shows that a total has overflowed, both builds end well. -/
theorem yields (h : Agrees x wrapped post) (hcalm : ∀ a, x.result .release = .ok a → ¬wrapped a) :
    ∃ a, Yields x a ∧ post a := by
  obtain ⟨a, hrelease, ha, hdebug⟩ := h
  refine ⟨a, fun build => ?_, ha⟩
  cases build with
  | release => exact hrelease
  | debug => exact hdebug.resolve_right fun hover => hcalm a hrelease hover.2

theorem delivers (h : Agrees x wrapped post) (hfull : ∀ a, post a → wrapped a → full) :
    Delivers build full x post := by
  obtain ⟨a, hrelease, ha, hdebug⟩ := h
  unfold Delivers
  cases build with
  | release =>
      rw [hrelease]
      exact ha
  | debug =>
      rcases hdebug with hdebug | ⟨hdebug, hover⟩
      · rw [hdebug]
        exact ha
      · rw [hdebug]
        exact ⟨rfl, rfl, hfull a ha hover⟩

end Agrees

/-- A loop whose every round keeps an invariant at a lower rank agrees as its last round
does.  Once a total has overflowed, the states are `spent`. -/
theorem agrees_loop {step : σ → Act (Round σ α)} {wrapped post : α → Prop}
    (invariant : σ → Nat → Prop) (spent : σ → Prop)
    (hstep : ∀ s rank, invariant s rank → Agrees (step s)
      (fun
        | .next s' => spent s'
        | .done a => wrapped a) fun
      | .next s' => (∃ rank' < rank, invariant s' rank') ∧ (spent s → spent s')
      | .done a => post a ∧ (spent s → wrapped a)) :
    ∀ limit s rank, invariant s rank → rank < limit →
      Agrees (loop step limit s) wrapped fun a => post a ∧ (spent s → wrapped a) := by
  intro limit
  induction limit with
  | zero => intro s rank _ hlimit; omega
  | succ limit ih =>
      intro s rank hs hlimit
      rw [loop_succ]
      apply (hstep s rank hs).bind
      rintro (s' | a) h
      · obtain ⟨⟨rank', hless, hs'⟩, hspent⟩ := h
        apply (ih s' rank' hs' (by omega)).mono
        rintro a ⟨ha, hover⟩
        exact ⟨⟨ha, fun hs => hover (hspent hs)⟩, hover⟩
      · exact .of_pure ⟨h, id⟩

/-- A loop whose every round lowers a rank takes no more rounds than the rank says, so
that any limit beyond it is as good as any other. -/
theorem loop_eq_of_rank {step : σ → Act (Round σ α)} (invariant : σ → Nat → Prop)
    (hstep : ∀ s rank, invariant s rank → ∀ build s', (step s).result build = .ok (.next s') →
      ∃ rank' < rank, invariant s' rank') :
    ∀ limit limit' s rank, invariant s rank → rank < limit → rank < limit' →
      loop step limit s = loop step limit' s := by
  intro limit
  induction limit with
  | zero => intro _ _ rank _ hlimit; omega
  | succ limit ih =>
      intro limit' s rank hs hlimit hlimit'
      obtain ⟨limit', rfl⟩ : ∃ n, limit' = n + 1 := ⟨limit' - 1, by omega⟩
      rw [loop_succ, loop_succ]
      apply bind_congr_ok
      rintro build (s' | a) hround
      · obtain ⟨rank', hless, hs'⟩ := hstep s rank hs build s' hround
        exact ih limit' s' rank' hs' (by omega) (by omega)
      · rfl

/-- Both builds of `x` end alike: with a value that `post` holds of, or else, provided
that this is put up with, in a loop without end. -/
def Concurs (lasting : Bool) (x : Act α) (post : α → Prop) : Prop :=
  x.result .debug = x.result .release ∧
    match x.result .release with
    | .ok a => post a
    | .error fault => fault = .endless ∧ lasting = true

namespace Concurs

variable {lasting : Bool} {x : Act α} {f : α → Act β} {post mid : α → Prop} {goal : β → Prop}

theorem of_yields {a : α} (hx : Yields x a) (ha : post a) : Concurs lasting x post := by
  refine ⟨(hx .debug).trans (hx .release).symm, ?_⟩
  rw [hx .release]
  exact ha

theorem of_endless (hlasting : lasting = true) : Concurs lasting (fail .endless) post :=
  ⟨rfl, rfl, hlasting⟩

theorem release {result : Except Fault α} (h : Concurs lasting x post)
    (hx : x.result build = result) : x.result .release = result := by
  cases build with
  | debug => exact h.1.symm.trans hx
  | release => exact hx

theorem of_ok {a : α} (h : Concurs lasting x post) (hx : x.result build = .ok a) : post a := by
  have hpost := h.2
  rw [h.release hx] at hpost
  exact hpost

theorem of_error {fault : Fault} (h : Concurs lasting x post)
    (hx : x.result build = .error fault) : fault = .endless ∧ lasting = true := by
  have hfault := h.2
  rw [h.release hx] at hfault
  exact hfault

/-- The second part of a sequence need only concur after what a release build has done
first. -/
theorem bind (hx : Concurs lasting x mid)
    (hf : ∀ a, x.result .release = .ok a → mid a → Concurs lasting (f a) goal) :
    Concurs lasting (x >>= f) goal := by
  obtain ⟨heq, hmid⟩ := hx
  unfold Concurs
  rw [result_bind, result_bind, heq]
  rcases hrelease : x.result .release with fault | a
  · rw [hrelease] at hmid
    exact ⟨rfl, hmid⟩
  · rw [hrelease] at hmid
    exact hf a hrelease hmid

theorem bind_yields {a : α} (hx : Yields x a) (hf : Concurs lasting (f a) goal) :
    Concurs lasting (x >>= f) goal := by
  unfold Concurs at hf ⊢
  rw [result_bind_ok (hx .release), result_bind_ok (hx .debug)]
  exact hf

end Concurs

namespace Delivers

variable {x : Act α} {f : α → Act β} {post mid : α → Prop} {goal : β → Prop} {full' : Prop}

theorem of_yields {a : α} (hx : Yields x a) (ha : post a) : Delivers build full x post := by
  rw [Delivers, hx build]
  exact ha

theorem of_pure {a : α} (ha : post a) : Delivers build full (pure a) post :=
  of_yields (yields_pure a) ha

/-- What is known of a value that was delivered. -/
theorem of_ok {a : α} (h : Delivers build full x post) (hx : x.result build = .ok a) :
    post a := by
  rw [Delivers, hx] at h
  exact h

theorem mono (h : Delivers build full x mid) (hpost : ∀ a, mid a → post a) :
    Delivers build full x post := by
  unfold Delivers at h ⊢
  rcases hres : x.result build with fault | a
  · rw [hres] at h
    exact h
  · rw [hres] at h
    exact hpost a h

theorem weaken (h : Delivers build full x post) (hfull : full → full') :
    Delivers build full' x post := by
  unfold Delivers at h ⊢
  rcases hres : x.result build with fault | a
  · rw [hres] at h
    exact ⟨h.1, h.2.1, hfull h.2.2⟩
  · rw [hres] at h
    exact h

theorem bind (hx : Delivers build full x mid)
    (hf : ∀ a, x.result build = .ok a → mid a → Delivers build full (f a) goal) :
    Delivers build full (x >>= f) goal := by
  rcases hres : x.result build with fault | a
  · rw [Delivers, hres] at hx
    rw [Delivers, result_bind, hres]
    exact hx
  · have hrest := hf a hres (hx.of_ok hres)
    rw [Delivers] at hrest ⊢
    rwa [result_bind_ok hres]

theorem bind_ok {a : α} (hx : x.result build = .ok a) (hf : Delivers build full (f a) goal) :
    Delivers build full (x >>= f) goal := by
  unfold Delivers at hf ⊢
  rwa [result_bind_ok hx]

theorem bind_yields {a : α} (hx : Yields x a) (hf : Delivers build full (f a) goal) :
    Delivers build full (x >>= f) goal :=
  bind_ok (hx build) hf

end Delivers

/-! ## Whatever an act ends with -/

/-- Whatever value `x` ends with, `post` holds of it. -/
def Ensures (build : Build) (x : Act α) (post : α → Prop) : Prop :=
  ∀ a, x.result build = .ok a → post a

namespace Ensures

variable {x : Act α} {f : α → Act β} {post mid : α → Prop} {goal : β → Prop}

theorem of_pure {a : α} (ha : post a) : Ensures build (pure a) post := by
  intro a' h
  rw [result_pure, Except.ok.injEq] at h
  exact h ▸ ha

theorem of_fail {fault : Fault} : Ensures build (fail fault) post := by
  intro a h
  exact absurd h (by simp)

theorem bind (hx : Ensures build x mid) (hf : ∀ a, mid a → Ensures build (f a) goal) :
    Ensures build (x >>= f) goal := by
  intro b h
  obtain ⟨a, ha, h⟩ := of_result_bind_ok h
  exact hf a (hx a ha) b h

/-- Of what an act ends with it is known that it does so. -/
theorem self : Ensures build x fun a => x.result build = .ok a := fun _ h => h

/-- What comes first may end with anything. -/
theorem after (hf : ∀ a, Ensures build (f a) goal) : Ensures build (x >>= f) goal := by
  intro b h
  obtain ⟨a, -, h⟩ := of_result_bind_ok h
  exact hf a b h

theorem mono (h : Ensures build x mid) (hpost : ∀ a, mid a → post a) : Ensures build x post :=
  fun a ha => hpost a (h a ha)

theorem delivers (h : Ensures build x post) (hx : Delivers build full x mid) :
    Delivers build full x post := by
  unfold Delivers at hx ⊢
  rcases hres : x.result build with fault | a
  · rw [hres] at hx
    exact hx
  · exact h a hres

theorem loop {step : σ → Act (Round σ α)} (invariant : σ → Prop)
    (hstep : ∀ s, invariant s → Ensures build (step s) fun
      | .next s' => invariant s'
      | .done a => post a) :
    ∀ limit s, invariant s → Ensures build (loop step limit s) post := by
  intro limit
  induction limit with
  | zero => exact fun _ _ => of_fail
  | succ limit ih =>
      intro s hs
      rw [loop_succ]
      refine (hstep s hs).bind ?_
      rintro (s' | a) h
      · exact ih s' h
      · exact of_pure h

end Ensures

/-! ## Release builds -/

/-- A release build of `x` ends with a value that `post` holds of. -/
abbrev Ends (x : Act α) (post : α → Prop) : Prop := Delivers .release False x post

theorem ends_iff {x : Act α} {post : α → Prop} :
    Ends x post ↔ ∃ a, x.result .release = .ok a ∧ post a := by
  unfold Ends Delivers
  cases x.result .release <;> simp

theorem Agrees.ends {x : Act α} {wrapped post : α → Prop} (h : Agrees x wrapped post) :
    Ends x post := by
  obtain ⟨a, hrelease, ha, -⟩ := h
  exact ends_iff.mpr ⟨a, hrelease, ha⟩

theorem result_expect_release (holds : Bool) (fault : Fault) :
    (expect holds fault).result .release = .ok () := by
  cases holds <;> rfl

theorem result_violate_release (violation : Violation) :
    (violate violation).result .release = .ok () :=
  rfl

/-- A release build of `x` ends in a fault. -/
def Faults (x : Act α) : Prop := (x.result .release).isOk = false

instance (x : Act α) : Decidable x.Faults := inferInstanceAs (Decidable (_ = false))

theorem Faults.bind {x : Act α} (h : Faults x) (f : α → Act β) : Faults (x >>= f) := by
  unfold Faults at h ⊢
  rw [result_bind]
  cases hx : x.result .release with
  | error fault => rfl
  | ok a =>
      rw [hx] at h
      exact absurd h (by simp [Except.isOk, Except.toBool])

theorem faults_bind_iff {x : Act α} {f : α → Act β} {a : α} (hx : x.result .release = .ok a) :
    Faults (x >>= f) ↔ Faults (f a) := by
  unfold Faults
  rw [result_bind_ok hx]

theorem not_faults_iff {x : Act α} : ¬Faults x ↔ ∃ a, x.result .release = .ok a := by
  unfold Faults
  cases x.result .release <;> simp [Except.isOk, Except.toBool]

theorem not_faults_pure (a : α) : ¬Faults (pure a : Act α) := not_faults_iff.mpr ⟨a, rfl⟩

/-- A fold faults if no step gets past one of the elements. -/
theorem faults_foldlM {f : β → α → Act β} {l : List α} {a : α} (ha : a ∈ l)
    (hf : ∀ b, Faults (f b a)) (b : β) : Faults (l.foldlM f b) := by
  induction l generalizing b with
  | nil => exact absurd ha (by simp)
  | cons c l ih =>
      rw [List.foldlM_cons]
      rcases List.mem_cons.mp ha with rfl | ha
      · exact (hf b).bind _
      · by_cases hc : Faults (f b c)
        · exact hc.bind _
        · obtain ⟨b', hb'⟩ := not_faults_iff.mp hc
          exact (faults_bind_iff hb').mpr (ih ha b')

/-- Where a release build of `x` ends well, one of `y` does too, and `rel` relates what
they end with. -/
def Echoes (rel : α → β → Prop) (x : Act α) (y : Act β) : Prop :=
  ∀ a, x.result .release = .ok a → ∃ b, y.result .release = .ok b ∧ rel a b

namespace Echoes

variable {γ δ : Type} {rel : α → β → Prop} {rel' : γ → δ → Prop}

theorem of_pure {a : α} {b : β} (h : rel a b) : Echoes rel (pure a) (pure b) := by
  intro a' ha
  rw [result_pure, Except.ok.injEq] at ha
  exact ⟨b, result_pure b _, ha ▸ h⟩

theorem of_ends {x : Act α} {y : Act β} (h : Ends y fun _ => True) :
    Echoes (fun _ _ => True) x y :=
  fun _ _ => ends_iff.mp h

theorem bind {x : Act α} {y : Act β} {f : α → Act γ} {g : β → Act δ} (hx : Echoes rel x y)
    (hf : ∀ a b, rel a b → Echoes rel' (f a) (g b)) : Echoes rel' (x >>= f) (y >>= g) := by
  intro c hc
  obtain ⟨a, ha, hc⟩ := of_result_bind_ok hc
  obtain ⟨b, hb, hrel⟩ := hx a ha
  rw [result_bind_ok hb]
  exact hf a b hrel c hc

/-- What comes first may be the same on both sides. -/
theorem after {x : Act α} {f : α → Act γ} {g : α → Act δ} (hf : ∀ a, Echoes rel' (f a) (g a)) :
    Echoes rel' (x >>= f) (x >>= g) :=
  have hsame : Echoes Eq x x := fun a ha => ⟨a, ha, rfl⟩
  hsame.bind fun a _ h => h ▸ hf a

/-- Two rounds of a loop that end in related ways. -/
def InStep (invariant : σ → σ → Prop) (rel : α → α → Prop) : Round σ α → Round σ α → Prop
  | .next s, .next s' => invariant s s'
  | .done a, .done b => rel a b
  | _, _ => False

theorem loop {step : σ → Act (Round σ α)} {invariant : σ → σ → Prop} {rel : α → α → Prop}
    (hstep : ∀ s s', invariant s s' → Echoes (InStep invariant rel) (step s) (step s')) :
    ∀ limit s s', invariant s s' → Echoes rel (loop step limit s) (loop step limit s') := by
  intro limit
  induction limit with
  | zero =>
      intro s s' _ a ha
      exact absurd ha (by simp)
  | succ limit ih =>
      intro s s' hs
      rw [loop_succ, loop_succ]
      apply (hstep s s' hs).bind
      rintro (s₁ | a) (s₂ | b) hrel
      · exact ih s₁ s₂ hrel
      · exact hrel.elim
      · exact hrel.elim
      · exact of_pure hrel

end Echoes

end CompactingArena.Act

namespace CompactingArena.Word

/-- An addition that a debug build refuses wraps around in a release build. -/
theorem agrees_add (x y : Nat) :
    Act.Agrees (add x y) (fun _ => modulus ≤ x + y) fun sum => sum = (x + y) % modulus := by
  by_cases hlt : x + y < modulus
  · rw [add_eq hlt]
    exact .of_pure (Nat.mod_eq_of_lt hlt).symm
  · rw [add, if_neg hlt, overflow]
    exact ⟨_, rfl, rfl, .inr ⟨rfl, Nat.le_of_not_lt hlt⟩⟩

/-- A sum that a build ends with is the sum of words. -/
theorem ensures_add {x y : Nat} {build : Build} :
    Act.Ensures build (add x y) fun sum => sum = (x + y) % modulus :=
  fun _ h => (agrees_add x y).of_ok h

theorem ensures_add_debug {x y : Nat} : Act.Ensures .debug (add x y) fun sum => sum = x + y := by
  intro sum h
  by_cases hsum : x + y < modulus
  · rw [add_eq hsum] at h
    exact (Except.ok.inj h).symm
  · rw [add, if_neg hsum] at h
    exact absurd h (by simp [overflow, Act.failInDebug, Act.result])

theorem ends_add (x y : Nat) : Act.Ends (add x y) fun _ => True :=
  (agrees_add x y).ends.mono fun _ _ => trivial

theorem ends_sub (x y : Nat) : Act.Ends (sub x y) fun _ => True := by
  by_cases hle : y ≤ x
  · rw [sub_eq hle]
    exact .of_pure trivial
  · rw [sub, if_neg hle, overflow]
    exact Act.ends_iff.mpr ⟨_, rfl, trivial⟩

end CompactingArena.Word
