import CompactingArena.Proofs.Arena.Walks
import CompactingArena.Proofs.Session.Care
import CompactingArena.Proofs.Session.Trespass
/-!
# Audits of damaged arenas

A client may want to audit an arena just because it suspects a stale write.  The audit
and the statistics of the free lists survive most of what such a write can do to the
lists, but not a link to a record that is not there.
-/

namespace CompactingArena.Session

open Act Arena

variable {config : Config} {available size : Nat} {a : Arena} {handler : Handler} {s : Session}
  {strokes : List Stroke}

/-- After any strokes, an audit in a release build ends in a fault exactly if it visits a
handle that describes no chunk before it finds a class with something wrong, and a
statistic of the free lists exactly if it visits a handle beyond the header table before
it finds a list that does not end.  What a walk through a class visits is what is filed
there, as far as the list can be followed. -/
theorem faults_iff_of_suffer
    (hestablish : (establish config available size).result .release = .ok (.ok a))
    (hsuffer : (suffer handler strokes ⟨a, []⟩).result .release = .ok s) :
    (∀ k < s.arena.classes.count,
        s.arena.classes.filed s.arena.headers s.arena.region k = pure (s.arena.course k)) ∧
      (Faults s.arena.verify.run ↔ s.arena.ComesUpon s.arena.Tidy s.arena.Dead) ∧
      (Faults s.arena.totalFreeBytes ↔ s.arena.ComesUpon s.arena.Closed s.arena.Beyond) ∧
      (Faults s.arena.largestFreeChunk ↔ s.arena.ComesUpon s.arena.Closed s.arena.Beyond) := by
  have hsteady : a.Steady := ⟨_, _, (sound_of_establish hestablish).toOrderly.framed⟩
  obtain ⟨chunks, spare, hframed⟩ := steady_of_suffer (s := ⟨a, []⟩) hsteady hsuffer
  refine ⟨fun k hk => hframed.toLaid.filed_eq hk, hframed.faults_verify_iff, ?_, ?_⟩
  · exact hframed.toLaid.faults_foldFree_iff Word.ends_add 0
  · exact hframed.toLaid.faults_foldFree_iff (fun _ _ => .of_pure trivial) 0

/-- A client that writes through the address of a chunk that it has freed, and so makes its
trailer link to the seventh of two records. -/
def vandal : List Stroke :=
  [.call (.allocate 16), .call (.allocate 16), .call (.tryFree (nth 0)),
    .stray 8 ⟨#[7, 0, 0, 0, 0, 0, 0, 0]⟩]

theorem exists_suffer_vandal :
    ∃ s, (suffer .refusing vandal ⟨small, []⟩).result .release = .ok s := by
  have hok : ((suffer .refusing vandal ⟨small, []⟩).result .release).isOk = true := by
    decide +kernel
  exact exists_of_isOk hok

theorem comesUpon_of_vandal :
    ∃ s, (suffer .refusing vandal ⟨small, []⟩).result .release = .ok s ∧
      s.arena.ComesUpon s.arena.Tidy s.arena.Dead ∧
      s.arena.ComesUpon s.arena.Closed s.arena.Beyond := by
  obtain ⟨s, hsuffer⟩ := exists_suffer_vandal
  obtain ⟨-, hverify, htotal, -⟩ := faults_iff_of_suffer (establish_small .release) hsuffer
  have hfaults : (suffer .refusing vandal ⟨small, []⟩).afterwards (fun s =>
      decide (Faults s.arena.verify.run ∧ Faults s.arena.totalFreeBytes)) = true := by
    decide +kernel
  have hfaulty := of_afterwards hfaults hsuffer
  rw [decide_eq_true_eq] at hfaulty
  exact ⟨s, hsuffer, hverify.mp hfaulty.1, htotal.mp hfaulty.2⟩

/-- The link is looked up before it is checked. -/
theorem audit_of_vandal :
    ∃ s, (suffer .refusing vandal ⟨small, []⟩).result .release = .ok s ∧
      s.arena.verify.run.result .release = .error .index ∧
      s.arena.totalFreeBytes.result .release = .error .index ∧
      s.arena.largestFreeChunk.result .release = .error .index := by
  obtain ⟨s, hsuffer⟩ := exists_suffer_vandal
  have hfaults : (suffer .refusing vandal ⟨small, []⟩).afterwards (fun s =>
      decide (s.arena.verify.run.result .release = .error .index ∧
        s.arena.totalFreeBytes.result .release = .error .index ∧
        s.arena.largestFreeChunk.result .release = .error .index)) = true := by
    decide +kernel
  have hfaulty := of_afterwards hfaults hsuffer
  exact ⟨s, hsuffer, of_decide_eq_true hfaulty⟩

end CompactingArena.Session
