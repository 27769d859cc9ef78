import HostServices.Proofs.Thread.Ledger

/-!
# The account of a thread's registrations

At any time of a thread's life the registrations that came back are as many as the destructors that
started to run and those that wait, and the question how many wait is answered by the latter. Once
the thread is gone every registration that came back has run once, the ones that were unwound have
not, and the one drain there was counted them (`registrations_balance`).

The question has no answer while a hook that was called in a registration ends the process. The
registration never comes back, its chain stays held, and the teardown of a local that asks fails
(`pending_unanswered`).
-/

namespace HostServices

namespace Activity

variable {β : Type} [Bodies β] {a b : Activity β} {h : History} {events : List Thread.Event}

/-- The answer to the question how many destructors wait, at any time of a life. -/
theorem Lives.pending (ha : a.Lives h) (hd : a.Does (.act .pending) events b) :
    ((∀ x ∈ h, ¬ x.EndsInRegistration) →
      events = [.pending a.waiting.length] ∧ b.ending? = none) ∧
    ((∃ x ∈ h, x.EndsInRegistration) →
      events = [.lastWords tornWords] ∧ b.ending? = some .aborted) := by
  obtain ⟨rest, ht, hp⟩ := hd
  have hlive : a.ending? = none := ha.stacked.ending?_eq_none ht
  have hheld := ha.chainHeld_below_iff ht
  obtain ⟨hc, he, hb⟩ | ⟨hc, -, he, hb⟩ := pending_cases (a := { a with tasks := rest }) hp
  · refine ⟨fun _ => ⟨he, by rw [hb]; exact hlive⟩, ?_⟩
    intro hx
    -- a chain that is held is not gone
    have hthere := ha.chain?_ne_none (by simp [ht]) hx
    rw [hheld.2 hx] at hc
    have hg : a.thread.slot = .gone := hc.resolve_left Bool.noConfusion
    exact absurd (by rw [hg]; rfl) hthere
  · refine ⟨?_, fun _ => ⟨he, by rw [hb]; rfl⟩⟩
    intro hno
    obtain ⟨x, hx, hxe⟩ := hheld.1 hc
    exact absurd hxe (hno x hx)

/-- **The account.** While the slot is in use or being drained, the registrations that came back are
as many as the destructors that started to run and those that wait. The question how many wait is
answered by the latter, unless a hook that was called in a registration is ending the process. Once
the thread is gone nothing waits, what ran is what came back, what did not come back was unwound,
and there is one record of a drain, with the number of registrations that came back, if the slot was
used and none otherwise. -/
theorem registrations_balance (ha : a.Lives h) :
    (∀ chain, a.thread.slot.chain? = some chain →
      a.waiting = chain.entries ∧ h.returned.length = h.ran.length + chain.entries.length) ∧
    (a.thread.slot = .gone → a.waiting = []) ∧
    (∀ events b, a.Does (.act .pending) events b →
      ((∀ x ∈ h, ¬ x.EndsInRegistration) →
        events = [.pending a.waiting.length] ∧ b.ending? = none) ∧
      ((∃ x ∈ h, x.EndsInRegistration) →
        events = [.lastWords tornWords] ∧ b.ending? = some .aborted)) ∧
    (a.Gone → a.waiting = [] ∧ h.ran.Perm h.returned ∧
      h.registrations.Perm (h.returned ++ h.unwound) ∧
      h.drained = if h.usesSlot then [h.returned.length] else []) := by
  have hl := ha.ledger
  refine ⟨?_, ?_, ?_, ?_⟩
  · intro chain hc
    have hw := Slot.waiting_of_chain? hc
    refine ⟨hw, ?_⟩
    rw [hl.returned.length_eq, List.length_append, waiting, hw]
  · intro hg
    rw [waiting, hg]
    rfl
  · intro events b hd
    exact ha.pending hd
  · intro hg
    -- at the end the chain is gone or was never there, and what ran is all that came back
    have hw : a.waiting = [] := by
      rcases ha.slot_of_gone hg with hs | hs <;> rw [waiting, hs] <;> rfl
    have hperm : h.ran.Perm h.returned := by
      simpa [hw] using hl.returned.symm
    refine ⟨hw, hperm, ha.settled.registrations hg.2 (by simp [hg.1]), ?_⟩
    rw [hl.drained]
    rcases ha.slot_of_gone hg with hs | hs
    · have hno : h.usesSlot = false := Bool.eq_false_iff.2 fun hu => hl.used.1 hu hs
      simp [hs, hno]
    · have hu : h.usesSlot = true := hl.used.2 (by simp [hs])
      simp [hs, hu]

/-- The account of a thread whose destructor registers another one. -/
theorem registrations_balance_reentrant : ∃ (a : Activity (Destructor → List Action)) (h : History),
    (life {} reentrant [.register ⟨"a", 1⟩ true .native]).Reaches h a ∧ a.Gone ∧
      h.returned = [⟨"a", 1⟩, ⟨"a", 2⟩] ∧ h.ran.Perm h.returned ∧ h.drained = [2] := by
  have hr : (life {} reentrant [.register ⟨"a", 1⟩ true .native]).Runs _ _ :=
    .deed ⟨_, rfl, rfl⟩ (.deed ⟨_, rfl, rfl⟩ (.deed ⟨_, rfl, rfl⟩ (.deed ⟨_, rfl, rfl⟩
      (.deed ⟨_, rfl, rfl⟩ (.deed ⟨_, rfl, rfl⟩ (.deed ⟨_, rfl, rfl⟩ (.deed ⟨_, rfl, rfl⟩
        (.refl _))))))))
  obtain ⟨-, -, -, hgone⟩ := registrations_balance ⟨_, _, _, hr.reaches⟩
  obtain ⟨-, hran, -, hdrained⟩ := hgone ⟨rfl, rfl⟩
  exact ⟨_, _, hr.reaches, ⟨rfl, rfl⟩, rfl, hran, hdrained⟩

/-- While a hook that was called in a registration ends the process, the question how many
destructors wait is not answered. -/
theorem pending_unanswered : ∃ (a b : Activity (Destructor → List Action)) (h : History)
    (events : List Thread.Event), a.Lives h ∧ a.thread.slot = .live .empty ∧
      a.Does (.act .pending) events b ∧ ∀ n, .pending n ∉ events := by
  have hr : (endedInRegistration .pending).Runs _ _ :=
    .deed ⟨_, rfl, rfl⟩ (.deed ⟨_, rfl, rfl⟩ (.deed ⟨_, rfl, rfl⟩ (.deed ⟨_, rfl, rfl⟩ (.refl _))))
  exact ⟨_, _, _, _, ⟨_, _, _, hr.reaches⟩, rfl, ⟨_, rfl, rfl⟩, fun n hn => nomatch
    List.mem_singleton.1 hn⟩

end Activity

end HostServices
