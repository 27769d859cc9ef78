import HostServices.Proofs.Thread.Ledger
import Mathlib.Logic.ExistsUnique

/-!
# What becomes of a registration

A registration that is asked for at any time of a thread's life comes out in exactly one way
(`registration_outcome`). It is kept: its destructor is on top of a chain whose drain is under way
or still to come, and runs once before the thread is gone. Or memory ran out, the hook for that was
called and the chain is as it was. Or the drain of the thread is over, and the process gives up with
a message.

There is a fourth way. While a hook that was called in a registration ends the process, that
registration still holds the chain, and another one that is asked for in the teardown of a local is
refused: the process dies with last words of its own (`registration_refused`).

An entry is followed through a run by what is below it (`RunsOnce`). It stays on the chain as long
as the chain ends in it and what was below it, and a drain that takes it off runs it.
-/

namespace HostServices

variable {β : Type}

/-- What is observed of the hook for exhausted memory right after memory ran out. -/
def Hooks.ExhaustedBy (hooks : Hooks) (e : Thread.Event) : Prop :=
  match hooks.exhausted? with
  | none => e = .lastWords Activity.exhaustedWords
  | some (.ending name _) | some (.aborting name) => e = .exhaustedHook name
  | some .unwinding => e = .exhaustedUnwound ∨ e = .lastWords Activity.stuckWords

namespace Activity

/-- The drain of the chain is still to come or under way. The end of the process may have taken the
place of a drain that was under way. -/
def DrainAhead (a : Activity β) : Prop :=
  (∃ chain, a.thread.slot = .live chain ∧ .slot ∈ a.thread.order ∧ .tearDown ∈ a.tasks) ∨
  (∃ chain, a.thread.slot = .draining chain ∧
    ((∃ ran, .drain ran ∈ a.tasks) ∨ a.finishing? ≠ none))

variable [Bodies β]

/-- On the way from `a` to `last` the entry of `d` above `below` stays on the chain up to the one
task that takes it off and runs it. -/
def RunsOnce (a : Activity β) (d : Destructor) (below : List Destructor) (h : History)
    (last : Activity β) : Prop :=
  ∃ before x ran y after, h = before ++ ⟨.drain ran, [.ran d]⟩ :: after ∧
    a.ReachesWithin (fun z => d :: below <:+ z.waiting) before x ∧ x.waiting = d :: below ∧
    x.Does (.drain ran) [.ran d] y ∧ y.waiting = below ∧ y.Reaches after last

end Activity

/-- The ways in which a registration comes out. -/
inductive RegistrationOutcome where
  | kept
  | exhausted
  | tooLate
  | refused
deriving DecidableEq, Repr

namespace RegistrationOutcome

open Activity

/-- The registration of `d` in the state `a`, with `events` observed and `b` left, came out so. -/
def Holds [Bodies β] (a : Activity β) (d : Destructor) (events : List Thread.Event)
    (b : Activity β) : RegistrationOutcome → Prop
  | kept => events = [.notice (.registered d.context)] ∧ b.waiting = d :: a.waiting ∧
      b.DrainAhead ∧ ∀ h last, b.Reaches h last → last.Gone → b.RunsOnce d a.waiting h last
  | exhausted => (∃ called rest, events = .notice .outOfMemory :: called :: rest ∧
      a.hooks.ExhaustedBy called) ∧ b.thread = a.thread.touchSlot ∧ b.waiting = a.waiting
  | tooLate => events = [.notice (.fatal Activity.tooLate), .lastWords fatalOpening,
      .lastWords (utf8 Activity.tooLate), .lastWords fatalClosing] ∧ b.ending? = some .aborted
  | refused => (∃ caller, events = [.lastWords (failedCallWords caller)]) ∧
      b.ending? = some .aborted

/-- The way in which a registration came out, told by what is observed first. -/
def ofEvents : List Thread.Event → Option RegistrationOutcome
  | .notice (.registered _) :: _ => some kept
  | .notice .outOfMemory :: _ => some exhausted
  | .notice (.fatal _) :: _ => some tooLate
  | .lastWords _ :: _ => some refused
  | _ => none

theorem Holds.ofEvents_eq [Bodies β] {a b : Activity β} {d : Destructor}
    {events : List Thread.Event} {o : RegistrationOutcome} (ho : o.Holds a d events b) :
    ofEvents events = some o := by
  cases o with
  | kept => rw [ho.1]; rfl
  | exhausted =>
    obtain ⟨⟨called, rest, he, -⟩, -⟩ := ho
    rw [he]; rfl
  | tooLate => rw [ho.1]; rfl
  | refused =>
    obtain ⟨⟨caller, he⟩, -⟩ := ho
    rw [he]; rfl

end RegistrationOutcome

namespace Activity

variable [Bodies β] {a b c : Activity β} {h k : History} {d : Destructor}
  {below : List Destructor} {events : List Thread.Event}

/-! ### Following an entry -/

/-- A task leaves the entries as they are, puts one on top, or takes the top one off and runs it. -/
theorem Does.waiting_cases {task : Task} (hd : a.Does task events b) :
    a.waiting <:+ b.waiting ∨
    ∃ ran d, task = .drain ran ∧ events = [.ran d] ∧ a.waiting = d :: b.waiting := by
  obtain ⟨rest, ht, turn⟩ := hd.turn
  cases turn with
  | acted action hx outlook effect =>
    rw [waiting, waiting, effect.waiting_eq]
    exact .inl (List.suffix_append _ _)
  | bare hx he ho hb | ownTornDown order hx he ho hb | drainRefused ran hx he held hb
  | finished e held hx he hb =>
    subst hb
    exact .inl (List.suffix_refl _)
  | slotTornDown order hx he ho hb =>
    subst hb
    left
    cases hs : a.thread.slot <;> simp [waiting, hs, Slot.chain?]
  | drainEnded ran hx he free hw hb =>
    rw [hw]
    exact .inl (List.nil_suffix)
  | started ran d chain chain' hx he free hc hc' hb =>
    subst hb
    exact .inr ⟨ran, d, hx, he, by rw [waiting, Slot.waiting_of_chain? hc, hc'.1]; rfl⟩

/-- An entry stays on the chain or was run once. -/
theorem Reaches.entry (hr : a.Reaches k b) (hw : a.waiting = d :: below) :
    a.ReachesWithin (fun z => d :: below <:+ z.waiting) k b ∨ a.RunsOnce d below k b := by
  induction hr with
  | refl => exact .inl (.refl (hw ▸ List.suffix_refl a.waiting))
  | @deed k b c task events hr hd _ ih =>
    rcases ih with hkeep | ⟨before, x, ran, y, after, rfl, hx, hxw, hxd, hyw, hy⟩
    · have hsuffix := hkeep.holds
      rcases hd.waiting_cases with hle | ⟨ran, d', rfl, rfl, hpop⟩
      · exact .inl (hkeep.deed hd (hsuffix.trans hle))
      · rw [hpop] at hsuffix
        rcases List.suffix_cons_iff.1 hsuffix with heq | hle
        · -- the entry itself is on top
          obtain ⟨rfl, hbelow⟩ := List.cons.inj heq
          exact .inr ⟨k, b, ran, c, [], rfl, hkeep, by rw [hpop, hbelow], hd, hbelow.symm, .refl c⟩
        · -- it is below the entry that is taken off
          exact .inl (hkeep.deed hd hle)
    · exact .inr ⟨before, x, ran, y, after ++ [⟨task, events⟩], by simp, hx, hxw, hxd, hyw,
        hy.deed hd⟩
  | @meanwhile k b hooks bodies hr _ ih =>
    rcases ih with hkeep | ⟨before, x, ran, y, after, rfl, hx, hxw, hxd, hyw, hy⟩
    · exact .inl (hkeep.meanwhile hooks bodies hkeep.holds)
    · exact .inr ⟨before, x, ran, y, after, rfl, hx, hxw, hxd, hyw, hy.meanwhile hooks bodies⟩

/-- An entry on the chain runs once before the thread is gone. -/
theorem Lives.runsOnce (ha : a.Lives h) (hw : a.waiting = d :: below) (hr : a.Reaches k b)
    (hg : b.Gone) : a.RunsOnce d below k b := by
  refine (hr.entry hw).resolve_left fun hkeep => ?_
  -- nothing waits on a thread that is gone, so the entry did not stay
  have hsuffix := hkeep.holds
  have hempty : b.waiting = [] := by
    rcases (ha.reaches hr).slot_of_gone hg with hs | hs <;> rw [waiting, hs] <;> rfl
  simp only [hempty] at hsuffix
  exact absurd (List.suffix_nil.1 hsuffix) (List.cons_ne_nil _ _)

/-! ### The outcome -/

/-- A chain that is there is yet to be drained, or is being drained. -/
theorem Lives.drainAhead (ha : a.Lives h) (hlive : a.ending? = none)
    (hc : a.thread.slot.chain? ≠ none) : a.DrainAhead := by
  have hs := ha.stacked
  cases hsl : a.thread.slot with
  | untouched | gone => rw [hsl] at hc; exact absurd rfl hc
  | live chain =>
    -- a slot in use is yet to be torn down
    have hcount := hs.order
    rw [hsl, Slot.isLive_live, if_pos rfl] at hcount
    have hmem : LocalName.slot ∈ a.thread.order := List.count_pos_iff.1 (by omega)
    exact .inl ⟨chain, hsl, hmem, hs.tearDown hlive (.inl (List.ne_nil_of_mem hmem))⟩
  | draining chain =>
    refine .inr ⟨chain, hsl, ?_⟩
    by_cases hf : a.finishing? = none
    · exact .inl (hs.draining chain hsl (finishing?_eq_none_iff.1 hf) hlive)
    · exact .inr hf

theorem Lives.drained_ne_nil_iff (ha : a.Lives h) : h.drained ≠ [] ↔ a.thread.slot = .gone := by
  rw [ha.ledger.drained]
  split <;> simp_all

omit [Bodies β] in
theorem Exhaustion.exhaustedBy {caller : Caller} {held : Bool}
    (hx : a.Exhaustion caller held events b) :
    ∃ called rest, events = .notice .outOfMemory :: called :: rest ∧ a.hooks.ExhaustedBy called := by
  cases hx with
  | native hook he => exact ⟨_, [], he, by simp [Hooks.ExhaustedBy, hook]⟩
  | leaves name code hook _ he => exact ⟨_, [], he, by simp [Hooks.ExhaustedBy, hook]⟩
  | nested name code hook _ he => exact ⟨_, _, he, by simp [Hooks.ExhaustedBy, hook]⟩
  | aborts name hook he => exact ⟨_, [], he, by simp [Hooks.ExhaustedBy, hook]⟩
  | unwound hook _ he => exact ⟨_, [], he, by simp [Hooks.ExhaustedBy, hook]⟩
  | stuck hook _ he => exact ⟨_, [], he, by simp [Hooks.ExhaustedBy, hook]⟩

/-- What a registration comes to, each way under its condition. -/
theorem Lives.registration (ha : a.Lives h) {memory : Bool} {caller : Caller}
    (hd : a.Does (.act (.register d memory caller)) events b) :
    (RegistrationOutcome.tooLate.Holds a d events b ∧ h.drained ≠ [] ∧
      ∀ x ∈ h, ¬ x.EndsInRegistration) ∨
    (RegistrationOutcome.refused.Holds a d events b ∧ h.drained = [] ∧
      ∃ x ∈ h, x.EndsInRegistration) ∨
    ((RegistrationOutcome.exhausted.Holds a d events b ∨
      RegistrationOutcome.kept.Holds a d events b) ∧ h.drained = [] ∧
      ∀ x ∈ h, ¬ x.EndsInRegistration) := by
  have hb : b.Lives _ := ha.reaches ((Reaches.refl a).deed hd)
  have hb' := hd
  obtain ⟨rest, ht, hp⟩ := hd
  have hlive : a.ending? = none := ha.stacked.ending?_eq_none ht
  have hheld := ha.chainHeld_below_iff ht
  have hfree : { a with tasks := rest }.chainHeld = false → ∀ x ∈ h, ¬ x.EndsInRegistration := by
    intro hf x hx hxe
    rw [hheld.2 ⟨x, hx, hxe⟩] at hf
    cases hf
  -- the slot is set up first, which leaves the entries as they are
  have hw : a.thread.touchSlot.slot.waiting = a.waiting := a.thread.waiting_touchSlot
  have hdrained : ∀ chain, a.thread.touchSlot.slot.chain? = some chain → h.drained = [] :=
    fun chain hc => by
      by_contra hn
      rw [(a.thread.chain?_touchSlot_eq_none_iff).2 (ha.drained_ne_nil_iff.1 hn)] at hc
      cases hc
  cases Activity.registration (a := { a with tasks := rest }) hp with
  | tooLate gone h' =>
    obtain ⟨rfl, rfl⟩ := Prod.mk.inj h'
    refine .inl ⟨⟨rfl, rfl⟩, ha.drained_ne_nil_iff.2 gone, ?_⟩
    intro x hx hxe
    -- a chain that is held is not drained
    have hc := ha.chain?_ne_none (by simp [ht]) ⟨x, hx, hxe⟩
    exact hc (by rw [show a.thread.slot = .gone from gone]; rfl)
  | refused chain hc held he hbe =>
    subst hbe
    exact .inr (.inl ⟨⟨⟨caller, he⟩, rfl⟩, hdrained chain hc, hheld.1 held⟩)
  | exhausted chain hc free hpush hx =>
    have hbw : b.waiting = a.waiting := by
      rw [waiting, hx.thread_eq]
      exact hw
    exact .inr (.inr ⟨.inl ⟨hx.exhaustedBy, hx.thread_eq, hbw⟩, hdrained chain hc, hfree free⟩)
  | kept chain chain' hc free hpush he hbe =>
    have hbw : b.waiting = d :: a.waiting := by
      rw [waiting, hbe, Slot.waiting_of_chain? (Slot.chain?_setChain hc chain'),
        Chain.entries_of_push? hpush, ← hw]
      exact congrArg _ (Slot.waiting_of_chain? hc).symm
    have hahead : b.DrainAhead := hb.drainAhead (by rw [hbe]; exact hlive) (by
      rw [hbe, Slot.chain?_setChain hc]
      exact Option.some_ne_none _)
    exact .inr (.inr ⟨.inr ⟨he, hbw, hahead, fun k last hr hg => hb.runsOnce hbw hr hg⟩,
      hdrained chain hc, hfree free⟩)

/-- **No registration is lost silently.** At any time of a thread's life a registration comes out in
exactly one way. It is too late for it exactly if the drain of the thread is over. It is refused
exactly if a hook that was called in a registration is ending the process, and so in every other
case it is kept, memory ran out, or it is too late. A drain is on the stack exactly while the slot
is being drained, unless the process is about to end. -/
theorem registration_outcome (ha : a.Lives h) {memory : Bool} {caller : Caller}
    (hd : a.Does (.act (.register d memory caller)) events b) :
    (∃! o : RegistrationOutcome, o.Holds a d events b) ∧
    (RegistrationOutcome.tooLate.Holds a d events b ↔ h.drained ≠ []) ∧
    (RegistrationOutcome.refused.Holds a d events b ↔ ∃ x ∈ h, x.EndsInRegistration) ∧
    (a.finishing? = none →
      ((∃ chain, a.thread.slot = .draining chain) ↔ ∃ ran, .drain ran ∈ a.tasks)) := by
  -- the outcome is told by what is observed first
  have huniq : ∀ o o' : RegistrationOutcome, o.Holds a d events b → o'.Holds a d events b →
      o = o' := fun o o' ho ho' => Option.some.inj (ho.ofEvents_eq.symm.trans ho'.ofEvents_eq)
  have hlive : a.ending? = none := by
    obtain ⟨rest, ht, -⟩ := hd
    exact ha.stacked.ending?_eq_none ht
  refine ⟨?_, ?_, ?_, ?_⟩
  · obtain ⟨ho, -⟩ | ⟨ho, -⟩ | ⟨ho | ho, -⟩ := ha.registration hd <;>
      exact ⟨_, ho, fun o' ho' => huniq o' _ ho' ho⟩
  · obtain ⟨ho, hg, -⟩ | ⟨ho, hg, -⟩ | ⟨ho | ho, hg, -⟩ := ha.registration hd
    · exact iff_of_true ho hg
    all_goals exact iff_of_false (fun h' => nomatch huniq _ _ h' ho) (by simp [hg])
  · obtain ⟨ho, -, hx⟩ | ⟨ho, -, hx⟩ | ⟨ho | ho, -, hx⟩ := ha.registration hd
    · exact iff_of_false (fun h' => nomatch huniq _ _ h' ho) (by simpa using hx)
    · exact iff_of_true ho hx
    all_goals exact iff_of_false (fun h' => nomatch huniq _ _ h' ho) (by simpa using hx)
  · intro hf
    constructor
    · rintro ⟨chain, hs⟩
      exact ha.stacked.draining chain hs (finishing?_eq_none_iff.1 hf) hlive
    · rintro ⟨ran, hm⟩
      exact (ha.stacked.drain ran hm).1

/-- A registration in the middle of a drain is kept. -/
theorem registration_outcome_nested : ∃ (a b : Activity (Destructor → List Action)) (h : History)
    (events : List Thread.Event), a.Lives h ∧ h.ran = [⟨"a", 1⟩] ∧
      a.Does (.act (.register ⟨"a", 2⟩ true .native)) events b ∧
      (∃! o : RegistrationOutcome, o.Holds a ⟨"a", 2⟩ events b) ∧
      ¬ RegistrationOutcome.tooLate.Holds a ⟨"a", 2⟩ events b ∧
      ¬ RegistrationOutcome.refused.Holds a ⟨"a", 2⟩ events b := by
  have hr : (life {} reentrant [.register ⟨"a", 1⟩ true .native]).Runs _ _ :=
    .deed ⟨_, rfl, rfl⟩ (.deed ⟨_, rfl, rfl⟩ (.deed ⟨_, rfl, rfl⟩ (.refl _)))
  have ha : Lives _ _ := ⟨_, _, _, hr.reaches⟩
  obtain ⟨hone, hlate, hrefused, -⟩ := registration_outcome ha ⟨_, rfl, rfl⟩
  exact ⟨_, _, _, _, ha, rfl, ⟨_, rfl, rfl⟩, hone, fun h => absurd rfl (hlate.1 h), fun h => by
    simpa [Deed.EndsInRegistration, Deed.registration?] using hrefused.1 h⟩

/-- While a hook that was called in a registration ends the process, another registration is neither
kept nor too late for its chain, and memory did not run out in it. -/
theorem registration_refused : ∃ (a b : Activity (Destructor → List Action)) (h : History)
    (events : List Thread.Event), a.Lives h ∧
      a.Does (.act (.register ⟨"a", 1⟩ true .foreign)) events b ∧
      ∀ o : RegistrationOutcome, o ≠ .refused → ¬ o.Holds a ⟨"a", 1⟩ events b := by
  have hr : (endedInRegistration (.register ⟨"a", 1⟩ true .foreign)).Runs _ _ :=
    .deed ⟨_, rfl, rfl⟩ (.deed ⟨_, rfl, rfl⟩ (.deed ⟨_, rfl, rfl⟩ (.deed ⟨_, rfl, rfl⟩ (.refl _))))
  refine ⟨_, _, _, _, ⟨_, _, _, hr.reaches⟩, ⟨_, rfl, rfl⟩, fun o hne ho => ?_⟩
  exact hne (Option.some.inj (ho.ofEvents_eq.symm.trans rfl))

end Activity

end HostServices
