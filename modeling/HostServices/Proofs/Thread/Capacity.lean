import HostServices.Proofs.Thread.Outcome
import Mathlib.Algebra.Group.Nat.Defs
import Mathlib.Data.List.Induction
import Mathlib.Data.List.Infix
import Mathlib.Order.Bounds.Basic

/-!
# The room on a chain

A chain asks for memory only when it is full, and gives none back before its drain is over. So the
room that it has tells of its past: before the first registration comes back there is none, and from
then on it is the smallest number `4 * 2 ^ k` that is no less than the longest the chain has ever
been (`Activity.capacity_fits_peak`). A registration for which there is no memory is kept just if
the chain is shorter than its room. Otherwise it leaves nothing behind but the slot that it set up.

`History.peak` is the largest number of destructors that waited at one time, read off the deeds.
`Chain.Fits` says how the room goes with it. A task leaves the chain as it is, pushes onto it or
pops from it (`Activity.Does.chain_step`), and all three keep the fit (`Chain.Fits.step`), so it
holds at any time of a life (`Activity.Lives.fits`).
-/

namespace HostServices

variable {β : Type}

/-! ### Capacities -/

namespace Chain

/-- The capacities with room for `n` entries that a chain can come to. -/
def capacitiesFor (n : Nat) : Set Nat := {m | (∃ k, m = firstCapacity * 2 ^ k) ∧ n ≤ m}

theorem isLeast_firstCapacity : IsLeast (capacitiesFor 1) firstCapacity := by
  refine ⟨⟨⟨0, rfl⟩, by decide⟩, ?_⟩
  rintro m ⟨⟨k, rfl⟩, -⟩
  exact Nat.le_mul_of_pos_right _ (Nat.two_pow_pos k)

/-- Between a capacity and twice as much there is no other one. -/
theorem isLeast_double {n : Nat} (h : ∃ k, n = firstCapacity * 2 ^ k) :
    IsLeast (capacitiesFor (n + 1)) (2 * n) := by
  obtain ⟨k, rfl⟩ := h
  have hdouble : 2 * (firstCapacity * 2 ^ k) = firstCapacity * 2 ^ (k + 1) := by
    calc 2 * (firstCapacity * 2 ^ k) = firstCapacity * (2 * 2 ^ k) := Nat.mul_left_comm ..
      _ = firstCapacity * 2 ^ (k + 1) := by rw [Nat.pow_succ']
  rw [hdouble]
  refine ⟨⟨⟨k + 1, rfl⟩, ?_⟩, ?_⟩
  · apply Nat.mul_lt_mul_of_pos_left
    · exact Nat.pow_lt_pow_succ Nat.one_lt_two
    · decide
  · -- a larger number of the form has a larger exponent
    rintro m ⟨⟨j, rfl⟩, hj⟩
    have hlt : 2 ^ k < 2 ^ j := Nat.lt_of_mul_lt_mul_left hj
    have hkj : k < j := (Nat.pow_lt_pow_iff_right Nat.one_lt_two).1 hlt
    exact Nat.mul_le_mul_left _ (Nat.pow_le_pow_right Nat.two_pos hkj)

/-- The chain is no longer than `peak`, and has the room that it takes to have been so long. -/
structure Fits (c : Chain) (peak : Nat) : Prop where
  length_le : c.entries.length ≤ peak
  unused : peak = 0 → c.capacity = 0
  least : 0 < peak → IsLeast (capacitiesFor peak) c.capacity

/-- A push is made exactly if there is memory or the chain is shorter than its room. -/
theorem exists_push?_iff {c : Chain} {memory : Bool} {d : Destructor} :
    (∃ c', c.push? memory d = some c') ↔ memory = true ∨ c.entries.length < c.capacity := by
  rw [← Option.ne_none_iff_exists', ne_eq, push?_eq_none_iff, not_and_or, Nat.not_le,
    Bool.not_eq_false]
  exact or_comm

/-- What a task can do to a chain. -/
inductive Step (c : Chain) : Chain → Prop
  | same : Step c c
  | pushed {c' : Chain} (memory : Bool) (d : Destructor) (h : c.push? memory d = some c') :
      Step c c'
  | popped {c' : Chain} (d : Destructor) (h : c.pop? = some (d, c')) : Step c c'

namespace Fits

variable {c c' : Chain} {peak m n : Nat} {memory : Bool} {d : Destructor}

theorem empty : Chain.empty.Fits 0 where
  length_le := Nat.le_refl 0
  unused := fun _ => rfl
  least := fun h => absurd h (Nat.lt_irrefl 0)

/-- There is room for as many as there ever were. -/
theorem peak_le_capacity (h : c.Fits peak) : peak ≤ c.capacity := by
  rcases Nat.eq_zero_or_pos peak with rfl | hpos
  · exact Nat.zero_le _
  · exact (h.least hpos).1.2

/-- A chain that was once longer has more room. -/
theorem capacity_mono (h : c.Fits m) (h' : c'.Fits n) (hle : m ≤ n) : c.capacity ≤ c'.capacity := by
  rcases Nat.eq_zero_or_pos m with hm | hm
  · rw [h.unused hm]
    exact Nat.zero_le _
  · obtain ⟨⟨hform, hn⟩, -⟩ := h'.least (hm.trans_le hle)
    exact (h.least hm).2 ⟨hform, hle.trans hn⟩

/-- An entry for which there is room is put on top without asking for more. -/
theorem push_below (h : c.Fits peak) (hroom : c.entries.length < c.capacity) (d : Destructor) :
    Fits { c with entries := d :: c.entries } (max peak (c.entries.length + 1)) := by
  have hpos : 0 < peak := by
    by_contra hno
    rw [h.unused (Nat.eq_zero_of_not_pos hno)] at hroom
    exact absurd hroom (Nat.not_lt_zero _)
  obtain ⟨⟨hform, hle⟩, hmin⟩ := h.least hpos
  refine ⟨le_max_right _ _, fun h0 => ?_, fun _ => ⟨⟨hform, max_le hle hroom⟩, ?_⟩⟩
  · exact absurd (h0 ▸ le_max_left peak _) (Nat.not_le_of_lt hpos)
  · rintro n ⟨hn, hmax⟩
    exact hmin ⟨hn, (le_max_left _ _).trans hmax⟩

/-- A full chain is as long as it ever was, and the room that it asks for is the next there is. -/
theorem push_full (h : c.Fits peak) (hfull : c.capacity ≤ c.entries.length) (d : Destructor) :
    Fits ⟨d :: c.entries, c.nextCapacity⟩ (max peak (c.entries.length + 1)) := by
  have hlength : c.entries.length = c.capacity := by
    apply Nat.le_antisymm _ hfull
    calc c.entries.length ≤ peak := h.length_le
      _ ≤ c.capacity := h.peak_le_capacity
  have hpeak : peak = c.capacity := Nat.le_antisymm h.peak_le_capacity (hlength ▸ h.length_le)
  have hmax : max peak (c.entries.length + 1) = c.capacity + 1 := by
    rw [hpeak, hlength]
    apply max_eq_right
    exact Nat.le_succ _
  rw [hmax]
  refine ⟨Nat.succ_le_succ hlength.le, fun h0 => absurd h0 (Nat.succ_ne_zero _), fun _ => ?_⟩
  show IsLeast _ c.nextCapacity
  unfold nextCapacity
  split
  · next hzero =>
    rw [hzero]
    exact isLeast_firstCapacity
  · next hne =>
    apply isLeast_double
    exact (h.least (hpeak ▸ Nat.pos_of_ne_zero hne)).1.1

theorem push (h : c.Fits peak) (hp : c.push? memory d = some c') :
    c'.Fits (max peak c'.entries.length) := by
  rw [entries_of_push? hp, List.length_cons]
  unfold push? at hp
  split at hp
  · next hroom =>
    obtain rfl := Option.some.inj hp
    exact h.push_below hroom d
  · next hfull =>
    split at hp
    · obtain rfl := Option.some.inj hp
      exact h.push_full (Nat.le_of_not_lt hfull) d
    · cases hp

theorem pop (h : c.Fits peak) (hp : c.pop? = some (d, c')) : c'.Fits peak := by
  obtain ⟨hentries, hcapacity⟩ := pop?_eq_some_iff.1 hp
  have hlength : c'.entries.length ≤ c.entries.length := by
    rw [hentries]
    exact Nat.le_succ _
  exact ⟨hlength.trans h.length_le, hcapacity ▸ h.unused, hcapacity ▸ h.least⟩

/-- Whatever a task does to the chain, it fits the longest that it has been by then. -/
theorem step (h : c.Fits peak) (hs : c.Step c') : c'.Fits (max peak c'.entries.length) := by
  cases hs with
  | same =>
    rw [max_eq_left h.length_le]
    exact h
  | pushed memory d hp => exact h.push hp
  | popped d hp =>
    rw [max_eq_left (h.pop hp).length_le]
    exact h.pop hp

end Fits

end Chain

/-! ### The longest that a chain has been -/

namespace History

/-- The number of registrations that came back and whose destructors did not start to run. -/
def standing (h : History) : Nat := h.returned.length - h.ran.length

/-- The largest number of destructors that waited at one time. -/
def peak (h : History) : Nat := (h.inits.map standing).foldl max 0

theorem peak_concat (h : History) (x : Deed) :
    peak (h ++ [x]) = max h.peak (standing (h ++ [x])) := by
  simp [peak, List.inits_append]

/-- The peak is the most that stood after any number of deeds. -/
theorem isGreatest_peak (h : History) :
    IsGreatest {n | ∃ g : History, g <+: h ∧ g.standing = n} h.peak := by
  induction h using List.reverseRecOn with
  | nil =>
    refine ⟨⟨[], List.prefix_refl _, rfl⟩, ?_⟩
    rintro n ⟨g, hg, rfl⟩
    rw [List.prefix_nil.1 hg]
    exact Nat.le_refl _
  | append_singleton h x ih =>
    have hset : {n | ∃ g : History, g <+: h ++ [x] ∧ g.standing = n} =
        insert (standing (h ++ [x])) {n | ∃ g : History, g <+: h ∧ g.standing = n} := by
      ext n
      simp [List.prefix_concat_iff, or_and_right, exists_or, eq_comm]
    rw [peak_concat, max_comm, hset]
    exact ih.insert _

theorem peak_le_append (h k : History) : h.peak ≤ (h ++ k).peak := by
  obtain ⟨⟨g, hg, he⟩, -⟩ := isGreatest_peak h
  exact (isGreatest_peak (h ++ k)).2 ⟨g, hg.trans (List.prefix_append h k), he⟩

theorem peak_eq_zero (h : History) (hr : h.returned = []) : h.peak = 0 := by
  obtain ⟨⟨g, ⟨k, rfl⟩, he⟩, -⟩ := isGreatest_peak h
  have hg : g.returned = [] := by
    rw [returned_append] at hr
    exact (List.append_eq_nil_iff.1 hr).1
  rw [← he, standing, hg]
  exact Nat.zero_sub _

end History

/-! ### The chain of a slot -/

namespace Slot

/-- The chain that a registration reaches. It sets the slot up if need be. -/
def reached? : Slot → Option Chain
  | untouched => some .empty
  | live chain | draining chain => some chain
  | gone => none

variable {s : Slot} {c : Chain}

theorem reached?_of_chain? (h : s.chain? = some c) : s.reached? = some c := by
  cases s <;> simp_all [reached?, chain?]

theorem waiting_of_reached? (h : s.reached? = some c) : s.waiting = c.entries := by
  cases s with
  | untouched => rw [← Option.some.inj h]; rfl
  | live chain | draining chain => rw [← Option.some.inj h]; rfl
  | gone => cases h

end Slot

theorem Thread.chain?_touchSlot (t : Thread) : t.touchSlot.slot.chain? = t.slot.reached? := by
  unfold touchSlot
  split
  · next hs => rw [hs]; rfl
  · next hs => cases ht : t.slot <;> simp_all [Slot.reached?, Slot.chain?]

theorem Thread.reached?_touchSlot (t : Thread) : t.touchSlot.slot.reached? = t.slot.reached? := by
  unfold touchSlot
  split
  · next hs => rw [hs]; rfl
  · rfl

namespace Activity

variable {a b c : Activity β} {h g k : History} {events : List Thread.Event}

/-- An action that keeps no registration leaves the chain of the slot as it is. -/
theorem SlotEffect.reached?_eq {t t' : Thread} {x : Deed} (he : SlotEffect t x t')
    (hr : x.returned? = none) : t'.slot.reached? = t.slot.reached? := by
  cases he with
  | same hs => rw [hs]
  | setUp hs hs' => rw [hs, hs']; rfl
  | kept d chain chain' hr' =>
    rw [hr] at hr'
    cases hr'

/-- A registration pushes onto the chain or leaves it as it is. -/
theorem Registration.chain_step {d : Destructor} {memory : Bool} {caller : Caller}
    (hr : a.Registration d memory caller events b) {chain' : Chain}
    (hc' : b.thread.slot.reached? = some chain') :
    ∃ chain, a.thread.slot.reached? = some chain ∧ chain.Step chain' := by
  cases hr with
  | tooLate gone hdie =>
    obtain ⟨rfl, rfl⟩ := Prod.mk.inj hdie
    exact ⟨chain', hc', .same⟩
  | refused chain hc held he hb =>
    subst hb
    exact ⟨chain', (a.thread.reached?_touchSlot).symm.trans hc', .same⟩
  | exhausted chain hc free hp hx =>
    rw [hx.thread_eq] at hc'
    exact ⟨chain', (a.thread.reached?_touchSlot).symm.trans hc', .same⟩
  | kept chain chain'' hc free hp he hb =>
    subst hb
    have hpushed := Slot.reached?_of_chain? (Slot.chain?_setChain hc chain'')
    obtain rfl := Option.some.inj (hpushed.symm.trans hc')
    exact ⟨chain, (a.thread.chain?_touchSlot).symm.trans hc, .pushed memory d hp⟩

/-- What a registration comes to that finds a chain in reach. -/
theorem Registration.push_cases {d : Destructor} {memory : Bool} {caller : Caller} {chain : Chain}
    (hr : a.Registration d memory caller events b)
    (hc : a.thread.touchSlot.slot.chain? = some chain) (free : a.chainHeld = false) :
    (∃ chain', chain.push? memory d = some chain' ∧ events = [.notice (.registered d.context)]) ∨
    (chain.push? memory d = none ∧
      { a with thread := a.thread.touchSlot }.Exhaustion caller true events b) := by
  cases hr with
  | tooLate gone =>
    rw [(a.thread.chain?_touchSlot_eq_none_iff).2 gone] at hc
    cases hc
  | refused _ _ held =>
    rw [free] at held
    cases held
  | exhausted chain' hc' _ hp hx =>
    obtain rfl := Option.some.inj (hc.symm.trans hc')
    exact .inr ⟨hp, hx⟩
  | kept chain' chain'' hc' _ hp he =>
    obtain rfl := Option.some.inj (hc.symm.trans hc')
    exact .inl ⟨chain'', hp, he⟩

/-- A hook that hands control back to a native caller leaves all as it was. -/
theorem Exhaustion.of_unwinding {held : Bool} (hx : a.Exhaustion .native held events b)
    (hook : a.hooks.exhausted? = some .unwinding) :
    events = [.notice .outOfMemory, .exhaustedUnwound] ∧ b = a := by
  cases hx with
  | unwound _ _ he hb => exact ⟨he, hb⟩
  | native hook' | leaves _ _ hook' | nested _ _ hook' | aborts _ hook' =>
    rw [hook] at hook'
    cases hook'
  | stuck _ hforeign => cases hforeign

variable [Bodies β]

/-- Every task leaves the chain as it is, pushes onto it or pops from it. -/
theorem Does.chain_step (hs : a.Stacked h) {task : Task} (hd : a.Does task events b)
    {chain' : Chain} (hc' : b.thread.slot.reached? = some chain') :
    ∃ chain, a.thread.slot.reached? = some chain ∧ chain.Step chain' := by
  obtain ⟨rest, ht, hp, turn⟩ := hd.perform_turn
  cases turn with
  | acted action hx outlook effect =>
    obtain rfl : task = .act action := hx
    cases action with
    | register d memory caller => exact (registration hp).chain_step hc'
    | pending | touch | whenTornDown | setExitHook | setExhaustedHook | exit | abort | exhausted
    | fatal => exact ⟨chain', (effect.reached?_eq rfl).symm.trans hc', .same⟩
  | bare hx he ho hb | ownTornDown order hx he ho hb | drainRefused ran hx he held hb
  | finished e held hx he hb =>
    subst hb
    exact ⟨chain', hc', .same⟩
  | slotTornDown order hx he ho hb =>
    -- the chain of the slot is the one that is drained
    subst hb
    obtain ⟨⟨chain, hlive⟩, -⟩ := hs.slot_of_order ho
    refine ⟨chain', ?_, .same⟩
    rw [← hc', hlive]
    rfl
  | drainEnded ran hx he free hw hb =>
    subst hb
    cases hc'
  | started ran d chain chain'' hx he free hc hpop hb =>
    subst hb
    obtain rfl := Option.some.inj hc'
    exact ⟨chain, Slot.reached?_of_chain? hc, .popped d (Chain.pop?_eq_some_iff.2 hpop)⟩

/-- The destructor of a registration that came back is on top of the others. -/
theorem Does.waiting_of_returned? {task : Task} {d : Destructor} (hd : a.Does task events b)
    (hx : Deed.returned? ⟨task, events⟩ = some d) : b.waiting = d :: a.waiting := by
  obtain ⟨rest, ht, turn⟩ := hd.turn
  cases turn with
  | acted action hx' outlook effect =>
    rw [waiting, effect.waiting_eq, hx]
    rfl
  | bare ht' | slotTornDown _ ht' | ownTornDown _ ht' | drainRefused _ ht' | drainEnded _ ht'
  | started _ _ _ _ ht' | finished _ _ ht' =>
    -- only an action is a registration
    have hno : Deed.registration? ⟨task, events⟩ = none :=
      Deed.registration?_eq_none fun action hact => by cases ht'.symm.trans hact
    rw [Deed.returned?, hno] at hx
    cases hx

/-! ### Whole lives -/

/-- What is reached by a history was reached by each part of it in turn. -/
theorem Reaches.split (hr : a.Reaches h c) (hh : h = g ++ k) :
    ∃ b, a.Reaches g b ∧ b.Reaches k c := by
  induction hr generalizing k with
  | refl =>
    obtain ⟨rfl, rfl⟩ := List.append_eq_nil_iff.1 hh.symm
    exact ⟨a, .refl a, .refl a⟩
  | @deed h b c task events hr hd _ ih =>
    rcases List.eq_nil_or_concat k with rfl | ⟨k, x, rfl⟩
    · -- all of the history is in the first part
      obtain rfl : h ++ [⟨task, events⟩] = g := by simpa using hh
      exact ⟨c, Reaches.deed hr hd, .refl c⟩
    · rw [List.concat_eq_append, ← List.append_assoc] at hh
      obtain ⟨hbefore, hlast⟩ := List.append_inj' hh rfl
      obtain ⟨z, hz, hzb⟩ := ih hbefore
      rw [List.concat_eq_append, ← List.singleton_inj.1 hlast]
      exact ⟨z, hz, hzb.deed hd⟩
  | meanwhile hooks bodies _ _ ih =>
    obtain ⟨z, hz, hzb⟩ := ih hh
    exact ⟨z, hz, hzb.meanwhile hooks bodies⟩

/-- What waits is what stands in the history. -/
theorem Lives.waiting_length (ha : a.Lives h) : a.waiting.length = h.standing := by
  rw [History.standing, ha.ledger.returned.length_eq, List.length_append]
  exact (Nat.add_sub_cancel_left ..).symm

/-- The peak is the longest that the chain has been at any time of the life. -/
theorem Lives.isGreatest_peak (ha : a.Lives h) :
    IsGreatest {n | ∃ (g k : History) (b : Activity β), h = g ++ k ∧ b.Lives g ∧ b.Reaches k a ∧
      b.waiting.length = n} h.peak := by
  obtain ⟨⟨g, ⟨k, hk⟩, hg⟩, hmax⟩ := History.isGreatest_peak h
  constructor
  · obtain ⟨hooks, bodies, actions, hr⟩ := ha
    obtain ⟨b, hb, hba⟩ := hr.split hk.symm
    have hlives : b.Lives g := ⟨hooks, bodies, actions, hb⟩
    exact ⟨g, k, b, hk.symm, hlives, hba, hlives.waiting_length.trans hg⟩
  · rintro n ⟨g, k, b, rfl, hb, -, rfl⟩
    exact hmax ⟨g, List.prefix_append g k, hb.waiting_length.symm⟩

/-- A registration that came back stood at that time. -/
theorem Lives.peak_pos (ha : a.Lives h) (hne : h.returned ≠ []) : 0 < h.peak := by
  obtain ⟨hooks, bodies, actions, hr⟩ := ha
  induction hr with
  | refl => exact absurd rfl hne
  | @deed h b c task events hr hd _ ih =>
    have hc : c.Lives (h ++ [⟨task, events⟩]) := ⟨hooks, bodies, actions, Reaches.deed hr hd⟩
    rw [History.peak_concat, ← hc.waiting_length]
    cases hx : Deed.returned? ⟨task, events⟩ with
    | none =>
      have hbefore : h.returned ≠ [] := by simpa [hx] using hne
      exact (ih hbefore).trans_le (le_max_left _ _)
    | some d =>
      refine lt_of_lt_of_le ?_ (le_max_right _ _)
      rw [hd.waiting_of_returned? hx]
      exact Nat.succ_pos _
  | meanwhile hooks bodies _ _ ih => exact ih hne

/-- The chain of a slot has the room that its past took. -/
theorem Lives.fits (ha : a.Lives h) {chain : Chain} (hc : a.thread.slot.reached? = some chain) :
    chain.Fits h.peak := by
  obtain ⟨hooks, bodies, actions, hr⟩ := ha
  induction hr generalizing chain with
  | refl =>
    obtain rfl := Option.some.inj hc
    exact .empty
  | @deed h b c task events hr hd _ ih =>
    have hb : b.Lives h := ⟨hooks, bodies, actions, hr⟩
    have hlives : c.Lives (h ++ [⟨task, events⟩]) := hb.reaches ((Reaches.refl b).deed hd)
    obtain ⟨before, hbefore, hstep⟩ := hd.chain_step hb.stacked hc
    rw [History.peak_concat, ← hlives.waiting_length, waiting, Slot.waiting_of_reached? hc]
    exact (ih hbefore).step hstep
  | meanwhile hooks bodies _ _ ih => exact ih hc

/-- A registration that finds a chain in reach is kept if there is memory or room for it. Otherwise
memory ran out, and the slot is all that was set up before the hook for that was called. -/
theorem Lives.register_cases (ha : a.Lives h) {d : Destructor} {memory : Bool} {caller : Caller}
    {chain : Chain} (hc : a.thread.touchSlot.slot.chain? = some chain)
    (hno : ∀ x ∈ h, ¬ x.EndsInRegistration)
    (hd : a.Does (.act (.register d memory caller)) events b) :
    ((memory = true ∨ chain.entries.length < chain.capacity) ∧
      RegistrationOutcome.kept.Holds a d events b) ∨
    (¬ (memory = true ∨ chain.entries.length < chain.capacity) ∧
      RegistrationOutcome.exhausted.Holds a d events b ∧
      Exhaustion { a with thread := a.thread.touchSlot, tasks := a.tasks.tail } caller true
        events b) := by
  obtain ⟨o, ho⟩ : ∃ o : RegistrationOutcome, o.Holds a d events b := by
    obtain ⟨ho, -⟩ | ⟨ho, -⟩ | ⟨ho | ho, -⟩ := ha.registration hd <;> exact ⟨_, ho⟩
  obtain ⟨rest, ht, hp⟩ := hd
  have free : { a with tasks := rest }.chainHeld = false := by
    apply Bool.eq_false_iff.2
    intro held
    obtain ⟨x, hx, hxe⟩ := (ha.chainHeld_below_iff ht).1 held
    exact hno x hx hxe
  have hr : Registration { a with tasks := rest } d memory caller events b :=
    Activity.registration hp
  -- what is observed first tells which of the outcomes it is
  rw [← Chain.exists_push?_iff (d := d), ht]
  obtain ⟨chain', hpush, he⟩ | ⟨hpush, hx⟩ := hr.push_cases hc free
  · obtain rfl : o = .kept := Option.some.inj (ho.ofEvents_eq.symm.trans (by rw [he]; rfl))
    exact .inl ⟨⟨chain', hpush⟩, ho⟩
  · obtain ⟨called, later, he, -⟩ := hx.exhaustedBy
    obtain rfl : o = .exhausted := Option.some.inj (ho.ofEvents_eq.symm.trans (by rw [he]; rfl))
    refine .inr ⟨?_, ho, hx⟩
    rintro ⟨chain', hpush'⟩
    rw [hpush] at hpush'
    cases hpush'

/-- **Room is made only when it must be, and nothing is lost when it cannot.** At any time of a
thread's life the chain of its slot has room for no entry if no registration came back so far, and
otherwise for the smallest number `4 * 2 ^ k` that is no less than the longest the chain has been.
The room is never less later on while there is a chain. A registration that finds the chain in reach
is kept just if there is memory or the chain is shorter than its room. Otherwise memory ran out and
the chain is as it was; and where the hook for that hands control back, the thread is left as if it
had only touched the slot, so whatever is done later comes out the same. -/
theorem capacity_fits_peak (ha : a.Lives h) :
    IsGreatest {n | ∃ (g k : History) (b : Activity β), h = g ++ k ∧ b.Lives g ∧ b.Reaches k a ∧
      b.waiting.length = n} h.peak ∧
    (∀ chain, a.thread.slot.chain? = some chain →
      (h.returned = [] → chain.capacity = 0) ∧
      (h.returned ≠ [] → IsLeast {n | (∃ k, n = 4 * 2 ^ k) ∧ h.peak ≤ n} chain.capacity) ∧
      ∀ k b later, a.Reaches k b → b.thread.slot.chain? = some later →
        chain.capacity ≤ later.capacity) ∧
    (∀ d memory caller events b chain, a.thread.touchSlot.slot.chain? = some chain →
      (∀ x ∈ h, ¬ x.EndsInRegistration) → a.Does (.act (.register d memory caller)) events b →
      (RegistrationOutcome.kept.Holds a d events b ↔
        memory = true ∨ chain.entries.length < chain.capacity) ∧
      (¬ RegistrationOutcome.kept.Holds a d events b →
        RegistrationOutcome.exhausted.Holds a d events b ∧ b.thread.slot.chain? = some chain ∧
        (a.hooks.exhausted? = some .unwinding → caller = .native →
          events = [.notice .outOfMemory, .exhaustedUnwound] ∧
          Does { a with tasks := .act .touch :: a.tasks.tail } (.act .touch) [] b))) := by
  refine ⟨ha.isGreatest_peak, ?_, ?_⟩
  · intro chain hc
    have hfits := ha.fits (Slot.reached?_of_chain? hc)
    refine ⟨fun hr => hfits.unused (History.peak_eq_zero h hr),
      fun hr => hfits.least (ha.peak_pos hr), ?_⟩
    intro k b later hr hl
    have hlater := (ha.reaches hr).fits (Slot.reached?_of_chain? hl)
    exact hfits.capacity_mono hlater (History.peak_le_append h k)
  · intro d memory caller events b chain hc hno hd
    obtain ⟨hroom, hkept⟩ | ⟨hroom, hexhausted, hx⟩ := ha.register_cases hc hno hd
    · exact ⟨iff_of_true hkept hroom, fun hn => absurd hkept hn⟩
    have hthread : b.thread = a.thread.touchSlot := hx.thread_eq
    refine ⟨iff_of_false ?_ hroom, fun _ => ⟨hexhausted, by rw [hthread]; exact hc, ?_⟩⟩
    · intro hkept
      cases Option.some.inj (hexhausted.ofEvents_eq.symm.trans hkept.ofEvents_eq)
    · rintro hook rfl
      obtain ⟨hevents, hb⟩ := hx.of_unwinding hook
      subst hb
      exact ⟨hevents, a.tasks.tail, rfl, rfl⟩

/-- Destructors of which the one with context 4 registers two others without memory. -/
def starved (d : Destructor) : List Action :=
  if d.context = 4 then [.register ⟨"a", 5⟩ false .native, .register ⟨"a", 6⟩ false .native] else []

/-- In the middle of a drain, without memory: the place of the entry that was taken off is left for
one registration, and the next one leaves the chain as it was. -/
theorem capacity_fits_peak_drain :
    ∃ (a b c : Activity (Destructor → List Action)) (g h : History) (chain : Chain)
      (events : List Thread.Event), a.Lives g ∧ b.Lives h ∧ h.peak = 4 ∧
      a.Does (.act (.register ⟨"a", 5⟩ false .native)) [.notice (.registered 5)] b ∧
      RegistrationOutcome.kept.Holds a ⟨"a", 5⟩ [.notice (.registered 5)] b ∧
      b.thread.slot.chain? = some chain ∧ chain.entries.map Destructor.context = [5, 3, 2, 1] ∧
      IsLeast {n | (∃ k, n = 4 * 2 ^ k) ∧ 4 ≤ n} chain.capacity ∧
      b.Does (.act (.register ⟨"a", 6⟩ false .native)) events c ∧
      events = [.notice .outOfMemory, .exhaustedUnwound] ∧ c.thread.slot.chain? = some chain := by
  have hr : (life { exhausted? := some .unwinding } starved
      [.register ⟨"a", 1⟩ true .native, .register ⟨"a", 2⟩ true .native,
        .register ⟨"a", 3⟩ true .native, .register ⟨"a", 4⟩ true .native]).Runs _ _ :=
    .deed ⟨_, rfl, rfl⟩ (.deed ⟨_, rfl, rfl⟩ (.deed ⟨_, rfl, rfl⟩ (.deed ⟨_, rfl, rfl⟩
      (.deed ⟨_, rfl, rfl⟩ (.deed ⟨_, rfl, rfl⟩ (.refl _))))))
  have ha : Lives _ _ := ⟨_, _, _, hr.reaches⟩
  have hb : Lives _ _ := ha.reaches (Runs.reaches (.single ⟨_, rfl, rfl⟩))
  obtain ⟨-, -, hbefore⟩ := capacity_fits_peak ha
  obtain ⟨-, hroom, hafter⟩ := capacity_fits_peak hb
  obtain ⟨hkept, -⟩ := hbefore ⟨"a", 5⟩ false .native _ _ _ rfl
    (by simp [Deed.EndsInRegistration]) ⟨_, rfl, rfl⟩
  obtain ⟨hneither, hexhausted⟩ := hafter ⟨"a", 6⟩ false .native _ _ _ rfl
    (by simp [Deed.EndsInRegistration]) ⟨_, rfl, rfl⟩
  have hfull := hexhausted (mt hneither.1 (by decide))
  exact ⟨_, _, _, _, _, _, _, ha, hb, rfl, ⟨_, rfl, rfl⟩, hkept.2 (by decide), rfl, rfl,
    (hroom _ rfl).2.1 (by decide), ⟨_, rfl, rfl⟩, (hfull.2.2 rfl rfl).1, hfull.2.1⟩

end Activity

end HostServices
