import HostServices.Proofs.Thread.History

/-!
# What one task can do

Every task, taken apart once. An action leaves its caller in one of three positions (`Outlook`): it
goes on, the process ended, or the process is about to end in good order and the caller never comes
back. On the slot it has one of three effects (`SlotEffect`): none, the slot is set up, or an entry
is on top of its chain.

`Exhaustion` and `Registration` list the ways in which the hook for exhausted memory is called and
in which a registration comes out. `Turn` lists what any task can do; all that is known of a
thread's life is proved from these, and no later proof opens a task again.
-/

namespace HostServices

variable {β : Type}

/-! ### Slots -/

namespace Slot

/-- Whether the slot is a local in use. -/
def isLive : Slot → Bool
  | live _ => true
  | _ => false

@[simp] theorem isLive_live (chain : Chain) : (live chain).isLive = true := rfl

@[simp] theorem isLive_draining (chain : Chain) : (draining chain).isLive = false := rfl

@[simp] theorem isLive_untouched : untouched.isLive = false := rfl

@[simp] theorem isLive_gone : gone.isLive = false := rfl

@[simp] theorem isLive_setChain (s : Slot) (chain : Chain) :
    (s.setChain chain).isLive = s.isLive := by
  cases s <;> rfl

@[simp] theorem chain?_untouched : untouched.chain? = none := rfl

@[simp] theorem chain?_gone : gone.chain? = none := rfl

@[simp] theorem waiting_untouched : untouched.waiting = [] := rfl

@[simp] theorem waiting_gone : gone.waiting = [] := rfl

@[simp] theorem waiting_live (chain : Chain) : (live chain).waiting = chain.entries := rfl

@[simp] theorem waiting_draining (chain : Chain) : (draining chain).waiting = chain.entries := rfl

theorem waiting_of_chain? {s : Slot} {chain : Chain} (h : s.chain? = some chain) :
    s.waiting = chain.entries := by
  rw [waiting, h]

theorem bind_pop?_eq_none_iff {s : Slot} : s.chain?.bind Chain.pop? = none ↔ s.waiting = [] := by
  cases hc : s.chain? with
  | none => simp [waiting, hc]
  | some chain => rw [waiting_of_chain? hc, Option.bind_some, Chain.pop?_eq_none_iff]

end Slot

/-- The actions that wait for the teardown of a thread's own local. -/
def OwnLocal.actions : OwnLocal → List Action
  | live actions => actions
  | untouched | gone => []

namespace Thread

theorem waiting_touchSlot (t : Thread) : t.touchSlot.slot.waiting = t.slot.waiting := by
  unfold touchSlot
  split
  · next hs => rw [hs]; rfl
  · rfl

theorem own_touchSlot (t : Thread) : t.touchSlot.own = t.own := by
  unfold touchSlot
  split <;> rfl

theorem slot_whenTornDown (t : Thread) (actions : List Action) :
    (t.whenTornDown actions).slot = t.slot := by
  unfold whenTornDown
  split <;> rfl

end Thread

/-! ### Ends of the process and exhausted memory -/

namespace Activity

variable {a b : Activity β} {events : List Thread.Event}

/-- A process that is asked to end in good order either does, or it is already about to and gives
up. -/
theorem leave_cases (a : Activity β) (e : Ending) (held : Bool) :
    (a.finishing? = none ∧ a.leave e held = ([], { a with tasks := [.tearDown, .finish e held] })) ∨
    (a.finishing? ≠ none ∧ a.leave e held = ([.lastWords stuckWords], a.stop .aborted)) := by
  unfold leave
  cases hf : a.finishing? with
  | none => exact .inl ⟨rfl, rfl⟩
  | some held' => exact .inr ⟨Option.some_ne_none _, rfl⟩

/-- The ways in which the hook for exhausted memory is called. -/
inductive Exhaustion (a : Activity β) (caller : Caller) (held : Bool)
    (events : List Thread.Event) (b : Activity β) : Prop
  /-- No hook is installed, and the process gives up. -/
  | native (hook : a.hooks.exhausted? = none)
      (he : events = [.notice .outOfMemory, .lastWords exhaustedWords]) (hb : b = a.stop .aborted)
  /-- The hook ends the process in good order. -/
  | leaves (name : String) (code : Nat) (hook : a.hooks.exhausted? = some (.ending name code))
      (hf : a.finishing? = none) (he : events = [.notice .outOfMemory, .exhaustedHook name])
      (hb : b = { a with tasks := [.tearDown, .finish (.code code) held] })
  /-- The hook asks for the end of a process that is already about to end. -/
  | nested (name : String) (code : Nat) (hook : a.hooks.exhausted? = some (.ending name code))
      (hf : a.finishing? ≠ none)
      (he : events = [.notice .outOfMemory, .exhaustedHook name, .lastWords stuckWords])
      (hb : b = a.stop .aborted)
  /-- The hook aborts the process. -/
  | aborts (name : String) (hook : a.hooks.exhausted? = some (.aborting name))
      (he : events = [.notice .outOfMemory, .exhaustedHook name]) (hb : b = a.stop .aborted)
  /-- The hook hands control back to a native caller. -/
  | unwound (hook : a.hooks.exhausted? = some .unwinding) (hc : caller = .native)
      (he : events = [.notice .outOfMemory, .exhaustedUnwound]) (hb : b = a)
  /-- The hook cannot hand control back to a foreign caller. -/
  | stuck (hook : a.hooks.exhausted? = some .unwinding) (hc : caller = .foreign)
      (he : events = [.notice .outOfMemory, .lastWords stuckWords]) (hb : b = a.stop .aborted)

theorem exhaustion {caller : Caller} {held : Bool} (h : a.exhaust caller held = (events, b)) :
    a.Exhaustion caller held events b := by
  unfold exhaust at h
  split at h
  · next hook =>
    obtain ⟨rfl, rfl⟩ := Prod.mk.inj h
    exact .native hook rfl rfl
  · next name code hook =>
    obtain ⟨hf, hl⟩ | ⟨hf, hl⟩ := a.leave_cases (.code code) held
    · rw [hl] at h
      obtain ⟨rfl, rfl⟩ := Prod.mk.inj h
      exact .leaves name code hook hf rfl rfl
    · rw [hl] at h
      obtain ⟨rfl, rfl⟩ := Prod.mk.inj h
      exact .nested name code hook hf rfl rfl
  · next name hook =>
    obtain ⟨rfl, rfl⟩ := Prod.mk.inj h
    exact .aborts name hook rfl rfl
  · next hook =>
    obtain ⟨rfl, rfl⟩ := Prod.mk.inj h
    exact .unwound hook rfl rfl rfl
  · next hook =>
    obtain ⟨rfl, rfl⟩ := Prod.mk.inj h
    exact .stuck hook rfl rfl rfl

theorem Exhaustion.thread_eq {caller : Caller} {held : Bool}
    (h : a.Exhaustion caller held events b) : b.thread = a.thread := by
  cases h <;> simp_all [stop]

/-! ### Registrations -/

/-- The ways in which a registration comes out. -/
inductive Registration (a : Activity β) (d : Destructor) (memory : Bool) (caller : Caller)
    (events : List Thread.Event) (b : Activity β) : Prop
  /-- The destructors of the thread already ran, and the process gives up. -/
  | tooLate (gone : a.thread.slot = .gone) (h : a.die Activity.tooLate = (events, b))
  /-- The chain is out of reach, and the process gives up. -/
  | refused (chain : Chain) (hc : a.thread.touchSlot.slot.chain? = some chain)
      (held : a.chainHeld = true) (he : events = [.lastWords (failedCallWords caller)])
      (hb : b = { a with thread := a.thread.touchSlot }.stop .aborted)
  /-- There is no memory. -/
  | exhausted (chain : Chain) (hc : a.thread.touchSlot.slot.chain? = some chain)
      (free : a.chainHeld = false) (hp : chain.push? memory d = none)
      (h : { a with thread := a.thread.touchSlot }.Exhaustion caller true events b)
  /-- The destructor is on the chain. -/
  | kept (chain chain' : Chain) (hc : a.thread.touchSlot.slot.chain? = some chain)
      (free : a.chainHeld = false) (hp : chain.push? memory d = some chain')
      (he : events = [.notice (.registered d.context)])
      (hb : b = { a with
        thread := { a.thread.touchSlot with slot := a.thread.touchSlot.slot.setChain chain' } })

theorem registration {d : Destructor} {memory : Bool} {caller : Caller}
    (h : a.register d memory caller = (events, b)) :
    a.Registration d memory caller events b := by
  unfold register at h
  simp only at h
  split at h
  · next hc =>
    have hg := (a.thread.chain?_touchSlot_eq_none_iff).1 hc
    -- a slot that is gone is not set up again
    have ht : a.thread.touchSlot = a.thread := by simp [Thread.touchSlot, hg]
    rw [ht] at h
    exact .tooLate hg h
  · next chain hc =>
    split at h
    · next held =>
      obtain ⟨rfl, rfl⟩ := Prod.mk.inj h
      exact .refused chain hc held rfl rfl
    · next free =>
      replace free : a.chainHeld = false := Bool.eq_false_iff.2 free
      split at h
      · next hp => exact .exhausted chain hc free hp (exhaustion h)
      · next chain' hp =>
        obtain ⟨rfl, rfl⟩ := Prod.mk.inj h
        exact .kept chain chain' hc free hp rfl rfl

/-! ### Actions -/

/-- The position of the caller of an action, once the action is done. -/
inductive Outlook (a : Activity β) (x : Deed) (b : Activity β) : Prop
  /-- It goes on. A registration came back or was unwound. -/
  | goesOn (ht : b.tasks = a.tasks) (he : b.ending? = a.ending?)
      (settled : x.registration?.toList = x.returned?.toList ++ x.unwound?.toList)
      (free : ¬ x.EndsInRegistration)
  /-- The process ended. -/
  | stops (ht : b.tasks = []) (he : b.ending? ≠ none)
  /-- The process is about to end in good order. -/
  | leaves (e : Ending) (held : Bool) (hf : a.finishing? = none)
      (ht : b.tasks = [.tearDown, .finish e held]) (he : b.ending? = a.ending?)
      (hheld : held = true ↔ x.EndsInRegistration)
      (hchain : held = true → b.thread.slot.chain? ≠ none)

/-- What an action does to the slot of its thread. -/
inductive SlotEffect (t : Thread) (x : Deed) (t' : Thread) : Prop
  | same (hs : t'.slot = t.slot) (ho : t'.order.count .slot = t.order.count .slot)
      (used : x.usesSlot = true → t.slot ≠ .untouched) (quiet : x.Quiet)
  | setUp (hs : t.slot = .untouched) (hs' : t'.slot = .live .empty)
      (ho : t'.order.count .slot = t.order.count .slot + 1) (used : x.usesSlot = true)
      (quiet : x.Quiet)
  | kept (d : Destructor) (chain chain' : Chain) (hr : x.returned? = some d) (ran : x.ran = [])
      (drained : x.drained = []) (used : x.usesSlot = true)
      (hc : t.touchSlot.slot.chain? = some chain) (hc' : chain'.entries = d :: chain.entries)
      (ht' : t' = { t.touchSlot with slot := t.touchSlot.slot.setChain chain' })

theorem slotEffect_touchSlot (t : Thread) {x : Deed} (used : x.usesSlot = true)
    (quiet : x.Quiet) : SlotEffect t x t.touchSlot := by
  unfold Thread.touchSlot
  split
  · next hs => exact .setUp hs rfl (by simp) used quiet
  · next hs => exact .same rfl rfl (fun _ => hs) quiet

/-- An action that does not use the slot leaves it as it is. -/
theorem SlotEffect.slot_eq {t t' : Thread} {x : Deed} (he : SlotEffect t x t')
    (hu : x.usesSlot = false) : t'.slot = t.slot := by
  cases he with
  | same hs => exact hs
  | setUp hs hs' ho used | kept d chain chain' hr ran drained used =>
    rw [used] at hu
    cases hu

theorem slotEffect_of_eq {t t' : Thread} {x : Deed} (hs : t'.slot = t.slot)
    (ho : t'.order.count .slot = t.order.count .slot) (used : x.usesSlot = false)
    (quiet : x.Quiet) : SlotEffect t x t' :=
  .same hs ho (fun h => absurd (used ▸ h) Bool.false_ne_true) quiet

theorem quiet_of_registration?_eq_none {x : Deed} (hr : x.registration? = none) (ran : x.ran = [])
    (drained : x.drained = []) : x.Quiet :=
  ⟨by rw [Deed.returned?, hr]; rfl, ran, drained⟩

theorem outlook_goesOn {x : Deed} (hr : x.registration? = none) (ht : b.tasks = a.tasks)
    (he : b.ending? = a.ending?) : Outlook a x b :=
  .goesOn ht he (by rw [Deed.returned?, Deed.unwound?, hr]; rfl)
    (fun h => by rw [Deed.EndsInRegistration, hr] at h; simp at h)

theorem outlook_leave {x : Deed} {e : Ending} (free : ¬ x.EndsInRegistration) :
    Outlook a x (a.leave e false).2 := by
  obtain ⟨hf, hl⟩ | ⟨-, hl⟩ := a.leave_cases e false
  · rw [hl]
    exact .leaves e false hf rfl rfl (by simp [free]) nofun
  · rw [hl]
    exact .stops rfl (Option.some_ne_none _)

@[simp] theorem thread_leave (e : Ending) (held : Bool) : (a.leave e held).2.thread = a.thread := by
  obtain ⟨-, hl⟩ | ⟨-, hl⟩ := a.leave_cases e held
  · rw [hl]
  · rw [hl]
    rfl

theorem events_leave (e : Ending) (held : Bool) :
    (a.leave e held).1 = [] ∨ (a.leave e held).1 = [.lastWords stuckWords] := by
  obtain ⟨-, hl⟩ | ⟨-, hl⟩ := a.leave_cases e held <;> simp [hl]

/-- The position of a registration that ran out of memory, or of an action that says so. -/
theorem Exhaustion.outlook {caller : Caller} {held : Bool} {x : Deed}
    (h : a.Exhaustion caller held events b) (he : x.events = events)
    (hheld : held = x.registration?.isSome)
    (hchain : held = true → a.thread.slot.chain? ≠ none) : Outlook a x b := by
  cases h with
  | native hook he' hb => exact .stops (by rw [hb]; rfl) (by simp [hb, stop])
  | leaves name code hook hf he' hb =>
    -- the end of the process holds the chain if a registration called the hook
    refine .leaves (.code code) held hf (by rw [hb]) (by rw [hb]) ?_ (by rw [hb]; exact hchain)
    simp [Deed.EndsInRegistration, he, he', hheld]
  | nested name code hook hf he' hb => exact .stops (by rw [hb]; rfl) (by simp [hb, stop])
  | aborts name hook he' hb => exact .stops (by rw [hb]; rfl) (by simp [hb, stop])
  | unwound hook hc he' hb =>
    refine .goesOn (by rw [hb]) (by rw [hb]) ?_ ?_
    · cases hr : x.registration? <;>
        simp [Deed.returned?, Deed.unwound?, hr, he, he', Option.filter]
    · simp [Deed.EndsInRegistration, he, he']
  | stuck hook hc he' hb => exact .stops (by rw [hb]; rfl) (by simp [hb, stop])

theorem Exhaustion.quiet {caller : Caller} {held : Bool} {x : Deed}
    (h : a.Exhaustion caller held events b) (he : x.events = events) : x.Quiet := by
  -- none of the ways to call the hook is observed as a registration, a run or the end of a drain
  have hev : ∃ called, x.events = called ∧ (∀ n, .notice (.registered n) ∉ called) ∧
      called.filterMap Thread.Event.ran? = [] ∧ called.filterMap Thread.Event.drained? = [] := by
    cases h <;> exact ⟨_, he.trans ‹_›, by simp, rfl, rfl⟩
  obtain ⟨called, hx, hn, hran, hdrained⟩ := hev
  refine ⟨?_, by rw [Deed.ran, hx, hran], by rw [Deed.drained, hx, hdrained]⟩
  cases hr : x.registration? <;> simp [Deed.returned?, hr, hx, hn, Option.filter]

theorem Registration.turn {d : Destructor} {memory : Bool} {caller : Caller}
    (h : a.Registration d memory caller events b) :
    Outlook a ⟨.act (.register d memory caller), events⟩ b ∧
      SlotEffect a.thread ⟨.act (.register d memory caller), events⟩ b.thread := by
  cases h with
  | tooLate gone h =>
    obtain ⟨rfl, rfl⟩ := Prod.mk.inj h
    exact ⟨.stops rfl (Option.some_ne_none _),
      .same rfl rfl (fun _ => by simp [gone]) ⟨by simp [Deed.returned?, Deed.registration?,
        Option.filter], rfl, rfl⟩⟩
  | refused chain hc held he hb =>
    subst hb he
    exact ⟨.stops rfl (Option.some_ne_none _), slotEffect_touchSlot _ rfl
      ⟨by simp [Deed.returned?, Deed.registration?, Option.filter], rfl, rfl⟩⟩
  | exhausted chain hc free hp h =>
    refine ⟨?_, ?_⟩
    · -- the slot is set up by now, which does not matter to the position of the caller
      cases h.outlook (x := ⟨.act (.register d memory caller), events⟩) rfl rfl
        (fun _ => by simp [hc]) with
      | goesOn ht he settled free => exact .goesOn ht he settled free
      | stops ht he => exact .stops ht he
      | leaves e held hf ht he hheld hchain => exact .leaves e held hf ht he hheld hchain
    · rw [h.thread_eq]
      exact slotEffect_touchSlot _ rfl (h.quiet rfl)
  | kept chain chain' hc free hp he hb =>
    subst hb he
    have hr : Deed.returned? ⟨.act (.register d memory caller),
        [.notice (.registered d.context)]⟩ = some d := by
      simp [Deed.returned?, Deed.registration?, Option.filter]
    refine ⟨.goesOn rfl rfl ?_ (by simp [Deed.EndsInRegistration]), ?_⟩
    · simp [Deed.returned?, Deed.unwound?, Deed.registration?, Option.filter]
    · exact .kept d chain chain' hr rfl rfl rfl hc (Chain.entries_of_push? hp) rfl

/-- The answer to the question how many destructors wait, unless the chain is out of reach. -/
theorem pending_cases (h : a.pending = (events, b)) :
    ((a.chainHeld = false ∨ a.thread.slot = .gone) ∧ events = [.pending a.waiting.length] ∧
      b = { a with thread := a.thread.touchSlot }) ∨
    (a.chainHeld = true ∧ a.thread.slot ≠ .gone ∧ events = [.lastWords tornWords] ∧
      b = { a with thread := a.thread.touchSlot }.stop .aborted) := by
  have hw : a.thread.touchSlot.slot.waiting = a.waiting := a.thread.waiting_touchSlot
  -- the question sets up the slot, which leaves the entries as they are
  unfold pending at h
  simp only at h
  split at h
  · next hc =>
    have hg := (a.thread.chain?_touchSlot_eq_none_iff).1 hc
    obtain ⟨rfl, rfl⟩ := Prod.mk.inj h
    exact .inl ⟨.inr hg, by simp [waiting, hg], rfl⟩
  · next chain hc =>
    have hg : a.thread.slot ≠ .gone := fun hg => by
      rw [(a.thread.chain?_touchSlot_eq_none_iff).2 hg] at hc
      cases hc
    split at h
    · next held =>
      obtain ⟨rfl, rfl⟩ := Prod.mk.inj h
      exact .inr ⟨held, hg, rfl, rfl⟩
    · next free =>
      obtain ⟨rfl, rfl⟩ := Prod.mk.inj h
      rw [Slot.waiting_of_chain? hc] at hw
      exact .inl ⟨.inl (Bool.eq_false_iff.2 free), by rw [hw], rfl⟩

theorem pending_turn (h : a.pending = (events, b)) :
    Outlook a ⟨.act .pending, events⟩ b ∧ SlotEffect a.thread ⟨.act .pending, events⟩ b.thread := by
  obtain ⟨-, rfl, rfl⟩ | ⟨-, -, rfl, rfl⟩ := pending_cases h
  · exact ⟨outlook_goesOn rfl rfl rfl,
      slotEffect_touchSlot _ rfl (quiet_of_registration?_eq_none rfl rfl rfl)⟩
  · exact ⟨.stops rfl (Option.some_ne_none _),
      slotEffect_touchSlot _ rfl (quiet_of_registration?_eq_none rfl rfl rfl)⟩

theorem exit_turn {status : Int} {caller : Caller} (h : a.exit status caller = (events, b)) :
    Outlook a ⟨.act (.exit status caller), events⟩ b ∧
      SlotEffect a.thread ⟨.act (.exit status caller), events⟩ b.thread := by
  have free : ¬ Deed.EndsInRegistration ⟨.act (.exit status caller), events⟩ :=
    fun h => by simp [Deed.EndsInRegistration, Deed.registration?] at h
  -- whichever way the end is asked for, what is observed moves no entry
  have hleave : ∀ (e : Ending) (opening : List Thread.Event),
      opening.filterMap Thread.Event.ran? = [] → opening.filterMap Thread.Event.drained? = [] →
      (opening ++ (a.leave e false).1, (a.leave e false).2) = (events, b) →
      Outlook a ⟨.act (.exit status caller), events⟩ b ∧
        SlotEffect a.thread ⟨.act (.exit status caller), events⟩ b.thread := by
    intro e opening hran hdrained heq
    obtain ⟨rfl, rfl⟩ := Prod.mk.inj heq
    refine ⟨outlook_leave free, slotEffect_of_eq (by simp) (by simp) rfl
      (quiet_of_registration?_eq_none rfl ?_ ?_)⟩
    · rcases a.events_leave e false with hl | hl <;> simp [Deed.ran, hl, hran]
    · rcases a.events_leave e false with hl | hl <;>
        simp [Deed.drained, hl, hdrained]
  unfold exit at h
  split at h
  · exact hleave _ [.notice (.exiting status)] rfl rfl h
  · next name code _ =>
    exact hleave _ [.notice (.exiting status), .exitHook name status] rfl rfl h
  · obtain ⟨rfl, rfl⟩ := Prod.mk.inj h
    exact ⟨.stops rfl (Option.some_ne_none _),
      slotEffect_of_eq rfl rfl rfl (quiet_of_registration?_eq_none rfl rfl rfl)⟩
  · obtain ⟨rfl, rfl⟩ := Prod.mk.inj h
    exact ⟨outlook_goesOn rfl rfl rfl,
      slotEffect_of_eq rfl rfl rfl (quiet_of_registration?_eq_none rfl rfl rfl)⟩
  · obtain ⟨rfl, rfl⟩ := Prod.mk.inj h
    exact ⟨.stops rfl (Option.some_ne_none _),
      slotEffect_of_eq rfl rfl rfl (quiet_of_registration?_eq_none rfl rfl rfl)⟩

/-- Every action leaves its caller in one of the three positions, and has one of the three effects
on the slot. -/
theorem act_turn {action : Action} (h : a.act action = (events, b)) :
    Outlook a ⟨.act action, events⟩ b ∧ SlotEffect a.thread ⟨.act action, events⟩ b.thread := by
  cases action with
  | register d memory caller => exact (registration h).turn
  | pending => exact pending_turn h
  | exit status caller => exact exit_turn h
  | exhausted =>
    have hx := exhaustion h
    exact ⟨hx.outlook rfl rfl nofun, by
      rw [hx.thread_eq]
      exact slotEffect_of_eq rfl rfl rfl (hx.quiet rfl)⟩
  | touch =>
    obtain ⟨rfl, rfl⟩ := Prod.mk.inj h
    exact ⟨outlook_goesOn rfl rfl rfl,
      slotEffect_touchSlot _ rfl (quiet_of_registration?_eq_none rfl rfl rfl)⟩
  | whenTornDown actions =>
    obtain ⟨rfl, rfl⟩ := Prod.mk.inj h
    refine ⟨outlook_goesOn rfl rfl rfl, slotEffect_of_eq (a.thread.slot_whenTornDown actions) ?_ rfl
      (quiet_of_registration?_eq_none rfl rfl rfl)⟩
    -- the thread's own local is put in front of the slot, which stays where it is
    unfold Thread.whenTornDown
    split <;> simp
  | setExitHook _ | setExhaustedHook _ =>
    obtain ⟨rfl, rfl⟩ := Prod.mk.inj h
    exact ⟨outlook_goesOn rfl rfl rfl,
      slotEffect_of_eq rfl rfl rfl (quiet_of_registration?_eq_none rfl rfl rfl)⟩
  | abort | fatal _ =>
    obtain ⟨rfl, rfl⟩ := Prod.mk.inj h
    exact ⟨.stops rfl (Option.some_ne_none _),
      slotEffect_of_eq rfl rfl rfl (quiet_of_registration?_eq_none rfl rfl rfl)⟩

/-! ### The drain -/

section Drain

variable [Bodies β] {ran : Nat}

theorem drain_of_held (held : a.chainHeld = true) :
    a.drain ran = ([.lastWords tornWords], a.stop .aborted) := by
  rw [drain, held]
  rfl

theorem drain_of_empty (free : a.chainHeld = false) (hw : a.waiting = []) :
    a.drain ran =
      ([.notice (.drained ran)], { a with thread := { a.thread with slot := .gone } }) := by
  have hnone : a.thread.slot.chain?.bind Chain.pop? = none := Slot.bind_pop?_eq_none_iff.2 hw
  simp only [drain, free, hnone]
  rfl

theorem drain_of_entry {d : Destructor} {chain chain' : Chain} (free : a.chainHeld = false)
    (hc : a.thread.slot.chain? = some chain)
    (hc' : chain.entries = d :: chain'.entries ∧ chain'.capacity = chain.capacity) :
    a.drain ran = ([.ran d], { a with
      thread := { a.thread with slot := .draining chain' }
      bodies := (Bodies.next a.bodies d).2
      tasks := (Bodies.next a.bodies d).1.map Task.act ++ Task.drain (ran + 1) :: a.tasks }) := by
  have hpop : a.thread.slot.chain?.bind Chain.pop? = some (d, chain') := by
    rw [hc]
    exact Chain.pop?_eq_some_iff.2 hc'
  simp only [drain, free, hpop]
  rfl

end Drain

/-! ### Any task -/

/-- What is below a task holds the chain if the stack does, unless the task ends the process. -/
theorem chainHeld_below {task : Task} {rest : List Task}
    (ht : a.tasks = task :: rest) (hno : ∀ e held, task ≠ .finish e held) :
    { a with tasks := rest }.chainHeld = a.chainHeld := by
  rw [chainHeld, chainHeld, finishing?, finishing?, ht]
  cases task with
  | finish e held => exact absurd rfl (hno e held)
  | act | drain | tearDown => rfl

/-- What a task can do. `rest` are the tasks below it. -/
inductive Turn [Bodies β] (a : Activity β) (rest : List Task) (x : Deed) (b : Activity β) : Prop
  /-- An action is done. -/
  | acted (action : Action) (hx : x.task = .act action) (outlook : Outlook { a with tasks := rest } x b)
      (effect : SlotEffect a.thread x b.thread)
  /-- All locals are torn down. -/
  | bare (hx : x.task = .tearDown) (he : x.events = []) (ho : a.thread.order = [])
      (hb : b = { a with tasks := rest })
  /-- The teardown of the slot starts. -/
  | slotTornDown (order : List LocalName) (hx : x.task = .tearDown) (he : x.events = [])
      (ho : a.thread.order = .slot :: order)
      (hb : b = { a with
        thread := { a.thread with
          order, slot := .draining (a.thread.slot.chain?.getD .empty) }
        tasks := .drain 0 :: .tearDown :: rest })
  /-- The teardown of the thread's own local starts. -/
  | ownTornDown (order : List LocalName) (hx : x.task = .tearDown)
      (he : x.events = [.localTornDown]) (ho : a.thread.order = .own :: order)
      (hb : b = { a with
        thread := { a.thread with order, own := .gone }
        tasks := a.thread.own.actions.map .act ++ .tearDown :: rest })
  /-- The chain is out of reach of its drain, and the process gives up. -/
  | drainRefused (ran : Nat) (hx : x.task = .drain ran) (he : x.events = [.lastWords tornWords])
      (held : a.chainHeld = true) (hb : b = a.stop .aborted)
  /-- The drain is over. -/
  | drainEnded (ran : Nat) (hx : x.task = .drain ran) (he : x.events = [.notice (.drained ran)])
      (free : { a with tasks := rest }.chainHeld = false) (hw : a.waiting = [])
      (hb : b = { a with thread := { a.thread with slot := .gone }, tasks := rest })
  /-- The destructor on top of the chain starts to run. -/
  | started (ran : Nat) (d : Destructor) (chain chain' : Chain) (hx : x.task = .drain ran)
      (he : x.events = [.ran d]) (free : { a with tasks := rest }.chainHeld = false)
      (hc : a.thread.slot.chain? = some chain)
      (hc' : chain.entries = d :: chain'.entries ∧ chain'.capacity = chain.capacity)
      (hb : b = { a with
        thread := { a.thread with slot := .draining chain' }
        bodies := (Bodies.next a.bodies d).2
        tasks := (Bodies.next a.bodies d).1.map .act ++ .drain (ran + 1) :: rest })
  /-- The process ends. -/
  | finished (e : Ending) (held : Bool) (hx : x.task = .finish e held) (he : x.events = [])
      (hb : b = a.stop e)

/-- There is nothing else that a task can do. -/
theorem Does.turn [Bodies β] {task : Task} (h : a.Does task events b) :
    ∃ rest, a.tasks = task :: rest ∧ a.Turn rest ⟨task, events⟩ b := by
  obtain ⟨rest, ht, hp⟩ := h
  refine ⟨rest, ht, ?_⟩
  cases task with
  | act action =>
    obtain ⟨outlook, effect⟩ := act_turn (a := { a with tasks := rest }) hp
    exact .acted action rfl outlook effect
  | tearDown =>
    simp only [perform, tearDown] at hp
    split at hp
    · next ho =>
      obtain ⟨rfl, rfl⟩ := Prod.mk.inj hp
      exact .bare rfl rfl ho rfl
    · next order ho =>
      obtain ⟨rfl, rfl⟩ := Prod.mk.inj hp
      exact .slotTornDown order rfl rfl ho rfl
    · next order ho =>
      obtain ⟨rfl, rfl⟩ := Prod.mk.inj hp
      exact .ownTornDown order rfl rfl ho rfl
  | drain ran =>
    simp only [perform, drain] at hp
    split at hp
    · next held =>
      obtain ⟨rfl, rfl⟩ := Prod.mk.inj hp
      -- a drain is no end of the process, so the chain is held by what is below it
      exact .drainRefused ran rfl rfl ((chainHeld_below ht nofun).symm.trans held) rfl
    · next free =>
      replace free := Bool.eq_false_iff.2 free
      split at hp
      · next hn =>
        obtain ⟨rfl, rfl⟩ := Prod.mk.inj hp
        exact .drainEnded ran rfl rfl free (Slot.bind_pop?_eq_none_iff.1 hn) rfl
      · next d chain' hs =>
        obtain ⟨chain, hc, hpop⟩ := Option.bind_eq_some_iff.1 hs
        obtain ⟨rfl, rfl⟩ := Prod.mk.inj hp
        exact .started ran d chain chain' rfl rfl free hc (Chain.pop?_eq_some_iff.1 hpop) rfl
  | finish e held =>
    obtain ⟨rfl, rfl⟩ := Prod.mk.inj hp
    exact .finished e held rfl rfl rfl

theorem Does.perform_turn [Bodies β] {task : Task} (h : a.Does task events b) :
    ∃ rest, a.tasks = task :: rest ∧ ({ a with tasks := rest }).perform task = (events, b) ∧
      a.Turn rest ⟨task, events⟩ b := by
  obtain ⟨rest, ht, hp⟩ := id h
  obtain ⟨rest', ht', turn⟩ := h.turn
  obtain rfl : rest' = rest := (List.cons.inj (ht'.symm.trans ht)).2
  exact ⟨rest', ht', hp, turn⟩

end Activity

end HostServices
