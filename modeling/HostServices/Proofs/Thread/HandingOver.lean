import HostServices.Proofs.Thread.Descent

/-!
# Handing over without memory

A destructor may hand its work over to another one, which it registers while it runs. For that no
memory is needed: its own entry is off the chain by then, and the room of that entry is not given
back before the drain is over (`Lives.started`). So a drain in which at most one destructor is
registered between two runs needs no memory at all, and runs whatever is registered
(`Activity.handing_over`).

There is one way in which a drain does not get that far. A hook that was called in a registration
may have asked for the end of the process. That registration still holds the chain, the drain is
refused, and the process gives up before any destructor runs (`Activity.handing_over_refused`).

What a thread reaches during its drain is compared with the state in which the last run started. The
room did not get less since then, and the chain is longer only by what was registered
(`Lives.chain_reached`).
-/

namespace HostServices

open HostServices.Action

/-! ### Taking a history apart -/

namespace History

/-- At most one registration is made between two runs. -/
def HandsOver (k : History) : Prop :=
  ∀ before between after : History, k = before ++ between ++ after → between.ran = [] →
    between.registrations.length ≤ 1

theorem handsOver_of_length_le {k : History} (hk : k.registrations.length ≤ 1) : k.HandsOver := by
  rintro before between after rfl -
  simp only [registrations_append, List.length_append] at hk
  omega

/-- What came after the last run, if there was one. -/
theorem last_run (h : History) :
    h.ran = [] ∨ ∃ (before : History) (x : Deed) (after : History),
      h = before ++ x :: after ∧ x.ran ≠ [] ∧ after.ran = [] := by
  induction h with
  | nil => exact .inl rfl
  | cons x h ih =>
    obtain hran | ⟨before, y, after, rfl, hy, hafter⟩ := ih
    · by_cases hx : x.ran = []
      · left
        rw [ran_cons, hx, hran]
        rfl
      · exact .inr ⟨[], x, h, rfl, hx, hran⟩
    · exact .inr ⟨x :: before, y, after, rfl, hy, hafter⟩

end History

theorem Chain.Fits.length_le_capacity {c : Chain} {peak : Nat} (h : c.Fits peak) :
    c.entries.length ≤ c.capacity :=
  h.length_le.trans h.peak_le_capacity

namespace Activity

variable {β : Type} [Bodies β] {a b c : Activity β} {h k g : History} {x : Deed} {task : Task}
  {events : List Thread.Event} {rest : List Task} {d : Destructor} {chain : Chain}

/-- Without a deed other threads only were at work. -/
theorem Reaches.eq_of_nil (hr : a.Reaches k b) (hk : k = []) :
    ∃ hooks bodies, b = { a with hooks, bodies } := by
  induction hr with
  | refl => exact ⟨a.hooks, a.bodies, rfl⟩
  | deed => simp at hk
  | meanwhile hooks bodies _ _ ih =>
    obtain ⟨_, _, rfl⟩ := ih hk
    exact ⟨hooks, bodies, rfl⟩

/-- The first deed is done by a state that differs by what other threads did. -/
theorem Reaches.uncons (hr : a.Reaches k c) (hk : k = x :: g) :
    ∃ hooks bodies b, { a with hooks, bodies }.Does x.task x.events b ∧ b.Reaches g c := by
  induction hr generalizing g with
  | refl => cases hk
  | @deed h b c task events hr hd _ ih =>
    cases h with
    | nil =>
      obtain ⟨rfl, rfl⟩ := List.cons.inj hk
      obtain ⟨hooks, bodies, rfl⟩ := Reaches.eq_of_nil hr rfl
      exact ⟨hooks, bodies, c, hd, .refl c⟩
    | cons y h =>
      obtain ⟨rfl, rfl⟩ := List.cons.inj hk
      obtain ⟨hooks, bodies, z, hz, hzb⟩ := ih rfl
      exact ⟨hooks, bodies, z, hz, hzb.deed hd⟩
  | meanwhile hooks bodies _ _ ih =>
    obtain ⟨hooks', bodies', z, hz, hzb⟩ := ih hk
    exact ⟨hooks', bodies', z, hz, hzb.meanwhile hooks bodies⟩

/-- Each deed of a history was done by a state that was reached. -/
theorem Reaches.at_deed (hr : a.Reaches k c) (hk : k = h ++ x :: g) :
    ∃ y z, a.Reaches h y ∧ y.Does x.task x.events z ∧ z.Reaches g c := by
  obtain ⟨y, hy, hyc⟩ := hr.split hk
  obtain ⟨hooks, bodies, z, hd, hz⟩ := hyc.uncons rfl
  exact ⟨_, z, hy.meanwhile hooks bodies, hd, hz⟩

/-! ### The room during a drain -/

/-- Until a drain ends the chain is there. Its room does not get less, and it is longer by what was
registered and shorter by what was run. -/
theorem Lives.chain_reached (ha : a.Lives h) (hc : a.thread.slot.chain? = some chain)
    (hr : a.Reaches k b) (hk : k.drained = []) :
    ∃ chain', b.thread.slot.chain? = some chain' ∧ chain.capacity ≤ chain'.capacity ∧
      chain'.entries.length + k.ran.length = chain.entries.length + k.returned.length := by
  have hb : b.Lives (h ++ k) := ha.reaches hr
  obtain ⟨chain', hc'⟩ : ∃ chain', b.thread.slot.chain? = some chain' := by
    cases hs : b.thread.slot with
    | live chain' | draining chain' => exact ⟨chain', rfl⟩
    | untouched =>
      -- a slot that was used once is not untouched again
      have hused : History.usesSlot (h ++ k) = true := by
        rw [History.usesSlot_append, ha.ledger.used.2 fun hu => by rw [hu] at hc; cases hc]
        rfl
      exact absurd hs (hb.ledger.used.1 hused)
    | gone =>
      have hdrained := hb.drained_ne_nil_iff.2 hs
      rw [History.drained_append, hk, List.append_nil, ha.drained_ne_nil_iff] at hdrained
      rw [hdrained] at hc
      cases hc
  have hfits := ha.fits (Slot.reached?_of_chain? hc)
  have hfits' := hb.fits (Slot.reached?_of_chain? hc')
  refine ⟨chain', hc', hfits.capacity_mono hfits' (History.peak_le_append h k), ?_⟩
  have hlength := ha.ledger.returned.length_eq
  have hlength' := hb.ledger.returned.length_eq
  rw [waiting, Slot.waiting_of_chain? hc, List.length_append] at hlength
  simp only [waiting, Slot.waiting_of_chain? hc', History.returned_append, History.ran_append,
    List.length_append] at hlength'
  omega

/-- What waited or was registered since then was run or waits. -/
theorem Lives.waiting_perm (ha : a.Lives h) (hr : a.Reaches k b) :
    (a.waiting ++ k.returned).Perm (k.ran ++ b.waiting) := by
  have hbefore := ha.ledger.returned
  have hafter := (ha.reaches hr).ledger.returned
  rw [History.returned_append, History.ran_append] at hafter
  have hboth := (hbefore.symm.append_right k.returned).trans hafter
  rw [List.append_assoc, List.append_assoc] at hboth
  exact (List.perm_append_left_iff h.ran).1 hboth

/-- When a destructor starts to run there is room for one more entry than there is. -/
theorem Lives.started (ha : a.Lives h) (hd : a.Does task [.ran d] b) :
    ∃ chain, b.thread.slot = .draining chain ∧ chain.entries.length < chain.capacity ∧
      ∀ x ∈ h ++ [⟨task, [.ran d]⟩], ¬ x.EndsInRegistration := by
  obtain ⟨rest, ht, turn⟩ := hd.turn
  cases turn with
  | started ran d' chain chain' hx he free hc hc' hb =>
    obtain rfl : task = .drain ran := hx
    have hpeak : chain.entries.length ≤ chain.capacity :=
      (ha.fits (Slot.reached?_of_chain? hc)).length_le_capacity
    refine ⟨chain', by rw [hb], ?_, List.forall_mem_append.2 ⟨?_, ?_⟩⟩
    · rw [hc'.1, List.length_cons] at hpeak
      rw [hc'.2]
      exact hpeak
    · -- a chain that is held would not have been drained
      have held : a.chainHeld = false := (chainHeld_below ht nofun).symm.trans free
      intro x hx hxe
      rw [ha.chainHeld_iff.2 ⟨by simp [ht], x, hx, hxe⟩] at held
      cases held
    · simp [Deed.EndsInRegistration, Deed.registration?]
  | acted action hx outlook effect =>
    -- no action runs a destructor by itself
    exact absurd effect.ran_eq (by simp [Deed.ran])
  | bare _ he | slotTornDown _ _ he | ownTornDown _ _ he | drainRefused _ _ he
  | drainEnded _ _ he | finished _ _ _ he => simp at he

/-- The first registration after a destructor started to run is kept. -/
theorem Lives.first_kept (ha : a.Lives h) (hd : a.Does task [.ran d] b) (hr : b.Reaches k c)
    (hk : k.registrations = []) (hdrained : k.drained = []) {d' : Destructor} {memory : Bool}
    {caller : Caller} {z : Activity β} (hz : c.Does (.act (.register d' memory caller)) events z) :
    RegistrationOutcome.kept.Holds c d' events z := by
  obtain ⟨chain, hs, hroom, hno⟩ := ha.started hd
  have hb : b.Lives (h ++ [⟨task, [.ran d]⟩]) := ha.reaches ((Reaches.refl a).deed hd)
  have hc : b.thread.slot.chain? = some chain := by rw [hs]; rfl
  obtain ⟨chain', hc', hcapacity, hlength⟩ := hb.chain_reached hc hr hdrained
  -- nothing came back from a registration since, as there was none
  have hnone : ∀ x ∈ k, x.registration? = none := List.filterMap_eq_nil_iff.1 hk
  have hreturned : k.returned = [] := List.filterMap_eq_nil_iff.2 fun x hx => by
    rw [Deed.returned?, hnone x hx]
    rfl
  rw [hreturned, List.length_nil] at hlength
  have hreach : c.thread.touchSlot.slot.chain? = some chain' := by
    rw [Thread.chain?_touchSlot]
    exact Slot.reached?_of_chain? hc'
  have hno' : ∀ x ∈ h ++ [⟨task, [.ran d]⟩] ++ k, ¬ x.EndsInRegistration := by
    refine List.forall_mem_append.2 ⟨hno, fun x hx hxe => ?_⟩
    rw [Deed.EndsInRegistration, hnone x hx] at hxe
    exact Bool.false_ne_true hxe.1
  obtain ⟨-, hkept⟩ | ⟨hfull, -⟩ := (hb.reaches hr).register_cases hreach hno' hz
  · exact hkept
  · -- the chain is no longer than it was when the destructor started
    exact absurd (.inr (by omega)) hfull

/-! ### Whole drains -/

/-- Nothing is done on an empty stack. -/
theorem Reaches.eq_nil_of_tasks (hr : a.Reaches k b) (ht : a.tasks = []) : k = [] := by
  cases k with
  | nil => rfl
  | cons x k =>
    obtain ⟨hooks, bodies, z, ⟨rest, ht', -⟩, -⟩ := hr.uncons rfl
    rw [show a.tasks = x.task :: rest from ht'] at ht
    cases ht

/-- A drain runs a destructor, or it ends, or it is refused, which is the end of the process. -/
theorem Does.drain_cases {n : Nat} (hd : a.Does (.drain n) events b) :
    (a.chainHeld = false ∧
      ((∃ d, events = [.ran d]) ∨ events = [.notice (.drained n)] ∧ a.waiting = [])) ∨
    (a.chainHeld = true ∧ events = [.lastWords tornWords] ∧ b.tasks = []) := by
  obtain ⟨rest, ht, turn⟩ := hd.turn
  cases turn with
  | started ran d chain chain' hx he free =>
    exact .inl ⟨(chainHeld_below ht nofun).symm.trans free, .inl ⟨d, he⟩⟩
  | drainEnded ran hx he free hw =>
    obtain rfl := Task.drain.inj hx
    exact .inl ⟨(chainHeld_below ht nofun).symm.trans free, .inr ⟨he, hw⟩⟩
  | drainRefused ran hx he held hb =>
    subst hb
    exact .inr ⟨held, he, rfl⟩
  | acted _ hx | bare hx | slotTornDown _ hx | ownTornDown _ hx | finished _ _ hx => cases hx

/-- A drain that is next is what is done first. -/
theorem Reaches.first_drain {n : Nat} (hr : a.Reaches k b) (ht : a.tasks = .drain n :: rest)
    (hk : k = x :: g) : x.task = .drain n ∧
      ∃ hooks bodies z, { a with hooks, bodies }.Does (.drain n) x.events z ∧ z.Reaches g b := by
  obtain ⟨hooks, bodies, z, hd, hz⟩ := hr.uncons hk
  obtain ⟨rest', ht', hp⟩ := hd
  obtain ⟨htask, rfl⟩ := List.cons.inj (ht'.symm.trans ht)
  rw [htask] at hp
  exact ⟨htask, hooks, bodies, z, ⟨rest', ht, hp⟩, hz⟩

/-- Unless a drain runs a destructor or ends, nothing is done after it. -/
theorem Reaches.eq_nil_of_drain {n : Nat} (hr : a.Reaches k b) (ht : a.tasks = .drain n :: rest)
    (hk : k = x :: g) (hdrained : k.drained = []) (hran : x.ran = []) : g = [] := by
  obtain ⟨-, hooks, bodies, z, hd, hz⟩ := hr.first_drain ht hk
  obtain ⟨-, ⟨d, he⟩ | ⟨he, -⟩⟩ | ⟨-, -, hzt⟩ := hd.drain_cases
  · simp [Deed.ran, he] at hran
  · simp [hk, History.drained, Deed.drained, he] at hdrained
  · exact hz.eq_nil_of_tasks hzt

/-- An action by itself runs no destructor. -/
theorem Does.ran_of_act {action : Action} (hd : a.Does (.act action) events b) :
    Deed.ran ⟨.act action, events⟩ = [] := by
  obtain ⟨rest, ht, turn⟩ := hd.turn
  cases turn with
  | acted action hx outlook effect => exact effect.ran_eq
  | _ => contradiction

/-- Only a run of a destructor is observed as one. -/
theorem Does.events_of_ran (hd : a.Does task events b) (hran : Deed.ran ⟨task, events⟩ ≠ []) :
    ∃ d, events = [.ran d] := by
  obtain ⟨rest, ht, turn⟩ := hd.turn
  cases turn with
  | started ran d chain chain' hx he => exact ⟨d, he⟩
  | acted action hx outlook effect => exact absurd effect.ran_eq hran
  | bare _ he | slotTornDown _ _ he | ownTornDown _ _ he | drainRefused _ _ he
  | drainEnded _ _ he | finished _ _ _ he =>
    simp [Deed.ran, show events = _ from he] at hran

omit [Bodies β] in
theorem outOfMemory_notMem_leave (e : Ending) (held : Bool) :
    Thread.Event.notice .outOfMemory ∉ (a.leave e held).1 := by
  rcases a.events_leave e held with hl | hl <;> simp [hl]

/-- Memory runs out in registrations, and where that is what an action says. -/
theorem Does.outOfMemory (hd : a.Does task events b) (he : .notice .outOfMemory ∈ events) :
    task = .act .exhausted ∨ ∃ d memory caller, task = .act (.register d memory caller) := by
  obtain ⟨rest, ht, hp, turn⟩ := hd.perform_turn
  cases turn with
  | acted action hx outlook effect =>
    obtain rfl : task = .act action := hx
    cases action with
    | exhausted => exact .inl rfl
    | register d memory caller => exact .inr ⟨d, memory, caller, rfl⟩
    | pending =>
      obtain ⟨-, rfl, -⟩ | ⟨-, -, rfl, -⟩ := pending_cases hp <;> simp at he
    | exit status caller =>
      have hleave := fun e => outOfMemory_notMem_leave (a := { a with tasks := rest }) e false
      simp only [perform, act, Activity.exit] at hp
      split at hp <;> obtain ⟨rfl, -⟩ := Prod.mk.inj hp <;> simp [hleave, giveUp] at he
    | touch | whenTornDown | setExitHook | setExhaustedHook | abort | fatal =>
      obtain ⟨rfl, -⟩ := Prod.mk.inj hp
      simp at he
  | bare _ he' | slotTornDown _ _ he' | ownTornDown _ _ he' | drainRefused _ _ he'
  | drainEnded _ _ he' | started _ _ _ _ _ he' | finished _ _ _ he' =>
    rw [show events = _ from he'] at he
    simp at he

/-- A drain is refused if the chain is held. -/
theorem Lives.refused_iff (ha : a.Lives h) {n : Nat} (hd : a.Does (.drain n) events b) :
    events = [.lastWords tornWords] ↔ ∃ x ∈ h, x.EndsInRegistration := by
  have hne : a.tasks ≠ [] := by
    obtain ⟨rest, ht, -⟩ := hd
    simp [ht]
  rw [← and_iff_right (b := ∃ x ∈ h, x.EndsInRegistration) hne, ← ha.chainHeld_iff]
  obtain ⟨free, ⟨d, he⟩ | ⟨he, -⟩⟩ | ⟨held, he, -⟩ := hd.drain_cases
  · simp [he, free]
  · simp [he, free]
  · exact iff_of_true he held

/-- A drain that is refused runs nothing, and neither does anything after it. -/
theorem Lives.ran_of_held (ha : a.Lives h) {n : Nat} (ht : a.tasks = .drain n :: rest)
    (hends : ∃ x ∈ h, x.EndsInRegistration) (hr : a.Reaches k b) : k.ran = [] := by
  have held : a.chainHeld = true := ha.chainHeld_iff.2 ⟨by simp [ht], hends⟩
  cases k with
  | nil => rfl
  | cons x k =>
    obtain ⟨-, hooks, bodies, z, hd, hz⟩ := hr.first_drain ht rfl
    obtain ⟨free, -⟩ | ⟨-, he, hzt⟩ := hd.drain_cases
    · cases held.symm.trans free
    · rw [hz.eq_nil_of_tasks hzt, History.ran_singleton, Deed.ran, he]
      rfl

/-- In a drain that hands over each registration is kept. -/
theorem Lives.kept_of_handsOver (ha : a.Lives h) {n : Nat} (ht : a.tasks = .drain n :: rest)
    (hr : a.Reaches k c) (hands : k.HandsOver) (hdrained : k.drained = []) {before after : History}
    {memory : Bool} {caller : Caller}
    (hk : k = before ++ ⟨.act (.register d memory caller), events⟩ :: after) :
    events = [.notice (.registered d.context)] := by
  obtain ⟨y, z, hy, hd, -⟩ := hr.at_deed hk
  have hbefore : History.drained before = [] := by
    rw [hk, History.drained_append] at hdrained
    exact (List.append_eq_nil_iff.1 hdrained).1
  obtain hran | ⟨early, x, since, hsplit, hx, hsince⟩ := History.last_run before
  · -- before the first run there is no registration
    cases before with
    | nil => cases (hr.first_drain ht hk).1
    | cons x before =>
      have hfirst : x.ran = [] := by
        rw [History.ran_cons] at hran
        exact (List.append_eq_nil_iff.1 hran).1
      have hnil := hr.eq_nil_of_drain ht hk hdrained hfirst
      exact absurd hnil (List.append_ne_nil_of_right_ne_nil _ (List.cons_ne_nil _ _))
  · obtain ⟨u, v, hu, hrun, hv⟩ := hy.at_deed hsplit
    obtain ⟨d', he⟩ := hrun.events_of_ran hx
    rw [he] at hrun
    -- the registration is the only one since the last run
    have hone : History.registrations (since ++ [⟨.act (.register d memory caller), events⟩]) =
        since.registrations ++ [d] := by
      rw [History.registrations_append]
      rfl
    have hnone : since.registrations = [] := by
      have hle := hands (early ++ [x]) (since ++ [⟨.act (.register d memory caller), events⟩])
        after (by rw [hk, hsplit]; simp)
        (by rw [History.ran_append, hsince, History.ran_singleton, hd.ran_of_act]; rfl)
      rw [hone, List.length_append] at hle
      exact List.eq_nil_of_length_eq_zero (by simpa using hle)
    have hsincedrained : since.drained = [] := by
      rw [hsplit, History.drained_append] at hbefore
      exact (List.append_eq_nil_iff.1 (List.append_eq_nil_iff.1 hbefore).2).2
    exact ((ha.reaches hu).first_kept hrun hv hnone hsincedrained hd).1

end Activity

/-! ### Handing over -/

namespace Chain

variable {c c' : Chain} {actions : List Action}

/-- A chain with room takes registrations without asking for more. -/
theorem exists_pushAll?_of_room
    (hroom : c.entries.length + (registered actions).length ≤ c.capacity) :
    ∃ c', c.pushAll? actions = some c' ∧ c'.capacity = c.capacity := by
  fun_induction pushAll? c actions with
  | case1 c => exact ⟨c, rfl, rfl⟩
  | case2 c d memory caller actions ih =>
    rw [registered_cons, List.length_append] at hroom
    have hlt : c.entries.length < c.capacity := by
      simp only [registered?, Option.toList_some, List.length_singleton] at hroom
      omega
    have hpush : c.push? memory d = some { c with entries := d :: c.entries } := if_pos hlt
    obtain ⟨c', hc', hcapacity⟩ := ih { c with entries := d :: c.entries } (by
      simp only [registered?, Option.toList_some, List.length_cons] at hroom ⊢
      omega)
    exact ⟨c', by rw [hpush]; exact hc', hcapacity⟩
  | case3 c x actions hx ih =>
    rw [registered_cons, List.length_append] at hroom
    exact ih (by omega)

end Chain

/-- The actions come back, and register at most one destructor. -/
def Action.HandOver (actions : List Action) : Prop :=
  (∀ x ∈ actions, x.Mild) ∧ (registered actions).length ≤ 1

/-- Where a destructor registers at most one other, the room of its own entry is supply enough. -/
def Supply.ofRoom : Supply HandOver where
  holds chain := chain.entries.length ≤ chain.capacity
  mild := And.left
  takes {actions chain below d} hP hs hpop := by
    obtain ⟨hentries, hcapacity⟩ := Chain.pop?_eq_some_iff.1 hpop
    rw [hentries, List.length_cons, ← hcapacity] at hs
    have hroom : below.entries.length + (registered actions).length ≤ below.capacity := by
      have hone := hP.2
      omega
    obtain ⟨chain', h, hcapacity'⟩ := Chain.exists_pushAll?_of_room hroom
    refine ⟨chain', h, ?_⟩
    rw [Chain.entries_of_pushAll? h, List.length_append, List.length_reverse, hcapacity']
    omega

namespace Activity

variable {β : Type} [Bodies β] {a b : Activity β} {h : History}

/-- What handing over comes to in the thread `a` that went through `h`. -/
structure HandingOver (a : Activity β) (h : History) : Prop where
  /-- When a destructor starts to run there is room for one more entry than there is. -/
  room : ∀ task d b, a.Does task [.ran d] b → ∃ chain, b.thread.slot = .draining chain ∧
    chain.entries.length < chain.capacity
  /-- The first registration that is made from then on is kept, with or without memory. -/
  first : ∀ task d b k c d' memory caller events z, a.Does task [.ran d] b → b.Reaches k c →
    k.registrations = [] → k.drained = [] → c.Does (.act (.register d' memory caller)) events z →
    RegistrationOutcome.kept.Holds c d' events z
  /-- While a drain hands over, all registrations come back, and memory never runs out unless an
  action says so. -/
  kept : ∀ n rest k b, a.tasks = .drain n :: rest → a.Reaches k b → k.HandsOver → k.drained = [] →
    k.registrations = k.returned ∧
      ∀ x ∈ k, .notice .outOfMemory ∈ x.events → x.task = .act .exhausted
  /-- When the drain ends, what waited at its start or was registered meanwhile was run. -/
  ran : ∀ n rest k b m c, a.tasks = .drain n :: rest → a.Reaches k b → k.HandsOver →
    k.drained = [] → b.Does (.drain m) [.notice (.drained m)] c →
    k.ran.Perm (a.waiting ++ k.registrations)
  /-- A drain is refused exactly if a registration that is ending the process holds the chain. -/
  refused : ∀ n events b, a.Does (.drain n) events b →
    (events = [.lastWords tornWords] ↔ ∃ x ∈ h, x.EndsInRegistration)
  /-- Then no destructor runs any more. -/
  lost : ∀ n rest k b, a.tasks = .drain n :: rest → (∃ x ∈ h, x.EndsInRegistration) →
    a.Reaches k b → k.ran = []
  /-- In no other case is there anything in the way of a drain whose destructors hand over and go
  down a rank: it runs all that is registered on account of its entries, without memory. -/
  ends : ∀ (t : Descent β HandOver) rest, t.knows a.bodies → (∀ d ∈ a.waiting, t.runs d) →
    a.tasks = .drain 0 :: rest → (∀ x ∈ h, ¬ x.EndsInRegistration) →
    ∃ forest B', Grows HandOver a.bodies a.waiting forest B' ∧ a.ComesTo (Drained forest rest)

theorem Lives.registrations_of_handsOver (ha : a.Lives h) {n : Nat} {rest : List Task} {k : History}
    (ht : a.tasks = .drain n :: rest) (hr : a.Reaches k b) (hands : k.HandsOver)
    (hdrained : k.drained = []) : k.registrations = k.returned := by
  refine List.filterMap_congr fun x hx => ?_
  obtain ⟨before, after, hk⟩ := List.append_of_mem hx
  obtain ⟨task, events⟩ := x
  cases task with
  | act action =>
    cases action with
    | register d memory caller =>
      rw [ha.kept_of_handsOver ht hr hands hdrained hk]
      simp [Deed.returned?, Deed.registration?, Option.filter]
    | _ => rfl
  | _ => rfl

theorem Lives.drain_comesTo (ha : a.Lives h) {rest : List Task} (t : Descent β HandOver)
    (hB : t.knows a.bodies) (hruns : ∀ d ∈ a.waiting, t.runs d) (ht : a.tasks = .drain 0 :: rest)
    (hno : ∀ x ∈ h, ¬ x.EndsInRegistration) :
    ∃ forest B', Grows HandOver a.bodies a.waiting forest B' ∧ a.ComesTo (Drained forest rest) := by
  obtain ⟨forest, B', hg, -⟩ := t.exists_grows hB hruns
  obtain ⟨⟨chain, hs⟩, -⟩ := ha.stacked.drain 0 (by simp [ht])
  have hc : a.thread.slot.chain? = some chain := by rw [hs]; rfl
  have hroom : chain.entries.length ≤ chain.capacity :=
    (ha.fits (Slot.reached?_of_chain? hc)).length_le_capacity
  -- the one way to lose the chain is the one that is ruled out
  have free : { a with tasks := rest }.chainHeld = false := by
    rw [chainHeld_below ht nofun]
    refine Bool.eq_false_iff.2 fun held => ?_
    obtain ⟨-, x, hx, hxe⟩ := ha.chainHeld_iff.1 held
    exact hno x hx hxe
  have hw : a.waiting = chain.entries := Slot.waiting_of_chain? hc
  have hd : a.Draining a.bodies [] chain 0 rest := ⟨rfl, ht, hs, free⟩
  exact ⟨forest, B', hg, hd.comesTo_drained .ofRoom hroom (hw ▸ hg)⟩

/-- **Handing over needs no memory.** Whenever in a thread's life a destructor starts to run, there
is room for one more entry than there is, so the first registration that it makes is kept. A drain
in which at most one registration is made between two runs never runs out of memory, and when it
ends it ran all that waited or was registered. It does end where what is registered goes down a
rank, unless it is refused from the start, which is the case exactly if a registration that is
ending the process holds the chain. -/
theorem handing_over (ha : a.Lives h) : a.HandingOver h where
  room := by
    intro task d b hd
    obtain ⟨chain, hs, hroom, -⟩ := ha.started hd
    exact ⟨chain, hs, hroom⟩
  first := by
    intro task d b k c d' memory caller events z hd hr hk hdrained hz
    exact ha.first_kept hd hr hk hdrained hz
  kept := by
    intro n rest k b ht hr hands hdrained
    refine ⟨ha.registrations_of_handsOver ht hr hands hdrained, fun x hx he => ?_⟩
    obtain ⟨before, after, hk⟩ := List.append_of_mem hx
    obtain ⟨y, z, -, hd, -⟩ := hr.at_deed hk
    obtain hexhausted | ⟨d, memory, caller, htask⟩ := hd.outOfMemory he
    · exact hexhausted
    · obtain ⟨task, events⟩ := x
      obtain rfl : task = _ := htask
      rw [ha.kept_of_handsOver ht hr hands hdrained hk] at he
      simp at he
  ran := by
    intro n rest k b m c ht hr hands hdrained hd
    -- a drain that ends found its chain empty
    have hempty : b.waiting = [] := by
      obtain ⟨-, ⟨d, he⟩ | ⟨-, hw⟩⟩ | ⟨-, he, -⟩ := hd.drain_cases
      · simp at he
      · exact hw
      · simp at he
    have hperm := ha.waiting_perm hr
    rw [hempty, List.append_nil] at hperm
    rw [ha.registrations_of_handsOver ht hr hands hdrained]
    exact hperm.symm
  refused := fun n events b hd => ha.refused_iff hd
  lost := fun n rest k b ht hends hr => ha.ran_of_held ht hends hr
  ends := fun t rest hB hruns ht hno => ha.drain_comesTo t hB hruns ht hno

/-- Destructors of which those with one callback hand over to another callback, without memory. -/
def relay (d : Destructor) : List Action :=
  if d.callback = "a" then [.register ⟨"b", d.context⟩ false .foreign] else []

theorem handOver_relay (d : Destructor) : HandOver (relay d) := by
  unfold relay
  split <;> simp [HandOver, Mild, registered?]

def relayDescent : Descent (Destructor → List Action) HandOver where
  knows B := B = relay
  runs _ := True
  rank d := if d.callback = "a" then 1 else 0
  next := by
    rintro _ d rfl -
    refine ⟨handOver_relay d, rfl, fun e he => ⟨trivial, ?_⟩⟩
    change e ∈ registered (relay d) at he
    unfold relay at he
    split at he
    · next ha =>
      obtain rfl : e = ⟨"b", d.context⟩ := by simpa [registered?] using he
      simp [ha]
    · cases he

/-- A drain is about to start on a chain without room for a fifth entry. -/
def fourWaiting : Activity (Destructor → List Action) where
  thread := { slot := .draining ⟨[⟨"a", 4⟩, ⟨"a", 3⟩, ⟨"a", 2⟩, ⟨"a", 1⟩], 4⟩ }
  hooks := {}
  bodies := relay
  tasks := [.drain 0, .tearDown]

/-- The first four destructors of a drain hand over to another one each, without memory. -/
theorem handing_over_relay : ∃ (b c : Activity (Destructor → List Action)) (h k : History),
    fourWaiting.Lives h ∧ fourWaiting.Does (.drain 0) [.ran ⟨"a", 4⟩] b ∧
      (∃ chain, b.thread.slot = .draining chain ∧ chain.entries.length < chain.capacity) ∧
      RegistrationOutcome.kept.Holds b ⟨"b", 4⟩ [.notice (.registered 4)] c ∧
      fourWaiting.Reaches k c ∧ k.registrations = [⟨"b", 4⟩] ∧ k.registrations = k.returned ∧
      fourWaiting.ComesTo fun k z => (∀ x ∈ k, .notice .outOfMemory ∉ x.events) ∧
        z.thread.slot = .gone ∧ k.ran = [⟨"a", 4⟩, ⟨"b", 4⟩, ⟨"a", 3⟩, ⟨"b", 3⟩, ⟨"a", 2⟩,
          ⟨"b", 2⟩, ⟨"a", 1⟩, ⟨"b", 1⟩] := by
  have hr : (life {} relay
      [.register ⟨"a", 1⟩ true .native, .register ⟨"a", 2⟩ true .native,
        .register ⟨"a", 3⟩ true .native, .register ⟨"a", 4⟩ true .native]).Runs _ fourWaiting :=
    .deed ⟨_, rfl, rfl⟩ (.deed ⟨_, rfl, rfl⟩ (.deed ⟨_, rfl, rfl⟩ (.deed ⟨_, rfl, rfl⟩
      (.deed ⟨_, rfl, rfl⟩ (.refl _)))))
  have ha : fourWaiting.Lives _ := ⟨_, _, _, hr.reaches⟩
  have handing := handing_over ha
  have hk : fourWaiting.Runs _ _ := .deed ⟨_, rfl, rfl⟩ (.single ⟨_, rfl, rfl⟩)
  have hgrows : Grows HandOver relay fourWaiting.waiting
      [.node ⟨"a", 4⟩ [.node ⟨"b", 4⟩ []], .node ⟨"a", 3⟩ [.node ⟨"b", 3⟩ []],
        .node ⟨"a", 2⟩ [.node ⟨"b", 2⟩ []], .node ⟨"a", 1⟩ [.node ⟨"b", 1⟩ []]] relay := by
    have hcons : ∀ {n ds forest}, Grows HandOver relay ds forest relay →
        Grows HandOver relay (⟨"a", n⟩ :: ds) (.node ⟨"a", n⟩ [.node ⟨"b", n⟩ []] :: forest)
          relay :=
      fun {n _ _} hf => .cons (handOver_relay ⟨"a", n⟩)
        (.cons (handOver_relay ⟨"b", n⟩) (.nil relay) (.nil relay)) hf
    exact hcons (hcons (hcons (hcons (.nil relay))))
  obtain ⟨forest, B', hg, hcomes⟩ := handing.ends relayDescent _ rfl (fun _ _ => trivial) rfl
    (by simp [Deed.EndsInRegistration])
  obtain ⟨rfl, -⟩ := hg.unique hgrows
  refine ⟨_, _, _, _, ha, ⟨_, rfl, rfl⟩, handing.room _ _ _ ⟨_, rfl, rfl⟩,
    handing.first _ _ _ [] _ _ false .foreign _ _ ⟨_, rfl, rfl⟩ (.refl _) rfl rfl ⟨_, rfl, rfl⟩,
    hk.reaches, rfl, (handing.kept _ _ _ _ rfl hk.reaches ?_ rfl).1, hcomes.imp ?_⟩
  · exact History.handsOver_of_length_le (by decide)
  · rintro k z ⟨hran, -, hmemory, ⟨hslot, -⟩, -⟩
    exact ⟨hmemory, hslot, hran⟩

/-- A thread whose fifth registration runs out of memory, which a hook takes for the end of the
process. The drain of the other four is refused, though no destructor registers anything, and none
of them ever runs. -/
theorem handing_over_refused : ∃ (a : Activity (Destructor → List Action)) (h : History),
    a.Lives h ∧ a.tasks = [.drain 0, .tearDown, .finish (.code 33) true] ∧
      (∀ d, a.bodies d = []) ∧ a.waiting = [⟨"a", 4⟩, ⟨"a", 3⟩, ⟨"a", 2⟩, ⟨"a", 1⟩] ∧
      (∃ b, a.Does (.drain 0) [.lastWords tornWords] b ∧ b.ending? = some .aborted) ∧
      ∀ k b, a.Reaches k b → k.ran = [] := by
  have hr : (life { exhausted? := some (.ending "exit" 33) } (fun _ => [])
      [.register ⟨"a", 1⟩ true .native, .register ⟨"a", 2⟩ true .native,
        .register ⟨"a", 3⟩ true .native, .register ⟨"a", 4⟩ true .native,
        .register ⟨"a", 5⟩ false .native] : Activity (Destructor → List Action)).Runs _ _ :=
    .deed ⟨_, rfl, rfl⟩ (.deed ⟨_, rfl, rfl⟩ (.deed ⟨_, rfl, rfl⟩ (.deed ⟨_, rfl, rfl⟩
      (.deed ⟨_, rfl, rfl⟩ (.deed ⟨_, rfl, rfl⟩ (.refl _))))))
  refine ⟨_, _, ⟨_, _, _, hr.reaches⟩, rfl, fun _ => rfl, rfl, ⟨_, ⟨_, rfl, rfl⟩, rfl⟩, ?_⟩
  intro k b hkb
  exact Lives.ran_of_held ⟨_, _, _, hr.reaches⟩ rfl
    (by simp [Deed.EndsInRegistration, Deed.registration?]) hkb

end Activity

end HostServices
