import HostServices.Proofs.Thread.Turn
import Mathlib.Tactic.ByContra

/-!
# The invariants of a thread's life

Three invariants hold at any time of a thread's life, whatever its actions, the hooks, what its
destructors do and what other threads do meanwhile:

* `Stacked`: the stack of tasks agrees with the locals. Actions are above the drain, the drain is
  above the teardown and the teardown is above the end of the process; a drain is under way exactly
  while the slot is draining, unless the process is about to end, which abandons it.
* `Ledger`: the registrations that came back are the destructors that started to run and those that
  wait. The one end of a drain that there can be counts them all.
* `Settled`: while the process is not about to end every registration came back or was unwound, and
  the chain is held exactly if a hook that was called in a registration ended the process.

Each is preserved by every `Turn`, and so holds of every life (`Lives.stacked`, `Lives.ledger`,
`Lives.settled`).
-/

namespace HostServices

variable {β : Type}

/-! ### The order of the stack -/

namespace Task

/-- The place of a task on the stack, from the top. -/
@[simp] def rank : Task → Nat
  | act _ => 0
  | drain _ => 1
  | tearDown => 2
  | finish .. => 3

/-- `s` may be above `t`: of all tasks but actions there is one of each rank. -/
def Above (s t : Task) : Prop := s.rank < t.rank ∨ s.rank = 0 ∧ t.rank = 0

theorem Above.rank_lt {s t : Task} (h : s.Above t) (hs : s.rank ≠ 0) : s.rank < t.rank :=
  h.resolve_right fun h0 => hs h0.1

theorem act_above (action : Action) (t : Task) : (act action).Above t := by
  cases t <;> simp [Above]

theorem pairwise_map_act_append (actions : List Action) {tasks : List Task}
    (h : tasks.Pairwise Above) : (actions.map act ++ tasks).Pairwise Above := by
  induction actions with
  | nil => exact h
  | cons action actions ih => exact List.pairwise_cons.2 ⟨fun t _ => act_above action t, ih⟩

theorem mem_map_act_append (actions : List Action) {tasks : List Task} {t : Task}
    (hne : t.rank ≠ 0) : t ∈ actions.map act ++ tasks ↔ t ∈ tasks := by
  rw [List.mem_append, or_iff_right]
  intro hm
  obtain ⟨action, -, rfl⟩ := List.mem_map.1 hm
  exact hne rfl

end Task

namespace Activity

variable {a b : Activity β} {h : History} {x : Deed} {rest : List Task}

theorem finishing?_eq_none_iff :
    a.finishing? = none ↔ ∀ e held, .finish e held ∉ a.tasks := by
  unfold finishing?
  rw [List.findSome?_eq_none_iff]
  constructor
  · intro hn e held hm
    exact absurd (hn _ hm) (Option.some_ne_none _)
  · intro hn t ht
    cases t with
    | finish e held => exact absurd ht (hn e held)
    | act | drain | tearDown => rfl

theorem chainHeld_eq_false (hf : ∀ e held, .finish e held ∉ a.tasks) : a.chainHeld = false := by
  rw [chainHeld, finishing?_eq_none_iff.2 hf]
  rfl

/-- The chain is held if the end that waits on the stack says so. -/
theorem chainHeld_iff (sorted : a.tasks.Pairwise Task.Above) :
    a.chainHeld = true ↔ ∃ e, .finish e true ∈ a.tasks := by
  unfold chainHeld finishing?
  rw [beq_iff_eq]
  generalize a.tasks = tasks at sorted
  induction sorted with
  | nil => simp
  | @cons t rest hr _ ih =>
    cases t with
    | finish e held =>
      -- nothing is below the end of the process
      have hno : ∀ e', Task.finish e' true ∉ rest := fun e' hm => by
        have := (hr _ hm).rank_lt (by simp)
        simp at this
      simp [List.findSome?, hno]
    | act | drain | tearDown => simpa [List.findSome?] using ih

/-! ### The stack and the locals -/

/-- The stack of a thread agrees with its locals. -/
structure Stacked (a : Activity β) (h : History) : Prop where
  /-- The slot is to be torn down exactly while it is in use. -/
  order : a.thread.order.count .slot = if a.thread.slot.isLive then 1 else 0
  sorted : a.tasks.Pairwise Task.Above
  /-- A drain on the stack drains the chain, and knows how many destructors ran. -/
  drain : ∀ ran, .drain ran ∈ a.tasks →
    (∃ chain, a.thread.slot = .draining chain) ∧ ran = h.ran.length
  /-- A chain that is drained has a drain on the stack, unless the end of the process took its
  place. -/
  draining : ∀ chain, a.thread.slot = .draining chain → (∀ e held, .finish e held ∉ a.tasks) →
    a.ending? = none → ∃ ran, .drain ran ∈ a.tasks
  /-- While there is something above the teardown or something to tear down, the teardown is on the
  stack. -/
  tearDown : a.ending? = none → (a.thread.order ≠ [] ∨ ∃ t ∈ a.tasks, t.rank < 2) →
    .tearDown ∈ a.tasks
  ended : a.ending? ≠ none → a.tasks = []
  /-- Nothing runs before the drain. -/
  ran : a.thread.slot = .untouched ∨ a.thread.slot.isLive = true → h.ran = []

namespace Stacked

theorem ending?_eq_none (hs : a.Stacked h) {t : Task} (ht : a.tasks = t :: rest) :
    a.ending? = none := by
  by_contra he
  have hnil := hs.ended he
  simp [ht] at hnil

theorem rank_lt (hs : a.Stacked h) {s t : Task} (ht : a.tasks = t :: rest) (hne : t.rank ≠ 0)
    (hm : s ∈ rest) : t.rank < s.rank := by
  have hsorted := hs.sorted
  rw [ht, List.pairwise_cons] at hsorted
  exact (hsorted.1 s hm).rank_lt hne

theorem sorted_tail (hs : a.Stacked h) {t : Task} (ht : a.tasks = t :: rest) :
    rest.Pairwise Task.Above := by
  have hsorted := hs.sorted
  rw [ht] at hsorted
  exact hsorted.of_cons

/-- A slot that is torn down next is in use. -/
theorem slot_of_order (hs : a.Stacked h) {order : List LocalName}
    (ho : a.thread.order = .slot :: order) :
    (∃ chain, a.thread.slot = .live chain) ∧ order.count .slot = 0 := by
  have hcount := hs.order
  rw [ho, List.count_cons_self] at hcount
  cases hsl : a.thread.slot with
  | live chain => exact ⟨⟨chain, rfl⟩, by simpa [hsl] using hcount⟩
  | untouched | draining | gone => simp [hsl] at hcount

end Stacked

namespace SlotEffect

variable {t t' : Thread}

theorem order (he : SlotEffect t x t')
    (ho : t.order.count .slot = if t.slot.isLive then 1 else 0) :
    t'.order.count .slot = if t'.slot.isLive then 1 else 0 := by
  cases he with
  | same hs ho' used quiet => rw [ho', hs, ho]
  | setUp hs hs' ho' used quiet => rw [ho', hs', ho, hs]; rfl
  | kept d chain chain' hr ran drained used hc hc' ht' =>
    subst ht'
    unfold Thread.touchSlot
    split
    · next hs => simpa [hs] using ho
    · simpa using ho

theorem draining_iff (he : SlotEffect t x t') :
    (∃ chain, t'.slot = .draining chain) ↔ ∃ chain, t.slot = .draining chain := by
  cases he with
  | same hs ho' used quiet => rw [hs]
  | setUp hs hs' ho' used quiet => simp [hs, hs']
  | kept d chain chain' hr ran drained used hc hc' ht' =>
    subst ht'
    unfold Thread.touchSlot
    cases hs : t.slot <;> simp [Slot.setChain, hs]

theorem gone_iff (he : SlotEffect t x t') : t'.slot = .gone ↔ t.slot = .gone := by
  cases he with
  | same hs ho' used quiet => rw [hs]
  | setUp hs hs' ho' used quiet => simp [hs, hs']
  | kept d chain chain' hr ran drained used hc hc' ht' =>
    subst ht'
    unfold Thread.touchSlot
    cases hs : t.slot <;> simp [Slot.setChain, hs]

theorem inUse (he : SlotEffect t x t') (hu : t'.slot = .untouched ∨ t'.slot.isLive = true) :
    t.slot = .untouched ∨ t.slot.isLive = true := by
  cases hs : t.slot with
  | untouched => exact .inl rfl
  | live chain => exact .inr rfl
  | draining chain =>
    obtain ⟨chain', hs'⟩ := he.draining_iff.2 ⟨chain, hs⟩
    simp [hs'] at hu
  | gone =>
    rw [he.gone_iff.2 hs] at hu
    simp at hu

theorem ran_eq (he : SlotEffect t x t') : x.ran = [] := by
  cases he with
  | same hs ho' used quiet => exact quiet.ran
  | setUp hs hs' ho' used quiet => exact quiet.ran
  | kept d chain chain' hr ran drained used hc hc' ht' => exact ran

theorem chain?_ne_none (he : SlotEffect t x t') (hc : t.slot.chain? ≠ none) :
    t'.slot.chain? ≠ none := by
  cases he with
  | same hs ho' used quiet => rwa [hs]
  | setUp hs hs' ho' used quiet => simp [hs']
  | kept d chain chain' hr ran drained used hc hc' ht' =>
    subst ht'
    rw [Slot.chain?_setChain hc]
    exact Option.some_ne_none _

end SlotEffect

namespace Stacked

theorem life (hooks : Hooks) (bodies : β) (actions : List Action) :
    (life hooks bodies actions).Stacked [] where
  order := rfl
  sorted := Task.pairwise_map_act_append actions (List.pairwise_singleton _ _)
  drain := fun ran hm => by simp [Activity.life] at hm
  draining := fun chain hs => by simp [Activity.life] at hs
  tearDown := fun _ _ => by simp [Activity.life]
  ended := fun he => absurd rfl he
  ran := fun _ => rfl

theorem stop (hs : a.Stacked h) (e : Ending) (hran : x.ran = []) :
    (a.stop e).Stacked (h ++ [x]) where
  order := hs.order
  sorted := .nil
  drain := fun _ hm => absurd hm List.not_mem_nil
  draining := fun _ _ _ he => absurd he (Option.some_ne_none _)
  tearDown := fun he => absurd he (Option.some_ne_none _)
  ended := fun _ => rfl
  ran := fun hu => by simpa [hran] using hs.ran hu

theorem acted (hs : a.Stacked h) {action : Action} (ht : a.tasks = .act action :: rest)
    (outlook : Outlook { a with tasks := rest } x b) (effect : SlotEffect a.thread x b.thread) :
    b.Stacked (h ++ [x]) := by
  have hlive : a.ending? = none := hs.ending?_eq_none ht
  have hmem : ∀ t : Task, t.rank ≠ 0 → (t ∈ a.tasks ↔ t ∈ rest) := by
    intro t hne
    rw [ht]
    exact Task.mem_map_act_append [action] hne
  have hran : History.ran (h ++ [x]) = h.ran := by simp [effect.ran_eq]
  have order := effect.order hs.order
  have ran : b.thread.slot = .untouched ∨ b.thread.slot.isLive = true →
      History.ran (h ++ [x]) = [] := by
    intro hu
    rw [hran]
    exact hs.ran (effect.inUse hu)
  cases outlook with
  | goesOn htb heb settled free =>
    -- the stack is what was below the action, and a drain of the slot is not the action's doing
    refine ⟨order, htb ▸ hs.sorted_tail ht, ?_, ?_, ?_, ?_, ran⟩
    · intro n hn
      rw [htb] at hn
      rw [effect.draining_iff, hran]
      exact hs.drain n ((hmem _ (by simp)).2 hn)
    · intro chain hb hf _
      obtain ⟨chain', ha⟩ := effect.draining_iff.1 ⟨chain, hb⟩
      rw [htb] at hf ⊢
      obtain ⟨n, hn⟩ := hs.draining chain' ha
        (fun e held hm => hf e held ((hmem _ (by simp)).1 hm)) hlive
      exact ⟨n, (hmem _ (by simp)).1 hn⟩
    · intro _ _
      rw [htb]
      apply (hmem _ (by simp)).1
      exact hs.tearDown hlive (.inr ⟨.act action, by simp [ht], by simp⟩)
    · intro he
      exact absurd (heb.trans hlive) he
  | stops htb heb =>
    refine ⟨order, htb ▸ .nil, ?_, ?_, ?_, ?_, ran⟩
    · intro n hn
      simp [htb] at hn
    · exact fun _ _ _ he => absurd he heb
    · exact fun he => absurd he heb
    · exact fun _ => htb
  | leaves e held hf htb heb hheld hchain =>
    -- the teardown and the end of the process are all that is left
    refine ⟨order, htb ▸ by simp [Task.Above], ?_, ?_, ?_, ?_, ran⟩
    · intro n hn
      simp [htb] at hn
    · intro _ _ hno
      exact absurd (by simp [htb]) (hno e held)
    · intro _ _
      simp [htb]
    · intro he
      exact absurd (heb.trans hlive) he

/-- All locals are torn down. -/
theorem bare (hs : a.Stacked h) (ht : a.tasks = .tearDown :: rest) (ho : a.thread.order = [])
    (hran : x.ran = []) : ({ a with tasks := rest }).Stacked (h ++ [x]) := by
  have hlive : a.ending? = none := hs.ending?_eq_none ht
  have hran' : History.ran (h ++ [x]) = h.ran := by simp [hran]
  -- only the end of the process can be below
  have hlow : ∀ t ∈ rest, 2 < t.rank := fun t hm => hs.rank_lt ht (by simp) hm
  refine ⟨hs.order, hs.sorted_tail ht, ?_, ?_, ?_, fun he => absurd hlive he, ?_⟩
  · intro n hn
    exact absurd (hlow _ hn) (by simp)
  · intro chain hc hf _
    obtain ⟨n, hn⟩ := hs.draining chain hc (fun e held hm => hf e held (by simpa [ht] using hm)) hlive
    exact ⟨n, by simpa [ht] using hn⟩
  · rintro - (ho' | ⟨t, hm, hlt⟩)
    · exact absurd ho ho'
    · exact absurd (hlow t hm) (by omega)
  · intro hu
    rw [hran']
    exact hs.ran hu

/-- The drain of the slot takes its place above the teardown. -/
theorem slotTornDown (hs : a.Stacked h) (ht : a.tasks = .tearDown :: rest)
    {order : List LocalName} (ho : a.thread.order = .slot :: order) (hran : x.ran = [])
    (chain : Chain) :
    ({ a with
      thread := { a.thread with order, slot := .draining chain }
      tasks := .drain 0 :: .tearDown :: rest }).Stacked (h ++ [x]) := by
  obtain ⟨⟨chain', hsl⟩, hcount⟩ := hs.slot_of_order ho
  have hlow : ∀ t ∈ rest, 2 < t.rank := fun t hm => hs.rank_lt ht (by simp) hm
  have hran' : History.ran (h ++ [x]) = [] := by simp [hran, hs.ran (.inr (by simp [hsl]))]
  refine ⟨by simpa using hcount, ?_, ?_, ?_, ?_, ?_, fun _ => hran'⟩
  · have hsorted := hs.sorted
    rw [ht] at hsorted
    refine List.pairwise_cons.2 ⟨?_, hsorted⟩
    intro t hm
    rcases List.mem_cons.1 hm with rfl | hm
    · exact .inl (by simp)
    · exact .inl (Nat.lt_trans (by simp) (hlow t hm))
  · -- nothing ran before the drain, which counts from zero
    intro n hn
    have hn' : n = 0 ∨ Task.drain n ∈ rest := by simpa using hn
    rcases hn' with rfl | hm
    · exact ⟨⟨chain, rfl⟩, by rw [hran']; rfl⟩
    · exact absurd (hlow _ hm) (by simp)
  · exact fun _ _ _ _ => ⟨0, List.mem_cons_self⟩
  · intro _ _
    simp
  · exact fun he => absurd (hs.ending?_eq_none ht) he

/-- The actions of the thread's own local are done before the teardown goes on. -/
theorem ownTornDown (hs : a.Stacked h) (ht : a.tasks = .tearDown :: rest)
    {order : List LocalName} (ho : a.thread.order = .own :: order) (hran : x.ran = [])
    (own : OwnLocal) (actions : List Action) :
    ({ a with
      thread := { a.thread with order, own }
      tasks := actions.map Task.act ++ Task.tearDown :: rest }).Stacked (h ++ [x]) := by
  have hlive : a.ending? = none := hs.ending?_eq_none ht
  have hran' : History.ran (h ++ [x]) = h.ran := by simp [hran]
  have hcount := hs.order
  rw [ho, List.count_cons_of_ne (by decide)] at hcount
  -- the actions on top neither drain nor end anything
  have hmem : ∀ t : Task, t.rank ≠ 0 →
      (t ∈ actions.map Task.act ++ Task.tearDown :: rest ↔ t ∈ a.tasks) := by
    intro t hne
    rw [ht]
    exact Task.mem_map_act_append actions hne
  have hsorted := hs.sorted
  rw [ht] at hsorted
  refine ⟨hcount, Task.pairwise_map_act_append actions hsorted, ?_, ?_, ?_,
    fun he => absurd hlive he, ?_⟩
  · intro n hn
    rw [hran']
    exact hs.drain n ((hmem _ (by simp)).1 hn)
  · intro chain hc hf _
    obtain ⟨n, hn⟩ := hs.draining chain hc
      (fun e held hm => hf e held ((hmem _ (by simp)).2 hm)) hlive
    exact ⟨n, (hmem _ (by simp)).2 hn⟩
  · intro _ _
    simp
  · intro hu
    rw [hran']
    exact hs.ran hu

/-- The slot is gone, and the teardown goes on below. -/
theorem drainEnded (hs : a.Stacked h) {ran : Nat} (ht : a.tasks = .drain ran :: rest) :
    ({ a with thread := { a.thread with slot := .gone }, tasks := rest }).Stacked (h ++ [x]) := by
  have hlive : a.ending? = none := hs.ending?_eq_none ht
  obtain ⟨⟨chain, hc⟩, -⟩ := hs.drain ran (by simp [ht])
  have hlow : ∀ t ∈ rest, 1 < t.rank := fun t hm => hs.rank_lt ht (by simp) hm
  have hdown : .tearDown ∈ a.tasks := hs.tearDown hlive (.inr ⟨.drain ran, by simp [ht], by simp⟩)
  refine ⟨by simpa [hc] using hs.order, hs.sorted_tail ht, ?_, ?_, ?_, fun he => absurd hlive he, ?_⟩
  · intro n hn
    exact absurd (hlow _ hn) (by simp)
  · intro chain' hc'
    simp at hc'
  · -- the teardown is below the drain, since it was on the stack
    intro _ _
    simpa [ht] using hdown
  · intro hu
    simp at hu

/-- A destructor runs above the drain that started it, which counts it. -/
theorem started (hs : a.Stacked h) {ran : Nat} (ht : a.tasks = .drain ran :: rest)
    {d : Destructor} (hran : x.ran = [d]) (bodies : β) (actions : List Action) (chain : Chain) :
    ({ a with
      thread := { a.thread with slot := .draining chain }
      bodies
      tasks := actions.map Task.act ++ Task.drain (ran + 1) :: rest }).Stacked (h ++ [x]) := by
  have hlive : a.ending? = none := hs.ending?_eq_none ht
  obtain ⟨⟨chain', hc⟩, hcounted⟩ := hs.drain ran (by simp [ht])
  have hcounted' : ran + 1 = (History.ran (h ++ [x])).length := by simp [hran, hcounted]
  have hlow : ∀ t ∈ rest, 1 < t.rank := fun t hm => hs.rank_lt ht (by simp) hm
  have hdown : .tearDown ∈ a.tasks := hs.tearDown hlive (.inr ⟨.drain ran, by simp [ht], by simp⟩)
  refine ⟨by simpa [hc] using hs.order, ?_, ?_, ?_, ?_, fun he => absurd hlive he, by simp⟩
  · apply Task.pairwise_map_act_append
    exact List.pairwise_cons.2 ⟨fun t hm => .inl (hlow t hm), hs.sorted_tail ht⟩
  · intro n hn
    have hn' : n = ran + 1 ∨ Task.drain n ∈ rest := by simpa using hn
    rcases hn' with rfl | hm
    · exact ⟨⟨chain, rfl⟩, hcounted'⟩
    · exact absurd (hlow _ hm) (by simp)
  · exact fun _ _ _ _ => ⟨ran + 1, by simp⟩
  · intro _ _
    simpa [ht] using hdown

/-- Every task keeps the stack in step with the locals. -/
theorem turn [Bodies β] (hs : a.Stacked h) (ht : a.tasks = x.task :: rest)
    (turn : a.Turn rest x b) : b.Stacked (h ++ [x]) := by
  cases turn with
  | acted action hx outlook effect => exact hs.acted (hx ▸ ht) outlook effect
  | bare hx he ho hb =>
    subst hb
    exact hs.bare (hx ▸ ht) ho (by simp [Deed.ran, he])
  | slotTornDown order hx he ho hb =>
    subst hb
    exact hs.slotTornDown (hx ▸ ht) ho (by simp [Deed.ran, he]) _
  | ownTornDown order hx he ho hb =>
    subst hb
    exact hs.ownTornDown (hx ▸ ht) ho (by simp [Deed.ran, he]) _ _
  | drainRefused ran hx he held hb =>
    subst hb
    exact hs.stop _ (by simp [Deed.ran, he])
  | drainEnded ran hx he free hw hb =>
    subst hb
    exact hs.drainEnded (hx ▸ ht)
  | started ran d chain chain' hx he free hc hc' hb =>
    subst hb
    exact hs.started (hx ▸ ht) (d := d) (by simp [Deed.ran, he]) _ _ _
  | finished e held hx he hb =>
    subst hb
    exact hs.stop e (by simp [Deed.ran, he])

end Stacked

/-! ### The registrations and the runs -/

/-- The registrations that came back are the destructors that started to run and those that wait. -/
structure Ledger (a : Activity β) (h : History) : Prop where
  returned : h.returned.Perm (h.ran ++ a.waiting)
  /-- One drain ends, when the slot is gone, and it ran all there was. -/
  drained : h.drained = if a.thread.slot = .gone then [h.returned.length] else []
  used : h.usesSlot = true ↔ a.thread.slot ≠ .untouched

namespace SlotEffect

variable {t t' : Thread}

theorem waiting_eq (he : SlotEffect t x t') :
    t'.slot.waiting = x.returned?.toList ++ t.slot.waiting := by
  cases he with
  | same hs ho' used quiet => rw [hs, quiet.returned]; rfl
  | setUp hs hs' ho' used quiet => rw [hs, hs', quiet.returned]; rfl
  | kept d chain chain' hr ran drained used hc hc' ht' =>
    subst ht'
    have hw : t.slot.waiting = chain.entries := by
      unfold Thread.touchSlot at hc
      split at hc
      · next hs =>
        obtain rfl := Option.some.inj hc
        rw [hs]; rfl
      · exact Slot.waiting_of_chain? hc
    rw [Slot.waiting_of_chain? (Slot.chain?_setChain hc chain'), hc', hr, hw]
    rfl

theorem drained_eq (he : SlotEffect t x t') : x.drained = [] := by
  cases he with
  | same hs ho' used quiet => exact quiet.drained
  | setUp hs hs' ho' used quiet => exact quiet.drained
  | kept d chain chain' hr ran drained used hc hc' ht' => exact drained

theorem returned?_eq_none (he : SlotEffect t x t') (hg : t.slot = .gone) : x.returned? = none := by
  cases he with
  | same hs ho' used quiet => exact quiet.returned
  | setUp hs hs' ho' used quiet => exact quiet.returned
  | kept d chain chain' hr ran drained used hc hc' ht' =>
    rw [(t.chain?_touchSlot_eq_none_iff).2 hg] at hc
    cases hc

theorem untouched_iff (he : SlotEffect t x t') :
    t'.slot ≠ .untouched ↔ x.usesSlot = true ∨ t.slot ≠ .untouched := by
  cases he with
  | same hs ho' used quiet => rw [hs, or_iff_right_of_imp used]
  | setUp hs hs' ho' used quiet => simp [hs', used]
  | kept d chain chain' hr ran drained used hc hc' ht' =>
    have hne : t'.slot.chain? ≠ none := by
      rw [ht', Slot.chain?_setChain hc]
      exact Option.some_ne_none _
    exact iff_of_true (fun h => hne (by rw [h]; rfl)) (.inl used)

end SlotEffect

theorem Ledger.life (hooks : Hooks) (bodies : β) (actions : List Action) :
    (life hooks bodies actions).Ledger [] where
  returned := .nil
  drained := rfl
  used := by simp [History.usesSlot, Activity.life]

/-- A task that is no action and neither runs a destructor nor ends a drain changes nothing that is
counted. -/
theorem Ledger.other (hl : a.Ledger h) (hx : ∀ action, x.task ≠ .act action) (hran : x.ran = [])
    (hdrained : x.drained = []) (hw : b.waiting = a.waiting)
    (hg : b.thread.slot = .gone ↔ a.thread.slot = .gone)
    (ht : b.thread.slot = .untouched ↔ a.thread.slot = .untouched) : b.Ledger (h ++ [x]) := by
  have hr : x.returned? = none := by
    rw [Deed.returned?, Deed.registration?_eq_none hx]
    rfl
  refine ⟨?_, ?_, ?_⟩
  · simpa [hr, hran, hw] using hl.returned
  · simpa [hr, hdrained, hg] using hl.drained
  · simpa [Deed.usesSlot_eq_false hx, ht] using hl.used

/-- A registration that comes back puts its destructor on top, and no other action counts. -/
theorem Ledger.acted (hl : a.Ledger h) (effect : SlotEffect a.thread x b.thread) :
    b.Ledger (h ++ [x]) := by
  refine ⟨?_, ?_, ?_⟩
  · have hw : b.waiting = x.returned?.toList ++ a.waiting := effect.waiting_eq
    simp only [History.returned_append, History.returned_singleton, History.ran_append,
      History.ran_singleton, effect.ran_eq, List.append_nil, hw]
    refine (hl.returned.append_right _).trans ?_
    rw [List.append_assoc]
    exact List.perm_append_comm.append_left _
  · -- no action ends a drain, and none of them brings back a registration after the end of one
    simp only [History.drained_append, History.drained_singleton, effect.drained_eq,
      List.append_nil, hl.drained, effect.gone_iff, History.returned_append,
      History.returned_singleton]
    split
    · next hg => rw [effect.returned?_eq_none hg]; simp
    · rfl
  · rw [effect.untouched_iff, ← hl.used]
    simp [or_comm]

/-- The drain counted the destructors that ran, which are all that were registered. -/
theorem Ledger.drainEnded (hl : a.Ledger h) (hs : a.Stacked h) {ran : Nat}
    (ht : a.tasks = x.task :: rest) (hx : x.task = .drain ran)
    (he : x.events = [.notice (.drained ran)]) (hw : a.waiting = []) :
    ({ a with thread := { a.thread with slot := .gone }, tasks := rest }).Ledger (h ++ [x]) := by
  obtain ⟨⟨chain, hc⟩, hran⟩ := hs.drain ran (by simp [ht, hx])
  have hr : x.returned? = none := by simp [Deed.returned?, Deed.registration?, hx]
  have hno : x.ran = [] := by simp [Deed.ran, he]
  have hperm := hl.returned
  rw [hw, List.append_nil] at hperm
  have hbefore := hl.drained
  rw [hc, if_neg (by simp)] at hbefore
  refine ⟨?_, ?_, ?_⟩
  · simpa [hr, hno, waiting] using hperm
  · simp [hbefore, Deed.drained, he, hr, hran, hperm.length_eq]
  · simpa [Deed.usesSlot, hx, hc] using hl.used

/-- The destructor that waited on top is the last one that started to run. -/
theorem Ledger.started (hl : a.Ledger h) (hs : a.Stacked h) {ran : Nat} {d : Destructor}
    {chain chain' : Chain} (ht : a.tasks = x.task :: rest) (hx : x.task = .drain ran)
    (he : x.events = [.ran d]) (hc : a.thread.slot.chain? = some chain)
    (hc' : chain.entries = d :: chain'.entries) (hb : b.thread.slot = .draining chain') :
    b.Ledger (h ++ [x]) := by
  obtain ⟨⟨c, hdraining⟩, -⟩ := hs.drain ran (by simp [ht, hx])
  have hr : x.returned? = none := by simp [Deed.returned?, Deed.registration?, hx]
  have hd : x.ran = [d] := by simp [Deed.ran, he]
  have hperm := hl.returned
  rw [waiting, Slot.waiting_of_chain? hc, hc'] at hperm
  refine ⟨?_, ?_, ?_⟩
  · simpa [hr, hd, waiting, hb] using hperm
  · simpa [hr, hdraining, hb, Deed.drained, he] using hl.drained
  · simpa [Deed.usesSlot, hx, hdraining, hb] using hl.used

variable [Bodies β]

/-- Every task keeps the account. -/
theorem Ledger.turn (hl : a.Ledger h) (hs : a.Stacked h) (ht : a.tasks = x.task :: rest)
    (turn : a.Turn rest x b) : b.Ledger (h ++ [x]) := by
  cases turn with
  | acted action hx outlook effect => exact hl.acted effect
  | bare hx he ho hb =>
    subst hb
    exact hl.other (by simp [hx]) (by simp [Deed.ran, he]) (by simp [Deed.drained, he])
      rfl .rfl .rfl
  | slotTornDown order hx he ho hb =>
    subst hb
    obtain ⟨⟨chain, hc⟩, -⟩ := hs.slot_of_order ho
    exact hl.other (by simp [hx]) (by simp [Deed.ran, he]) (by simp [Deed.drained, he])
      (by simp [waiting, hc]) (by simp [hc]) (by simp [hc])
  | ownTornDown order hx he ho hb =>
    subst hb
    exact hl.other (by simp [hx]) (by simp [Deed.ran, he]) (by simp [Deed.drained, he])
      rfl .rfl .rfl
  | drainRefused ran hx he held hb =>
    subst hb
    exact hl.other (by simp [hx]) (by simp [Deed.ran, he]) (by simp [Deed.drained, he])
      rfl .rfl .rfl
  | drainEnded ran hx he free hw hb =>
    subst hb
    exact hl.drainEnded hs ht hx he hw
  | started ran d chain chain' hx he free hc hc' hb =>
    exact hl.started hs ht hx he hc hc'.1 (by rw [hb])
  | finished e held hx he hb =>
    subst hb
    exact hl.other (by simp [hx]) (by simp [Deed.ran, he]) (by simp [Deed.drained, he])
      rfl .rfl .rfl

/-! ### Unfinished registrations -/

/-- A registration comes back, is unwound or ends the process. -/
structure Settled (a : Activity β) (h : History) : Prop where
  registrations : a.ending? = none → (∀ e held, .finish e held ∉ a.tasks) →
    h.registrations.Perm (h.returned ++ h.unwound)
  /-- The chain is held by a registration whose hook ended the process. -/
  held : (∃ e, .finish e true ∈ a.tasks) ↔ a.tasks ≠ [] ∧ ∃ x ∈ h, x.EndsInRegistration
  /-- A chain that is held is there. -/
  chain : (∃ e, .finish e true ∈ a.tasks) → a.thread.slot.chain? ≠ none

omit [Bodies β] in
theorem Settled.life (hooks : Hooks) (bodies : β) (actions : List Action) :
    (life hooks bodies actions).Settled [] where
  registrations := fun _ _ => .nil
  held := by simp [Activity.life]
  chain := by simp [Activity.life]

omit [Bodies β] in
theorem Settled.stop (e : Ending) (k : History) : (a.stop e).Settled k where
  registrations := fun he => absurd he (Option.some_ne_none _)
  held := by simp [Activity.stop]
  chain := by simp [Activity.stop]

omit [Bodies β] in
/-- A task that is no action opens nothing, if the end of the process is where it was. -/
theorem Settled.other (hs : a.Settled h) (hx : ∀ action, x.task ≠ .act action)
    (hlive : a.ending? = none) (hne : a.tasks ≠ []) (hchain : (∃ e, .finish e true ∈ b.tasks) →
      a.thread.slot.chain? ≠ none → b.thread.slot.chain? ≠ none)
    (hf : ∀ e held, .finish e held ∈ b.tasks ↔ .finish e held ∈ a.tasks) :
    b.Settled (h ++ [x]) := by
  have hr := Deed.registration?_eq_none hx
  have hends : ¬ x.EndsInRegistration := fun he => by simp [Deed.EndsInRegistration, hr] at he
  refine ⟨fun _ hno => ?_, ?_, fun hm => hchain hm (hs.chain (by simpa only [hf] using hm))⟩
  · simpa [Deed.returned?, Deed.unwound?, hr] using
      hs.registrations hlive (fun e held hm => hno e held ((hf e held).2 hm))
  · constructor
    · rintro ⟨e, hm⟩
      obtain ⟨-, y, hy, hye⟩ := hs.held.1 ⟨e, (hf e true).1 hm⟩
      exact ⟨List.ne_nil_of_mem hm, y, List.mem_append_left _ hy, hye⟩
    · rintro ⟨-, y, hy, hye⟩
      rcases List.mem_append.1 hy with hy | hy
      · obtain ⟨e, hm⟩ := hs.held.2 ⟨hne, y, hy, hye⟩
        exact ⟨e, (hf e true).2 hm⟩
      · rw [List.mem_singleton.1 hy] at hye
        exact absurd hye hends

omit [Bodies β] in
/-- An action opens what its outlook says. -/
theorem Settled.acted (hs : a.Settled h) {action : Action} (ht : a.tasks = .act action :: rest)
    (hlive : a.ending? = none) (outlook : Outlook { a with tasks := rest } x b)
    (effect : SlotEffect a.thread x b.thread) : b.Settled (h ++ [x]) := by
  have hmem : ∀ e held, Task.finish e held ∈ a.tasks ↔ Task.finish e held ∈ rest := by simp [ht]
  have hne : a.tasks ≠ [] := by simp [ht]
  cases outlook with
  | goesOn htb heb settled free =>
    refine ⟨fun _ hno => ?_, ?_, ?_⟩
    · rw [htb] at hno
      -- a registration that the action was came back or was unwound
      have hperm := hs.registrations hlive (fun e held hm => hno e held ((hmem e held).1 hm))
      simp only [History.registrations_append, History.registrations_singleton, settled,
        History.returned_append, History.returned_singleton, History.unwound_append,
        History.unwound_singleton]
      refine (hperm.append_right _).trans ?_
      simp only [List.append_assoc]
      exact (List.perm_append_comm_assoc ..).append_left _
    · rw [htb]
      constructor
      · rintro ⟨e, hm⟩
        obtain ⟨-, y, hy, hye⟩ := hs.held.1 ⟨e, (hmem e true).2 hm⟩
        exact ⟨List.ne_nil_of_mem hm, y, List.mem_append_left _ hy, hye⟩
      · rintro ⟨-, y, hy, hye⟩
        rcases List.mem_append.1 hy with hy | hy
        · obtain ⟨e, hm⟩ := hs.held.2 ⟨hne, y, hy, hye⟩
          exact ⟨e, (hmem e true).1 hm⟩
        · rw [List.mem_singleton.1 hy] at hye
          exact absurd hye free
    · rw [htb]
      rintro ⟨e, hm⟩
      exact effect.chain?_ne_none (hs.chain ⟨e, (hmem e true).2 hm⟩)
  | stops htb heb =>
    exact ⟨fun he => absurd he heb, by simp [htb], by simp [htb]⟩
  | leaves e held hf htb heb hheld hchain =>
    rw [finishing?_eq_none_iff] at hf
    refine ⟨fun _ hno => absurd (by rw [htb]; simp) (hno e held), ?_, ?_⟩
    · rw [htb]
      constructor
      · rintro ⟨e', hm⟩
        have hm' : e' = e ∧ held = true := by simpa using hm
        exact ⟨by simp, x, by simp, hheld.1 hm'.2⟩
      · rintro ⟨-, y, hy, hye⟩
        rcases List.mem_append.1 hy with hy | hy
        · -- an earlier one would have left an end of the process on the stack
          obtain ⟨e', hm⟩ := hs.held.2 ⟨hne, y, hy, hye⟩
          exact absurd ((hmem e' true).1 hm) (hf e' true)
        · rw [List.mem_singleton.1 hy] at hye
          exact ⟨e, by simp [hheld.2 hye]⟩
    · rw [htb]
      rintro ⟨e', hm⟩
      have hm' : e' = e ∧ held = true := by simpa using hm
      exact hchain hm'.2

/-- Every task opens no more than it settles. -/
theorem Settled.turn (hs : a.Settled h) (stacked : a.Stacked h) (ht : a.tasks = x.task :: rest)
    (turn : a.Turn rest x b) : b.Settled (h ++ [x]) := by
  have hne : a.tasks ≠ [] := by simp [ht]
  have hlive : a.ending? = none := stacked.ending?_eq_none ht
  have hsorted : rest.Pairwise Task.Above := stacked.sorted_tail ht
  cases turn with
  | acted action hx outlook effect => exact hs.acted (hx ▸ ht) hlive outlook effect
  | bare hx he ho hb =>
    subst hb
    exact hs.other (by simp [hx]) hlive hne (fun _ hc => hc) (by simp [ht, hx])
  | slotTornDown order hx he ho hb =>
    subst hb
    exact hs.other (by simp [hx]) hlive hne (fun _ _ => by simp) (by simp [ht, hx])
  | ownTornDown order hx he ho hb =>
    subst hb
    exact hs.other (by simp [hx]) hlive hne (fun _ hc => hc) (by simp [ht, hx])
  | drainEnded ran hx he free hw hb =>
    subst hb
    refine hs.other (by simp [hx]) hlive hne (fun hm => ?_) (by simp [ht, hx])
    -- a chain that is held would not have been drained
    rw [← chainHeld_iff (by exact hsorted)] at hm
    exact absurd (hm.symm.trans free) (by decide)
  | started ran d chain chain' hx he free hc hc' hb =>
    subst hb
    exact hs.other (by simp [hx]) hlive hne (fun _ _ => by simp) (by simp [ht, hx])
  | drainRefused ran hx he held hb =>
    subst hb
    exact .stop _ _
  | finished e held hx he hb =>
    subst hb
    exact .stop _ _

/-! ### Whole lives -/

/-- All three invariants hold of every life, whatever other threads do meanwhile. -/
theorem Lives.invariants (ha : a.Lives h) : a.Stacked h ∧ a.Ledger h ∧ a.Settled h := by
  obtain ⟨hooks, bodies, actions, hr⟩ := ha
  induction hr with
  | refl => exact ⟨.life .., .life .., .life ..⟩
  | deed _ hd _ ih =>
    obtain ⟨stacked, ledger, settled⟩ := ih
    obtain ⟨rest, ht, turn⟩ := hd.turn
    exact ⟨stacked.turn ht turn, ledger.turn stacked ht turn, settled.turn stacked ht turn⟩
  | meanwhile hooks bodies _ _ ih =>
    -- none of the three speaks of the hooks or of what destructors do
    obtain ⟨s, l, t⟩ := ih
    exact ⟨⟨s.order, s.sorted, s.drain, s.draining, s.tearDown, s.ended, s.ran⟩,
      ⟨l.returned, l.drained, l.used⟩, ⟨t.registrations, t.held, t.chain⟩⟩

theorem Lives.stacked (ha : a.Lives h) : a.Stacked h := ha.invariants.1

theorem Lives.ledger (ha : a.Lives h) : a.Ledger h := ha.invariants.2.1

theorem Lives.settled (ha : a.Lives h) : a.Settled h := ha.invariants.2.2

/-- The chain is held exactly while the process ends because of a hook that was called in a
registration. -/
theorem Lives.chainHeld_iff (ha : a.Lives h) :
    a.chainHeld = true ↔ a.tasks ≠ [] ∧ ∃ x ∈ h, x.EndsInRegistration :=
  (Activity.chainHeld_iff ha.stacked.sorted).trans ha.settled.held

/-- An action finds the chain held exactly while the process ends because of a hook that was called
in a registration. -/
theorem Lives.chainHeld_below_iff (ha : a.Lives h) {action : Action}
    (ht : a.tasks = .act action :: rest) :
    { a with tasks := rest }.chainHeld = true ↔ ∃ x ∈ h, x.EndsInRegistration := by
  have hne : a.tasks ≠ [] := by simp [ht]
  rw [chainHeld_below ht nofun, ha.chainHeld_iff, and_iff_right hne]

theorem Lives.chain?_ne_none (ha : a.Lives h) (hne : a.tasks ≠ [])
    (hx : ∃ x ∈ h, x.EndsInRegistration) : a.thread.slot.chain? ≠ none :=
  ha.settled.chain (ha.settled.held.2 ⟨hne, hx⟩)

/-- The slot of a thread that ended was never used or is gone. -/
theorem Lives.slot_of_gone (ha : a.Lives h) (hg : a.Gone) :
    a.thread.slot = .untouched ∨ a.thread.slot = .gone := by
  have hs := ha.stacked
  have hno : ∀ t, t ∉ a.tasks := by simp [hg.1]
  cases hsl : a.thread.slot with
  | untouched => exact .inl rfl
  | gone => exact .inr rfl
  | live chain =>
    -- the slot would still have to be torn down
    have hcount := hs.order
    rw [hsl, Slot.isLive_live, if_pos rfl] at hcount
    have horder : a.thread.order ≠ [] := by
      intro ho
      simp [ho] at hcount
    exact absurd (hs.tearDown hg.2 (.inl horder)) (hno _)
  | draining chain =>
    obtain ⟨ran, hm⟩ := hs.draining chain hsl (fun _ _ => hno _) hg.2
    exact absurd hm (hno _)

end Activity

end HostServices
