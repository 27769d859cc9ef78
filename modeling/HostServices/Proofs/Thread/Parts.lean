import HostServices.Proofs.Thread.Outcome

/-!
# The parts of a slot

The stages of a slot are three parts in the memory of its thread: a local that the host sets up and
tears down, the chain that is stored in it, and a pointer through which registrations reach the
chain while it is drained, when the local cannot be used any more. `SlotParts` keeps them apart, and
has what is done to each of them. The first use sets the local up. The teardown of the local sets
the pointer, takes entries off the stored chain until there is none, gives back the memory of the
chain and makes the pointer null.

No part knows the stage. `Slot.parts` says how a stage lies in the parts, and every operation does
to the parts what it does to the stage, so every task does (`Activity.Does.parts`), and so does any
run of a thread (`Activity.ReachesInParts.eq_parts`). Hence what the stages leave unsaid: the
pointer is set just while the chain is drained, and once the drain has ended the memory is given
back and the pointer is null, for the rest of the thread's life (`Activity.parts_of_life`).
-/

namespace HostServices

variable {β : Type}

/-- How far a local of a thread has come. -/
inductive LocalStage where
  | unused
  | alive
  /-- Its teardown has started, and it cannot be used any more. -/
  | tornDown
deriving DecidableEq, Repr

/-- The parts of a slot. -/
structure SlotParts where
  stage : LocalStage := .unused
  /-- The chain that is stored in the local. -/
  chain : Chain := .empty
  /-- Whether the pointer to the chain that is drained is set. Otherwise it is null. -/
  pointer : Bool := false
deriving DecidableEq, Repr

namespace SlotParts

/-! ### What is done to the parts -/

/-- Uses the local, which sets it up the first time. -/
def touch (p : SlotParts) : SlotParts :=
  match p.stage with
  | .unused => { p with stage := .alive }
  | .alive | .tornDown => p

/-- The chain that is reached: the one in the local, or the one that the pointer leads to once the
local cannot be used. -/
def reach? (p : SlotParts) : Option Chain :=
  match p.stage with
  | .unused | .alive => some p.chain
  | .tornDown => if p.pointer then some p.chain else none

/-- Puts an entry on the chain that is reached. -/
def push (p : SlotParts) (memory : Bool) (d : Destructor) : SlotParts :=
  match p.reach?.bind (·.push? memory d) with
  | some chain => { p with chain }
  | none => p

/-- The host starts to tear down the local, and the pointer is set. -/
def startDrain (p : SlotParts) : SlotParts := { p with stage := .tornDown, pointer := true }

/-- Gives back the memory of the chain. -/
def reset (p : SlotParts) : SlotParts := { p with chain := .empty }

def clearPointer (p : SlotParts) : SlotParts := { p with pointer := false }

/-- A round of the drain. -/
def drainOnce (p : SlotParts) : SlotParts :=
  match p.chain.pop? with
  | some (_, chain) => { p with chain }
  | none => p.reset.clearPointer

/-- The parts after a task of the thread `a`. A chain that a registration holds stays as it is. -/
def after (p : SlotParts) (a : Activity β) : Task → SlotParts
  | .act (.register d memory _) => if a.chainHeld then p.touch else p.touch.push memory d
  | .act .pending | .act .touch => p.touch
  | .act _ | .finish .. => p
  | .tearDown => if a.thread.order.head? = some .slot then p.startDrain else p
  | .drain _ => if a.chainHeld then p else p.drainOnce

theorem push_of_eq_some {p : SlotParts} {chain chain' : Chain} {memory : Bool} {d : Destructor}
    (hc : p.reach? = some chain) (hp : chain.push? memory d = some chain') :
    p.push memory d = { p with chain := chain' } := by
  rw [push, hc, Option.bind_some, hp]

theorem push_of_eq_none {p : SlotParts} {memory : Bool} {d : Destructor}
    (h : p.reach?.bind (·.push? memory d) = none) : p.push memory d = p := by
  rw [push, h]

end SlotParts

/-! ### Stages and parts -/

namespace Slot

/-- The parts of a slot at a stage. -/
def parts : Slot → SlotParts
  | untouched => {}
  | live chain => { stage := .alive, chain }
  | draining chain => { stage := .tornDown, chain, pointer := true }
  | gone => { stage := .tornDown }

theorem parts_setChain {s : Slot} {chain : Chain} (h : s.chain? = some chain) (chain' : Chain) :
    (s.setChain chain').parts = { s.parts with chain := chain' } := by
  cases s with
  | live | draining => rfl
  | untouched | gone => cases h

/-- The drain starts on the chain that is in the local. -/
theorem startDrain_parts (chain : Chain) :
    (live chain).parts.startDrain = (draining chain).parts := rfl

theorem drainOnce_parts_of_pop? {chain chain' : Chain} {d : Destructor}
    (h : chain.pop? = some (d, chain')) :
    (draining chain).parts.drainOnce = (draining chain').parts := by
  simp only [parts, SlotParts.drainOnce, h]

/-- The round that finds no entry gives back the memory and clears the pointer, and the slot is
gone. -/
theorem drainOnce_parts_of_pop?_eq_none {chain : Chain} (h : chain.pop? = none) :
    (draining chain).parts.drainOnce = gone.parts := by
  simp only [parts, SlotParts.drainOnce, h]
  rfl

theorem chain_parts {s : Slot} : s.parts.chain = s.chain?.getD .empty := by
  cases s <;> rfl

theorem pointer_parts_iff {s : Slot} : s.parts.pointer = true ↔ ∃ chain, s = .draining chain := by
  cases s <;> simp [parts]

end Slot

namespace Thread

/-- A use of the slot does to the parts what it does to the stage. -/
theorem parts_touchSlot (t : Thread) : t.touchSlot.slot.parts = t.slot.parts.touch := by
  unfold touchSlot
  cases hs : t.slot <;> simp [hs, Slot.parts, SlotParts.touch]

/-- The parts reach the chain that the stage does, once the slot was used. -/
theorem reach?_touch_parts (t : Thread) : t.slot.parts.touch.reach? = t.touchSlot.slot.chain? := by
  unfold touchSlot
  cases hs : t.slot <;> simp [hs, Slot.parts, SlotParts.touch, SlotParts.reach?, Slot.chain?]

end Thread

namespace Activity

variable {a b c : Activity β} {p q : SlotParts} {h k : History} {task : Task} {rest : List Task}
  {events : List Thread.Event}

/-! ### One task -/

/-- A registration puts its entry on the chain that the parts reach just if it comes back. -/
theorem Registration.parts {d : Destructor} {memory : Bool} {caller : Caller}
    (hr : a.Registration d memory caller events b) :
    b.thread.slot.parts =
      if a.chainHeld then a.thread.slot.parts.touch else a.thread.slot.parts.touch.push memory d := by
  have hreach := a.thread.reach?_touch_parts
  have htouch := a.thread.parts_touchSlot
  cases hr with
  | tooLate gone hdie =>
    -- no chain is reached any more, so nothing is pushed
    obtain ⟨-, rfl⟩ := Prod.mk.inj hdie
    have hgone : a.thread.touchSlot = a.thread := by simp [Thread.touchSlot, gone]
    have hnone : a.thread.slot.parts.touch.reach? = none := by rw [hreach, hgone, gone]; rfl
    rw [SlotParts.push_of_eq_none (by rw [hnone]; rfl), ite_self, ← htouch, hgone]
    rfl
  | refused chain hc held he hb =>
    rw [hb, if_pos held, ← htouch]
    rfl
  | exhausted chain hc free hp hx =>
    have hnone : a.thread.slot.parts.touch.reach?.bind (·.push? memory d) = none := by
      rw [hreach, hc, Option.bind_some, hp]
    rw [hx.thread_eq, free, if_neg Bool.false_ne_true, SlotParts.push_of_eq_none hnone, ← htouch]
  | kept chain chain' hc free hp he hb =>
    rw [hb, free, if_neg Bool.false_ne_true, SlotParts.push_of_eq_some (hreach.trans hc) hp,
      ← htouch]
    exact Slot.parts_setChain hc chain'

/-- An action that does not use the slot leaves its parts alone. -/
theorem parts_after_act (p : SlotParts) {action : Action} (hu : action.usesSlot = false) :
    p.after a (.act action) = p := by
  cases action with
  | register | pending | touch => cases hu
  | _ => rfl

variable [Bodies β]

/-- Every task does to the parts of the slot what it does to the stage. -/
theorem Does.parts (hd : a.Does task events b) (hs : a.Stacked h) :
    b.thread.slot.parts = a.thread.slot.parts.after a task := by
  obtain ⟨rest, ht, hp, turn⟩ := hd.perform_turn
  cases turn with
  | acted action hx outlook effect =>
    obtain rfl : task = .act action := hx
    by_cases hu : action.usesSlot = false
    · rw [parts_after_act _ hu, effect.slot_eq hu]
    · cases action with
      | register d memory caller =>
        have hparts := (registration hp).parts
        rwa [chainHeld_below ht (by simp)] at hparts
      | pending =>
        have hb : b.thread = a.thread.touchSlot := by
          obtain ⟨-, -, rfl⟩ | ⟨-, -, -, rfl⟩ := pending_cases hp <;> rfl
        rw [hb]
        exact a.thread.parts_touchSlot
      | touch =>
        obtain ⟨-, rfl⟩ := Prod.mk.inj hp
        exact a.thread.parts_touchSlot
      | _ => exact absurd rfl hu
  | bare hx he ho hb =>
    obtain rfl : task = .tearDown := hx
    rw [hb, SlotParts.after, ho]
    rfl
  | slotTornDown order hx he ho hb =>
    obtain rfl : task = .tearDown := hx
    obtain ⟨⟨chain, hlive⟩, -⟩ := hs.slot_of_order ho
    rw [SlotParts.after, ho, List.head?_cons, if_pos rfl, hlive, Slot.startDrain_parts, hb, hlive]
    rfl
  | ownTornDown order hx he ho hb =>
    obtain rfl : task = .tearDown := hx
    rw [hb, SlotParts.after, ho]
    rfl
  | drainRefused ran hx he held hb =>
    obtain rfl : task = .drain ran := hx
    rw [hb, SlotParts.after, if_pos held]
    rfl
  | drainEnded ran hx he free hw hb =>
    obtain rfl : task = .drain ran := hx
    obtain ⟨⟨chain, hdraining⟩, -⟩ := hs.drain ran (by simp [ht])
    have hpop : chain.pop? = none := by
      rw [waiting, hdraining] at hw
      exact Chain.pop?_eq_none_iff.2 hw
    rw [chainHeld_below ht (by simp)] at free
    rw [SlotParts.after, free, if_neg Bool.false_ne_true, hdraining,
      Slot.drainOnce_parts_of_pop?_eq_none hpop, hb]
  | started ran d chain chain' hx he free hc hc' hb =>
    obtain rfl : task = .drain ran := hx
    obtain ⟨⟨chain₀, hdraining⟩, -⟩ := hs.drain ran (by simp [ht])
    obtain rfl : chain₀ = chain := by simpa [hdraining] using hc
    rw [chainHeld_below ht (by simp)] at free
    rw [SlotParts.after, free, if_neg Bool.false_ne_true, hdraining,
      Slot.drainOnce_parts_of_pop? (Chain.pop?_eq_some_iff.2 hc'), hb]
  | finished e held hx he hb =>
    obtain rfl : task = .finish e held := hx
    rw [hb]
    rfl

/-! ### A whole life -/

/-- `a` comes to `b` by the deeds `h`, whatever other threads do meanwhile, and the parts of its
slot come from `p` to `q`. -/
inductive ReachesInParts (a : Activity β) (p : SlotParts) :
    History → Activity β → SlotParts → Prop
  | refl : ReachesInParts a p [] a p
  | deed {h : History} {b c : Activity β} {q : SlotParts} {task : Task}
      {events : List Thread.Event} :
      ReachesInParts a p h b q → b.Does task events c →
      ReachesInParts a p (h ++ [⟨task, events⟩]) c (q.after b task)
  | meanwhile {h : History} {b : Activity β} {q : SlotParts} (hooks : Hooks) (bodies : β) :
      ReachesInParts a p h b q → ReachesInParts a p h { b with hooks, bodies } q

theorem ReachesInParts.reaches (hr : a.ReachesInParts p h b q) : a.Reaches h b := by
  induction hr with
  | refl => exact .refl a
  | deed _ hd ih => exact ih.deed hd
  | meanwhile hooks bodies _ ih => exact ih.meanwhile hooks bodies

/-- Whatever a thread comes to, the parts of its slot come to something. -/
theorem Reaches.inParts (hr : a.Reaches h b) (p : SlotParts) : ∃ q, a.ReachesInParts p h b q := by
  induction hr with
  | refl => exact ⟨p, .refl⟩
  | deed _ hd _ ih =>
    obtain ⟨q, hq⟩ := ih
    exact ⟨_, hq.deed hd⟩
  | meanwhile hooks bodies _ _ ih =>
    obtain ⟨q, hq⟩ := ih
    exact ⟨q, hq.meanwhile hooks bodies⟩

/-- The parts go with the stage all along. -/
theorem ReachesInParts.eq_parts (hr : a.ReachesInParts a.thread.slot.parts h b q)
    (ha : a.Lives k) : q = b.thread.slot.parts := by
  induction hr with
  | refl => rfl
  | deed hb hd ih =>
    rw [ih, hd.parts (ha.reaches hb.reaches).stacked]
  | meanwhile hooks bodies _ ih => exact ih

/-- **The parts of a slot along a life.** A thread starts with a local that was not used, an empty
chain without memory and a null pointer. At any time the destructors that wait are the entries of
the chain. The pointer is set just while the chain is drained. Once the drain has ended no entry is
left and no memory, and the pointer is null. -/
theorem parts_of_life {hooks : Hooks} {bodies : β} {actions : List Action}
    (hr : (life hooks bodies actions).ReachesInParts {} h b q) :
    q.chain.entries = b.waiting ∧
    (q.pointer = true ↔ ∃ chain, b.thread.slot = .draining chain) ∧
    (h.drained ≠ [] → q = { stage := .tornDown, chain := ⟨[], 0⟩, pointer := false }) := by
  have hb : b.Lives h := ⟨hooks, bodies, actions, hr.reaches⟩
  have hlife : (life hooks bodies actions).Lives [] := ⟨hooks, bodies, actions, .refl _⟩
  obtain rfl : q = b.thread.slot.parts := hr.eq_parts hlife
  refine ⟨?_, Slot.pointer_parts_iff, fun hdrained => ?_⟩
  · rw [Slot.chain_parts, Activity.waiting, Slot.waiting]
    cases b.thread.slot.chain? <;> rfl
  · rw [hb.drained_ne_nil_iff.1 hdrained]
    rfl

/-- A chain of one entry, for which there is memory for four, is drained in two rounds. -/
example : ((({} : SlotParts).touch.push true ⟨"a", 1⟩).startDrain.drainOnce =
      { stage := .tornDown, chain := ⟨[], 4⟩, pointer := true }) ∧
    (({} : SlotParts).touch.push true ⟨"a", 1⟩).startDrain.drainOnce.drainOnce =
      { stage := .tornDown, chain := ⟨[], 0⟩, pointer := false } := by decide

end Activity

end HostServices
