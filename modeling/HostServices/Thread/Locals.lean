import HostServices.Thread.Action

/-!
# The locals of a thread

Two locals of a thread take part in its end: the slot, which holds the chain of registered
destructors, and a local of the thread's own, which holds actions for its teardown. A local is set
up when it is first used, and the locals that were set up are torn down in reverse order.

The slot goes through four stages. While its chain is being drained it cannot be used as a local
any more, but registrations still reach the chain; once the drain is over, nothing does. The parts
that a slot has in memory, and why these four stages are all that there is to them, are in
`HostServices.Proofs.Thread.Parts`.
-/

namespace HostServices

/-- The stages of a thread's slot. -/
inductive Slot where
  | untouched
  | live (chain : Chain)
  /-- The slot is being torn down and its chain is drained. -/
  | draining (chain : Chain)
  | gone
deriving DecidableEq, Repr

namespace Slot

/-- The chain that registrations reach, if there is one. -/
def chain? : Slot → Option Chain
  | live chain | draining chain => some chain
  | untouched | gone => none

def setChain (s : Slot) (chain : Chain) : Slot :=
  match s with
  | live _ => live chain
  | draining _ => draining chain
  | untouched => untouched
  | gone => gone

def pending (s : Slot) : Nat :=
  match s.chain? with
  | some chain => chain.entries.length
  | none => 0

@[simp] theorem chain?_live (chain : Chain) : (live chain).chain? = some chain := rfl

@[simp] theorem chain?_draining (chain : Chain) : (draining chain).chain? = some chain := rfl

/-- The chain that was put there is the one that is reached. -/
theorem chain?_setChain {s : Slot} {c : Chain} (h : s.chain? = some c) (chain : Chain) :
    (s.setChain chain).chain? = some chain := by
  cases s <;> simp_all [chain?, setChain]

end Slot

/-- The stages of a thread's own local. -/
inductive OwnLocal where
  | untouched
  /-- The local is in use and holds actions for its teardown. -/
  | live (actions : List Action)
  | gone

/-- One of the two locals. -/
inductive LocalName where
  | slot
  | own
deriving DecidableEq, Repr

/-- The state of a thread between two actions. -/
structure Thread where
  slot : Slot := .untouched
  own : OwnLocal := .untouched
  /-- The locals that were set up and not yet torn down, the last one first. -/
  order : List LocalName := []

namespace Thread

/-- Sets up the slot unless it was used before. -/
def touchSlot (t : Thread) : Thread :=
  match t.slot with
  | .untouched => { t with slot := .live .empty, order := .slot :: t.order }
  | _ => t

/-- Sets down actions for the teardown of the thread's own local. Once the teardown has started the
local cannot be reached, and nothing happens. -/
def whenTornDown (t : Thread) (actions : List Action) : Thread :=
  match t.own with
  | .untouched => { t with own := .live actions, order := .own :: t.order }
  | .live earlier => { t with own := .live (earlier ++ actions) }
  | .gone => t

/-- A slot that was touched reaches a chain unless it is gone. -/
theorem chain?_touchSlot_eq_none_iff (t : Thread) :
    t.touchSlot.slot.chain? = none ↔ t.slot = .gone := by
  unfold touchSlot
  split <;> rename_i h
  · simp [h]
  · cases hs : t.slot <;> simp_all [Slot.chain?]

end Thread

end HostServices
