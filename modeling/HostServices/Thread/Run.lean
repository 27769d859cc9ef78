import HostServices.Thread.Activity

/-!
# Runs to the end

A thread's work need not end: a destructor may register itself again for ever. It does end when what
destructors do is written down beforehand, run by run, as a `Script`. Each task then has a finite
weight, and so have the waiting destructors, the locals that are still to be torn down and the
script. Their sum falls with every task done (`potential_lt_of_step?`), which is why `Activity.run`
is total.

The weights are chosen so that an action pays for what it may set up: a local costs two tasks at
its teardown, a registration one more for its run, an end of the process in good order two, and
actions set down for later are paid for when they are set down.
-/

namespace HostServices

/-- What destructors do, by context: for each context the actions of the first run, of the second
and so on. Later runs do nothing. -/
abbrev Script := List (Nat × List (List Action))

/-- The actions of the next run with a context, and the script without them. -/
def Script.next : Script → Nat → List Action × Script
  | [], _ => ([], [])
  | (n, runs) :: rest, context =>
    if n = context then (runs.headD [], (n, runs.tail) :: rest)
    else ((Script.next rest context).1, (n, runs) :: (Script.next rest context).2)

instance : Bodies Script where
  next script d := script.next d.context

/-! ### Weights -/

mutual

/-- A bound on the tasks that an action can give rise to by itself. -/
def Action.weight : Action → Nat
  | .whenTornDown actions => 5 + Action.weights actions
  | _ => 5

def Action.weights : List Action → Nat
  | [] => 0
  | a :: rest => a.weight + Action.weights rest

end

@[simp] theorem Action.weights_append (l₁ l₂ : List Action) :
    Action.weights (l₁ ++ l₂) = Action.weights l₁ + Action.weights l₂ := by
  induction l₁ with
  | nil => simp [Action.weights]
  | cons a l₁ ih => simp only [List.cons_append, Action.weights, ih]; omega

def Task.weight : Task → Nat
  | .act a => a.weight
  | _ => 1

def Task.weights : List Task → Nat
  | [] => 0
  | t :: rest => t.weight + Task.weights rest

@[simp] theorem Task.weights_append (l₁ l₂ : List Task) :
    Task.weights (l₁ ++ l₂) = Task.weights l₁ + Task.weights l₂ := by
  induction l₁ with
  | nil => simp [Task.weights]
  | cons t l₁ ih => simp only [List.cons_append, Task.weights, ih]; omega

@[simp] theorem Task.weights_map_act (actions : List Action) :
    Task.weights (actions.map .act) = Action.weights actions := by
  induction actions with
  | nil => rfl
  | cons a actions ih => simp only [List.map_cons, Task.weights, Task.weight, ih, Action.weights]

def OwnLocal.weight : OwnLocal → Nat
  | .live actions => Action.weights actions
  | .untouched | .gone => 0

/-- The weight of what a thread has set up. -/
def Thread.weight (t : Thread) : Nat :=
  2 * t.order.length + t.slot.pending + t.own.weight

def Script.runsWeight : List (List Action) → Nat
  | [] => 0
  | actions :: runs => Action.weights actions + Script.runsWeight runs

def Script.weight : Script → Nat
  | [] => 0
  | (_, runs) :: rest => Script.runsWeight runs + Script.weight rest

/-- What a script gives out it loses. -/
theorem Script.weight_next (script : Script) (context : Nat) :
    Action.weights (script.next context).1 + (script.next context).2.weight = script.weight := by
  induction script with
  | nil => rfl
  | cons entry rest ih =>
    obtain ⟨n, runs⟩ := entry
    unfold Script.next
    split
    · cases runs <;> simp [Script.weight, Script.runsWeight, Action.weights]; omega
    · simp only [Script.weight]; omega

namespace Activity

/-- A bound on the tasks that are still to be done. -/
def potential (a : Activity Script) : Nat :=
  Task.weights a.tasks + a.thread.weight + a.bodies.weight

/-! ### Every task lowers the potential -/

variable {a : Activity Script}

theorem potential_stop_le (e : Ending) : (a.stop e).potential ≤ a.potential := by
  simp [potential, stop, Task.weights]

theorem potential_giveUp_le (words : Bytes) : (a.giveUp words).2.potential ≤ a.potential :=
  potential_stop_le _

/-- A teardown and the end behind it are two tasks. -/
theorem potential_leave_le (e : Ending) (held : Bool) :
    (a.leave e held).2.potential ≤ a.potential + 2 := by
  unfold leave
  split
  · simp only [potential, Task.weights, Task.weight]
    omega
  · exact Nat.le_trans (potential_giveUp_le _) (Nat.le_add_right _ _)

theorem potential_exhaust_le (caller : Caller) (held : Bool) :
    (a.exhaust caller held).2.potential ≤ a.potential + 2 := by
  unfold exhaust
  split
  · exact Nat.le_trans (potential_stop_le _) (Nat.le_add_right _ _)
  · exact potential_leave_le _ _
  · exact Nat.le_trans (potential_stop_le _) (Nat.le_add_right _ _)
  · exact Nat.le_add_right _ _
  · exact Nat.le_trans (potential_giveUp_le stuckWords) (Nat.le_add_right _ _)

theorem potential_exit_le (status : Int) (caller : Caller) :
    (a.exit status caller).2.potential ≤ a.potential + 2 := by
  unfold exit
  split
  · exact potential_leave_le _ _
  · exact potential_leave_le _ _
  · exact Nat.le_trans (potential_stop_le _) (Nat.le_add_right _ _)
  · exact Nat.le_add_right _ _
  · exact Nat.le_trans (potential_giveUp_le stuckWords) (Nat.le_add_right _ _)

/-- Touching the slot sets up at most one local. -/
theorem weight_touchSlot_le (t : Thread) : t.touchSlot.weight ≤ t.weight + 2 := by
  unfold Thread.touchSlot
  split
  · simp_all [Thread.weight, Slot.pending, Slot.chain?, Chain.empty]
    omega
  · exact Nat.le_add_right _ _

theorem weight_whenTornDown_le (t : Thread) (actions : List Action) :
    (t.whenTornDown actions).weight ≤ t.weight + 2 + Action.weights actions := by
  unfold Thread.whenTornDown
  split <;> simp_all [Thread.weight, OwnLocal.weight] <;> omega

theorem pending_setChain {s : Slot} {c : Chain} (h : s.chain? = some c) (chain : Chain) :
    (s.setChain chain).pending = chain.entries.length := by
  simp [Slot.pending, Slot.chain?_setChain h]

theorem potential_register_le (d : Destructor) (memory : Bool) (caller : Caller) :
    (a.register d memory caller).2.potential ≤ a.potential + 4 := by
  have ht := weight_touchSlot_le a.thread
  have hb : ({ a with thread := a.thread.touchSlot } : Activity Script).potential
      ≤ a.potential + 2 := by
    simp only [potential]; omega
  unfold register
  simp only
  split
  · exact Nat.le_trans (potential_stop_le _) (by omega)
  · rename_i chain hc
    split
    · exact Nat.le_trans (potential_giveUp_le _) (by omega)
    · split
      · exact Nat.le_trans (potential_exhaust_le _ _) (by omega)
      · rename_i chain' hp
        -- The new entry is the only difference between the two chains.
        have hn := pending_setChain hc chain'
        have hl : chain'.entries.length = chain.entries.length + 1 := by
          simp [Chain.entries_of_push? hp]
        have hs : a.thread.touchSlot.slot.pending = chain.entries.length := by
          simp [Slot.pending, hc]
        simp only [potential, Thread.weight] at hb ⊢
        omega

theorem potential_pending_le : a.pending.2.potential ≤ a.potential + 2 := by
  have hb : ({ a with thread := a.thread.touchSlot } : Activity Script).potential
      ≤ a.potential + 2 := by
    have ht := weight_touchSlot_le a.thread
    simp only [potential]; omega
  unfold pending
  simp only
  split
  · exact hb
  · split
    · exact Nat.le_trans (potential_giveUp_le _) hb
    · exact hb

theorem potential_act_lt (action : Action) (tasks : List Task) :
    (({ a with tasks } : Activity Script).act action).2.potential
      < ({ a with tasks := .act action :: tasks } : Activity Script).potential := by
  have ht := weight_touchSlot_le a.thread
  cases action with
  | register d memory caller =>
    have := potential_register_le (a := { a with tasks }) d memory caller
    simp only [act, potential, Task.weights, Task.weight, Action.weight] at this ⊢
    omega
  | exit status caller =>
    have := potential_exit_le (a := { a with tasks }) status caller
    simp only [act, potential, Task.weights, Task.weight, Action.weight] at this ⊢
    omega
  | exhausted =>
    have := potential_exhaust_le (a := { a with tasks }) .native false
    simp only [act, potential, Task.weights, Task.weight, Action.weight] at this ⊢
    omega
  | whenTornDown actions =>
    have := weight_whenTornDown_le a.thread actions
    simp only [act, potential, Task.weights, Task.weight, Action.weight]
    omega
  | pending =>
    have := potential_pending_le (a := { a with tasks })
    simp only [act, potential, Task.weights, Task.weight, Action.weight] at this ⊢
    omega
  | touch | setExitHook | setExhaustedHook | abort | fatal =>
    simp only [act, die, stop, potential, Task.weights, Task.weight, Action.weight]
    omega

theorem potential_tearDown_lt (tasks : List Task) :
    (({ a with tasks } : Activity Script).tearDown).2.potential
      < ({ a with tasks := .tearDown :: tasks } : Activity Script).potential := by
  unfold tearDown
  simp only
  split <;> rename_i ho
  · simp only [potential, Task.weights, Task.weight]; omega
  · have hs : (a.thread.slot.chain?.getD Chain.empty).entries.length = a.thread.slot.pending := by
      unfold Slot.pending
      cases a.thread.slot.chain? <;> simp [Chain.empty]
    simp only [potential, Thread.weight, Task.weights, Task.weight, ho, Slot.pending,
      Slot.chain?_draining, List.length_cons] at hs ⊢
    omega
  · simp only [potential, Thread.weight, Task.weights_append, Task.weights_map_act, Task.weights,
      Task.weight, ho, OwnLocal.weight, List.length_cons]
    cases a.thread.own with
    | live actions =>
      -- the actions that wait move from the local to the stack
      simp only
      omega
    | untouched | gone => simp [Action.weights]

theorem potential_drain_lt (ran : Nat) (tasks : List Task) :
    (({ a with tasks } : Activity Script).drain ran).2.potential
      < ({ a with tasks := .drain ran :: tasks } : Activity Script).potential := by
  unfold drain
  simp only
  split
  · have := potential_giveUp_le (a := { a with tasks }) tornWords
    simp only [potential, Task.weights, Task.weight] at this ⊢
    omega
  split
  · simp only [potential, Thread.weight, Task.weights, Task.weight, Slot.pending, Slot.chain?]
    omega
  · rename_i d chain hp
    obtain ⟨c, hc, hpop⟩ := Option.bind_eq_some_iff.1 hp
    have hl : a.thread.slot.pending = chain.entries.length + 1 := by
      simp [Slot.pending, hc, (Chain.pop?_eq_some_iff.1 hpop).1]
    have hw := Script.weight_next a.bodies d.context
    simp only [potential, Thread.weight, Task.weights_append, Task.weights_map_act, Task.weights,
      Task.weight, Bodies.next, hl]
    simp only [Slot.pending, Slot.chain?_draining]
    omega

/-- Every task done lowers the potential. -/
theorem potential_lt_of_step? {a' : Activity Script} {events : List Thread.Event}
    (h : a.step? = some (events, a')) : a'.potential < a.potential := by
  obtain ⟨thread, hooks, bodies, tasks, ending?⟩ := a
  cases tasks with
  | nil => simp [step?] at h
  | cons task tasks =>
    simp only [step?, Option.some.injEq] at h
    have ha' : a' = (Activity.perform ⟨thread, hooks, bodies, tasks, ending?⟩ task).2 := by
      rw [h]
    subst ha'
    cases task with
    | act action => exact potential_act_lt (a := ⟨thread, hooks, bodies, [], ending?⟩) action tasks
    | drain ran => exact potential_drain_lt (a := ⟨thread, hooks, bodies, [], ending?⟩) ran tasks
    | tearDown => exact potential_tearDown_lt (a := ⟨thread, hooks, bodies, [], ending?⟩) tasks
    | finish e held =>
      simp only [perform, stop, potential, Task.weights, Task.weight]
      omega

/-! ### The run -/

/-- Does all tasks. The answer is what was observed, in order, and what is left in the end. -/
def run (a : Activity Script) : List Thread.Event × Activity Script :=
  match h : a.step? with
  | none => ([], a)
  | some (events, a') =>
    have := potential_lt_of_step? h
    let (later, last) := a'.run
    (events ++ later, last)
termination_by a.potential

theorem run_of_step?_eq_none (h : a.step? = none) : a.run = ([], a) := by
  rw [run]
  split <;> simp_all

theorem run_of_step?_eq_some {a' : Activity Script} {events : List Thread.Event}
    (h : a.step? = some (events, a')) : a.run = (events ++ a'.run.1, a'.run.2) := by
  rw [run]
  split <;> simp_all

end Activity

end HostServices
