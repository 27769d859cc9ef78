import HostServices.Thread.Activity

/-!
# The history of a thread

What a thread went through is the list of the tasks that were done on it, each with what was
observed meanwhile: its `History`. The registrations that came back, the ones that a hook unwound,
the destructors that started to run and the drains that ended are all read off it.

A thread is not alone. Between any two of its tasks other threads may install hooks and run
destructors, so `Activity.Reaches` lets the hooks and what destructors do change at any time. A
statement about everything that is reached is then one about every schedule of the other threads.
`Activity.Runs` is the same without them.

`Activity.life` is a thread from its first task to its last: it does its own actions, whatever they
are, and then its locals are torn down.
-/

namespace HostServices

variable {β : Type}

/-! ### Deeds -/

/-- Whether an action sets up the slot of its thread unless it was set up before. -/
def Action.usesSlot : Action → Bool
  | .register .. | .pending | .touch => true
  | _ => false

namespace Thread.Event

/-- The destructor that started to run. -/
@[simp] def ran? : Thread.Event → Option Destructor
  | .ran d => some d
  | _ => none

/-- The number of destructors that a drain ran, noted down at its end. -/
@[simp] def drained? : Thread.Event → Option Nat
  | .notice (.drained n) => some n
  | _ => none

end Thread.Event

/-- A task that was done, and what was observed of it. -/
structure Deed where
  task : Task
  events : List Thread.Event

namespace Deed

/-- The destructor of a registration, however it came out. -/
def registration? (x : Deed) : Option Destructor :=
  match x.task with
  | .act (.register d _ _) => some d
  | _ => none

/-- The destructor of a registration that came back to its caller. -/
def returned? (x : Deed) : Option Destructor :=
  x.registration?.filter fun d => .notice (.registered d.context) ∈ x.events

/-- The destructor of a registration that the hook for exhausted memory unwound. -/
def unwound? (x : Deed) : Option Destructor :=
  x.registration?.filter fun _ => .exhaustedUnwound ∈ x.events

/-- Whether the deed was an action that uses the slot. -/
def usesSlot (x : Deed) : Bool :=
  match x.task with
  | .act action => action.usesSlot
  | _ => false

/-- The destructors that started to run. -/
def ran (x : Deed) : List Destructor := x.events.filterMap Thread.Event.ran?

/-- The drains that ended, each by the number of destructors that it ran. -/
def drained (x : Deed) : List Nat := x.events.filterMap Thread.Event.drained?

/-- A registration ran out of memory, and the hook that was called for it ended the process. -/
def EndsInRegistration (x : Deed) : Prop :=
  x.registration?.isSome ∧ ∃ name, .exhaustedHook name ∈ x.events

theorem registration?_eq_none {x : Deed} (hx : ∀ action, x.task ≠ .act action) :
    x.registration? = none := by
  unfold registration?
  split
  · next ht => exact absurd ht (hx _)
  · rfl

theorem usesSlot_eq_false {x : Deed} (hx : ∀ action, x.task ≠ .act action) :
    x.usesSlot = false := by
  unfold usesSlot
  split
  · next ht => exact absurd ht (hx _)
  · rfl

/-- Nothing was put on a chain, taken off it or drained. -/
structure Quiet (x : Deed) : Prop where
  returned : x.returned? = none
  ran : x.ran = []
  drained : x.drained = []

end Deed

/-- The tasks that were done on a thread, the first one first. -/
abbrev History := List Deed

namespace History

/-- The destructors of all registrations. -/
def registrations (h : History) : List Destructor := h.filterMap Deed.registration?

/-- The destructors of the registrations that came back to their callers. -/
def returned (h : History) : List Destructor := h.filterMap Deed.returned?

/-- The destructors of the registrations that the hook for exhausted memory unwound. -/
def unwound (h : History) : List Destructor := h.filterMap Deed.unwound?

/-- The destructors that started to run. -/
def ran (h : History) : List Destructor := h.flatMap Deed.ran

/-- The drains that ended, each by the number of destructors that it ran. -/
def drained (h : History) : List Nat := h.flatMap Deed.drained

/-- Whether the slot was used. -/
def usesSlot (h : History) : Bool := h.any Deed.usesSlot

section Append

variable (h k : History) (x : Deed)

@[simp] theorem registrations_append :
    (h ++ k).registrations = h.registrations ++ k.registrations := List.filterMap_append

@[simp] theorem returned_append : (h ++ k).returned = h.returned ++ k.returned :=
  List.filterMap_append

@[simp] theorem unwound_append : (h ++ k).unwound = h.unwound ++ k.unwound :=
  List.filterMap_append

@[simp] theorem ran_append : (h ++ k).ran = h.ran ++ k.ran := List.flatMap_append

@[simp] theorem drained_append : (h ++ k).drained = h.drained ++ k.drained :=
  List.flatMap_append

@[simp] theorem usesSlot_append : (h ++ k).usesSlot = (h.usesSlot || k.usesSlot) :=
  List.any_append

@[simp] theorem registrations_singleton :
    registrations [x] = x.registration?.toList := by
  cases hx : x.registration? <;> simp [registrations, hx]

@[simp] theorem returned_singleton : returned [x] = x.returned?.toList := by
  cases hx : x.returned? <;> simp [returned, hx]

@[simp] theorem unwound_singleton : unwound [x] = x.unwound?.toList := by
  cases hx : x.unwound? <;> simp [unwound, hx]

@[simp] theorem ran_singleton : ran [x] = x.ran := List.flatMap_singleton ..

theorem ran_cons : ran (x :: h) = x.ran ++ h.ran := List.flatMap_cons

@[simp] theorem drained_singleton : drained [x] = x.drained := List.flatMap_singleton ..

@[simp] theorem usesSlot_singleton : usesSlot [x] = x.usesSlot := Bool.or_false _

end Append

end History

/-! ### What a thread can reach -/

/-- The destructors that wait on the chain of a slot, most recent first. -/
def Slot.waiting (s : Slot) : List Destructor :=
  match s.chain? with
  | some chain => chain.entries
  | none => []

namespace Activity

/-- The destructors that wait, most recent first. -/
def waiting (a : Activity β) : List Destructor := a.thread.slot.waiting

/-- A thread that ended while the process goes on. -/
def Gone (a : Activity β) : Prop := a.tasks = [] ∧ a.ending? = none

/-- A thread that does `actions` and then ends. -/
def life (hooks : Hooks) (bodies : β) (actions : List Action) : Activity β where
  thread := {}
  hooks := hooks
  bodies := bodies
  tasks := actions.map .act ++ [.tearDown]

/-- A thread whose registration runs out of memory, which a hook takes for the end of the process.
Its own local is torn down before the slot, and does `last`. -/
def endedInRegistration (last : Action) : Activity (Destructor → List Action) :=
  life { exhausted? := some (.ending "exit" 33) } (fun _ => [])
    [.touch, .whenTornDown [last], .register ⟨"a", 2⟩ false .native]

/-- Destructors of which the one with context 1 registers another and asks how many wait. -/
def reentrant (d : Destructor) : List Action :=
  if d.context = 1 then [.register ⟨"a", 2⟩ true .native, .pending] else []

variable [Bodies β]

/-- The topmost task of `a` is done, `events` are observed, and `b` is left. -/
def Does (a : Activity β) (task : Task) (events : List Thread.Event) (b : Activity β) : Prop :=
  ∃ rest, a.tasks = task :: rest ∧ ({ a with tasks := rest }).perform task = (events, b)

theorem step?_eq_some_iff {a b : Activity β} {events : List Thread.Event} :
    a.step? = some (events, b) ↔ ∃ task, a.Does task events b := by
  unfold step? Does
  constructor
  · intro h
    split at h
    · cases h
    · next task rest ht => exact ⟨task, rest, ht, Option.some.inj h⟩
  · rintro ⟨task, rest, ht, h⟩
    rw [ht]
    exact congrArg some h

theorem Does.unique {a b b' : Activity β} {task task' : Task} {events events' : List Thread.Event}
    (h : a.Does task events b) (h' : a.Does task' events' b') :
    task = task' ∧ events = events' ∧ b = b' := by
  obtain ⟨rest, ht, hp⟩ := h
  obtain ⟨rest', ht', hp'⟩ := h'
  obtain ⟨rfl, rfl⟩ := List.cons.inj (ht.symm.trans ht')
  obtain ⟨rfl, rfl⟩ := Prod.mk.inj (hp.symm.trans hp')
  exact ⟨rfl, rfl, rfl⟩

/-- `a` comes to `b` by the deeds `h`, whatever other threads do to the hooks and to what
destructors do, and `P` holds all the way. -/
inductive ReachesWithin (P : Activity β → Prop) (a : Activity β) : History → Activity β → Prop
  | refl : P a → ReachesWithin P a [] a
  /-- A task of the thread is done. -/
  | deed {h : History} {b c : Activity β} {task : Task} {events : List Thread.Event} :
      ReachesWithin P a h b → b.Does task events c → P c →
      ReachesWithin P a (h ++ [⟨task, events⟩]) c
  /-- Other threads are at work. -/
  | meanwhile {h : History} {b : Activity β} (hooks : Hooks) (bodies : β) :
      ReachesWithin P a h b → P { b with hooks, bodies } →
      ReachesWithin P a h { b with hooks, bodies }

/-- `a` comes to `b` by the deeds `h`, whatever other threads do to the hooks and to what
destructors do. -/
def Reaches (a : Activity β) (h : History) (b : Activity β) : Prop :=
  a.ReachesWithin (fun _ => True) h b

/-- `a` is some thread at some time of its life, and `h` is what it went through. -/
def Lives (a : Activity β) (h : History) : Prop :=
  ∃ hooks bodies actions, (life hooks bodies actions).Reaches h a

/-- `a` comes to `b` by the deeds `h` while no other thread is at work. -/
inductive Runs : Activity β → History → Activity β → Prop
  | refl (a : Activity β) : Runs a [] a
  | deed {a b c : Activity β} {h : History} {task : Task} {events : List Thread.Event} :
      a.Does task events b → Runs b h c → Runs a (⟨task, events⟩ :: h) c

/-- All tasks of `a` are done by the deeds `h`, while no other thread is at work. -/
def Finishes (a : Activity β) (h : History) (b : Activity β) : Prop :=
  a.Runs h b ∧ b.tasks = []

variable {a b c : Activity β} {h k : History}

theorem Reaches.refl (a : Activity β) : a.Reaches [] a := ReachesWithin.refl trivial

theorem Reaches.deed {task : Task} {events : List Thread.Event} (h₁ : a.Reaches h b)
    (h₂ : b.Does task events c) : a.Reaches (h ++ [⟨task, events⟩]) c :=
  ReachesWithin.deed h₁ h₂ trivial

theorem Reaches.meanwhile (h₁ : a.Reaches h b) (hooks : Hooks) (bodies : β) :
    a.Reaches h { b with hooks, bodies } :=
  ReachesWithin.meanwhile hooks bodies h₁ trivial

theorem ReachesWithin.reaches {P : Activity β → Prop} (hr : a.ReachesWithin P h b) :
    a.Reaches h b := by
  induction hr with
  | refl => exact .refl a
  | deed _ hd _ ih => exact ih.deed hd
  | meanwhile hooks bodies _ _ ih => exact ih.meanwhile hooks bodies

theorem ReachesWithin.holds {P : Activity β → Prop} (hr : a.ReachesWithin P h b) : P b := by
  cases hr with
  | refl hp | deed _ _ hp | meanwhile _ _ _ hp => exact hp

theorem Reaches.trans (h₁ : a.Reaches h b) (h₂ : b.Reaches k c) : a.Reaches (h ++ k) c := by
  induction h₂ with
  | refl => rwa [List.append_nil]
  | deed _ hd _ ih =>
    rw [← List.append_assoc]
    exact ih.deed hd
  | meanwhile hooks bodies _ _ ih => exact ih.meanwhile hooks bodies

theorem Lives.reaches (ha : a.Lives h) (hr : a.Reaches k b) : b.Lives (h ++ k) := by
  obtain ⟨hooks, bodies, actions, hl⟩ := ha
  exact ⟨hooks, bodies, actions, hl.trans hr⟩

theorem Runs.single {task : Task} {events : List Thread.Event} (hd : a.Does task events b) :
    a.Runs [⟨task, events⟩] b := .deed hd (.refl b)

theorem Runs.trans (h₁ : a.Runs h b) (h₂ : b.Runs k c) : a.Runs (h ++ k) c := by
  induction h₁ with
  | refl => exact h₂
  | deed hd _ ih => exact .deed hd (ih h₂)

/-- A thread that is left alone is one whose fellows happen to be idle. -/
theorem Runs.reaches (hr : a.Runs h b) : a.Reaches h b := by
  induction hr with
  | refl a => exact .refl a
  | deed hd _ ih => exact ((Reaches.refl _).deed hd).trans ih

/-- Of two runs from one state the shorter one is a beginning of the other. -/
theorem Runs.comparable (h₁ : a.Runs h b) (h₂ : a.Runs k c) :
    (∃ r, k = h ++ r ∧ b.Runs r c) ∨ (∃ r, h = k ++ r ∧ c.Runs r b) := by
  induction h₁ generalizing k with
  | refl => exact .inl ⟨k, rfl, h₂⟩
  | deed hd hr ih =>
    cases h₂ with
    | refl => exact .inr ⟨_, rfl, .deed hd hr⟩
    | deed hd' hr' =>
      obtain ⟨rfl, rfl, rfl⟩ := hd.unique hd'
      exact (ih hr').imp (fun ⟨r, hk, hb⟩ => ⟨r, by rw [hk]; rfl, hb⟩)
        (fun ⟨r, hh, hc⟩ => ⟨r, by rw [hh]; rfl, hc⟩)

theorem Runs.eq_of_tasks_eq_nil (ht : a.tasks = []) (hr : a.Runs h b) : h = [] ∧ b = a := by
  cases hr with
  | refl => exact ⟨rfl, rfl⟩
  | deed hd _ =>
    obtain ⟨rest, ht', -⟩ := hd
    rw [ht] at ht'
    cases ht'

theorem Finishes.unique (h₁ : a.Finishes h b) (h₂ : a.Finishes k c) : h = k ∧ b = c := by
  obtain ⟨r, rfl, hr⟩ | ⟨r, rfl, hr⟩ := h₁.1.comparable h₂.1
  · obtain ⟨rfl, rfl⟩ := hr.eq_of_tasks_eq_nil h₁.2
    exact ⟨(List.append_nil _).symm, rfl⟩
  · obtain ⟨rfl, rfl⟩ := hr.eq_of_tasks_eq_nil h₂.2
    exact ⟨List.append_nil _, rfl⟩

end Activity

end HostServices
