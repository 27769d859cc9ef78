import HostServices.Thread.Locals

/-!
# A thread at work

An `Activity` is a thread with a stack of tasks. `Activity.step` does the topmost task, which may
put others on the stack: a destructor's own actions go on top of the drain that ran it, so that
everything it registers is reached before the older entries, and the teardown of a local goes on
top of the teardown of the locals that were set up before it. An empty stack is the end of the
work.

An end of the process in good order is two tasks in the place of all others: the teardown of the
locals that are left, and the end itself. While these wait on the stack the process cannot be asked
to end once more, and a chain whose registration asked for the end stays held.

What a destructor does when it runs is not the library's business. `Bodies` is anything that can
be asked for the actions of the next run.
-/

namespace HostServices

/-- Something that knows what destructors do. -/
class Bodies (β : Type) where
  /-- The actions of the next run of a destructor, and what is known from then on. -/
  next : β → Destructor → List Action × β

/-- Destructors that do the same at every run. -/
instance : Bodies (Destructor → List Action) where
  next body d := (body d, body)

/-- Something that a thread has still to do. -/
inductive Task where
  | act (a : Action)
  /-- Empty the chain, after so many of its destructors ran. -/
  | drain (ran : Nat)
  /-- Tear down the locals that are left. -/
  | tearDown
  /-- End the process. When a registration asked for the end it has not come back, and `held` says
  that it still holds the chain. -/
  | finish (e : Ending) (held : Bool)

/-- A thread at work, with what it shares with the rest of the process. -/
structure Activity (β : Type) where
  thread : Thread
  hooks : Hooks
  bodies : β
  /-- What is still to do, the next task first. -/
  tasks : List Task
  /-- How the process ended, if it did. -/
  ending? : Option Ending := none

namespace Activity

variable {β : Type}

/-! ### Ends of the process -/

/-- The end of the process. Nothing that was left to do is done. -/
def stop (a : Activity β) (e : Ending) : Activity β :=
  { a with tasks := [], ending? := some e }

/-- The text before a fatal message. -/
def fatalOpening : Bytes := utf8 "\x1b[31;1mFatal runtime error: "

/-- The text after a fatal message. -/
def fatalClosing : Bytes := utf8 ". Aborting.\x1b[m\n"

/-- The last words of a process without memory. -/
def exhaustedWords : Bytes := utf8 "\x1b[31;1mThe runtime ran out of memory. Aborting.\x1b[m\n"

/-- What a process says that registers a destructor too late. -/
def tooLate : String := "thread destructor registered after the thread's destructors ran"

/-- Gives up with a message. -/
def die (a : Activity β) (message : String) : List Thread.Event × Activity β :=
  ([.notice (.fatal message), .lastWords fatalOpening, .lastWords (utf8 message),
    .lastWords fatalClosing], a.stop .aborted)

/-- The last words of a process in which the teardown of a local failed. -/
def tornWords : Bytes := utf8 "fatal runtime error: thread local panicked on drop, aborting\n"

/-- The last words of a process that cannot go on and cannot hand control back either. -/
def stuckWords : Bytes := utf8 "thread caused non-unwinding panic. aborting.\n"

/-- The last words of a process when a call fails in the teardown of a local. A failure cannot pass
through a foreign caller. -/
def failedCallWords : Caller → Bytes
  | .native => tornWords
  | .foreign => stuckWords

/-- Gives up with no more than last words. -/
def giveUp (a : Activity β) (words : Bytes) : List Thread.Event × Activity β :=
  ([.lastWords words], a.stop .aborted)

/-- Whether the process is about to end in good order, and if so whether the end was asked for by a
registration that holds the chain. -/
def finishing? (a : Activity β) : Option Bool :=
  a.tasks.findSome? fun
    | .finish _ held => some held
    | _ => none

/-- Whether the chain is held by a registration that asked for the end of the process. Such a chain
is out of reach. It can only be wanted in the teardown of a local, and the teardown fails. -/
def chainHeld (a : Activity β) : Bool := a.finishing? == some true

/-- Ends the process in good order: once the locals of the calling thread that are still set up are
torn down. Whatever the caller had still to do is never done, which goes for a local in the middle of
its teardown too. A process that is about to end in good order cannot be asked to once more. -/
def leave (a : Activity β) (e : Ending) (held : Bool) : List Thread.Event × Activity β :=
  match a.finishing? with
  | none => ([], { a with tasks := [.tearDown, .finish e held] })
  | some _ => a.giveUp stuckWords

/-- Memory ran out, maybe in a registration, which then holds the chain. -/
def exhaust (a : Activity β) (caller : Caller) (held : Bool) :
    List Thread.Event × Activity β :=
  match a.hooks.exhausted?, caller with
  | none, _ => ([.notice .outOfMemory, .lastWords exhaustedWords], a.stop .aborted)
  | some (.ending name code), _ =>
    let (events, a) := a.leave (.code code) held
    (.notice .outOfMemory :: .exhaustedHook name :: events, a)
  | some (.aborting name), _ => ([.notice .outOfMemory, .exhaustedHook name], a.stop .aborted)
  | some .unwinding, .native => ([.notice .outOfMemory, .exhaustedUnwound], a)
  | some .unwinding, .foreign =>
    let (events, a) := a.giveUp stuckWords
    (.notice .outOfMemory :: events, a)

/-- The process is asked to exit. -/
def exit (a : Activity β) (status : Int) (caller : Caller) : List Thread.Event × Activity β :=
  match a.hooks.exit?, caller with
  | none, _ =>
    let (events, a) := a.leave (.ofStatus status) false
    (.notice (.exiting status) :: events, a)
  | some (.ending name code), _ =>
    let (events, a) := a.leave (.code code) false
    (.notice (.exiting status) :: .exitHook name status :: events, a)
  | some (.aborting name), _ =>
    ([.notice (.exiting status), .exitHook name status], a.stop .aborted)
  | some .unwinding, .native => ([.notice (.exiting status), .exitUnwound status], a)
  | some .unwinding, .foreign =>
    let (events, a) := a.giveUp stuckWords
    (.notice (.exiting status) :: events, a)

/-! ### Single tasks -/

def register (a : Activity β) (d : Destructor) (memory : Bool) (caller : Caller) :
    List Thread.Event × Activity β :=
  let a := { a with thread := a.thread.touchSlot }
  match a.thread.slot.chain? with
  | none => a.die tooLate
  | some chain =>
    if a.chainHeld then a.giveUp (failedCallWords caller)
    else match chain.push? memory d with
      | none => a.exhaust caller true
      | some chain =>
        ([.notice (.registered d.context)],
          { a with thread := { a.thread with slot := a.thread.slot.setChain chain } })

def pending (a : Activity β) : List Thread.Event × Activity β :=
  let a := { a with thread := a.thread.touchSlot }
  match a.thread.slot.chain? with
  | none => ([.pending 0], a)
  | some chain =>
    if a.chainHeld then a.giveUp tornWords else ([.pending chain.entries.length], a)

def act (a : Activity β) : Action → List Thread.Event × Activity β
  | .register d memory caller => a.register d memory caller
  | .pending => a.pending
  | .touch => ([], { a with thread := a.thread.touchSlot })
  | .whenTornDown actions => ([], { a with thread := a.thread.whenTornDown actions })
  | .setExitHook h => ([], { a with hooks := { a.hooks with exit? := some h } })
  | .setExhaustedHook h => ([], { a with hooks := { a.hooks with exhausted? := some h } })
  | .exit status caller => a.exit status caller
  | .abort => ([.notice .aborting], a.stop .aborted)
  | .exhausted => a.exhaust .native false
  | .fatal message => a.die message

/-- Tears down the local that was set up last, and comes back for the others. -/
def tearDown (a : Activity β) : List Thread.Event × Activity β :=
  match a.thread.order with
  | [] => ([], a)
  | .slot :: order =>
    -- From here on the slot is no local, and registrations go to the chain that is drained.
    ([], { a with
      thread := { a.thread with order, slot := .draining (a.thread.slot.chain?.getD .empty) }
      tasks := .drain 0 :: .tearDown :: a.tasks })
  | .own :: order =>
    -- The actions leave the local before they are done, so none of them is done twice.
    let actions := match a.thread.own with
      | .live actions => actions
      | .untouched | .gone => []
    ([.localTornDown], { a with
      thread := { a.thread with order, own := .gone }
      tasks := actions.map .act ++ .tearDown :: a.tasks })

/-- Runs the most recent destructor of the chain, and comes back for the others. Once the chain is
empty the slot is gone. -/
def drain [Bodies β] (a : Activity β) (ran : Nat) : List Thread.Event × Activity β :=
  if a.chainHeld then a.giveUp tornWords
  else match a.thread.slot.chain?.bind Chain.pop? with
  | none => ([.notice (.drained ran)], { a with thread := { a.thread with slot := .gone } })
  | some (d, chain) =>
    -- The entry is off the chain before its destructor starts.
    let (actions, bodies) := Bodies.next a.bodies d
    ([.ran d], { a with
      thread := { a.thread with slot := .draining chain }
      bodies
      tasks := actions.map .act ++ .drain (ran + 1) :: a.tasks })

def perform [Bodies β] (a : Activity β) : Task → List Thread.Event × Activity β
  | .act action => a.act action
  | .drain ran => a.drain ran
  | .tearDown => a.tearDown
  | .finish e _ => ([], a.stop e)

/-- Does the next task, or answers `none` if there is nothing to do. -/
def step? [Bodies β] (a : Activity β) : Option (List Thread.Event × Activity β) :=
  match a.tasks with
  | [] => none
  | task :: tasks => some ({ a with tasks }.perform task)

@[simp] theorem step?_eq_none_iff [Bodies β] (a : Activity β) : a.step? = none ↔ a.tasks = [] := by
  unfold step?
  split <;> simp_all

end Activity

end HostServices
