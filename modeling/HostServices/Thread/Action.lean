import HostServices.Log.Notice
import HostServices.Thread.Chain

/-!
# Actions and events

What code on a thread may ask of the library, whether it runs as a step of the thread, inside a
destructor or while the thread is torn down, and what can be observed of it.

An action may set up work for later (`register`, `whenTornDown`) and it may end the process
(`exit`, `abort`, `exhausted`, `fatal`). Before the process ends on an `exit` or because memory ran
out, the hook installed for that occasion decides what happens instead. An end in good order tears
down the locals of the calling thread first; an abort does not.
-/

namespace HostServices

/-- What an installed hook does when it is called. A hook makes no calls of its own into the library:
it registers nothing, asks for nothing and installs no other hook. -/
inductive Hook where
  /-- It ends the process in good order, with a code of its own. -/
  | ending (name : String) (code : Nat)
  /-- It aborts the process at once. -/
  | aborting (name : String)
  /-- It hands control back to the caller, and the process goes on. -/
  | unwinding
deriving DecidableEq, Repr

/-- The hooks of a process, `none` where the native behaviour stands. -/
structure Hooks where
  /-- Called when the process is asked to exit. -/
  exit? : Option Hook := none
  /-- Called when memory runs out. -/
  exhausted? : Option Hook := none
deriving DecidableEq, Repr

/-- How a process ends. -/
inductive Ending where
  /-- The process exits with a code. -/
  | code (n : Nat)
  /-- A signal kills the process. -/
  | signal (n : Nat)
deriving DecidableEq, Repr

namespace Ending

/-- The end of a process that gives up. -/
def aborted : Ending := signal 6

/-- The end of a process that exits. The code is the lowest byte of the status. -/
def ofStatus (status : Int) : Ending := code (status % 256).toNat

end Ending

/-- Who asks for an action. A hook can hand control back to a native caller only. -/
inductive Caller where
  | native
  /-- Code that came in through the entry points for other languages. -/
  | foreign
deriving DecidableEq, Repr

/-- Something that code on a thread asks for. -/
inductive Action where
  /-- Registers a destructor for the end of the thread. Without `memory` no memory can be had while
  the call lasts. -/
  | register (d : Destructor) (memory : Bool) (caller : Caller)
  /-- Asks how many destructors wait for the end of the thread. -/
  | pending
  | touch
  /-- Sets down actions for the teardown of a local of the thread's own, which the first such action
  sets up. -/
  | whenTornDown (actions : List Action)
  | setExitHook (h : Hook)
  | setExhaustedHook (h : Hook)
  /-- Ends the process with a status. -/
  | exit (status : Int) (caller : Caller)
  | abort
  | exhausted
  /-- Ends the process because something is broken. -/
  | fatal (message : String)

/-- Something observed of a thread. -/
inductive Thread.Event where
  | notice (n : Notice)
  /-- Last words were written to the log past its formatting. -/
  | lastWords (bytes : Bytes)
  | ran (d : Destructor)
  /-- The answer to the question how many destructors wait. -/
  | pending (n : Nat)
  /-- The teardown of the thread's own local started. -/
  | localTornDown
  /-- The exit hook handed control back. -/
  | exitUnwound (status : Int)
  /-- The hook for exhausted memory handed control back. -/
  | exhaustedUnwound
  /-- An exit hook that ends the process was called. -/
  | exitHook (name : String) (status : Int)
  /-- A hook for exhausted memory that ends the process was called. -/
  | exhaustedHook (name : String)
deriving DecidableEq, Repr

end HostServices
