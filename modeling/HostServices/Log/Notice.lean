import HostServices.Log.Record

/-!
# Notices

What the library has to say about itself, one constructor per occasion. `Notice.record` gives each
its severity, its wording and its place, so that the operations that raise a notice hold no text.
-/

namespace HostServices

/-- The severity of a notice. -/
inductive Level where
  | debug
  /-- A service was called. -/
  | call
  /-- The state changed in a way worth knowing. -/
  | note
  /-- Something went wrong and the caller can go on. -/
  | warning
  /-- Something went wrong for good. -/
  | error
deriving DecidableEq, Repr

namespace Level

/-- The place of a severity among the levels of the log. Level 1 is left to details that are never
written. -/
def rank : Level → Nat
  | debug => 2
  | call => 3
  | note => 4
  | warning => 5
  | error => 6

/-- The name that opens the records of a severity. -/
def name : Level → String
  | debug => "DEBUG"
  | call => "CALL"
  | note => "NOTE"
  | warning => "WARNING"
  | error => "ERROR"

end Level

/-- An occasion on which the library writes to the log. -/
inductive Notice where
  /-- A region was asked to shrink by a negative number of bytes. -/
  | shrinkRefused (delta : Int)
  /-- A region is about to grow by `size` bytes, of which `requested` were asked for. -/
  | growing (size requested : Nat)
  | growthFailed (size : Nat)
  /-- The host reported a page size that is not a power of two. -/
  | oddPageSize (reported : Nat)
  | registered (context : Nat)
  /-- A thread's destructors ran to the last. -/
  | drained (ran : Nat)
  | consoleReady
  | aborting
  | exiting (status : Int)
  | outOfMemory
  /-- The process cannot go on, for the reason given. -/
  | fatal (message : String)
deriving DecidableEq, Repr

namespace Notice

def level : Notice → Level
  | shrinkRefused _ | drained _ => .debug
  | registered _ | consoleReady | aborting | exiting _ => .call
  | growing _ _ => .note
  | growthFailed _ | oddPageSize _ => .warning
  | outOfMemory | fatal _ => .error

/-- The wording of a notice. -/
def message : Notice → List Piece
  | shrinkRefused delta =>
    [.text "Refusing to shrink the backing region (delta ", .integer delta, .text ")."]
  | growing size requested =>
    [.text "Growing the backing region by ", .integer size, .text " bytes (", .integer requested,
      .text " requested)."]
  | growthFailed size =>
    [.text "Unable to grow the backing region by ", .integer size, .text " bytes."]
  | oddPageSize reported =>
    [.text "The host reported a page size of ", .integer reported,
      .text ", which is not a power of two."]
  | registered context =>
    [.text "Registered thread destructor with context 0x", .hex context 0, .text "."]
  | drained ran => [.text "Ran ", .integer ran, .text " thread destructors."]
  | consoleReady => [.text "Console initialized."]
  | aborting => [.text "Aborting."]
  | exiting status => [.text "Exiting with status ", .integer status, .text "."]
  | outOfMemory => [.text "Out of memory."]
  | fatal message => [.text message]

/-- The part of the library that a notice comes from, and its number there. -/
def place : Notice → String × Nat
  | shrinkRefused _ => ("region/grow", 1)
  | growing _ _ => ("region/grow", 2)
  | growthFailed _ => ("region/grow", 3)
  | oddPageSize _ => ("region/page", 1)
  | registered _ => ("thread/exit", 1)
  | drained _ => ("thread/exit", 2)
  | consoleReady => ("console", 1)
  | aborting => ("process/end", 1)
  | exiting _ => ("process/end", 2)
  | outOfMemory => ("process/fail", 1)
  | fatal _ => ("process/fail", 2)

/-- The log record of a notice. -/
def record (n : Notice) : LogRecord where
  level := n.level.rank
  kind := n.level.name
  message := .ofPieces n.message
  file := n.place.1
  line := n.place.2

def bytes (n : Notice) : Bytes :=
  n.record.encode?.getD []

end Notice

end HostServices
