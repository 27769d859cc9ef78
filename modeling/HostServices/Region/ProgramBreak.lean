import HostServices.Region.Arena

/-!
# The program break

A process of the classic kind has one break, the end of its data, which the host moves on request
and answers with the old one. A move and its answer are all that is known of the host
(`BreakHost`). The largest word stands for a failure, so a break that has come to
stand there can no longer be told from one. A move is a signed number for the host: more than half
of the address space cannot be asked for at once.
-/

namespace HostServices

/-- A host that keeps the break of a process. -/
class BreakHost (η : Type) where
  /-- Where the break stands. -/
  top : η → Nat
  /-- Moves the break by so many bytes. The number is the old break, as far as the host tells.
  Where it fails the break stays where it is. -/
  move? : η → Nat → Option (Nat × η)

namespace BreakHost

variable {η : Type} [BreakHost η]

/-- What an answer of the host says about the old break. The largest word says nothing. -/
def told? (old : Nat) : Option Nat :=
  if old = Word.failureAddress then none else some old

/-- Asks the host where the break stands, by a move that goes nowhere. -/
def query? (b : η) : Option Nat :=
  (move? b 0).bind fun (old, _) => told? old

/-- Extends the data of the process. -/
def extend (b : η) (size : Nat) : Extension η :=
  -- The host takes the move as a signed number.
  if Word.signedMax < size then ⟨[], b, .refused⟩
  else match move? b size with
    | some (old, b) => ⟨[], b, .ofTop? (told? old)⟩
    | none => ⟨[], b, .refused⟩

instance : Region η where
  page? _ := none
  top? := query?
  extend _ := extend

end BreakHost

/-- The break of a process, on a host that moves it up to a limit. -/
structure ProgramBreak where
  /-- Where the break stands. -/
  top : Nat
  /-- Where it may stand at most. -/
  limit : Nat
  /-- Whether the host fails to say where the break stands. -/
  broken : Bool := false
deriving DecidableEq, Repr

namespace ProgramBreak

/-- Moves the break by so many bytes. The number is the old break. -/
def move? (b : ProgramBreak) (n : Nat) : Option (Nat × ProgramBreak) :=
  if b.broken ∧ n = 0 then none
  else if b.top + n ≤ min b.limit Word.max then some (b.top, { b with top := b.top + n })
  else none

instance : BreakHost ProgramBreak where
  top := top
  move? := move?

end ProgramBreak

end HostServices
