import HostServices.Bytes.Search

/-!
# Writing to a descriptor of the host

The host answers each write on its own: it takes some of the offered bytes, is interrupted, or
fails. Its answers are given in advance as a list, and once that is used up it takes whatever it is
offered. `writeAll` offers the bytes that are left until all are taken, offers them again after an
interrupt, and gives up when the host fails or takes nothing.
-/

namespace HostServices

/-- What the host says to one write. -/
inductive WriteAnswer where
  /-- It takes this many bytes, or all that are offered if there are fewer. -/
  | takes (most : Nat)
  | interrupted
  | fails
deriving DecidableEq, Repr

/-- One write as the host saw it. -/
structure WriteCall where
  descriptor : Nat
  offered : Bytes
  /-- The answer, with the number of bytes really taken. -/
  answer : WriteAnswer
deriving DecidableEq, Repr

namespace WriteCall

/-- The write that offers `bytes`, of which the host takes no more than there are. -/
def offer (descriptor : Nat) (bytes : Bytes) : WriteAnswer → WriteCall
  | .takes most => ⟨descriptor, bytes, .takes (min most bytes.length)⟩
  | answer => ⟨descriptor, bytes, answer⟩

/-- The bytes that the host took. -/
def taken (c : WriteCall) : Bytes :=
  match c.answer with
  | .takes n => c.offered.take n
  | _ => []

end WriteCall

/-- One write without a second try. The answer is the write and the number of bytes taken, or
`none` if there was an error. -/
def writeOnce (descriptor : Nat) (answers : List WriteAnswer) (bytes : Bytes) :
    WriteCall × Option Nat :=
  let call := WriteCall.offer descriptor bytes (answers.headD (.takes bytes.length))
  (call, match call.answer with
    | .takes n => some n
    | _ => none)

/-- Writes until all bytes are taken. The answer is the writes made and whether all bytes were
taken. -/
def writeAll (descriptor : Nat) : List WriteAnswer → Bytes → List WriteCall × Bool
  | [], bytes =>
    if bytes = [] then ([], true)
    else ([WriteCall.offer descriptor bytes (.takes bytes.length)], true)
  | answer :: answers, bytes =>
    if bytes = [] then ([], true)
    else
      let call := WriteCall.offer descriptor bytes answer
      match call.answer with
      | .interrupted =>
        let (calls, complete) := writeAll descriptor answers bytes
        (call :: calls, complete)
      | .takes (n + 1) =>
        let (calls, complete) := writeAll descriptor answers (bytes.drop (n + 1))
        (call :: calls, complete)
      | .takes 0 | .fails => ([call], false)

@[simp] theorem writeAll_empty (descriptor : Nat) (answers : List WriteAnswer) :
    writeAll descriptor answers [] = ([], true) := by
  cases answers <;> simp [writeAll]

end HostServices
