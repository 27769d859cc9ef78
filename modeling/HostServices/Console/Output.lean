import HostServices.Host.Write
import HostServices.Log.Notice
import HostServices.Text.Scratch

/-!
# Console output

Bytes go to the console as they are, without any change of encoding, and their number alone says
where they end. There are two streams, each with a descriptor of the host. An embedder without
descriptors installs a sink, which then gets all output in the place of the host, one call for each
request and the whole byte string in one piece.

Formatted text passes through the scratch buffer first, so at most `ScratchText.size` bytes of it
are printed. A stream with nothing to write makes no host write, while a sink is called even
then.
-/

namespace HostServices

/-- An output stream of the console. -/
inductive Stream where
  | out
  | err
deriving DecidableEq, Repr

def Stream.descriptor : Stream → Nat
  | out => 1
  | err => 2

/-- A receiver of console output in the place of the host. -/
structure Sink where
  name : String
  /-- Whether it reports that everything was written. -/
  accepts : Bool
deriving DecidableEq, Repr

/-- The state of the console. -/
structure Console where
  /-- The sink installed last, if any. -/
  sink? : Option Sink := none
deriving DecidableEq, Repr

namespace Console

/-- Something observed of the console. -/
inductive Event where
  | notice (n : Notice)
  | write (call : WriteCall)
  | sink (sink : Sink) (stream : Stream) (bytes : Bytes)
deriving DecidableEq, Repr

/-- Something that is asked of the console. -/
inductive Request where
  /-- Write bytes to a stream. -/
  | write (stream : Stream) (bytes : Bytes)
  /-- Write the first `size` bytes that an address points to. There are none behind the null
  address, and then nothing happens. -/
  | writeAt (stream : Stream) (bytes? : Option Bytes) (size : Nat)
  /-- Write formatted text to a stream. -/
  | print (stream : Stream) (text : Rendering)
  /-- Get ready for the first output. -/
  | start
  /-- Install a sink in the place of the host or of an earlier sink. -/
  | setSink (sink : Sink)
deriving DecidableEq, Repr

/-- What comes of a request. -/
structure Outcome where
  events : List Event
  console : Console
  /-- Whether everything was written, where the caller is told. -/
  complete? : Option Bool
deriving DecidableEq, Repr

/-- Brings bytes to a stream. The answer is what was observed and whether all bytes were written. -/
def deliver (c : Console) (answers : List WriteAnswer) (stream : Stream) (bytes : Bytes) :
    List Event × Bool :=
  match c.sink? with
  | some sink => ([.sink sink stream bytes], sink.accepts)
  | none =>
    let (calls, complete) := writeAll stream.descriptor answers bytes
    (calls.map .write, complete)

/-- Carries out a request, while the host gives the answers one by one. -/
def perform (c : Console) (answers : List WriteAnswer) : Request → Outcome
  | .write stream bytes =>
    let (events, complete) := c.deliver answers stream bytes
    ⟨events, c, some complete⟩
  | .writeAt _ none _ => ⟨[], c, none⟩
  | .writeAt stream (some bytes) size =>
    ⟨(c.deliver answers stream (bytes.take size)).1, c, none⟩
  | .print stream text => ⟨(text.sendTo (c.deliver answers stream)).1, c, none⟩
  | .start => ⟨[.notice .consoleReady], c, none⟩
  | .setSink sink => ⟨[], { c with sink? := some sink }, none⟩

end Console

end HostServices
