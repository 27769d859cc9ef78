import HostServices.Host.Write
import HostServices.Text.BoundedWriter

/-!
# Log records

A record is rendered into a buffer on the stack, so logging never allocates: the kind, padded to a
column, the message, and where it comes from. The buffer ends in an ellipsis, which rendering cannot
reach. A record that does not fit is written with it, which shows that there was more. Records below
the threshold level are dropped.

When the formatting of the message fails, the record ends there: its origin and its newline are
missing, and what was rendered before is still written.
-/

namespace HostServices

/-- A record before it is rendered. -/
structure LogRecord where
  /-- The severity, from the least severe upward. -/
  level : Nat
  /-- The name that opens the record. -/
  kind : String
  message : Rendering
  file : String
  line : Nat
deriving DecidableEq, Repr

namespace LogRecord

/-- The least severe level that is written. -/
def threshold : Nat := 2

/-- The number of bytes of a record that are written before it is cut. -/
def size : Nat := 256

/-- The width of the column that holds the kind. -/
def kindWidth : Nat := 10

/-- What follows the first bytes of a record that was cut. -/
def ellipsis : Bytes := utf8 "...\n"

/-- The buffer of a record before anything is rendered into it. -/
def blank : Bytes := List.replicate size '.'.toUInt8 ++ ellipsis

def descriptor : Nat := 2

/-- The kind, filled up to its column. A longer kind is not cut. -/
def heading (r : LogRecord) : Rendering :=
  ⟨[utf8 (String.ofList (padTo kindWidth .left r.kind.toList))], false⟩

/-- Where the record comes from, and the end of its line. -/
def origin (r : LogRecord) : Rendering :=
  ⟨[utf8 (" (@ " ++ r.file ++ ":" ++ toString r.line ++ ")\n")], false⟩

/-- The whole record as one format call. -/
def text (r : LogRecord) : Rendering :=
  (r.heading.andThen r.message).andThen r.origin

/-- Renders a format call into the buffer of a record, but for the bytes behind the first `size` of
them. The answer is what is to be written of the buffer, all of it if the text did not fit. -/
def renderInto (buffer : Bytes) (text : Rendering) : Bytes :=
  let w := (BoundedWriter.ofBuffer (buffer.take size)).writeAll text.fragments
  let buffer := w.buffer ++ buffer.drop size
  if w.truncated then buffer else buffer.take w.filled

/-- The bytes written for a record, or `none` if its level is below the threshold. -/
def encode? (r : LogRecord) : Option Bytes :=
  if r.level < threshold then none else some (renderInto blank r.text)

/-- Writes a record to the log. There is no second try, whatever the host answers. -/
def emit (answers : List WriteAnswer) (r : LogRecord) : List WriteCall :=
  match r.encode? with
  | none => []
  | some bytes => [(writeOnce descriptor answers bytes).1]

end LogRecord

end HostServices
