import HostServices.Text.BoundedWriter

/-!
# Formatting without allocation

Formatted output is rendered into a buffer of fixed size first: a scratch buffer of
`ScratchText.size` bytes for text that is sent somewhere, or a buffer of the caller. What does not
fit is dropped, and the failure of a value's formatting only ends the text early.
-/

namespace HostServices

/-- Text rendered into the scratch buffer. -/
structure ScratchText where
  /-- The rendered bytes. -/
  bytes : Bytes
  /-- Whether the text was cut to fit. -/
  truncated : Bool
deriving DecidableEq, Repr

namespace ScratchText

/-- The number of bytes that the scratch buffer holds. -/
def size : Nat := 1024

/-- Renders a format call into the scratch buffer. -/
def ofRendering (r : Rendering) : ScratchText :=
  let w := (BoundedWriter.ofBuffer (List.replicate size 0)).writeAll r.fragments
  ⟨w.written, w.truncated⟩

/-- The scratch text is the prefix of the call's text that fits. -/
theorem ofRendering_eq (r : Rendering) :
    ofRendering r = ⟨r.bytes.take size, decide (size < r.bytes.length)⟩ := by
  simp [ofRendering, BoundedWriter.writeAll_ofBuffer, Rendering.bytes]

end ScratchText

namespace Rendering

/-- Renders a format call into `buffer`. The answer is the number of bytes written and the buffer
afterwards; no terminator is added. -/
def storeIn (r : Rendering) (buffer : Bytes) : Nat × Bytes :=
  let w := (BoundedWriter.ofBuffer buffer).writeAll r.fragments
  (w.filled, w.buffer)

/-- The text fills the start of the buffer as far as it fits, and nothing behind it changes. -/
theorem storeIn_eq (r : Rendering) (buffer : Bytes) :
    r.storeIn buffer =
      (min buffer.length r.bytes.length,
        r.bytes.take buffer.length ++ buffer.drop r.bytes.length) := by
  simp [storeIn, BoundedWriter.writeAll_ofBuffer, bytes, BoundedWriter.filled,
    BoundedWriter.buffer]

/-- Renders a format call and hands the text to `sink` in one piece. -/
def sendTo {m : Type → Type} {α : Type} (r : Rendering) (sink : Bytes → m α) : m α :=
  sink (ScratchText.ofRendering r).bytes

end Rendering

end HostServices
