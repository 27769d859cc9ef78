import HostServices.Text.Piece

/-!
# Writing into a bounded buffer

A `BoundedWriter` fills a buffer from its start. Writing never fails: bytes that do not fit are
dropped, and the writer remembers that some were. The state is the buffer cut in two, the bytes
written so far and the old bytes behind them, so that no operation needs an index.

How the bytes arrive does not matter: after any writes the state is a function of their
concatenation alone (`writeAll_ofBuffer`).
-/

namespace HostServices

/-- A writer somewhere in a buffer. -/
structure BoundedWriter where
  /-- The bytes written so far. -/
  written : Bytes
  /-- The old bytes of the buffer behind them. -/
  room : Bytes
  /-- Whether some bytes did not fit. -/
  truncated : Bool
deriving DecidableEq, Repr

namespace BoundedWriter

/-- The writer at the start of a buffer. -/
def ofBuffer (buffer : Bytes) : BoundedWriter := ⟨[], buffer, false⟩

/-- The whole buffer as it stands. -/
def buffer (w : BoundedWriter) : Bytes := w.written ++ w.room

/-- The number of bytes written. -/
def filled (w : BoundedWriter) : Nat := w.written.length

/-- Appends bytes, as far as they fit. -/
def write (w : BoundedWriter) (bytes : Bytes) : BoundedWriter where
  written := w.written ++ bytes.take w.room.length
  room := w.room.drop bytes.length
  truncated := w.truncated || decide (w.room.length < bytes.length)

/-- Appends the fragments one after another. -/
def writeAll (w : BoundedWriter) (fragments : List Bytes) : BoundedWriter :=
  fragments.foldl write w

@[simp] theorem writeAll_nil (w : BoundedWriter) : w.writeAll [] = w := rfl

@[simp] theorem writeAll_cons (w : BoundedWriter) (b : Bytes) (bs : List Bytes) :
    w.writeAll (b :: bs) = (w.write b).writeAll bs := rfl

@[simp] theorem write_nil (w : BoundedWriter) : w.write [] = w := by
  cases w; simp [write]

/-- Two writes do what one write of both does. -/
theorem write_write (w : BoundedWriter) (a b : Bytes) :
    (w.write a).write b = w.write (a ++ b) := by
  simp only [write, List.append_assoc, List.drop_drop, List.length_drop, List.length_append,
    List.take_append, mk.injEq, true_and, Bool.or_assoc]
  cases w.truncated with
  | true => simp
  | false => grind

/-- Any writes do what one write of everything does. -/
theorem writeAll_eq_write_flatten (w : BoundedWriter) (fragments : List Bytes) :
    w.writeAll fragments = w.write fragments.flatten := by
  induction fragments generalizing w with
  | nil => simp
  | cons b bs ih => rw [writeAll_cons, ih, write_write, List.flatten_cons]

/-- What any writes into a fresh buffer come to: the prefix that fits, the bytes behind it
unchanged, and a mark exactly when something did not fit. -/
theorem writeAll_ofBuffer (buffer : Bytes) (fragments : List Bytes) :
    (ofBuffer buffer).writeAll fragments =
      ⟨fragments.flatten.take buffer.length, buffer.drop fragments.flatten.length,
        decide (buffer.length < fragments.flatten.length)⟩ := by
  rw [writeAll_eq_write_flatten]
  simp [ofBuffer, write]

end BoundedWriter

end HostServices
