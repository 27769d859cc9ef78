import HostServices.Bytes.Search

/-!
# Zero-terminated records

Readers of zero-terminated strings take a byte string in records: a zero byte ends a record, a
record longer than its buffer allows is split, and empty records are left out. All records pass
through one buffer, so bytes of an earlier, longer record may stay behind the terminator of a later
one.

The cutter reads byte by byte. It holds the body of the record under way and hands it out when the
buffer has room for nothing but the terminator, at a zero byte, and at the end.
-/

namespace HostServices

/-- A record as it is handed out. -/
structure CutRecord where
  /-- The body and its terminator. -/
  record : Bytes
  /-- The whole buffer at that moment. -/
  buffer : Bytes
deriving DecidableEq, Repr

/-- The state of the cutter between two bytes. -/
structure RecordCutter where
  /-- The buffer that the records pass through. -/
  buffer : Bytes
  /-- The body of the record under way. -/
  held : Bytes
  /-- The records handed out so far. -/
  cuts : List CutRecord
deriving DecidableEq, Repr

namespace RecordCutter

/-- Hands out the record under way, unless it is empty. -/
def flush (c : RecordCutter) : RecordCutter :=
  if c.held = [] then c
  else
    let record := c.held ++ [0]
    let buffer := record ++ c.buffer.drop record.length
    ⟨buffer, [], c.cuts ++ [⟨record, buffer⟩]⟩

/-- Takes in one byte. -/
def feed (c : RecordCutter) (b : UInt8) : RecordCutter :=
  if b = 0 then c.flush
  else
    let c := { c with held := c.held ++ [b] }
    -- The last place of the buffer is the terminator's.
    if c.buffer.length ≤ c.held.length + 1 then c.flush else c

end RecordCutter

/-- Cuts bytes into records that pass through `buffer`. A buffer without room for a body and a
terminator hands out nothing. The answer is the records in order and the buffer at the end. -/
def cutRecords (buffer bytes : Bytes) : List CutRecord × Bytes :=
  if buffer.length < 2 then ([], buffer)
  else
    let c := (bytes.foldl RecordCutter.feed ⟨buffer, [], []⟩).flush
    (c.cuts, c.buffer)

end HostServices
