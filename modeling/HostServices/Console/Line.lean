import HostServices.Bytes.Search

/-!
# Reading lines

A line is read from a source that delivers bytes in chunks of its own choosing, may be interrupted,
may fail, and may report the end of the stream more than once. Reading stops behind a newline, when
the buffer has room for nothing but a terminator, at an end of the stream, or at a failure. What is
left of a chunk stays for the next read.

The line ends of a line that was read are stripped, all trailing CR and LF bytes, and a zero byte is
stored behind what is left. Bytes that were stripped stay in the buffer behind the terminator.

The result depends on the size of the buffer only, so `readLine` takes the size and answers with
the bytes to be stored; `LineRead.fill` stores them.
-/

namespace HostServices

/-- What a source delivers at one request. -/
inductive Arrival where
  /-- Some bytes. No bytes at all mean that the stream ended. -/
  | chunk (bytes : Bytes)
  | interrupted
  | failed
deriving DecidableEq, Repr

/-- What a source will deliver, in order. Behind it the stream has ended for good. -/
abbrev Source := List Arrival

/-- The source with bytes of a chunk put back, unless the chunk was used up. -/
def Source.putBack (bytes : Bytes) (s : Source) : Source :=
  if bytes = [] then s else .chunk bytes :: s

def newline : UInt8 := 10

def carriageReturn : UInt8 := 13

/-- The bytes up to the first newline and with it, or `none` if there is no newline. -/
def throughNewline? : Bytes → Option Bytes
  | [] => none
  | b :: rest => if b = newline then some [b] else (throughNewline? rest).map (b :: ·)

/-- Why the bytes of a line stop. -/
inductive LineStop where
  | newline
  /-- There is no room for more. -/
  | full
  | ended
  | failed
deriving DecidableEq, Repr

/-- The bytes of a line as they were consumed. -/
structure LineBytes where
  bytes : Bytes
  stop : LineStop
  /-- What the source still holds. -/
  rest : Source
deriving DecidableEq, Repr

namespace LineBytes

/-- The line with bytes that were consumed before it. -/
def after (bytes : Bytes) (l : LineBytes) : LineBytes := { l with bytes := bytes ++ l.bytes }

/-- Consumes the bytes of a line, `room` of them at most. -/
def collect (room : Nat) : Source → LineBytes
  | [] => ⟨[], if room = 0 then .full else .ended, []⟩
  | .interrupted :: source =>
    if room = 0 then ⟨[], .full, .interrupted :: source⟩ else collect room source
  | .failed :: source =>
    if room = 0 then ⟨[], .full, .failed :: source⟩ else ⟨[], .failed, source⟩
  | .chunk bytes :: source =>
    if room = 0 then ⟨[], .full, .chunk bytes :: source⟩
    else if bytes = [] then ⟨[], .ended, source⟩
    -- A newline behind the bytes that fit is left for the next read.
    else match throughNewline? (bytes.take room) with
      | some line => ⟨line, .newline, Source.putBack (bytes.drop line.length) source⟩
      | none =>
        if bytes.length ≤ room then (collect (room - bytes.length) source).after bytes
        else ⟨bytes.take room, .full, Source.putBack (bytes.drop room) source⟩

@[simp] theorem collect_zero (s : Source) : collect 0 s = ⟨[], .full, s⟩ := by
  cases s with
  | nil => rfl
  | cons arrival source => cases arrival <;> simp [collect]

end LineBytes

def isLineEnd (b : UInt8) : Bool := b == newline || b == carriageReturn

/-- The line without all line ends that stand at its end. -/
def stripLineEnds (bytes : Bytes) : Bytes :=
  (bytes.reverse.dropWhile isLineEnd).reverse

/-- What comes of reading a line. -/
structure LineRead where
  /-- The bytes stored at the start of the buffer. -/
  stored : Bytes
  /-- The length of the stripped line, or `none` if there was no line to read. -/
  length? : Option Nat
  /-- What the source still holds. -/
  rest : Source
deriving DecidableEq, Repr

namespace LineRead

/-- The buffer after a line was read into it. A line that was read is terminated. -/
def fill (r : LineRead) (buffer : Bytes) : Bytes :=
  let buffer := r.stored ++ buffer.drop r.stored.length
  match r.length? with
  | some n => buffer.set n 0
  | none => buffer

/-- The line and its terminator, or nothing if there was no line to read. -/
def terminated (r : LineRead) : Bytes :=
  match r.length? with
  | some n => r.stored.take n ++ [0]
  | none => []

end LineRead

/-- Reads a line into a buffer of `size` bytes. There is no line if the buffer is empty, if the
source failed, or if the stream ended before anything was read. -/
def readLine (size : Nat) (source : Source) : LineRead :=
  if size = 0 then ⟨[], none, source⟩
  else
    let line := LineBytes.collect (size - 1) source
    let length? :=
      -- Bytes that came before a failure are stored all the same.
      if line.stop = .failed ∨ line.stop = .ended ∧ line.bytes = [] then none
      else some (stripLineEnds line.bytes).length
    ⟨line.bytes, length?, line.rest⟩

/-! ### Callers who take a signed number -/

/-- The part of a buffer that may be filled when the length is told as a signed number of 32
bits. -/
def fillableSize (size : Nat) : Nat := min size 0x80000000

/-- A length as a signed number of 32 bits, of which only the lowest bits count. -/
def signedLength (n : Nat) : Int := (Int32.ofNat n).toInt

theorem signedLength_of_lt {n : Nat} (h : n < 0x80000000) : signedLength n = n :=
  Int32.toInt_ofNat_of_lt h

/-- Reads a line into a buffer of `size` bytes, or into none. The number is the length of the line,
or `-1` if there is none to read. -/
def readLineAt (size? : Option Nat) (source : Source) : Int × LineRead :=
  match size? with
  | none => (-1, ⟨[], none, source⟩)
  | some size =>
    let r := readLine (fillableSize size) source
    (match r.length? with
      | some n => signedLength n
      | none => -1, r)

end HostServices
