import HostServices.Proofs.Console.Stream
import Mathlib.Data.List.DropRight

/-!
# Lines do not depend on how they are delivered

The line at the start of a stream is its bytes up to the first newline and with it, as far as there
is room for them and as far as no gap comes before (`ByteStream.line`). A gap is run into only where
neither a newline nor the lack of room stops the line (`ByteStream.gap?`). What reading a line stores,
answers and leaves is told by these alone (`readLine_delivery`), so it is the same for all sources
that redeliver each other.

Between the two stands a reader that takes one signal after another (`ByteStream.scan`). Reading chunks
does what this reader does on the stream behind them (`LineBytes.flat_collect`), and what it does in
all is told by the line and its gap (`ByteStream.scan_reads`).
-/

namespace HostServices

/-! ### The line at the start of a stream -/

namespace ByteStream

/-- The bytes before the first gap of a stream. -/
def lead : ByteStream → Bytes
  | .byte b :: stream => b :: lead stream
  | _ => []

/-- The first gap of a stream. Behind all that it holds it has ended. -/
def firstGap : ByteStream → Gap
  | [] => .ended
  | .byte _ :: stream => firstGap stream
  | .gap g :: _ => g

/-- The bytes up to the first newline and with it, or all of them if there is none. -/
def throughNewline (bytes : Bytes) : Bytes :=
  bytes.takeWhile (· ≠ newline) ++ (bytes.dropWhile (· ≠ newline)).take 1

/-- The bytes of the line at the start of a stream, `room` of them at most. -/
def line (room : Nat) (stream : ByteStream) : Bytes := (throughNewline (lead stream)).take room

/-- The gap that the line runs into, unless a newline or the lack of room stops it before. -/
def gap? (room : Nat) (stream : ByteStream) : Option Gap :=
  if (line room stream).length < room ∧ newline ∉ line room stream then some (firstGap stream)
  else none

/-- How much of the stream the line takes: its bytes, and the gap that it runs into. -/
def taken (room : Nat) (stream : ByteStream) : Nat :=
  (line room stream).length + (gap? room stream).toList.length

/-- The length of the line without the line ends that it ends with. There is no line if a failure
cuts it short, or the end of the stream cuts it down to nothing. -/
def lineLength? (room : Nat) (stream : ByteStream) : Option Nat :=
  if gap? room stream = some .failed ∨ gap? room stream = some .ended ∧ line room stream = [] then
    none
  else some ((line room stream).rdropWhile isLineEnd).length

variable {room : Nat} {b : UInt8} {stream : ByteStream}

theorem throughNewline_cons (b : UInt8) (bytes : Bytes) :
    throughNewline (b :: bytes) = if b = newline then [b] else b :: throughNewline bytes := by
  by_cases hb : b = newline <;> simp [throughNewline, hb]

@[simp] theorem line_zero (stream : ByteStream) : line 0 stream = [] := List.take_zero

@[simp] theorem line_nil (room : Nat) : line room [] = [] := List.take_nil

@[simp] theorem line_gap (room : Nat) (g : Gap) (stream : ByteStream) :
    line room (.gap g :: stream) = [] := List.take_nil

theorem line_byte (room : Nat) (b : UInt8) (stream : ByteStream) :
    line (room + 1) (.byte b :: stream) = if b = newline then [b] else b :: line room stream := by
  rw [line, lead, throughNewline_cons]
  by_cases hb : b = newline
  · rw [if_pos hb, if_pos hb, List.take_succ_cons, List.take_nil]
  · rw [if_neg hb, if_neg hb]
    rfl

@[simp] theorem gap?_zero (stream : ByteStream) : gap? 0 stream = none := by
  simp [gap?]

@[simp] theorem gap?_nil (room : Nat) : gap? (room + 1) [] = some .ended := by
  simp [gap?, firstGap]

@[simp] theorem gap?_gap (room : Nat) (g : Gap) (stream : ByteStream) :
    gap? (room + 1) (.gap g :: stream) = some g := by
  simp [gap?, firstGap]

theorem gap?_byte (room : Nat) (b : UInt8) (stream : ByteStream) :
    gap? (room + 1) (.byte b :: stream) = if b = newline then none else gap? room stream := by
  rw [gap?, line_byte]
  by_cases hb : b = newline
  · simp [hb]
  · simp [hb, Ne.symm hb, gap?, firstGap]

/-! ### Reading one signal after another -/

/-- What comes of reading a line off a stream. -/
structure Scan where
  bytes : Bytes
  stop : LineStop
  rest : ByteStream

/-- The line with bytes that were read before it. -/
def Scan.after (bytes : Bytes) (s : Scan) : Scan := { s with bytes := bytes ++ s.bytes }

def stopOf : Gap → LineStop
  | .ended => .ended
  | .failed => .failed

/-- Reads the bytes of a line, `room` of them at most, one signal after another. -/
def scan : Nat → ByteStream → Scan
  | 0, stream => ⟨[], .full, stream⟩
  | _ + 1, [] => ⟨[], .ended, []⟩
  | _ + 1, .gap g :: stream => ⟨[], stopOf g, stream⟩
  | room + 1, .byte b :: stream =>
    if b = newline then ⟨[b], .newline, stream⟩ else (scan room stream).after [b]

theorem scan_byte (room : Nat) (b : UInt8) (stream : ByteStream) :
    scan (room + 1) (.byte b :: stream) =
      if b = newline then ⟨[b], .newline, stream⟩ else (scan room stream).after [b] := rfl

/-- What a scan is, told by the line and the gap that it runs into. -/
structure Scan.Reads (s : Scan) (room : Nat) (stream : ByteStream) : Prop where
  bytes : s.bytes = line room stream
  failed : s.stop = .failed ↔ gap? room stream = some .failed
  ended : s.stop = .ended ↔ gap? room stream = some .ended
  rest : s.rest = stream.drop (taken room stream)

theorem scan_reads (room : Nat) (stream : ByteStream) :
    (scan room stream).Reads room stream := by
  induction stream generalizing room with
  | nil =>
    cases room with
    | zero => exact ⟨rfl, by simp [scan], by simp [scan], by simp [scan]⟩
    | succ room => exact ⟨rfl, by simp [scan], by simp [scan], by simp [scan]⟩
  | cons x stream ih =>
    cases room with
    | zero => exact ⟨rfl, by simp [scan], by simp [scan], by simp [scan, taken]⟩
    | succ room =>
      cases x with
      | gap g =>
        refine ⟨rfl, ?_, ?_, by simp [scan, taken]⟩ <;> cases g <;> simp [scan, stopOf]
      | byte b =>
        by_cases hb : b = newline
        · have hline : line (room + 1) (.byte b :: stream) = [b] := by rw [line_byte, if_pos hb]
          have hgap : gap? (room + 1) (.byte b :: stream) = none := by rw [gap?_byte, if_pos hb]
          rw [scan_byte, if_pos hb]
          exact ⟨hline.symm, by simp [hgap], by simp [hgap], by simp [taken, hline, hgap]⟩
        · have hline : line (room + 1) (.byte b :: stream) = b :: line room stream := by
            rw [line_byte, if_neg hb]
          have hgap : gap? (room + 1) (.byte b :: stream) = gap? room stream := by
            rw [gap?_byte, if_neg hb]
          have htaken : taken (room + 1) (.byte b :: stream) = taken room stream + 1 := by
            rw [taken, taken, hline, hgap, List.length_cons]
            omega
          have h := ih room
          rw [scan_byte, if_neg hb]
          refine ⟨?_, ?_, ?_, ?_⟩
          · rw [hline, ← h.bytes]
            rfl
          · rw [hgap]
            exact h.failed
          · rw [hgap]
            exact h.ended
          · rw [htaken, List.drop_succ_cons]
            exact h.rest

/-- Reading bytes that arrive together: up to a newline among those there is room for, or as many as
there is room for, or all of them and then what comes behind. -/
theorem scan_bytes (room : Nat) (bytes : Bytes) (stream : ByteStream) :
    scan room (bytes.map .byte ++ stream) =
      match throughNewline? (bytes.take room) with
      | some line => ⟨line, .newline, (bytes.drop line.length).map .byte ++ stream⟩
      | none =>
        if bytes.length ≤ room then (scan (room - bytes.length) stream).after bytes
        else ⟨bytes.take room, .full, (bytes.drop room).map .byte ++ stream⟩ := by
  -- byte by byte, both sides lose one byte of room until a newline or until there is none left
  induction bytes generalizing room with
  | nil => simp [throughNewline?, Scan.after]
  | cons b bytes ih =>
    cases room with
    | zero => simp [throughNewline?, scan]
    | succ room =>
      rw [List.map_cons, List.cons_append, scan_byte, List.take_succ_cons, throughNewline?]
      by_cases hb : b = newline
      · rw [if_pos hb, if_pos hb]
        rfl
      · rw [if_neg hb, if_neg hb, ih]
        cases throughNewline? (bytes.take room) with
        | some line => rfl
        | none =>
          by_cases hfits : bytes.length ≤ room
          · have hfits' : (b :: bytes).length ≤ room + 1 := Nat.succ_le_succ hfits
            rw [if_pos hfits, Option.map_none, if_pos hfits', List.length_cons,
              Nat.add_sub_add_right]
            rfl
          · have hfits' : ¬ (b :: bytes).length ≤ room + 1 := fun h => hfits (Nat.le_of_succ_le_succ h)
            rw [if_neg hfits, Option.map_none, if_neg hfits']
            rfl

end ByteStream

/-! ### Reading chunks -/

namespace LineBytes

open ByteStream

/-- The bytes of a line and what is left of the stream behind them. -/
def flat (l : LineBytes) : Scan := ⟨l.bytes, l.stop, l.rest.signals⟩

/-- Reading chunks does what reading the signals one after another does. -/
theorem flat_collect (room : Nat) (source : Source) :
    (collect room source).flat = scan room source.signals := by
  induction source generalizing room with
  | nil => cases room <;> rfl
  | cons x source ih =>
    cases room with
    | zero =>
      rw [collect_zero]
      rfl
    | succ room =>
      have hroom : ¬ room + 1 = 0 := Nat.succ_ne_zero room
      cases x with
      | interrupted =>
        -- an interruption leaves the stream and the room as they are
        rw [collect, if_neg hroom]
        exact ih (room + 1)
      | failed =>
        rw [collect, if_neg hroom]
        rfl
      | chunk bytes =>
        by_cases hb : bytes = []
        · rw [collect, if_neg hroom, if_pos hb, hb]
          rfl
        · rw [collect, if_neg hroom, if_neg hb, Source.signals_chunk hb, scan_bytes]
          cases throughNewline? (bytes.take (room + 1)) with
          | some line =>
            simp only [flat, Source.signals_putBack]
          | none =>
            by_cases hfits : bytes.length ≤ room + 1
            · simp only [if_pos hfits, ← ih]
              rfl
            · simp only [if_neg hfits, flat, Source.signals_putBack]

/-- What is read in chunks is told by the line and the gap that it runs into. -/
theorem collect_reads (room : Nat) (source : Source) :
    (collect room source).flat.Reads room source.signals := by
  rw [flat_collect]
  exact scan_reads room source.signals

end LineBytes

/-! ### Reading a line -/

open ByteStream

/-- What a line read into a buffer comes to, told by the stream that the source delivers. -/
structure LineRead.Reads (r : LineRead) (buffer : Bytes) (stream : ByteStream) : Prop where
  length : r.length? = lineLength? (buffer.length - 1) stream
  /-- The line and the gap that it runs into are taken off the stream, and nothing else. -/
  rest : r.rest.signals = stream.drop (taken (buffer.length - 1) stream)
  /-- The bytes of the line come before old bytes, and where there is a line, a zero byte ends it. -/
  fill : r.fill buffer =
    let line := line (buffer.length - 1) stream
    match lineLength? (buffer.length - 1) stream with
    | some k => (line ++ buffer.drop line.length).set k 0
    | none => line ++ buffer.drop line.length
  /-- The line fits, and its zero byte with it. -/
  inside : (line (buffer.length - 1) stream).length < buffer.length ∧
    ∀ k ∈ r.length?, k ≤ (line (buffer.length - 1) stream).length

theorem length_line_le (room : Nat) (stream : ByteStream) : (line room stream).length ≤ room :=
  List.length_take_le room _

theorem le_of_mem_lineLength? {room k : Nat} {stream : ByteStream}
    (hk : k ∈ lineLength? room stream) : k ≤ (line room stream).length := by
  rw [Option.mem_def, lineLength?] at hk
  split at hk
  · cases hk
  · obtain rfl := Option.some.inj hk
    exact (List.rdropWhile_prefix isLineEnd _).length_le

/-- What is read is the line, and its length is told by its gap. -/
theorem readLine_eq {size : Nat} (hsize : size ≠ 0) (source : Source) :
    readLine size source = ⟨line (size - 1) source.signals, lineLength? (size - 1) source.signals,
      (LineBytes.collect (size - 1) source).rest⟩ := by
  have hl := LineBytes.collect_reads (size - 1) source
  have hbytes : (LineBytes.collect (size - 1) source).bytes = line (size - 1) source.signals :=
    hl.bytes
  rw [readLine, if_neg hsize, lineLength?]
  simp only [hbytes]
  congr 1
  exact if_congr (or_congr hl.failed (and_congr_left' hl.ended)) rfl rfl

/-- A line is read into a buffer that has room for a terminator at least. -/
theorem readLine_reads {buffer : Bytes} (hb : buffer ≠ []) (source : Source) :
    (readLine buffer.length source).Reads buffer source.signals := by
  have hsize : buffer.length ≠ 0 := mt List.eq_nil_of_length_eq_zero hb
  have hfits := length_line_le (buffer.length - 1) source.signals
  rw [readLine_eq hsize]
  refine ⟨rfl, ?_, rfl, by omega, fun k hk => le_of_mem_lineLength? hk⟩
  exact (LineBytes.collect_reads (buffer.length - 1) source).rest

/-- **Lines do not depend on how they are delivered.** What reading a line into a buffer of two bytes
or more stores, answers and leaves is told by the stream alone, and sources that redeliver each other
still do so behind it. Into a single byte only the terminator is stored, no line is read into no
buffer at all, and neither takes anything off the source. -/
theorem readLine_delivery (buffer : Bytes) (source : Source) :
    (2 ≤ buffer.length → (readLine buffer.length source).Reads buffer source.signals) ∧
    (∀ source', source.Redelivers source' →
      (readLine buffer.length source').length? = (readLine buffer.length source).length? ∧
      (readLine buffer.length source').fill buffer = (readLine buffer.length source).fill buffer ∧
      (readLine buffer.length source).rest.Redelivers (readLine buffer.length source').rest) ∧
    readLine 1 source = ⟨[], some 0, source⟩ ∧ (∀ b, (readLine 1 source).fill [b] = [0]) ∧
    readLine 0 source = ⟨[], none, source⟩ := by
  have hone : readLine 1 source = ⟨[], some 0, source⟩ := by
    simp [readLine, stripLineEnds]
  have hzero : readLine 0 source = ⟨[], none, source⟩ := rfl
  refine ⟨?_, ?_, hone, ?_, hzero⟩
  · intro hb
    exact readLine_reads (List.ne_nil_of_length_pos (by omega)) source
  · intro source' hredelivers
    by_cases hb : buffer = []
    · -- nothing is read, and the sources are left as they came
      rw [hb]
      exact ⟨rfl, rfl, hredelivers⟩
    · have h := readLine_reads hb source
      have h' := readLine_reads hb source'
      rw [← hredelivers.signals_eq] at h'
      exact ⟨h'.length.trans h.length.symm, h'.fill.trans h.fill.symm,
        Source.redelivers_iff.2 (h.rest.trans h'.rest.symm)⟩
  · intro b
    rw [hone]
    rfl

/-- Two deliveries of a line with the start of the next one behind it, into a buffer with room for
six bytes and a terminator. -/
theorem readLine_delivery_split :
    let buffer : Bytes := [255, 255, 255, 255, 255, 255, 255]
    let source : Source := [.chunk [97, 98], .interrupted, .chunk [99, 13, 10, 100]]
    let source' : Source := [.interrupted, .chunk [97], .chunk [98, 99, 13, 10], .chunk [100]]
    2 ≤ buffer.length ∧ source.Redelivers source' ∧
      (readLine buffer.length source).Reads buffer source.signals ∧
      (readLine buffer.length source).length? = some 3 ∧
      (readLine buffer.length source').fill buffer = [97, 98, 99, 0, 10, 255, 255] ∧
      (readLine buffer.length source).rest.Redelivers (readLine buffer.length source').rest := by
  intro buffer source source'
  have hb : 2 ≤ buffer.length := by decide
  have hredelivers : source.Redelivers source' := Source.redelivers_iff.2 (by decide)
  obtain ⟨hreads, hsame, -⟩ := readLine_delivery buffer source
  obtain ⟨-, hfill, hrest⟩ := hsame source' hredelivers
  exact ⟨hb, hredelivers, hreads hb, by decide, hfill.trans (by decide), hrest⟩

end HostServices
