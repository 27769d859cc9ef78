import HostServices.Log.Record
import HostServices.Proofs.Host.Write

/-!
# What is written of a record

The text of a record in full (`LogRecord.full`) is its kind, padded with spaces, its message, and,
unless the formatting of the message failed, where it comes from. What is written of it is the text
itself if it has at most 256 bytes, and its first 256 bytes and an ellipsis otherwise
(`LogRecord.cut`).

Rendering takes another way: it fills the start of a buffer whose old bytes end in the ellipsis, and
then tells from the mark of the writer how much of the buffer counts. `renderInto_eq` says what
comes of this for any old bytes and however the text is split, so that no old byte is written with a
text that fits. `LogRecord.record_written` says it of a record and of the host's one write.
-/

namespace HostServices

namespace LogRecord

/-- The text of a record, before any of it is cut. -/
def full (r : LogRecord) : Bytes :=
  utf8 r.kind ++ List.replicate (10 - r.kind.length) ' '.toUInt8 ++ r.message.bytes ++
    if r.message.failed then []
    else utf8 " (@ " ++ utf8 r.file ++ utf8 ":" ++ utf8 (toString r.line) ++ utf8 ")\n"

/-- What is written of a record. -/
def cut (r : LogRecord) : Bytes :=
  if r.full.length ≤ 256 then r.full
  else r.full.take 256 ++ ['.'.toUInt8, '.'.toUInt8, '.'.toUInt8, '\n'.toUInt8]

/-! ### The text of a record -/

/-- Padding on the right adds spaces, and leaves the text itself alone. -/
theorem utf8_padTo_left (width : Nat) (s : String) :
    utf8 (String.ofList (padTo width .left s.toList)) =
      utf8 s ++ List.replicate (width - s.length) ' '.toUInt8 := by
  have hspaces : ∀ n, (List.replicate n ' ').flatMap String.utf8EncodeChar =
      List.replicate n ' '.toUInt8 := by
    intro n
    induction n with
    | zero => rfl
    | succ n ih =>
      rw [List.replicate_succ, List.flatMap_cons, ih]
      rfl
  rw [utf8_eq_flatMap, utf8_eq_flatMap, String.toList_ofList, padTo, List.flatMap_append, hspaces,
    String.length_toList]

theorem bytes_heading (r : LogRecord) :
    r.heading.bytes = utf8 r.kind ++ List.replicate (10 - r.kind.length) ' '.toUInt8 := by
  show _ ++ [] = _
  rw [List.append_nil, utf8_padTo_left, kindWidth]

theorem bytes_origin (r : LogRecord) :
    r.origin.bytes =
      utf8 " (@ " ++ utf8 r.file ++ utf8 ":" ++ utf8 (toString r.line) ++ utf8 ")\n" := by
  show _ ++ [] = _
  rw [List.append_nil, utf8_append, utf8_append, utf8_append, utf8_append]

/-- The parts of a record come to its text. -/
theorem bytes_text (r : LogRecord) : r.text.bytes = r.full := by
  -- the heading cannot fail, so the origin is reached just if the message does not fail
  have hfailed : (r.heading.andThen r.message).failed = r.message.failed :=
    Rendering.failed_andThen r.heading r.message
  have hmessage : (r.heading.andThen r.message).bytes = r.heading.bytes ++ r.message.bytes :=
    Rendering.bytes_andThen r.heading r.message
  rw [text, Rendering.bytes_andThen, hfailed, hmessage, bytes_heading, bytes_origin, full]

/-! ### Rendering into a buffer -/

/-- A text that fits is written without any byte of the buffer, and one that does not with all those
that it cannot reach. -/
theorem renderInto_eq {buffer : Bytes} (hbuffer : size ≤ buffer.length) (text : Rendering) :
    renderInto buffer text =
      if text.bytes.length ≤ size then text.bytes
      else text.bytes.take size ++ buffer.drop size := by
  have hroom : (buffer.take size).length = size := List.length_take_of_le hbuffer
  have hwriter : (BoundedWriter.ofBuffer (buffer.take size)).writeAll text.fragments =
      ⟨text.bytes.take size, (buffer.take size).drop text.bytes.length,
        decide (size < text.bytes.length)⟩ := by
    rw [BoundedWriter.writeAll_ofBuffer, hroom]
    rfl
  unfold renderInto
  rw [hwriter]
  by_cases hfits : text.bytes.length ≤ size
  · -- nothing was dropped, and what stands behind the text does not count
    have htext : text.bytes.take size = text.bytes := List.take_of_length_le hfits
    simp only [htext, decide_eq_true_eq, Nat.not_lt.2 hfits, if_false, if_pos hfits,
      BoundedWriter.buffer, BoundedWriter.filled, List.append_assoc, List.take_left]
  · -- the text has run over all the bytes that it can reach
    have hlt : size < text.bytes.length := Nat.lt_of_not_le hfits
    have hrest : (buffer.take size).drop text.bytes.length = [] := by
      rw [List.drop_eq_nil_iff, hroom]
      exact Nat.le_of_lt hlt
    simp only [hrest, decide_eq_true_eq, hlt, if_true, if_neg hfits, BoundedWriter.buffer,
      List.append_nil]

/-- The buffer of a record ends in the ellipsis. -/
theorem drop_blank : blank.drop size = ['.'.toUInt8, '.'.toUInt8, '.'.toUInt8, '\n'.toUInt8] := by
  have hellipsis : ellipsis = ['.'.toUInt8, '.'.toUInt8, '.'.toUInt8, '\n'.toUInt8] :=
    utf8_eq_flatMap "...\n"
  rw [blank, List.drop_left' List.length_replicate, hellipsis]

theorem size_le_length_blank : size ≤ blank.length := by
  rw [blank, List.length_append, List.length_replicate]
  exact Nat.le_add_right _ _

theorem encode?_eq (r : LogRecord) :
    r.encode? = if r.level < 2 then none else some r.cut := by
  rw [encode?, renderInto_eq size_le_length_blank, bytes_text, drop_blank]
  rfl

theorem length_cut (r : LogRecord) :
    r.cut.length = if r.full.length ≤ 256 then r.full.length else 260 := by
  rw [cut]
  split
  · rfl
  · rw [List.length_append, List.length_take_of_le (by omega)]
    rfl

/-- A record is cut the same with another message of the same text that fails just if this one
does. -/
theorem cut_eq_of_message {r : LogRecord} {message : Rendering}
    (hbytes : message.bytes = r.message.bytes) (hfailed : message.failed = r.message.failed) :
    { r with message }.cut = r.cut := by
  have hfull : { r with message }.full = r.full := by
    simp only [full, hbytes, hfailed]
  rw [cut, cut, hfull]

/-! ### Writing a record -/

theorem emit_of_lt {r : LogRecord} (h : r.level < 2) (answers : List WriteAnswer) :
    r.emit answers = [] := by
  rw [emit, encode?_eq, if_pos h]

theorem emit_of_le {r : LogRecord} (h : 2 ≤ r.level) (answers : List WriteAnswer) :
    r.emit answers = [.offer 2 r.cut (answers.headD (.takes r.cut.length))] := by
  rw [emit, encode?_eq, if_neg (Nat.not_lt.2 h)]
  rfl

/-- What comes of writing a record to the log, while the host gives these answers. -/
structure Recorded (r : LogRecord) (answers : List WriteAnswer) : Prop where
  /-- Below the threshold nothing is written. -/
  dropped : r.level < 2 → r.emit answers = []
  /-- Otherwise there is one write, whatever the host answers. -/
  written : 2 ≤ r.level →
    r.emit answers = [.offer 2 r.cut (answers.headD (.takes r.cut.length))]
  /-- No record has more than 260 bytes, and none but a cut one has as many. -/
  length_le : ∀ w ∈ r.emit answers, w.offered.length ≤ 260 ∧
    (w.offered.length = 260 ↔ 256 < r.full.length)
  /-- How the message is split into fragments does not matter. -/
  fragments : ∀ message : Rendering, message.bytes = r.message.bytes →
    message.failed = r.message.failed → { r with message }.emit answers = r.emit answers
  /-- A text that fits is written as it is, however all of it is split into fragments, and whatever
  stood in the buffer before. -/
  fits : r.full.length ≤ 256 → ∀ (buffer : Bytes) (text : Rendering), buffer.length = 260 →
    text.bytes = r.full → renderInto buffer text = r.full

/-- **Records are cut exactly.** Of a record that is not below the threshold, the host is offered in
one write the text if it has at most 256 bytes, and else the first 256 of them and an ellipsis. -/
theorem record_written (r : LogRecord) (answers : List WriteAnswer) : r.Recorded answers := by
  constructor
  case dropped => exact fun hlevel => emit_of_lt hlevel answers
  case written => exact fun hlevel => emit_of_le hlevel answers
  case length_le =>
    intro w hw
    have hoffered : w.offered = r.cut := by
      by_cases hlevel : r.level < 2
      · rw [emit_of_lt hlevel] at hw
        cases hw
      · rw [emit_of_le (Nat.le_of_not_lt hlevel)] at hw
        rw [List.mem_singleton.1 hw, WriteCall.offered_offer]
    rw [hoffered, length_cut]
    split <;> omega
  case fragments =>
    intro message hbytes hfailed
    have hcut := cut_eq_of_message hbytes hfailed
    rw [emit, emit, encode?_eq, encode?_eq, hcut]
  case fits =>
    intro hlength buffer text hbuffer htext
    have hsize : size ≤ buffer.length := hbuffer ▸ (by decide)
    rw [renderInto_eq hsize, htext]
    exact if_pos hlength

/-- The text is cut in the middle of a character, and a failure behind the cut does not matter. The
host takes a part of the record only, and is not asked again. -/
theorem record_written_cut :
    let message : Rendering := ⟨[List.replicate 245 97, utf8 "é", utf8 "é"], true⟩
    let r : LogRecord := ⟨4, "NOTE", message, "console", 1⟩
    let answers : List WriteAnswer := [.takes 3, .takes 9]
    r.Recorded answers ∧
      r.emit answers = [⟨2, utf8 "NOTE      " ++ List.replicate 245 97 ++ [195] ++ utf8 "...\n",
        .takes 3⟩] ∧
      { r with level := 1 }.emit answers = [] := by
  intro message r answers
  have hrecorded := record_written r answers
  have hcut : r.cut = utf8 "NOTE      " ++ List.replicate 245 97 ++ [195] ++ utf8 "...\n" := by
    decide +kernel
  refine ⟨hrecorded, ?_, (record_written { r with level := 1 } answers).dropped (by decide)⟩
  rw [hrecorded.written (by decide), hcut]
  decide +kernel

end LogRecord

end HostServices
