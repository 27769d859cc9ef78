import HostServices.Text.BoundedWriter

/-!
# What a bounded writer keeps

Bytes are handed to a writer as they are, or as the fragments of a formatted text that may fail in
the middle. How far the buffer is filled at any time is said by `Filled`, from the old buffer and
all bytes handed over so far. One write keeps it (`Filled.write`), and so do any writes, in the
middle of a text too (`Filled.writeAll`).

`Filled` leaves no choice (`Filled.unique`). So it does not matter in which parts the bytes were
handed over, and a writer that had to drop some of them stays as it is, since the bytes that come
later are dropped as well (`keeps_what_fits`).
-/

namespace HostServices.BoundedWriter

/-! ### Requests -/

/-- Something that is written into a buffer. -/
inductive Request where
  /-- Some bytes as they are. -/
  | bytes (b : Bytes)
  /-- A formatted text, as far as its values can be formatted. -/
  | text (r : Rendering)
deriving DecidableEq, Repr

/-- The writes that a request comes to. -/
def Request.writes : Request → List Bytes
  | bytes b => [b]
  | text r => r.fragments

/-- The writes that some requests come to, one after another. -/
def writes (requests : List Request) : List Bytes := requests.flatMap Request.writes

/-- All bytes that some requests hand to a writer. -/
def handed (requests : List Request) : Bytes := (writes requests).flatten

/-- Carries out a request. -/
def perform (w : BoundedWriter) (r : Request) : BoundedWriter := w.writeAll r.writes

/-- Carries out some requests in turn. -/
def performAll (w : BoundedWriter) (requests : List Request) : BoundedWriter :=
  requests.foldl perform w

theorem writeAll_append (w : BoundedWriter) (before after : List Bytes) :
    w.writeAll (before ++ after) = (w.writeAll before).writeAll after := List.foldl_append

/-- Only the writes of a request count, and not where one request ends and the next begins. -/
theorem performAll_eq (w : BoundedWriter) (requests : List Request) :
    w.performAll requests = w.writeAll (writes requests) := by
  induction requests generalizing w with
  | nil => rfl
  | cons r requests ih =>
    calc w.performAll (r :: requests)
        = (w.writeAll r.writes).writeAll (writes requests) := ih _
      _ = w.writeAll (writes (r :: requests)) := (w.writeAll_append _ _).symm

/-! ### How far a buffer is filled -/

/-- The writer `w` started at the front of `buffer`, and `bytes` were handed to it since. -/
structure Filled (buffer bytes : Bytes) (w : BoundedWriter) : Prop where
  /-- The buffer has its old size. -/
  size : w.buffer.length = buffer.length
  /-- As many bytes were written as there are, or as there is room for. -/
  filled : w.filled = min bytes.length buffer.length
  /-- They are the first ones. -/
  start : w.buffer.take w.filled = bytes.take w.filled
  /-- Behind them the buffer is as it was. -/
  behind : w.buffer.drop w.filled = buffer.drop w.filled
  /-- Some are missing just if there was no room for all of them. -/
  truncated : w.truncated = true ↔ buffer.length < bytes.length

namespace Filled

variable {buffer bytes : Bytes} {w w' : BoundedWriter}

theorem ofBuffer (buffer : Bytes) : Filled buffer [] (ofBuffer buffer) where
  size := rfl
  filled := (Nat.zero_min _).symm
  start := rfl
  behind := rfl
  truncated := by simp [BoundedWriter.ofBuffer]

theorem written_eq (h : Filled buffer bytes w) : w.written = bytes.take buffer.length :=
  calc w.written
      = w.buffer.take w.filled := List.take_left.symm
    _ = bytes.take (min buffer.length bytes.length) := by rw [h.start, h.filled, Nat.min_comm]
    _ = bytes.take buffer.length := List.take_eq_take_min.symm

theorem room_eq (h : Filled buffer bytes w) : w.room = buffer.drop bytes.length :=
  calc w.room
      = w.buffer.drop w.filled := List.drop_left.symm
    _ = buffer.drop bytes.length := by rw [h.behind, h.filled, ← List.drop_eq_drop_min]

/-- The two parts of the buffer and the mark settle how far it is filled. -/
theorem of_parts (hwritten : w.written = bytes.take buffer.length)
    (hroom : w.room = buffer.drop bytes.length)
    (htruncated : w.truncated = true ↔ buffer.length < bytes.length) : Filled buffer bytes w := by
  have hfilled : w.filled = min bytes.length buffer.length := by
    rw [BoundedWriter.filled, hwritten, List.length_take, Nat.min_comm]
  refine ⟨?_, hfilled, ?_, ?_, htruncated⟩
  · rw [BoundedWriter.buffer, hwritten, hroom, List.length_append, List.length_take,
      List.length_drop]
    omega
  · calc w.buffer.take w.filled
        = w.written := List.take_left
      _ = bytes.take w.filled := by rw [hwritten, hfilled, Nat.min_comm, ← List.take_eq_take_min]
  · calc w.buffer.drop w.filled
        = w.room := List.drop_left
      _ = buffer.drop w.filled := by rw [hroom, hfilled, ← List.drop_eq_drop_min]

/-- There is one way only in which the bytes can fill the buffer. -/
theorem unique (h : Filled buffer bytes w) (h' : Filled buffer bytes w') : w = w' := by
  have htruncated : w.truncated = w'.truncated :=
    Bool.eq_iff_iff.2 (h.truncated.trans h'.truncated.symm)
  have hwritten : w.written = w'.written := h.written_eq.trans h'.written_eq.symm
  have hroom : w.room = w'.room := h.room_eq.trans h'.room_eq.symm
  cases w
  cases w'
  simp_all

/-- A write puts its bytes behind those that were handed over before. -/
theorem write (h : Filled buffer bytes w) (more : Bytes) :
    Filled buffer (bytes ++ more) (w.write more) := by
  have hroom : w.room.length = buffer.length - bytes.length := by rw [h.room_eq, List.length_drop]
  apply of_parts
  · calc w.written ++ more.take w.room.length
        = bytes.take buffer.length ++ more.take (buffer.length - bytes.length) := by
          rw [h.written_eq, hroom]
      _ = (bytes ++ more).take buffer.length := List.take_append.symm
  · calc w.room.drop more.length
        = buffer.drop (bytes.length + more.length) := by rw [h.room_eq, List.drop_drop]
      _ = buffer.drop (bytes ++ more).length := by rw [List.length_append]
  · -- what is missing after the write was missing before, or there is no room for it now
    have hmark : (w.write more).truncated = true ↔
        w.truncated = true ∨ w.room.length < more.length := by
      simp [BoundedWriter.write]
    rw [hmark, h.truncated, hroom, List.length_append]
    omega

theorem writeAll (h : Filled buffer bytes w) (later : List Bytes) :
    Filled buffer (bytes ++ later.flatten) (w.writeAll later) := by
  induction later generalizing bytes w with
  | nil => simpa using h
  | cons more later ih =>
    rw [List.flatten_cons, ← List.append_assoc]
    exact ih (h.write more)

/-- There is no room left in a buffer in which some bytes are missing. -/
theorem full (h : Filled buffer bytes w) (ht : w.truncated = true) :
    w.filled = buffer.length := by
  rw [h.filled, Nat.min_eq_right (Nat.le_of_lt (h.truncated.1 ht))]

/-- Where bytes are missing already, those that come later are missing too. -/
theorem append (h : Filled buffer bytes w) (ht : w.truncated = true) (later : Bytes) :
    Filled buffer (bytes ++ later) w := by
  have hlt : buffer.length < bytes.length := h.truncated.1 ht
  have hlt' : buffer.length < (bytes ++ later).length := by
    rw [List.length_append]
    exact Nat.lt_add_right _ hlt
  apply of_parts
  · rw [h.written_eq, List.take_append_of_le_length (Nat.le_of_lt hlt)]
  · rw [h.room_eq, List.drop_eq_nil_of_le (Nat.le_of_lt hlt),
      List.drop_eq_nil_of_le (Nat.le_of_lt hlt')]
  · exact iff_of_true ht hlt'

end Filled

/-! ### Runs of requests -/

/-- **A writer keeps what fits.** At any point of any requests, in the middle of a text too, the
buffer starts with the bytes handed over so far, as far as there is room for them, and is unchanged
behind them; the writer says that some are missing just if there are more of them than the buffer
has room for. From then on the buffer is full, and nothing that is written changes the writer any
more. So the writer is told by the old buffer and by all bytes handed over, whatever requests they
came in. -/
theorem keeps_what_fits (buffer : Bytes) (requests : List Request) :
    (∀ before after, writes requests = before ++ after →
      Filled buffer before.flatten ((ofBuffer buffer).writeAll before) ∧
      (((ofBuffer buffer).writeAll before).truncated = true →
        ((ofBuffer buffer).writeAll before).filled = buffer.length ∧
        ∀ later, ((ofBuffer buffer).writeAll before).writeAll later =
          (ofBuffer buffer).writeAll before)) ∧
    Filled buffer (handed requests) ((ofBuffer buffer).performAll requests) ∧
    ∀ requests', handed requests' = handed requests →
      (ofBuffer buffer).performAll requests' = (ofBuffer buffer).performAll requests := by
  have hall : ∀ before, Filled buffer before.flatten ((ofBuffer buffer).writeAll before) :=
    fun before => (Filled.ofBuffer buffer).writeAll before
  have hrun : ∀ requests,
      Filled buffer (handed requests) ((ofBuffer buffer).performAll requests) := by
    intro requests
    rw [performAll_eq]
    exact hall (writes requests)
  refine ⟨?_, hrun requests, ?_⟩
  · rintro before after -
    have h := hall before
    refine ⟨h, fun ht => ⟨h.full ht, fun later => ?_⟩⟩
    exact (h.writeAll later).unique (h.append ht later.flatten)
  · intro requests' hsame
    exact Filled.unique (hsame ▸ hrun requests') (hrun requests)

/-- A text that fails after it was cut, with an empty write before it and a short one after it. The
bytes could as well come in one piece. -/
theorem keeps_what_fits_cut :
    let requests := [.bytes [65], .bytes [], .text ⟨[[66], [67, 68, 69]], true⟩, .bytes [70]]
    let w : BoundedWriter := (ofBuffer [255, 255, 255]).writeAll [[65], [], [66], [67, 68, 69]]
    writes requests = [[65], [], [66], [67, 68, 69]] ++ [[70]] ∧ w = ⟨[65, 66, 67], [], true⟩ ∧
      w.filled = 3 ∧ w.write [70] = w ∧
      handed [.bytes [65, 66, 67, 68, 69, 70]] = handed requests ∧
      (ofBuffer [255, 255, 255]).performAll [.bytes [65, 66, 67, 68, 69, 70]] =
        (ofBuffer [255, 255, 255]).performAll requests := by
  intro requests w
  obtain ⟨hpoints, -, hsame⟩ := keeps_what_fits [255, 255, 255] requests
  obtain ⟨-, hfull⟩ := hpoints [[65], [], [66], [67, 68, 69]] [[70]] rfl
  obtain ⟨hsize, hlater⟩ := hfull rfl
  exact ⟨rfl, rfl, hsize, hlater [[70]], rfl, hsame _ rfl⟩

end HostServices.BoundedWriter
