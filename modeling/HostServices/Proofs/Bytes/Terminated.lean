import HostServices.Proofs.Bytes.Cutting
import HostServices.Proofs.Bytes.Occurrence
import HostServices.Proofs.Console.SignedLength

/-!
# What is seen of a buffer

A reader of zero-terminated strings sees a buffer up to the first zero byte in its reach, and
nothing of what stands behind it (`terminatedLength_congr`). So where a text is stored with a
terminator, what is seen is what would be seen of the text alone (`terminatedLength_append_zero`),
whatever was left in the buffer.

There are two who store such texts. The cutter of records leaves bytes of longer records behind the
terminator (`exists_of_mem_cuts`), and its texts have no zero bytes, so each is seen as a whole. A
line that was read leaves its line ends and old bytes there (`LineRead.Reads.exists_fill_eq`), and
it can have zero bytes of its own, the first of which ends what is seen. `seen_to_terminator` states
both.
-/

namespace HostServices

namespace Bytes

variable {buffer other text stale : Bytes} {b : UInt8} {reach : Nat}

/-! ### The first zero byte -/

@[simp] theorem terminatedLength_nil (reach : Nat) : terminatedLength [] reach = 0 := by
  simp [terminatedLength]

@[simp] theorem terminatedLength_reach_zero (buffer : Bytes) : terminatedLength buffer 0 = 0 := by
  simp [terminatedLength]

@[simp] theorem terminatedLength_zero_cons (rest : Bytes) (reach : Nat) :
    terminatedLength (0 :: rest) reach = 0 := by
  cases reach <;> simp [terminatedLength]

theorem terminatedLength_succ_cons (hb : b ≠ 0) (rest : Bytes) (reach : Nat) :
    terminatedLength (b :: rest) (reach + 1) = terminatedLength rest reach + 1 := by
  simp [terminatedLength, hb]

/-- The length is the offset of the first zero byte in reach, or the reach if there is none. -/
theorem terminatedLength_eq_find? (buffer : Bytes) (reach : Nat) :
    terminatedLength buffer reach =
      (find? [0] (buffer.take reach)).getD (min reach buffer.length) := by
  induction buffer generalizing reach with
  | nil => simp [find?_nil_of_not_isPrefix]
  | cons b rest ih =>
    cases reach with
    | zero => simp [find?_nil_of_not_isPrefix]
    | succ reach =>
      rw [List.take_succ_cons, List.length_cons, Nat.add_min_add_right]
      by_cases hb : b = 0
      · subst hb
        rw [terminatedLength_zero_cons, find?_of_isPrefix (by simp)]
        rfl
      · rw [terminatedLength_succ_cons hb, ih,
          find?_cons_of_not_isPrefix (by simpa using Ne.symm hb)]
        cases find? [0] (rest.take reach) <;> rfl

/-- Buffers that are equal as far as the first zero byte in reach are seen alike. -/
theorem terminatedLength_congr
    (h : ∀ i < reach, (∀ j < i, buffer[j]? ≠ some 0) → other[i]? = buffer[i]?) :
    terminatedLength other reach = terminatedLength buffer reach := by
  -- the first bytes are the same, and unless they are zero so are those that follow
  induction reach generalizing buffer other with
  | zero => simp
  | succ reach ih =>
    have hfirst : other[0]? = buffer[0]? := h 0 (Nat.succ_pos reach) nofun
    cases buffer with
    | nil =>
      obtain rfl : other = [] := by simpa using hfirst
      rfl
    | cons b rest =>
      obtain ⟨rest', rfl⟩ : ∃ rest', other = b :: rest' := by
        cases other with
        | nil => cases hfirst
        | cons b' rest' => exact ⟨rest', by rw [Option.some.inj hfirst]⟩
      by_cases hb : b = 0
      · subst hb
        simp
      · rw [terminatedLength_succ_cons hb, terminatedLength_succ_cons hb]
        have hrest : ∀ i < reach, (∀ j < i, rest[j]? ≠ some 0) → rest'[i]? = rest[i]? := by
          intro i hi hzero
          refine h (i + 1) (Nat.succ_lt_succ hi) fun j hj => ?_
          cases j with
          | zero => simpa using hb
          | succ j => exact hzero j (Nat.lt_of_succ_lt_succ hj)
        rw [ih hrest]

/-- A terminator behind a text hides what stands behind it. -/
theorem terminatedLength_append_zero (text stale : Bytes) (reach : Nat) :
    terminatedLength (text ++ 0 :: stale) reach = terminatedLength text reach := by
  induction text generalizing reach with
  | nil => simp
  | cons b text ih =>
    cases reach with
    | zero => simp
    | succ reach =>
      by_cases hb : b = 0
      · subst hb
        simp
      · rw [List.cons_append, terminatedLength_succ_cons hb, terminatedLength_succ_cons hb, ih]

/-- Of a whole buffer no more is seen than of the text in front of a terminator. -/
theorem terminatedLength_whole (h : buffer = text ++ 0 :: stale) :
    terminatedLength buffer buffer.length = terminatedLength text text.length := by
  subst h
  have hle : text.length ≤ (text ++ 0 :: stale).length := by
    rw [List.length_append]
    exact Nat.le_add_right _ _
  rw [terminatedLength_append_zero, terminatedLength, terminatedLength, List.take_of_length_le hle,
    List.take_length]

/-- A text without zero bytes is seen as a whole. -/
theorem terminatedLength_of_notMem (h : 0 ∉ text) :
    terminatedLength text text.length = text.length := by
  rw [terminatedLength_eq_find?, List.take_length, find?_singleton_eq_none_iff.2 h, Nat.min_self,
    Option.getD_none]

/-- The first zero byte of a text ends what is seen of it. -/
theorem find?_zero_of_mem (h : 0 ∈ text) :
    find? [0] text = some (terminatedLength text text.length) := by
  rw [terminatedLength_eq_find?, List.take_length]
  cases hfound : find? [0] text with
  | none => exact absurd h (find?_singleton_eq_none_iff.1 hfound)
  | some i => rfl

end Bytes

open Bytes

/-! ### Who stores texts with terminators -/

theorem overwrite_terminated (earlier body : Bytes) :
    overwrite earlier (body ++ [0]) = body ++ 0 :: earlier.drop (body.length + 1) := by
  rw [overwrite, List.append_assoc, List.length_append]
  rfl

/-- With each record, the buffer holds its body, a terminator, and old bytes. -/
theorem exists_of_mem_cuts {buffer bytes : Bytes} {cut : CutRecord}
    (hcut : cut ∈ (cutRecords buffer bytes).1) :
    ∃ body stale, cut.record = body ++ [0] ∧ 0 ∉ body ∧ cut.buffer = body ++ 0 :: stale := by
  by_cases hbuffer : 2 ≤ buffer.length
  · obtain ⟨before, after, hcuts⟩ := List.append_of_mem hcut
    have hrecords : records buffer bytes =
        before.map CutRecord.record ++ cut.record :: after.map CutRecord.record := by
      rw [records, hcuts, List.map_append, List.map_cons]
    obtain ⟨-, body, -, -, hrecord, -, -, -, hzero, -, -⟩ := exists_of_records_eq hbuffer hrecords
    -- the record was written over the buffer as the earlier ones had left it
    let earlier := (before.map CutRecord.record).foldl overwrite buffer
    have hover : cut.buffer = overwrite earlier cut.record := by
      obtain ⟨c, hc, hpassed, -⟩ := cutRecords_eq hbuffer bytes
      rw [hc] at hcuts
      rw [hpassed.cut_buffer before cut after hcuts, List.map_append, List.foldl_append]
      rfl
    rw [hrecord, overwrite_terminated] at hover
    exact ⟨body, _, hrecord, hzero, hover⟩
  · -- a buffer without room for a body lets no record through
    rw [cutRecords, if_pos (Nat.lt_of_not_le hbuffer)] at hcut
    cases hcut

/-- The line at the start of a stream without the line ends that it ends with. -/
def ByteStream.text (room : Nat) (stream : ByteStream) : Bytes :=
  (line room stream).rdropWhile isLineEnd

theorem ByteStream.length_text {room k : Nat} {stream : ByteStream}
    (h : lineLength? room stream = some k) : (text room stream).length = k := by
  rw [lineLength?] at h
  split at h
  · cases h
  · exact Option.some.inj h

/-- Where a line was read, the buffer holds it, a terminator, its line ends, and old bytes. -/
theorem LineRead.Reads.exists_fill_eq {r : LineRead} {buffer : Bytes} {stream : ByteStream}
    {k : Nat} (h : r.Reads buffer stream) (hk : r.length? = some k) :
    ∃ stale, r.fill buffer = ByteStream.text (buffer.length - 1) stream ++ 0 :: stale := by
  let line := ByteStream.line (buffer.length - 1) stream
  let text := ByteStream.text (buffer.length - 1) stream
  let stored := line ++ buffer.drop line.length
  have hlength := h.length.symm.trans hk
  have hset : r.fill buffer = stored.set text.length 0 := by
    rw [h.fill, hlength, ← ByteStream.length_text hlength]
  -- what is stored starts with the text, so the terminator comes right behind it
  obtain ⟨ends, hends⟩ : text <+: line := List.rdropWhile_prefix isLineEnd line
  have htext : stored.take text.length = text := by
    show (line ++ _).take text.length = text
    rw [← hends, List.append_assoc, List.take_left]
  have hroom : text.length < stored.length := by
    have hline : line.length < buffer.length := h.inside.1
    rw [← hends, List.length_append] at hline
    show text.length < (line ++ buffer.drop line.length).length
    rw [List.length_append, List.length_drop, ← hends, List.length_append]
    omega
  refine ⟨stored.drop (text.length + 1), ?_⟩
  calc r.fill buffer = stored.set text.length 0 := hset
    _ = stored.take text.length ++ 0 :: stored.drop (text.length + 1) :=
      List.set_eq_take_cons_drop 0 hroom
    _ = text ++ 0 :: stored.drop (text.length + 1) := by rw [htext]

/-! ### What is seen -/

/-- What a reader of zero-terminated strings sees of a buffer, and of what is stored in it. -/
structure SeenToTerminator (buffer : Bytes) : Prop where
  /-- The length is the offset at which a zero byte is found in reach, or else the reach. -/
  length : ∀ reach, terminatedLength buffer reach =
    (find? [0] (buffer.take reach)).getD (min reach buffer.length)
  /-- Neither the bytes behind the first zero byte nor those out of reach matter. -/
  beyond : ∀ reach other, (∀ i < reach, (∀ j < i, buffer[j]? ≠ some 0) → other[i]? = buffer[i]?) →
    terminatedLength other reach = terminatedLength buffer reach
  /-- Of the buffer with a record in it just the body of the record is seen. -/
  records : ∀ bytes, ∀ cut ∈ (cutRecords buffer bytes).1,
    cut.record.length = terminatedLength cut.buffer cut.buffer.length + 1 ∧
      cut.record = cut.buffer.take (terminatedLength cut.buffer cut.buffer.length) ++ [0]
  /-- Of the buffer with a line in it the line is seen, or what comes before its first zero byte. -/
  lines : ∀ source k, (readLine buffer.length source).length? = some k →
    let filled := (readLine buffer.length source).fill buffer
    let text := ByteStream.text (buffer.length - 1) source.signals
    filled.length = buffer.length ∧ text.length = k ∧ filled.take k = text ∧
      (0 ∉ text → terminatedLength filled filled.length = k) ∧
      (0 ∈ text → find? [0] text = some (terminatedLength filled filled.length))

/-- **A terminator ends what is seen**, and there are no other ends but the reach. The body of each
record is seen as it was cut, and each line as it was read unless it has a zero byte of its own,
whatever the buffer held before. -/
theorem seen_to_terminator (buffer : Bytes) : SeenToTerminator buffer := by
  constructor
  case length => exact terminatedLength_eq_find? buffer
  case beyond => exact fun reach other => terminatedLength_congr
  case records =>
    intro bytes cut hcut
    obtain ⟨body, stale, hrecord, hzero, hbuffer⟩ := exists_of_mem_cuts hcut
    have hseen : terminatedLength cut.buffer cut.buffer.length = body.length :=
      (terminatedLength_whole hbuffer).trans (terminatedLength_of_notMem hzero)
    rw [hseen, hbuffer, hrecord, List.take_left, List.length_append]
    exact ⟨rfl, rfl⟩
  case lines =>
    intro source k hk
    have hbuffer : buffer ≠ [] := by
      rintro rfl
      cases hk
    have hreads := readLine_reads hbuffer source
    intro filled text
    obtain ⟨stale, hfilled⟩ : ∃ stale, filled = text ++ 0 :: stale := hreads.exists_fill_eq hk
    have htext : text.length = k := ByteStream.length_text (hreads.length.symm.trans hk)
    have hlength : filled.length = buffer.length :=
      LineRead.length_fill (readLine_fits buffer.length source).1
    refine ⟨hlength, htext, ?_, ?_, ?_⟩
    · rw [hfilled, ← htext, List.take_left]
    · intro hzero
      rw [terminatedLength_whole hfilled, terminatedLength_of_notMem hzero, htext]
    · intro hzero
      rw [terminatedLength_whole hfilled]
      exact find?_zero_of_mem hzero

/-- A record in front of what a longer one left, and a line with a zero byte of its own in front of
its line ends and of what the buffer held. -/
theorem seen_to_terminator_stale :
    let buffer : Bytes := [255, 255, 255, 255, 255, 255]
    let bytes : Bytes := [97, 98, 99, 100, 0, 120]
    let source : Source := [.chunk [97, 0], .interrupted, .chunk [98, 13, 10, 99]]
    let cut : CutRecord := ⟨[120, 0], [120, 0, 99, 100, 0, 255]⟩
    let filled := (readLine buffer.length source).fill buffer
    SeenToTerminator buffer ∧ cut ∈ (cutRecords buffer bytes).1 ∧
      cut.record.length = terminatedLength cut.buffer cut.buffer.length + 1 ∧
      (readLine buffer.length source).length? = some 3 ∧ filled = [97, 0, 98, 0, 10, 255] ∧
      find? [0] [97, 0, 98] = some (terminatedLength filled filled.length) ∧
      terminatedLength [97, 98, 0, 7] 3 = terminatedLength [97, 98, 0, 255, 255] 3 := by
  intro buffer bytes source cut filled
  have hseen := seen_to_terminator buffer
  have hcut : cut ∈ (cutRecords buffer bytes).1 := by decide
  have hline : (readLine buffer.length source).length? = some 3 := by decide
  have htext : ByteStream.text (buffer.length - 1) source.signals = [97, 0, 98] := by decide
  refine ⟨hseen, hcut, (hseen.records bytes cut hcut).1, hline, by decide, ?_, ?_⟩
  · rw [← htext]
    exact (hseen.lines source 3 hline).2.2.2.2 (by rw [htext]; decide)
  · exact (seen_to_terminator [97, 98, 0, 255, 255]).beyond 3 _ (by decide)

end HostServices
