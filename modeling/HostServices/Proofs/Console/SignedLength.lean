import HostServices.Proofs.Console.Delivery

/-!
# Lengths told by signed numbers

Callers who take a signed number are told the length of a line by 32 bits of it, and `-1` where
there is no line. That is unambiguous because the part of the buffer that may be filled, its window, ends
after `2 ^ 31` bytes: a line and its terminator stand in it (`readLine_fits`), so the length is
less, and 32 bits hold it with its sign (`signedLength_of_lt`).

Beside these callers stands one who has nothing but the window and is told the plain length.
`readLineAt_agrees` says that both are told the same, leave the same on the source and find the same
in the window, and that nothing behind the window changes.
-/

namespace HostServices

/-- The part of a buffer that may be filled if lengths are told by signed numbers. -/
def window (buffer : Bytes) : Bytes := buffer.take 0x80000000

theorem length_window (buffer : Bytes) : (window buffer).length = fillableSize buffer.length := by
  rw [window, List.length_take, fillableSize, Nat.min_comm]

/-! ### What is filled of a buffer -/

/-- A line and its terminator stand in the buffer. -/
theorem readLine_fits (size : Nat) (source : Source) :
    (readLine size source).stored.length ≤ size ∧
      ∀ n ∈ (readLine size source).length?, n < size := by
  by_cases hsize : size = 0
  · subst hsize
    exact ⟨Nat.le_refl 0, nofun⟩
  · have hline := length_line_le (size - 1) source.signals
    rw [readLine_eq hsize]
    constructor
    · show (ByteStream.line (size - 1) source.signals).length ≤ size
      omega
    · intro n hn
      have := le_of_mem_lineLength? hn
      omega

namespace LineRead

variable {r : LineRead} {buffer : Bytes}

/-- A read that fits leaves the buffer as long as it is. -/
theorem length_fill (hstored : r.stored.length ≤ buffer.length) :
    (r.fill buffer).length = buffer.length := by
  have hlength : (r.stored ++ buffer.drop r.stored.length).length = buffer.length := by
    rw [List.length_append, List.length_drop]
    omega
  unfold fill
  split
  · rw [List.length_set, hlength]
  · exact hlength

/-- Where a read fits, the bytes behind the buffer are left alone. -/
theorem fill_append (hstored : r.stored.length ≤ buffer.length)
    (hlength : ∀ n ∈ r.length?, n < buffer.length) (beyond : Bytes) :
    r.fill (buffer ++ beyond) = r.fill buffer ++ beyond := by
  have hbytes : r.stored ++ (buffer ++ beyond).drop r.stored.length =
      (r.stored ++ buffer.drop r.stored.length) ++ beyond := by
    rw [List.drop_append_of_le_length hstored, List.append_assoc]
  unfold fill
  rw [hbytes]
  cases hr : r.length? with
  | none => rfl
  | some n =>
    -- the terminator is stored in front of them
    have hn : n < (r.stored ++ buffer.drop r.stored.length).length := by
      have := hlength n hr
      rw [List.length_append, List.length_drop]
      omega
    exact List.set_append_left n 0 hn

end LineRead

/-! ### Two callers -/

/-- What a caller who is told signed numbers gets, beside one who has no more than the window of the
buffer. -/
structure AgreesSigned (buffer : Bytes) (source : Source) : Prop where
  /-- The number tells that there is no line just if there is none. -/
  none_iff : (readLineAt (some buffer.length) source).1 = -1 ↔
    (readLine (window buffer).length source).length? = none
  /-- Otherwise it is the length of the line, which is in the range of such numbers. -/
  length : ∀ n ∈ (readLine (window buffer).length source).length?,
    (readLineAt (some buffer.length) source).1 = n ∧ n ≤ 0x7fffffff
  /-- The same is consumed. -/
  rest : (readLineAt (some buffer.length) source).2.rest =
    (readLine (window buffer).length source).rest
  /-- The same is stored in the window, and the rest of the buffer stands behind it as before. -/
  fill : (readLineAt (some buffer.length) source).2.fill buffer =
    (readLine (window buffer).length source).fill (window buffer) ++ buffer.drop 0x80000000
  /-- So no byte changes from `2 ^ 31` on. -/
  beyond : ∀ i, 0x80000000 ≤ i →
    ((readLineAt (some buffer.length) source).2.fill buffer)[i]? = buffer[i]?

/-- The read of the one caller is the read of the other, up to how its length is told. -/
theorem readLineAt_eq (buffer : Bytes) (source : Source) :
    readLineAt (some buffer.length) source =
      (((readLine (window buffer).length source).length?.map signedLength).getD (-1),
        readLine (window buffer).length source) := by
  rw [readLineAt, ← length_window]
  cases (readLine (window buffer).length source).length? <;> rfl

/-- **Signed numbers tell every length.** A caller who is told a signed number gets what one gets
who has only the window of the buffer, and is told `-1` if there is no line and otherwise its
length. Without a buffer `-1` is told, and nothing is read. -/
theorem readLineAt_agrees (buffer : Bytes) (source : Source) :
    AgreesSigned buffer source ∧ readLineAt none source = (-1, ⟨[], none, source⟩) := by
  obtain ⟨hstored, hlength⟩ := readLine_fits (window buffer).length source
  have hwindow : (window buffer).length ≤ 0x80000000 := List.length_take_le _ _
  have hbuffer : window buffer ++ buffer.drop 0x80000000 = buffer := List.take_append_drop _ _
  -- a length that can be told is below the bound, so 32 bits hold it
  have htold : ∀ n ∈ (readLine (window buffer).length source).length?,
      signedLength n = n ∧ n ≤ 0x7fffffff := by
    intro n hn
    have hlt : n < 0x80000000 := Nat.lt_of_lt_of_le (hlength n hn) hwindow
    exact ⟨signedLength_of_lt hlt, Nat.le_sub_one_of_lt hlt⟩
  have hfill : (readLine (window buffer).length source).fill buffer =
      (readLine (window buffer).length source).fill (window buffer) ++ buffer.drop 0x80000000 := by
    have h := LineRead.fill_append hstored hlength (buffer.drop 0x80000000)
    rwa [hbuffer] at h
  refine ⟨?_, rfl⟩
  constructor
  case none_iff =>
    rw [readLineAt_eq]
    cases hr : (readLine (window buffer).length source).length? with
    | none => exact iff_of_true rfl rfl
    | some n =>
      obtain ⟨hsigned, -⟩ := htold n hr
      refine iff_of_false ?_ (Option.some_ne_none n)
      rw [Option.map_some, Option.getD_some, hsigned]
      show (n : Int) ≠ -1
      omega
  case length =>
    intro n hn
    rw [readLineAt_eq, hn, Option.map_some, Option.getD_some]
    exact htold n hn
  case rest => rw [readLineAt_eq]
  case fill => rw [readLineAt_eq, hfill]
  case beyond =>
    intro i hi
    have hsize := LineRead.length_fill hstored
    have hwritten : ((readLine (window buffer).length source).fill (window buffer)).length ≤ i := by
      omega
    calc ((readLineAt (some buffer.length) source).2.fill buffer)[i]?
        = ((readLine (window buffer).length source).fill (window buffer) ++
            buffer.drop 0x80000000)[i]? := by rw [readLineAt_eq, hfill]
      _ = (buffer.drop 0x80000000)[i - (window buffer).length]? := by
          rw [List.getElem?_append_right hwritten, hsize]
      _ = (window buffer ++ buffer.drop 0x80000000)[i]? :=
          (List.getElem?_append_right (hwindow.trans hi)).symm
      _ = buffer[i]? := by rw [hbuffer]

/-- A line is read into a buffer that is longer than its window by a byte, and this byte stays. The
line and its terminator are at the start of the window, before a byte that was read with it and the
old bytes. -/
theorem readLineAt_agrees_long :
    let buffer : Bytes := List.replicate 0x80000000 255 ++ [254]
    let source : Source := [.interrupted, .chunk [97, 98, 13], .chunk [10, 99]]
    AgreesSigned buffer source ∧ (readLineAt (some buffer.length) source).1 = 2 ∧
      (readLineAt (some buffer.length) source).2.rest = [.chunk [99]] ∧
      ((readLineAt (some buffer.length) source).2.fill buffer).take 5 = [97, 98, 0, 10, 255] ∧
      ((readLineAt (some buffer.length) source).2.fill buffer)[0x80000000]? = some 254 ∧
      readLineAt none source = (-1, ⟨[], none, source⟩) := by
  intro buffer source
  obtain ⟨hagrees, hnull⟩ := readLineAt_agrees buffer source
  have hsize : (window buffer).length = 0x80000000 := by
    rw [length_window, List.length_append, List.length_replicate]
    rfl
  have hread : readLine (window buffer).length source =
      ⟨[97, 98, 13, 10], some 2, [.chunk [99]]⟩ := by
    rw [hsize]
    decide
  have hbeyond : buffer[0x80000000]? = some 254 := by
    rw [List.getElem?_append_right (by rw [List.length_replicate]), List.length_replicate]
    rfl
  have hstart : buffer.take 5 = List.replicate 5 255 := by
    rw [List.take_append_of_le_length (by rw [List.length_replicate]; decide), List.take_replicate]
    rfl
  refine ⟨hagrees, ?_, ?_, ?_, ?_, hnull⟩
  · exact (hagrees.length 2 (congrArg LineRead.length? hread)).1
  · exact hagrees.rest.trans (congrArg LineRead.rest hread)
  · have hfill : (readLineAt (some buffer.length) source).2.fill buffer =
        ([97, 98, 13, 10] ++ buffer.drop 4).set 2 0 := by
      rw [readLineAt_eq, hread]
      rfl
    rw [hfill, List.take_set, List.take_append, List.take_drop, List.length_cons]
    exact congrArg (fun old => ([97, 98, 13, 10] ++ old.drop 4).set 2 0) hstart
  · exact (hagrees.beyond 0x80000000 (Nat.le_refl _)).trans hbeyond

end HostServices
