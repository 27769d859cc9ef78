import HostServices.Proofs.Console.Delivery
import HostServices.Proofs.Service
import Mathlib.Data.List.SplitBy
import Mathlib.Data.List.TakeDrop

/-!
# Reading to the end

A source that delivers some bytes and then ends (`Source.Delivers`) is read into one buffer after
another, of whatever sizes. Nothing gets lost and nothing comes twice: the pieces that are read stand
one behind the other in the bytes, and the source still delivers what is behind them
(`Source.Delivers.finish`). Each read takes a piece that is told by the bytes that are left and by the
size of its buffer (`piece`), something as long as there is something left, so the end is reached
(`Source.Delivers.length_le`).

Where the buffers have room for every line, the pieces are the lines (`lines`), each of them once and
in order (`Source.Delivers.found_eq`). All of it together is `reads_toEnd`.
-/

namespace HostServices

open ByteStream

/-! ### The lines of some bytes -/

/-- The lines of some bytes. A line ends behind its newline, and what stands behind the last newline
is a line as well, unless there is nothing. -/
def lines (bytes : Bytes) : List Bytes := bytes.splitBy fun b _ => b != newline

@[simp] theorem lines_nil : lines [] = [] := rfl

section Lines

variable {bytes line : Bytes}

theorem throughNewline_of_notMem (h : newline ∉ bytes) : throughNewline bytes = bytes := by
  have hall : ∀ b ∈ bytes, decide (b ≠ newline) = true := by
    intro b hb
    exact decide_eq_true (ne_of_mem_of_not_mem hb h)
  rw [throughNewline, List.takeWhile_eq_self_iff.2 hall, List.dropWhile_eq_nil_iff.2 hall,
    List.take_nil, List.append_nil]

theorem throughNewline_append (h : newline ∉ line) (rest : Bytes) :
    throughNewline (line ++ newline :: rest) = line ++ [newline] := by
  induction line with
  | nil => rw [List.nil_append, throughNewline_cons, if_pos rfl, List.nil_append]
  | cons b line ih =>
    obtain ⟨hb, hline⟩ := not_or.1 (mt List.mem_cons.2 h)
    rw [List.cons_append, throughNewline_cons, if_neg (Ne.symm hb), ih hline, List.cons_append]

/-- Either there is no newline, or the line stands before the first one. -/
theorem throughNewline_cases (bytes : Bytes) :
    newline ∉ bytes ∧ throughNewline bytes = bytes ∨
      ∃ line rest, newline ∉ line ∧ bytes = line ++ newline :: rest ∧
        throughNewline bytes = line ++ [newline] := by
  by_cases h : newline ∈ bytes
  · obtain ⟨line, rest, rfl, hline⟩ := List.eq_append_cons_of_mem h
    exact .inr ⟨line, rest, hline, rfl, throughNewline_append hline rest⟩
  · exact .inl ⟨h, throughNewline_of_notMem h⟩

theorem isPrefix_throughNewline (bytes : Bytes) : throughNewline bytes <+: bytes := by
  obtain ⟨-, h⟩ | ⟨line, rest, -, rfl, h⟩ := throughNewline_cases bytes
  · exact ⟨[], (List.append_nil _).trans h⟩
  · rw [h]
    exact ⟨rest, List.append_cons line newline rest |>.symm⟩

/-- A newline can only be the last byte. -/
theorem newline_notMem_dropLast (bytes : Bytes) : newline ∉ (throughNewline bytes).dropLast := by
  obtain ⟨hb, h⟩ | ⟨line, rest, hline, -, h⟩ := throughNewline_cases bytes
  · rw [h]
    exact fun hmem => hb (List.dropLast_subset bytes hmem)
  · rw [h, List.dropLast_concat]
    exact hline

/-- Nothing but the last byte of such a line is a newline, so nothing splits it. -/
theorem isChain_concat (h : newline ∉ line) (b : UInt8) :
    (line ++ [b]).IsChain fun b _ => b != newline := by
  induction line with
  | nil => exact List.isChain_singleton b
  | cons c line ih =>
    obtain ⟨hc, hline⟩ := not_or.1 (mt List.mem_cons.2 h)
    refine List.isChain_cons.2 ⟨fun _ _ => bne_iff_ne.2 (Ne.symm hc), ih hline⟩

/-- The lines are the bytes up to the first newline and with it, and the lines of what follows. -/
theorem lines_eq (hb : bytes ≠ []) :
    lines bytes = throughNewline bytes :: lines (bytes.drop (throughNewline bytes).length) := by
  obtain ⟨hno, h⟩ | ⟨line, rest, hline, rfl, h⟩ := throughNewline_cases bytes
  · have hchain : bytes.IsChain fun b _ => b != newline := (isChain_concat hno 0).left_of_append
    rw [h, List.drop_length, lines_nil]
    exact List.splitBy_of_isChain hb hchain
  · have hsplit : line ++ newline :: rest = (line ++ [newline]) ++ rest := List.append_cons _ _ _
    -- the lines are cut behind the newline, whatever comes there
    have hcut : ∀ b ∈ (line ++ [newline]).getLast?, ∀ c ∈ rest.head?, (b != newline) = false := by
      intro b hb _ _
      rw [List.getLast?_concat] at hb
      obtain rfl := Option.some.inj hb
      exact bne_self_eq_false _
    rw [h, hsplit, List.drop_left, lines, List.splitBy_append hcut,
      List.splitBy_of_isChain (by simp) (isChain_concat hline newline)]
    rfl

example : lines [97, 10, 13, 10, 10] = [[97, 10], [13, 10], [10]] := by decide

end Lines

/-! ### What a read takes of a stream of bytes -/

/-- What a read into a buffer of `size` bytes takes of the bytes that are left. -/
def piece (size : Nat) (bytes : Bytes) : Bytes := (throughNewline bytes).take (size - 1)

section Piece

variable {size : Nat} {bytes : Bytes}

theorem isPrefix_piece (size : Nat) (bytes : Bytes) : piece size bytes <+: bytes :=
  (List.take_prefix _ _).trans (isPrefix_throughNewline bytes)

theorem length_piece_le (size : Nat) (bytes : Bytes) : (piece size bytes).length ≤ size - 1 :=
  List.length_take_le _ _

theorem newline_notMem_dropLast_piece (size : Nat) (bytes : Bytes) :
    newline ∉ (piece size bytes).dropLast := by
  intro h
  rw [piece, List.dropLast_take_eq_take_dropLast] at h
  exact newline_notMem_dropLast bytes (List.mem_of_mem_take h)

theorem piece_ne_nil (hsize : 2 ≤ size) (hb : bytes ≠ []) : piece size bytes ≠ [] := by
  intro h
  rcases List.take_eq_nil_iff.1 h with h | h
  · omega
  · obtain ⟨-, h'⟩ | ⟨line, rest, -, -, h'⟩ := throughNewline_cases bytes
    · exact hb (h'.symm.trans h)
    · simp [h'] at h

/-- A buffer with room for the line takes all of it. -/
theorem piece_of_lt (h : (throughNewline bytes).length < size) :
    piece size bytes = throughNewline bytes := List.take_of_length_le (by omega)

theorem piece_of_notMem (h : newline ∉ bytes) (hlt : bytes.length < size - 1) :
    piece size bytes = bytes := by
  rw [piece, throughNewline_of_notMem h, List.take_of_length_le hlt.le]

end Piece

namespace ByteStream

/-- Some bytes, and nothing but gaps behind them. -/
def ending (bytes : Bytes) (gaps : List Gap) : ByteStream := bytes.map .byte ++ gaps.map .gap

section Ending

variable {size : Nat} {bytes : Bytes} {gaps : List Gap}

theorem lead_ending (bytes : Bytes) (gaps : List Gap) : lead (ending bytes gaps) = bytes := by
  induction bytes with
  | nil => cases gaps <;> rfl
  | cons b bytes ih => exact congrArg (b :: ·) ih

theorem firstGap_ending (bytes : Bytes) (gaps : List Gap) :
    firstGap (ending bytes gaps) = gaps.head?.getD .ended := by
  induction bytes with
  | nil => cases gaps <;> rfl
  | cons b bytes ih => exact ih

theorem line_ending (size : Nat) (bytes : Bytes) (gaps : List Gap) :
    line (size - 1) (ending bytes gaps) = piece size bytes := by
  rw [line, lead_ending, piece]

/-- The gap behind the bytes is run into where all of them are read and there is room for more. -/
theorem gap?_ending (size : Nat) (bytes : Bytes) (gaps : List Gap) :
    gap? (size - 1) (ending bytes gaps) =
      if bytes.length < size - 1 ∧ newline ∉ bytes then some (gaps.head?.getD .ended) else none := by
  rw [gap?, line_ending, firstGap_ending, piece]
  refine if_congr ?_ rfl rfl
  obtain ⟨hno, h⟩ | ⟨line, rest, -, rfl, h⟩ := throughNewline_cases bytes
  · rw [h, List.length_take]
    constructor
    · rintro ⟨hlt, -⟩
      exact ⟨by omega, hno⟩
    · rintro ⟨hlt, -⟩
      exact ⟨by omega, mt List.mem_of_mem_take hno⟩
  · -- with room for the line there is room for its newline
    refine iff_of_false ?_ (by simp)
    rintro ⟨hlt, hmem⟩
    rw [h, List.length_take] at hlt
    rw [h, List.take_of_length_le (by omega)] at hmem
    simp at hmem

/-- There is no line just where no bytes are left. -/
theorem lineLength?_ending (size : Nat) (hgaps : bytes ≠ [] → gaps.head? ≠ some .failed) :
    lineLength? (size - 1) (ending bytes gaps) =
      if 2 ≤ size ∧ bytes = [] then none
      else some ((piece size bytes).rdropWhile isLineEnd).length := by
  rw [lineLength?, line_ending, gap?_ending]
  refine if_congr ?_ rfl rfl
  by_cases hb : bytes = []
  · -- whatever the gap is, nothing is read
    subst hb
    cases gaps.head?.getD .ended <;> simp [piece, throughNewline] <;> omega
  · refine iff_of_false ?_ fun h => hb h.2
    rintro (hfailed | ⟨hended, hnil⟩)
    · -- the gap behind some bytes is no failure
      split at hfailed
      · cases hhead : gaps.head? with
        | none => simp [hhead] at hfailed
        | some g =>
          rw [hhead, Option.getD_some] at hfailed
          exact hgaps hb (hhead.trans hfailed)
      · cases hfailed
    · split at hended
      · rename_i hend
        exact piece_ne_nil (by omega) hb hnil
      · cases hended

/-- Behind the piece that is read, the bytes go on, with the same gaps or one of them less. -/
theorem drop_taken_ending (size : Nat) (bytes : Bytes) (gaps : List Gap) :
    (ending bytes gaps).drop (taken (size - 1) (ending bytes gaps)) =
      ending (bytes.drop (piece size bytes).length)
        (if bytes.length < size - 1 ∧ newline ∉ bytes then gaps.tail else gaps) := by
  have hlength : (piece size bytes).length ≤ bytes.length := (isPrefix_piece size bytes).length_le
  rw [taken, line_ending, gap?_ending]
  split
  · rename_i hend
    rw [piece_of_notMem hend.2 hend.1, List.drop_length, ending, Option.toList_some, List.length_singleton,
      ← List.drop_drop, List.drop_left' (List.length_map _), List.drop_one, ending, List.map_tail]
    rfl
  · rw [Option.toList_none, List.length_nil, Nat.add_zero, ending,
      List.drop_append_of_le_length (by rwa [List.length_map]), ← List.map_drop, ending]

end Ending

end ByteStream

/-! ### Sources without failures -/

namespace Source

/-- The source delivers just these bytes. No failure cuts them short, and behind them come no
others, whatever gaps there are. -/
def Delivers (source : Source) (bytes : Bytes) : Prop :=
  ∃ gaps : List Gap, source.signals = ending bytes gaps ∧ (bytes ≠ [] → gaps.head? ≠ some .failed)

/-- Chunks of bytes, with interruptions anywhere between them, deliver all their bytes. -/
theorem delivers_chunks {source : Source}
    (h : ∀ x ∈ source, x = .interrupted ∨ ∃ bytes ≠ [], x = .chunk bytes) :
    source.Delivers (source.flatMap fun | .chunk bytes => bytes | _ => []) := by
  refine ⟨[], ?_, nofun⟩
  rw [ending, List.map_nil, List.append_nil]
  induction source with
  | nil => rfl
  | cons x source ih =>
    obtain ⟨hx, hsource⟩ := List.forall_mem_cons.1 h
    rw [List.flatMap_cons, List.map_append, ← ih hsource]
    obtain rfl | ⟨bytes, hb, rfl⟩ := hx
    · rfl
    · exact signals_chunk hb source

namespace Delivers

variable {source : Source} {bytes : Bytes}

/-- A read takes a piece off the bytes that are left. -/
theorem stored_eq (h : source.Delivers bytes) (size : Nat) :
    (readLine size source).stored = piece size bytes := by
  obtain ⟨gaps, hsignals, -⟩ := h
  by_cases hsize : size = 0
  · subst hsize
    rfl
  · rw [readLine_eq hsize, hsignals, line_ending]

/-- A read finds a line unless nothing is left, or the buffer has no room for a terminator. -/
theorem length?_eq (h : source.Delivers bytes) (size : Nat) :
    (readLine size source).length? =
      if size = 0 ∨ 2 ≤ size ∧ bytes = [] then none
      else some ((piece size bytes).rdropWhile isLineEnd).length := by
  obtain ⟨gaps, hsignals, hgaps⟩ := h
  by_cases hsize : size = 0
  · subst hsize
    rfl
  · rw [readLine_eq hsize, hsignals, lineLength?_ending size hgaps]
    exact if_congr (or_iff_right hsize).symm rfl rfl

/-- Behind a read the source delivers what the read did not take. -/
theorem rest (h : source.Delivers bytes) (size : Nat) :
    (readLine size source).rest.Delivers (bytes.drop (piece size bytes).length) := by
  obtain ⟨gaps, hsignals, hgaps⟩ := h
  by_cases hsize : size = 0
  · subst hsize
    exact ⟨gaps, hsignals, hgaps⟩
  · have hrest : (readLine size source).rest.signals =
        source.signals.drop (taken (size - 1) source.signals) := by
      rw [readLine_eq hsize]
      exact (LineBytes.collect_reads (size - 1) source).rest
    rw [hsignals, drop_taken_ending] at hrest
    refine ⟨_, hrest, ?_⟩
    intro hleft
    split
    · -- all bytes were read
      rename_i hend
      rw [piece_of_notMem hend.2 hend.1, List.drop_length] at hleft
      exact absurd rfl hleft
    · refine hgaps ?_
      rintro rfl
      exact hleft List.drop_nil

end Delivers

end Source

/-! ### One read after another -/

/-- Reading into one buffer after another. -/
def reading : Service Source Bytes LineRead where
  serve source buffer := readLine buffer.length source
  next := LineRead.rest

/-- The pieces that are read into one buffer after another. -/
def pieces (source : Source) (buffers : List Bytes) : List Bytes :=
  (reading.run source buffers).map LineRead.stored

/-- The line that stands in the buffer in front of its terminator, if there was one to read. -/
def LineRead.found? (r : LineRead) (buffer : Bytes) : Option Bytes :=
  r.length?.map fun n => (r.fill buffer).take n

/-- The lines that are found in one buffer after another. -/
def found (source : Source) (buffers : List Bytes) : List (Option Bytes) :=
  List.zipWith LineRead.found? (reading.run source buffers) buffers

namespace Source.Delivers

variable {source : Source} {bytes buffer : Bytes} {buffers : List Bytes}

theorem pieces_cons (h : source.Delivers bytes) (buffer : Bytes) (buffers : List Bytes) :
    pieces source (buffer :: buffers) =
      piece buffer.length bytes :: pieces (readLine buffer.length source).rest buffers :=
  congrArg (· :: _) (h.stored_eq buffer.length)

/-- What is read so far is the start of the bytes, and the source goes on where it ends. -/
theorem finish (h : source.Delivers bytes) (buffers : List Bytes) :
    (pieces source buffers).flatten <+: bytes ∧
      (reading.finish source buffers).Delivers
        (bytes.drop (pieces source buffers).flatten.length) := by
  induction buffers generalizing source bytes with
  | nil => exact ⟨List.nil_prefix, h⟩
  | cons buffer buffers ih =>
    obtain ⟨hstart, hfinish⟩ := ih (h.rest buffer.length)
    rw [h.pieces_cons, List.flatten_cons]
    constructor
    · -- the later pieces are a start of what the first one leaves
      have hsplit := List.prefix_iff_eq_append.1 (isPrefix_piece buffer.length bytes)
      have h := (List.prefix_append_right_inj (piece buffer.length bytes)).2 hstart
      rwa [hsplit] at h
    · rw [List.length_append, ← List.drop_drop]
      exact hfinish

/-- Each piece fits into its buffer with a terminator behind it, and a newline ends it. -/
theorem fits (h : source.Delivers bytes) (buffers : List Bytes) :
    List.Forall₂ (fun piece buffer => piece.length ≤ buffer.length - 1 ∧ newline ∉ piece.dropLast)
      (pieces source buffers) buffers := by
  induction buffers generalizing source bytes with
  | nil => exact .nil
  | cons buffer buffers ih =>
    rw [h.pieces_cons]
    exact .cons ⟨length_piece_le _ _, newline_notMem_dropLast_piece _ _⟩ (ih (h.rest buffer.length))

/-- With every buffer of two bytes or more at least one byte is read, as long as there are any. -/
theorem length_le (h : source.Delivers bytes) (buffers : List Bytes) :
    min bytes.length (buffers.countP (2 ≤ ·.length)) ≤ (pieces source buffers).flatten.length := by
  induction buffers generalizing source bytes with
  | nil => exact Nat.min_le_right _ _
  | cons buffer buffers ih =>
    have hrest := ih (h.rest buffer.length)
    have hlength := (isPrefix_piece buffer.length bytes).length_le
    rw [List.length_drop] at hrest
    rw [h.pieces_cons, List.flatten_cons, List.length_append, List.countP_cons]
    by_cases hb : bytes = []
    · subst hb
      exact Nat.min_le_left _ _ |>.trans (Nat.zero_le _)
    · split
      · rename_i hbuffer
        have := List.length_pos_iff.2 (piece_ne_nil (of_decide_eq_true hbuffer) hb)
        omega
      · omega

/-- A line that fits is found in its buffer. -/
theorem found?_eq (h : source.Delivers bytes) (hb : bytes ≠ [])
    (hfits : (throughNewline bytes).length < buffer.length) :
    (readLine buffer.length source).found? buffer =
      some ((throughNewline bytes).rdropWhile isLineEnd) := by
  have hstored := h.stored_eq buffer.length
  have hlength := h.length?_eq buffer.length
  have hsome : ¬ (buffer.length = 0 ∨ 2 ≤ buffer.length ∧ bytes = []) := by
    rintro (h0 | ⟨-, h0⟩)
    · omega
    · exact hb h0
  rw [if_neg hsome] at hlength
  rw [piece_of_lt hfits] at hstored hlength
  have hstart := List.rdropWhile_prefix isLineEnd (throughNewline bytes)
  rw [LineRead.found?, LineRead.fill, hlength, hstored, Option.map_some]
  -- the terminator stands behind the line, and what was stripped behind it
  simp only [List.take_set_of_le le_rfl, List.take_append_of_le_length hstart.length_le]
  exact congrArg some (List.prefix_iff_eq_take.1 hstart).symm

/-- Where nothing is left, no line is found. -/
theorem found?_nil (h : source.Delivers []) (hsize : 2 ≤ buffer.length) :
    (readLine buffer.length source).found? buffer = none := by
  rw [LineRead.found?, h.length?_eq, if_pos (.inr ⟨hsize, rfl⟩)]
  rfl

/-- With room for every line, the lines are found one after another, and then none. -/
theorem found_eq (h : source.Delivers bytes)
    (hbuffers : ∀ buffer ∈ buffers, 2 ≤ buffer.length ∧
      ∀ line ∈ lines bytes, line.length < buffer.length) :
    found source buffers =
      (List.range buffers.length).map fun n => (lines bytes)[n]?.map (·.rdropWhile isLineEnd) := by
  induction buffers generalizing source bytes with
  | nil => rfl
  | cons buffer buffers ih =>
    obtain ⟨⟨hsize, hfits⟩, hlater⟩ := List.forall_mem_cons.1 hbuffers
    have hfound : found source (buffer :: buffers) =
        (readLine buffer.length source).found? buffer ::
          found (readLine buffer.length source).rest buffers := rfl
    have hrest := h.rest buffer.length
    rw [hfound, List.length_cons, List.range_succ_eq_map, List.map_cons, List.map_map]
    by_cases hb : bytes = []
    · subst hb
      rw [List.drop_nil] at hrest
      rw [h.found?_nil hsize, ih hrest hlater]
      rfl
    · have hlines := lines_eq hb
      have hfirst : (throughNewline bytes).length < buffer.length := by
        refine hfits _ ?_
        rw [hlines]
        exact List.mem_cons_self
      rw [piece_of_lt hfirst] at hrest
      -- the lines that are left are lines of the bytes, so there is room for them
      have hroom : ∀ buffer ∈ buffers, 2 ≤ buffer.length ∧
          ∀ line ∈ lines (bytes.drop (throughNewline bytes).length),
            line.length < buffer.length := by
        intro buffer hbuffer
        obtain ⟨hsize, hfits⟩ := hlater buffer hbuffer
        refine ⟨hsize, fun line hline => hfits line ?_⟩
        rw [hlines]
        exact List.mem_cons_of_mem _ hline
      rw [h.found?_eq hb hfirst, ih hrest hroom, hlines]
      rfl

end Source.Delivers

/-! ### Reading to the end -/

/-- What reading into one buffer after another comes to, over a source that delivers these bytes. -/
structure ReadsToEnd (source : Source) (bytes : Bytes) (buffers : List Bytes) : Prop where
  /-- The pieces that are read are, one behind the other, the start of the bytes. -/
  contiguous : (pieces source buffers).flatten <+: bytes
  /-- Nothing else is taken: the source still delivers all that stands behind them. -/
  rest : (reading.finish source buffers).Delivers
    (bytes.drop (pieces source buffers).flatten.length)
  /-- A piece fits into its buffer with a terminator behind it, and has a newline only at its end. -/
  fits : List.Forall₂
    (fun piece buffer => piece.length ≤ buffer.length - 1 ∧ newline ∉ piece.dropLast)
    (pieces source buffers) buffers
  /-- As long as something is left, a read takes something, if it has room for it. -/
  progress : (pieces source buffers).flatten ≠ bytes → ∀ size, 2 ≤ size →
    (readLine size (reading.finish source buffers)).stored ≠ []
  /-- So the end is reached by as many such reads as there are bytes. -/
  reached : bytes.length ≤ buffers.countP (2 ≤ ·.length) → (pieces source buffers).flatten = bytes
  /-- At the end there is no line to read. -/
  ended : (pieces source buffers).flatten = bytes → ∀ size, 2 ≤ size →
    (readLine size (reading.finish source buffers)).length? = none
  /-- Where every buffer has room for every line, each read finds the next line without its line
  ends, and none behind the last one. -/
  lines : (∀ buffer ∈ buffers, 2 ≤ buffer.length ∧
      ∀ line ∈ lines bytes, line.length < buffer.length) →
    found source buffers =
      (List.range buffers.length).map fun n => (lines bytes)[n]?.map (·.rdropWhile isLineEnd)

/-- **Reading to the end.** However a source delivers some bytes, as long as no failure comes before
their end, and whatever the sizes of the buffers are, reading loses no byte, reads none twice, and
reaches the end; and with room for every line it finds each of them once. -/
theorem reads_toEnd {source : Source} {bytes : Bytes} (h : source.Delivers bytes)
    (buffers : List Bytes) : ReadsToEnd source bytes buffers := by
  obtain ⟨hstart, hfinish⟩ := h.finish buffers
  have hlength := hstart.length_le
  refine ⟨hstart, hfinish, h.fits buffers, ?_, ?_, ?_, h.found_eq⟩
  · intro hne size hsize
    rw [hfinish.stored_eq]
    refine piece_ne_nil hsize ?_
    -- a start of the bytes that leaves nothing is all of them
    intro hleft
    exact hne (hstart.eq_of_length_le (List.drop_eq_nil_iff.1 hleft))
  · intro hcount
    have hreach := h.length_le buffers
    exact hstart.eq_of_length_le (by omega)
  · intro hall size hsize
    rw [hall, List.drop_length] at hfinish
    rw [hfinish.length?_eq, if_pos (.inr ⟨hsize, rfl⟩)]

/-- Four reads of three lines, the second of which is only its line end, and the last of which has
none, delivered in chunks that cut them elsewhere. -/
theorem reads_toEnd_chunks :
    let source : Source := [.chunk [97, 98, 13], .interrupted, .chunk [10, 10, 99], .chunk [100]]
    let bytes : Bytes := [97, 98, 13, 10, 10, 99, 100]
    let buffers : List Bytes := List.replicate 4 [255, 255, 255, 255, 255]
    source.Delivers bytes ∧ (∀ buffer ∈ buffers, 2 ≤ buffer.length ∧
        ∀ line ∈ lines bytes, line.length < buffer.length) ∧
      ReadsToEnd source bytes buffers ∧
      pieces source buffers = [[97, 98, 13, 10], [10], [99, 100], []] ∧
      found source buffers = [some [97, 98], some [], some [99, 100], none] := by
  intro source bytes buffers
  have hchunks : ∀ x ∈ source, x = .interrupted ∨ ∃ bytes ≠ [], x = .chunk bytes := by
    simp [source]
  have h : source.Delivers bytes := Source.delivers_chunks hchunks
  have hroom : ∀ buffer ∈ buffers, 2 ≤ buffer.length ∧
      ∀ line ∈ lines bytes, line.length < buffer.length := by decide
  have hreads := reads_toEnd h buffers
  exact ⟨h, hroom, hreads, by decide, (hreads.lines hroom).trans (by decide)⟩

end HostServices
