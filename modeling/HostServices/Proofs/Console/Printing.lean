import HostServices.Proofs.Console.Routing
import HostServices.Proofs.Host.Offers

/-!
# One text at every entry point

A format call has one text, and each entry point passes on a start of it: what fits into the scratch
buffer, what fits into the buffer of a caller, and what the host takes of it when it is printed. A
value that cannot be formatted ends the text, and has no other effect (`fragments_ofPieces`). So the
entry points never disagree on a byte, and which of them cuts the text first is a matter of sizes
alone (`Rendering.entry_points_agree`).

What is printed goes through the scratch buffer and then through the loop of writes, so what is
known of the two is put together: of the scratch buffer that it holds the first bytes of the text,
and of the loop that the host takes a start of what it is given, and all of it unless a write fails
(`Console.prints`).
-/

namespace HostServices

/-! ### The text of a call -/

/-- The fragments of some pieces, up to the first piece whose formatting fails. -/
def Piece.beforeFailure (pieces : List Piece) : List Bytes :=
  (pieces.takeWhile fun p => p.fragment?.isSome).filterMap Piece.fragment?

namespace Rendering

theorem fragments_ofPieces (pieces : List Piece) :
    (ofPieces pieces).fragments = Piece.beforeFailure pieces := by
  induction pieces with
  | nil => rfl
  | cons p pieces ih =>
    unfold ofPieces Piece.beforeFailure
    cases hp : p.fragment? with
    | none => rw [List.takeWhile_cons_of_neg (by simp [hp])]; rfl
    | some fragment =>
      rw [List.takeWhile_cons_of_pos (by simp [hp]), List.filterMap_cons_some hp]
      exact congrArg _ ih

/-! ### Buffers and sinks -/

/-- What a buffer holds of the text once the call was rendered into it. -/
def stored (r : Rendering) (buffer : Bytes) : Bytes :=
  (r.storeIn buffer).2.take (r.storeIn buffer).1

theorem stored_eq (r : Rendering) (buffer : Bytes) :
    r.stored buffer = r.bytes.take buffer.length := by
  have hlength : (r.bytes.take buffer.length).length = min buffer.length r.bytes.length :=
    List.length_take
  rw [stored, storeIn_eq, ← hlength]
  exact List.take_left

/-- Behind the text the buffer is as it was. -/
theorem drop_storeIn (r : Rendering) (buffer : Bytes) :
    (r.storeIn buffer).2.drop (r.storeIn buffer).1 = buffer.drop (r.storeIn buffer).1 := by
  have hlength : (r.bytes.take buffer.length).length = min buffer.length r.bytes.length :=
    List.length_take
  rw [storeIn_eq]
  calc (r.bytes.take buffer.length ++ buffer.drop r.bytes.length).drop
        (min buffer.length r.bytes.length)
      = buffer.drop r.bytes.length := by rw [← hlength]; exact List.drop_left
    _ = buffer.drop (min buffer.length r.bytes.length) := by
      rw [Nat.min_comm]; exact List.drop_eq_drop_min

theorem length_storeIn (r : Rendering) (buffer : Bytes) :
    (r.storeIn buffer).2.length = buffer.length := by
  rw [storeIn_eq, List.length_append, List.length_take, List.length_drop]
  omega

/-- The sink that does what `sink` does, and keeps a list of what it is called with. -/
def recording {m : Type → Type} [Functor m] {α : Type} (sink : Bytes → m α) (bytes : Bytes) :
    StateT (List Bytes) m α :=
  fun calls => (fun answer => (answer, calls ++ [bytes])) <$> sink bytes

end Rendering

/-! ### Printing -/

namespace Console

variable {c : Console} {call : Call} {output : Stream × Bytes}

/-- Without a sink, output is brought to the host by the loop of writes. -/
theorem writes_step (hsink : c.sink? = none) (houtput : output ∈ call.request.output?) :
    (c.step call).writes = (writeAll output.1.descriptor call.answers output.2).1 := by
  have hevents : (c.step call).outcome.events =
      (writeAll output.1.descriptor call.answers output.2).1.map .write :=
    (events_perform_of_output houtput call.answers).trans
      (congrArg Prod.fst (deliver_of_none hsink call.answers output.1 output.2))
  rw [Step.writes, hevents, List.filterMap_map]
  exact List.filterMap_some

/-- What the host sees of a text that is printed to a stream. -/
structure Step.Prints (s : Step) (stream : Stream) (r : Rendering) : Prop where
  /-- Nothing is observed but writes of the host. -/
  events : s.outcome.events = s.writes.map .write
  /-- They go to the descriptor of the stream, and never without a byte to be taken. -/
  offers : ∀ w ∈ s.writes, w.descriptor = stream.descriptor ∧ w.offered ≠ []
  /-- The host takes a start of what the scratch buffer holds. -/
  starts : s.taken <+: r.bytes.take ScratchText.size
  /-- It takes all of that unless a write fails, or nothing is taken in it. -/
  whole_iff : s.taken = r.bytes.take ScratchText.size ↔ ∀ w ∈ s.writes, w.failed = false
  /-- A call without text is not seen at all. -/
  silent : r.bytes = [] → s.writes = []

theorem prints (hsink : c.sink? = none) (stream : Stream) (r : Rendering)
    (answers : List WriteAnswer) :
    (c.step ⟨answers, .print stream r⟩).Prints stream r := by
  have houtput : (stream, r.bytes.take ScratchText.size) ∈ (Request.print stream r).output? := rfl
  have hwrites : (c.step ⟨answers, .print stream r⟩).writes =
      (writeAll stream.descriptor answers (r.bytes.take ScratchText.size)).1 :=
    @writes_step c ⟨answers, .print stream r⟩ _ hsink houtput
  obtain ⟨hevents, hbrings⟩ :=
    (routed_step c ⟨answers, .print stream r⟩).written hsink _ houtput
  refine ⟨hevents, ?_, hbrings.starts, ?_, ?_⟩
  · intro w hw
    refine ⟨hbrings.descriptor w hw, ?_⟩
    obtain ⟨before, after, hsplit⟩ := List.append_of_mem hw
    rw [hwrites] at hsplit
    exact ((writeAll_offers _ _ _).offers before w after hsplit).1
  · rw [Step.taken, ← hbrings.complete_iff, hbrings.failed, List.all_eq_true]
    simp
  · intro hempty
    rw [hwrites, hempty]
    exact congrArg Prod.fst (writeAll_empty _ _)

end Console

/-! ### All entry points -/

/-- What the entry points make of a format call, each told by its text alone. -/
structure Rendering.EntryPointsAgree (r : Rendering) : Prop where
  /-- The scratch buffer holds the start of the text. -/
  scratch : (ScratchText.ofRendering r).bytes = r.bytes.take (min ScratchText.size r.bytes.length)
  /-- The text counts as cut just if there is more of it. -/
  truncated : (ScratchText.ofRendering r).truncated = true ↔ ScratchText.size < r.bytes.length
  /-- A buffer of the caller holds the start of the text, of the length that is told. -/
  stores : ∀ buffer, (r.storeIn buffer).1 = min buffer.length r.bytes.length ∧
    r.stored buffer = r.bytes.take (r.storeIn buffer).1
  /-- Nothing else of it changes. -/
  keeps : ∀ buffer, (r.storeIn buffer).2.length = buffer.length ∧
    (r.storeIn buffer).2.drop (r.storeIn buffer).1 = buffer.drop (r.storeIn buffer).1
  /-- A larger buffer holds what a smaller one does, and maybe more. -/
  extends_smaller : ∀ buffer buffer', buffer.length ≤ buffer'.length →
    r.stored buffer <+: r.stored buffer'
  /-- A buffer as large as the scratch buffer holds the same. -/
  stores_scratch : ∀ buffer, buffer.length = ScratchText.size →
    r.stored buffer = (ScratchText.ofRendering r).bytes
  /-- Whatever a sink does, it is called once, with what the scratch buffer holds, and its answer is
  passed on. -/
  sends : ∀ {m : Type → Type} [Functor m] {α : Type} (sink : Bytes → m α) (calls : List Bytes),
    (r.sendTo (recording sink)).run calls =
      (fun answer => (answer, calls ++ [(ScratchText.ofRendering r).bytes])) <$>
        sink (ScratchText.ofRendering r).bytes
  /-- The host takes a start of what the scratch buffer holds. -/
  prints : ∀ (c : Console) (stream : Stream) (answers : List WriteAnswer), c.sink? = none →
    (c.step ⟨answers, .print stream r⟩).Prints stream r

/-- **The entry points agree on one text.** It is made of the fragments before the first value that
cannot be formatted, and every entry point passes on a start of it. -/
theorem Rendering.entry_points_agree (r : Rendering) :
    r.EntryPointsAgree ∧
    ∀ pieces, r = ofPieces pieces → r.bytes = (Piece.beforeFailure pieces).flatten := by
  have hscratch : (ScratchText.ofRendering r).bytes = r.bytes.take ScratchText.size :=
    congrArg ScratchText.bytes (ScratchText.ofRendering_eq r)
  refine ⟨⟨?_, ?_, ?_, ?_, ?_, ?_, ?_, ?_⟩, ?_⟩
  · rw [hscratch, ← List.take_eq_take_min]
  · rw [ScratchText.ofRendering_eq]
    exact decide_eq_true_iff
  · intro buffer
    have hlength : (r.storeIn buffer).1 = min buffer.length r.bytes.length :=
      congrArg Prod.fst (r.storeIn_eq buffer)
    exact ⟨hlength, by rw [stored_eq, hlength, ← List.take_eq_take_min]⟩
  · intro buffer
    exact ⟨r.length_storeIn buffer, r.drop_storeIn buffer⟩
  · intro buffer buffer' hle
    rw [stored_eq, stored_eq]
    exact List.take_prefix_take_left hle
  · intro buffer hsize
    rw [stored_eq, hsize, hscratch]
  · intro m _ α sink calls
    rfl
  · intro c stream answers hsink
    exact Console.prints hsink stream r answers
  · rintro pieces rfl
    rw [bytes, fragments_ofPieces]

/-- Two calls. One fails at its third value: a buffer of one byte gets half a character, and the host
takes the text in two parts with an interrupt between them. The other one has more text than the
scratch buffer takes: a larger buffer of the caller holds more of it than what is printed, which the
host does not take to the end. -/
theorem Rendering.entry_points_agree_failing :
    let pieces : List Piece := [.text "é", .integer 7, .failing, .text "x"]
    let r := ofPieces pieces
    let s := ({} : Console).step ⟨[.takes 1, .interrupted], .print .err r⟩
    let long := ofPieces [.repeated "é" 600, .text "x"]
    let t := ({} : Console).step ⟨[.takes 1000, .fails], .print .out long⟩
    r.bytes = [0xC3, 0xA9, 55] ∧ r.bytes = (Piece.beforeFailure pieces).flatten ∧
      (ScratchText.ofRendering r).truncated ≠ true ∧
      r.storeIn [255] = (1, [0xC3]) ∧ r.stored [255] <+: r.stored [255, 255, 255, 255] ∧
      r.storeIn [255, 255, 255, 255] = (3, [0xC3, 0xA9, 55, 255]) ∧
      s.writes = [⟨2, [0xC3, 0xA9, 55], .takes 1⟩, ⟨2, [0xA9, 55], .interrupted⟩,
        ⟨2, [0xA9, 55], .takes 2⟩] ∧
      s.taken = r.bytes.take ScratchText.size ∧
    long.bytes.length = 1201 ∧ (ScratchText.ofRendering long).truncated = true ∧
      (ScratchText.ofRendering long).bytes = long.bytes.take 1024 ∧
      (long.storeIn (List.replicate 1100 255)).1 = 1100 ∧
      long.stored (List.replicate 1024 255) <+: long.stored (List.replicate 1100 255) ∧
      t.writes.map (fun w => (w.offered.length, w.answer)) =
        [(1024, .takes 1000), (24, .fails)] ∧
      t.taken <+: long.bytes.take ScratchText.size ∧
      t.taken ≠ long.bytes.take ScratchText.size := by
  intro pieces r s long t
  obtain ⟨hagree, hbytes⟩ := entry_points_agree r
  have hr : r = ⟨[[0xC3, 0xA9], [55]], true⟩ := by decide +kernel
  have hwrites : s.writes = [⟨2, [0xC3, 0xA9, 55], .takes 1⟩, ⟨2, [0xA9, 55], .interrupted⟩,
      ⟨2, [0xA9, 55], .takes 2⟩] := by decide +kernel
  refine ⟨by rw [hr]; rfl, hbytes pieces rfl, ?_, by rw [hr]; rfl,
    hagree.extends_smaller _ _ (by decide), by rw [hr]; rfl, hwrites, ?_, ?_⟩
  · rw [Ne, hagree.truncated, hr]
    decide
  · rw [(hagree.prints {} .err _ rfl).whole_iff, hwrites]
    decide
  -- the long text, by the statement about it and its length
  obtain ⟨hlong, -⟩ := entry_points_agree long
  have hprints := hlong.prints {} .out [.takes 1000, .fails] rfl
  have hlength : long.bytes.length = 1201 := by decide +kernel
  have hanswers : t.writes.map (fun w => (w.offered.length, w.answer)) =
      [(1024, .takes 1000), (24, .fails)] := by decide +kernel
  have hfails : ¬ ∀ w ∈ t.writes, w.failed = false := by decide +kernel
  refine ⟨hlength, hlong.truncated.2 ?_, ?_, ?_, hlong.extends_smaller _ _ ?_, hanswers,
    hprints.starts, fun h => hfails (hprints.whole_iff.1 h)⟩
  · rw [hlength]
    decide
  · rw [hlong.scratch, hlength]
    rfl
  · rw [(hlong.stores _).1, hlength, List.length_replicate]
    rfl
  · rw [List.length_replicate, List.length_replicate]
    decide

end HostServices
