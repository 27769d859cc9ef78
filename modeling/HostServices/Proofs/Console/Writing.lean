import HostServices.Proofs.Console.Routing
import HostServices.Proofs.Host.Offers

/-!
# Writing bytes to a stream

As long as no sink is installed, bytes that are written to a stream go to its descriptor, round by
round, for whatever the host answers. What is observed then is put together from the two accounts of
the loop: what the host takes is a start of the bytes, and all of them just if success is told
(`writeAll_brings`), and what it is offered is always the rest of them (`writeAll_offers`).

`Console.writes_faithfully` states both of a request to the console, along with what an interruption
changes. An interrupted offer is made once more, and that is all: what is told, and what the host
takes, stay the same.
-/

namespace HostServices.Console

open WriteCall

/-- A request to write some bytes, while the host gives its answers. -/
def writing (c : Console) (stream : Stream) (bytes : Bytes) (answers : List WriteAnswer) : Step :=
  c.step ⟨answers, .write stream bytes⟩

section Writing

variable {c : Console} {stream : Stream} {bytes : Bytes} {answers answers' : List WriteAnswer}

theorem outcome_writing (hsink : c.sink? = none) (stream : Stream) (bytes : Bytes)
    (answers : List WriteAnswer) :
    (c.writing stream bytes answers).outcome =
      ⟨(writeAll stream.descriptor answers bytes).1.map .write, c,
        some (writeAll stream.descriptor answers bytes).2⟩ := by
  show c.perform answers (.write stream bytes) = _
  rw [perform, deliver_of_none hsink]

/-- The host is written to by the loop for the descriptor of the stream. -/
theorem writes_writing (hsink : c.sink? = none) (stream : Stream) (bytes : Bytes)
    (answers : List WriteAnswer) :
    (c.writing stream bytes answers).writes = (writeAll stream.descriptor answers bytes).1 := by
  rw [Step.writes, outcome_writing hsink, List.filterMap_map]
  exact List.filterMap_some

/-- Two steps have the same result if the host takes the same bytes, and they tell the same. -/
structure Step.SameResult (s s' : Step) : Prop where
  complete? : s.outcome.complete? = s'.outcome.complete?
  taken : s.taken = s'.taken

/-- Interruptions of the host do not matter for the result. -/
theorem sameResult_of_uninterrupted (hsink : c.sink? = none)
    (h : answers.filter (· ≠ .interrupted) = answers'.filter (· ≠ .interrupted)) :
    (c.writing stream bytes answers).SameResult (c.writing stream bytes answers') ∧
      uninterrupted (c.writing stream bytes answers).writes =
        uninterrupted (c.writing stream bytes answers').writes := by
  -- both loops make the writes of the loop that is not interrupted at all
  have hloop := writeAll_uninterrupted stream.descriptor answers bytes
  rw [h, writeAll_uninterrupted stream.descriptor answers' bytes] at hloop
  obtain ⟨hwrites, hcomplete⟩ := Prod.mk.inj hloop
  refine ⟨⟨?_, ?_⟩, ?_⟩
  · rw [outcome_writing hsink, outcome_writing hsink, hcomplete]
  · calc (c.writing stream bytes answers).taken
        = allTaken (uninterrupted (writeAll stream.descriptor answers bytes).1) := by
          rw [Step.taken, writes_writing hsink, allTaken_uninterrupted]
      _ = allTaken (uninterrupted (writeAll stream.descriptor answers' bytes).1) := by rw [hwrites]
      _ = (c.writing stream bytes answers').taken := by
          rw [Step.taken, writes_writing hsink, allTaken_uninterrupted]
  · rw [writes_writing hsink, writes_writing hsink, hwrites]

end Writing

/-- What writing some bytes to a stream comes to, when the host gives these answers. -/
structure WritesFaithfully (c : Console) (stream : Stream) (bytes : Bytes)
    (answers : List WriteAnswer) : Prop where
  /-- Nothing is observed but writes of the host. -/
  events : (c.writing stream bytes answers).outcome.events =
    (c.writing stream bytes answers).writes.map .write
  /-- They go to the descriptor of the stream, offer what is left, and end with the first that
  fails. -/
  offers : Offers stream.descriptor answers bytes (c.writing stream bytes answers).writes
  /-- The host takes a start of the bytes. -/
  starts : (c.writing stream bytes answers).taken <+: bytes
  /-- Success is told just if it took all of them. -/
  told : (c.writing stream bytes answers).outcome.complete? =
    some (decide ((c.writing stream bytes answers).taken = bytes))
  /-- Failure is told just if a write failed. -/
  failed : (c.writing stream bytes answers).outcome.complete? = some false ↔
    ∃ w ∈ (c.writing stream bytes answers).writes, w.failed = true
  /-- Where there is nothing to be written, the host is not written to, and success is told. -/
  silent : bytes = [] → (c.writing stream bytes answers).writes = [] ∧
    (c.writing stream bytes answers).outcome.complete? = some true
  /-- An interruption put in among the answers repeats the offer that is made there. -/
  repeated : ∀ pre post, answers = pre ++ post →
    (c.writing stream bytes (pre ++ .interrupted :: post)).writes =
      interruptedAt pre.length (c.writing stream bytes answers).writes
  /-- However many interruptions are put in or left out, the result is the same, and so are the
  writes that were not interrupted. -/
  interrupted : ∀ answers',
    answers'.filter (· ≠ .interrupted) = answers.filter (· ≠ .interrupted) →
    (c.writing stream bytes answers').SameResult (c.writing stream bytes answers) ∧
      uninterrupted (c.writing stream bytes answers').writes =
        uninterrupted (c.writing stream bytes answers).writes

/-- **Writing is faithful.** Without a sink, and whatever the host answers, it is offered the bytes
from the first to the last, takes a start of them, and all of them just if success is told. -/
theorem writes_faithfully {c : Console} (hsink : c.sink? = none) (stream : Stream) (bytes : Bytes)
    (answers : List WriteAnswer) : c.WritesFaithfully stream bytes answers := by
  have houtcome := outcome_writing hsink stream bytes answers
  have hwrites := writes_writing hsink stream bytes answers
  have hbrings := writeAll_brings stream.descriptor answers bytes
  have htaken : (c.writing stream bytes answers).taken =
      allTaken (writeAll stream.descriptor answers bytes).1 := congrArg allTaken hwrites
  refine ⟨?_, ?_, ?_, ?_, ?_, ?_, ?_, ?_⟩
  · rw [houtcome, hwrites]
  · rw [hwrites]
    exact writeAll_offers stream.descriptor answers bytes
  · rw [htaken]
    exact hbrings.starts
  · have hcomplete : (writeAll stream.descriptor answers bytes).2 =
        decide (allTaken (writeAll stream.descriptor answers bytes).1 = bytes) := by
      rw [Bool.eq_iff_iff, decide_eq_true_iff]
      exact hbrings.complete_iff
    rw [houtcome, htaken, hcomplete]
  · rw [houtcome, hwrites, Option.some_inj, hbrings.failed]
    simp
  · rintro rfl
    rw [hwrites, houtcome, writeAll_empty]
    exact ⟨rfl, rfl⟩
  · rintro pre post rfl
    rw [hwrites, writes_writing hsink, writeAll_interrupted]
  · intro answers' h
    exact sameResult_of_uninterrupted hsink h

/-- The host is interrupted, takes a part, is interrupted again, takes a part, and then takes
nothing, so that its last answer is not asked for. -/
theorem writes_faithfully_short :
    let c : Console := {}
    let bytes : Bytes := [65, 66, 67, 68]
    let answers : List WriteAnswer :=
      [.interrupted, .takes 1, .interrupted, .takes 2, .takes 0, .takes 9]
    c.sink? = none ∧ c.WritesFaithfully .err bytes answers ∧
      (c.writing .err bytes answers).outcome.events =
        [.write ⟨2, [65, 66, 67, 68], .interrupted⟩, .write ⟨2, [65, 66, 67, 68], .takes 1⟩,
          .write ⟨2, [66, 67, 68], .interrupted⟩, .write ⟨2, [66, 67, 68], .takes 2⟩,
          .write ⟨2, [68], .takes 0⟩] ∧
      (c.writing .err bytes answers).outcome.complete? = some false ∧
      (c.writing .err bytes answers).taken = [65, 66, 67] ∧
      (c.writing .err bytes [.takes 1, .takes 2]).outcome.complete? = some true ∧
      (c.writing .err bytes [.takes 1, .interrupted, .interrupted, .takes 2]).taken = bytes := by
  intro c bytes answers
  have hsink : c.sink? = none := rfl
  -- the last two follow from one another, as only interruptions are put in
  have hplain : (c.writing .err bytes [.takes 1, .takes 2]).taken = bytes := by decide
  obtain ⟨hsame, -⟩ := (writes_faithfully hsink .err bytes [.takes 1, .takes 2]).interrupted
    [.takes 1, .interrupted, .interrupted, .takes 2] (by decide)
  exact ⟨hsink, writes_faithfully hsink .err bytes answers, by decide, by decide, by decide,
    by decide, hsame.taken.trans hplain⟩

end HostServices.Console
