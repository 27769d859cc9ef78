import HostServices.Console.Line
import Mathlib.Logic.Relation

/-!
# The stream behind a source

A source delivers a stream in chunks of its own choosing and is interrupted now and then. The stream
itself (`Source.signals`) is a list of bytes with gaps between them, where it ended for a while or
where a read failed; behind the last of them it has ended for good.

Two sources redeliver each other (`Source.Redelivers`) if one comes out of the other by splitting and
merging chunks and by putting in and taking out interruptions. That is so just when they deliver the
same stream (`Source.redelivers_iff`): each source redelivers the one that delivers its stream byte
by byte.
-/

namespace HostServices

/-- What can be met in a stream instead of a byte. -/
inductive Gap where
  /-- The stream ended, perhaps only for a while. -/
  | ended
  | failed
deriving DecidableEq, Repr

/-- What a stream consists of. -/
inductive Signal where
  | byte (b : UInt8)
  | gap (g : Gap)
deriving DecidableEq, Repr

/-- A stream of bytes with gaps between them. Behind all of it, it has ended. -/
abbrev ByteStream := List Signal

/-- What an arrival adds to the stream. A chunk without bytes tells its end. -/
def Arrival.signals : Arrival → ByteStream
  | .chunk bytes => if bytes = [] then [.gap .ended] else bytes.map .byte
  | .interrupted => []
  | .failed => [.gap .failed]

namespace Source

/-- The stream that a source delivers. -/
def signals (s : Source) : ByteStream := s.flatMap Arrival.signals

variable {s s' : Source} {bytes : Bytes}

@[simp] theorem signals_cons (x : Arrival) (s : Source) : signals (x :: s) = x.signals ++ signals s :=
  rfl

theorem signals_chunk (hb : bytes ≠ []) (s : Source) :
    signals (.chunk bytes :: s) = bytes.map .byte ++ signals s := by
  rw [signals_cons, Arrival.signals, if_neg hb]

/-- Bytes that are put back are in front of the stream again. -/
theorem signals_putBack (bytes : Bytes) (s : Source) :
    signals (putBack bytes s) = bytes.map .byte ++ signals s := by
  by_cases hb : bytes = []
  · rw [putBack, if_pos hb, hb]
    rfl
  · rw [putBack, if_neg hb, signals_chunk hb]

/-! ### Redelivery -/

/-- One interruption more, or one chunk cut in two. -/
inductive Recut : Source → Source → Prop
  | interrupt (s : Source) : Recut s (.interrupted :: s)
  | split {first second : Bytes} (s : Source) : first ≠ [] → second ≠ [] →
      Recut (.chunk (first ++ second) :: s) (.chunk first :: .chunk second :: s)
  | later {s s' : Source} (x : Arrival) : Recut s s' → Recut (x :: s) (x :: s')

theorem Recut.signals_eq (h : Recut s s') : signals s = signals s' := by
  induction h with
  | interrupt s => rfl
  | @split first second s hfirst hsecond =>
    have hboth : first ++ second ≠ [] := by simp [hfirst]
    rw [signals_chunk hboth, signals_chunk hfirst, signals_chunk hsecond, List.map_append,
      List.append_assoc]
  | later x _ ih => rw [signals_cons, signals_cons, ih]

/-- One source comes out of the other by splitting and merging chunks of bytes and by putting in and
taking out interruptions, anywhere and as often as one likes. -/
def Redelivers : Source → Source → Prop := Relation.EqvGen Recut

theorem Redelivers.later (x : Arrival) (h : Redelivers s s') : Redelivers (x :: s) (x :: s') := by
  induction h with
  | rel _ _ h => exact .rel _ _ (h.later x)
  | refl _ => exact .refl _
  | symm _ _ _ ih => exact .symm _ _ ih
  | trans _ _ _ _ _ ih ih' => exact .trans _ _ _ ih ih'

theorem Redelivers.append (pre : Source) (h : Redelivers s s') :
    Redelivers (pre ++ s) (pre ++ s') := by
  induction pre with
  | nil => exact h
  | cons x pre ih => exact ih.later x

theorem Redelivers.signals_eq (h : Redelivers s s') : signals s = signals s' := by
  induction h with
  | rel _ _ h => exact h.signals_eq
  | refl _ => rfl
  | symm _ _ _ ih => exact ih.symm
  | trans _ _ _ _ _ ih ih' => exact ih.trans ih'

/-- The arrival that delivers one signal. -/
def arrivalOf : Signal → Arrival
  | .byte b => .chunk [b]
  | .gap .ended => .chunk []
  | .gap .failed => .failed

theorem redelivers_bytes (hb : bytes ≠ []) (s : Source) :
    Redelivers (.chunk bytes :: s) ((bytes.map .byte).map arrivalOf ++ s) := by
  induction bytes with
  | nil => exact absurd rfl hb
  | cons b bytes ih =>
    by_cases hbytes : bytes = []
    · rw [hbytes]
      exact .refl _
    · have hsplit : Redelivers (.chunk (b :: bytes) :: s) (.chunk [b] :: .chunk bytes :: s) :=
        .rel _ _ (.split s (List.cons_ne_nil b []) hbytes)
      exact .trans _ _ _ hsplit ((ih hbytes).later _)

/-- A source redelivers the one that delivers its stream byte by byte. -/
theorem redelivers_byteByByte (s : Source) : Redelivers s ((signals s).map arrivalOf) := by
  induction s with
  | nil => exact .refl _
  | cons x s ih =>
    cases x with
    | interrupted =>
      have hdrop : Redelivers (.interrupted :: s) s := .symm _ _ (.rel _ _ (.interrupt s))
      exact .trans _ _ _ hdrop ih
    | failed => exact ih.later _
    | chunk bytes =>
      by_cases hb : bytes = []
      · rw [hb]
        exact ih.later _
      · -- first the chunk is cut into bytes, then what comes behind it
        rw [signals_chunk hb, List.map_append]
        exact .trans _ _ _ (redelivers_bytes hb s) (ih.append _)

/-- Sources redeliver each other just when they deliver the same stream. -/
theorem redelivers_iff : Redelivers s s' ↔ signals s = signals s' := by
  constructor
  · exact Redelivers.signals_eq
  · intro h
    have hs := redelivers_byteByByte s
    rw [h] at hs
    exact .trans _ _ _ hs (.symm _ _ (redelivers_byteByByte s'))

end Source

end HostServices
