import HostServices.Clock
import Mathlib.Algebra.Order.Ring.Int

/-!
# One reading in three units

The nanoseconds since the epoch are told in three units, each rounded down and kept within the
words: a reading before the epoch counts as the epoch (`inUnits_of_neg`), and what no word can hold
is told as the largest one (`cast_inUnits`).

Durations come in seconds and nanoseconds, so every unit is put together from the two. That is the
same as dividing the nanoseconds since the epoch by the unit (`Duration.asMillis_eq`,
`Duration.asMicros_eq`), and it gives one formula for all three units (`inUnits`).

Still the units go together. Later readings are never told as less (`inUnits_mono`). And since
rounding down twice is rounding down once, a finer unit tells the coarser ones as long as it is
below the largest word (`inUnits_div_of_lt`). `tells_exactly` says so of milliseconds, microseconds
and nanoseconds, whatever the reading.
-/

namespace HostServices

/-! ### Durations -/

namespace Duration

@[simp] theorem asNanos_zero : zero.asNanos = 0 := rfl

@[simp] theorem asNanos_ofNanos (n : Nat) : (ofNanos n).asNanos = n :=
  Nat.div_add_mod' n 1_000_000_000

/-- Milliseconds are put together from seconds and nanoseconds, and still they are rounded once. -/
theorem asMillis_eq (d : Duration) : d.asMillis = d.asNanos / 1_000_000 := by
  unfold asMillis asNanos
  omega

theorem asMicros_eq (d : Duration) : d.asMicros = d.asNanos / 1_000 := by
  unfold asMicros asNanos
  omega

end Duration

namespace ClockReading

variable {r later : ClockReading} {unit : Nat}

/-! ### The formula -/

/-- The time since the epoch is the reading, or nothing before the epoch. -/
theorem asNanos_sinceEpoch (r : ClockReading) : r.sinceEpoch.asNanos = r.total.toNat := by
  unfold sinceEpoch elapsed?
  split
  case isTrue h =>
    rw [Option.getD_none, Duration.asNanos_zero, Int.toNat_of_nonpos (Int.le_of_lt h)]
  case isFalse => rw [Option.getD_some, Duration.asNanos_ofNanos]

/-- The time since the epoch in units of so many nanoseconds. -/
def inUnits (r : ClockReading) (unit : Nat) : Nat :=
  min Word.max (r.total.toNat / unit)

theorem millis_eq (r : ClockReading) : r.millis = r.inUnits 1_000_000 := by
  rw [millis, Word.hold_eq_min, Duration.asMillis_eq, asNanos_sinceEpoch, inUnits]

theorem micros_eq (r : ClockReading) : r.micros = r.inUnits 1_000 := by
  rw [micros, Word.hold_eq_min, Duration.asMicros_eq, asNanos_sinceEpoch, inUnits]

theorem nanos_eq (r : ClockReading) : r.nanos = r.inUnits 1 := by
  rw [nanos, Word.hold_eq_min, asNanos_sinceEpoch, inUnits, Nat.div_one]

/-! ### Any unit -/

/-- Before the epoch, no time has passed. -/
theorem inUnits_of_neg (h : r.total < 0) (unit : Nat) : r.inUnits unit = 0 := by
  rw [inUnits, Int.toNat_of_nonpos (Int.le_of_lt h), Nat.zero_div, Nat.min_zero]

/-- From the epoch on, the exact number of units is rounded down, and held at the largest word. -/
theorem cast_inUnits (h : 0 ≤ r.total) (unit : Nat) :
    (r.inUnits unit : Int) = min (Word.max : Int) (r.total / unit) := by
  have hquotient : ((r.total.toNat / unit : Nat) : Int) = r.total / unit := by
    rw [Int.natCast_ediv, Int.toNat_of_nonneg h]
  rw [inUnits, ← hquotient]
  omega

/-- What is read later is not told as less. -/
theorem inUnits_mono (h : r.total ≤ later.total) (unit : Nat) :
    r.inUnits unit ≤ later.inUnits unit := by
  have hquotient : r.total.toNat / unit ≤ later.total.toNat / unit :=
    Nat.div_le_div_right (Int.toNat_le_toNat h)
  rw [inUnits, inUnits]
  omega

/-- Below the largest word nothing is held. -/
theorem inUnits_of_lt (h : r.inUnits unit < Word.max) : r.inUnits unit = r.total.toNat / unit := by
  rw [inUnits] at h ⊢
  omega

/-- A unit that is not held tells every coarser one that is a multiple of it. -/
theorem inUnits_div_of_lt (h : r.inUnits unit < Word.max) (ratio : Nat) :
    r.inUnits unit / ratio = r.inUnits (unit * ratio) := by
  have hcoarser : r.inUnits unit / ratio = r.total.toNat / (unit * ratio) := by
    rw [inUnits_of_lt h, Nat.div_div_eq_div_mul]
  -- the coarser number is no more than the finer one, so it is not held either
  have hle : r.inUnits unit / ratio ≤ Word.max :=
    Nat.le_trans (Nat.div_le_self _ _) (Nat.le_of_lt h)
  rw [hcoarser] at hle ⊢
  exact (Nat.min_eq_right hle).symm

/-! ### The three units -/

/-- How the three units tell a reading, by the exact number of nanoseconds since the epoch. -/
structure TellsExactly (r : ClockReading) : Prop where
  /-- A reading before the epoch counts as the epoch. -/
  before : r.total < 0 → r.millis = 0 ∧ r.micros = 0 ∧ r.nanos = 0
  /-- Otherwise each unit is rounded down, and held at the largest word. -/
  since : 0 ≤ r.total →
    (r.millis : Int) = min (2 ^ 64 - 1) (r.total / 10 ^ 6) ∧
    (r.micros : Int) = min (2 ^ 64 - 1) (r.total / 10 ^ 3) ∧
    (r.nanos : Int) = min (2 ^ 64 - 1) r.total
  /-- No unit of a later reading is less. -/
  ordered : ∀ later : ClockReading, r.total ≤ later.total →
    r.millis ≤ later.millis ∧ r.micros ≤ later.micros ∧ r.nanos ≤ later.nanos
  /-- A unit that is not held tells the coarser ones. -/
  consistent : (r.nanos < 2 ^ 64 - 1 → r.nanos / 10 ^ 3 = r.micros ∧ r.nanos / 10 ^ 6 = r.millis) ∧
    (r.micros < 2 ^ 64 - 1 → r.micros / 10 ^ 3 = r.millis)

/-- **The units are exact, held, ordered and consistent**, whatever the clock reads. -/
theorem tells_exactly (r : ClockReading) : r.TellsExactly := by
  constructor
  case before =>
    intro h
    rw [millis_eq, micros_eq, nanos_eq]
    exact ⟨inUnits_of_neg h _, inUnits_of_neg h _, inUnits_of_neg h _⟩
  case since =>
    intro h
    rw [millis_eq, micros_eq, nanos_eq]
    refine ⟨cast_inUnits h _, cast_inUnits h _, ?_⟩
    have hnanos := cast_inUnits h 1
    rwa [Int.natCast_one, Int.ediv_one] at hnanos
  case ordered =>
    intro later h
    simp only [millis_eq, micros_eq, nanos_eq]
    exact ⟨inUnits_mono h _, inUnits_mono h _, inUnits_mono h _⟩
  case consistent =>
    rw [millis_eq, micros_eq, nanos_eq]
    refine ⟨fun h => ⟨inUnits_div_of_lt h _, inUnits_div_of_lt h _⟩, fun h => inUnits_div_of_lt h _⟩

/-- A nanosecond before the epoch, the last reading whose nanoseconds are below the largest word, a
later one whose nanoseconds no longer tell its microseconds, and the last one of a clock with 64
bits for its seconds, whose milliseconds are held as well. -/
theorem tells_exactly_held :
    let before : ClockReading := ⟨-1, 999999999⟩
    let fits : ClockReading := ⟨18446744073, 709551614⟩
    let held : ClockReading := ⟨18446744074, 0⟩
    let last : ClockReading := ⟨0x7fffffffffffffff, 999999999⟩
    (before.TellsExactly ∧ before.total < 0 ∧ before.millis = 0 ∧ before.nanos / 10 ^ 3 = 0) ∧
    (fits.TellsExactly ∧ fits.nanos < 2 ^ 64 - 1 ∧ fits.nanos / 10 ^ 6 = fits.millis ∧
      fits.total ≤ held.total ∧ fits.nanos ≤ held.nanos) ∧
    (held.TellsExactly ∧ held.nanos = 2 ^ 64 - 1 ∧ held.nanos / 10 ^ 3 ≠ held.micros ∧
      held.micros / 10 ^ 3 = held.millis) ∧
    (last.TellsExactly ∧ last.millis = 2 ^ 64 - 1) := by
  intro before fits held last
  have hfits : fits.nanos < 2 ^ 64 - 1 := by decide
  have hlater : fits.total ≤ held.total := by decide
  refine ⟨⟨tells_exactly before, by decide, ?_, by decide⟩,
    ⟨tells_exactly fits, hfits, ?_, hlater, ?_⟩,
    ⟨tells_exactly held, by decide, by decide, ?_⟩, tells_exactly last, by decide⟩
  · exact ((tells_exactly before).before (by decide)).1
  · exact ((tells_exactly fits).consistent.1 hfits).2
  · exact ((tells_exactly fits).ordered held hlater).2.2
  · exact (tells_exactly held).consistent.2 (by decide)

end ClockReading

end HostServices
