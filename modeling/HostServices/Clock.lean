import HostServices.Word

/-!
# Clock readings

The host's clock tells whole seconds since the epoch, negative before it, and nanoseconds that are
added to them. What has passed since the epoch is a `Duration`; a reading before the epoch counts as
the epoch. The same duration is told in three units, each rounded down and each held at the largest
word where it would not fit.
-/

namespace HostServices

/-- A length of time. -/
structure Duration where
  seconds : Nat
  /-- Nanoseconds on top of the seconds. -/
  nanoseconds : Nat
  nanoseconds_lt : nanoseconds < 1_000_000_000
deriving DecidableEq, Repr

namespace Duration

def zero : Duration := ⟨0, 0, by decide⟩

/-- The length of so many nanoseconds. -/
def ofNanos (n : Nat) : Duration :=
  ⟨n / 1_000_000_000, n % 1_000_000_000, Nat.mod_lt _ (by decide)⟩

/-- The whole milliseconds of a duration. -/
def asMillis (d : Duration) : Nat := d.seconds * 1_000 + d.nanoseconds / 1_000_000

/-- The whole microseconds of a duration. -/
def asMicros (d : Duration) : Nat := d.seconds * 1_000_000 + d.nanoseconds / 1_000

def asNanos (d : Duration) : Nat := d.seconds * 1_000_000_000 + d.nanoseconds

end Duration

/-- A reading of the host's clock. -/
structure ClockReading where
  /-- Whole seconds since the epoch. -/
  seconds : Int
  /-- Nanoseconds on top of them, less than a second. -/
  nanoseconds : Nat
deriving DecidableEq, Repr

namespace ClockReading

/-- The exact number of nanoseconds since the epoch, negative before it. -/
def total (r : ClockReading) : Int := r.seconds * 1_000_000_000 + r.nanoseconds

/-- The time from the epoch to a reading, `none` if the reading lies before the epoch. -/
def elapsed? (r : ClockReading) : Option Duration :=
  if r.total < 0 then none else some (.ofNanos r.total.toNat)

/-- The time since the epoch. A clock set before the epoch reads as the epoch. -/
def sinceEpoch (r : ClockReading) : Duration := r.elapsed?.getD .zero

def millis (r : ClockReading) : Nat := Word.hold r.sinceEpoch.asMillis

def micros (r : ClockReading) : Nat := Word.hold r.sinceEpoch.asMicros

def nanos (r : ClockReading) : Nat := Word.hold r.sinceEpoch.asNanos

end ClockReading

end HostServices
