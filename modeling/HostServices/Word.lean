/-!
# Words of the machine

Addresses, sizes and page counts are natural numbers throughout the library, and what a 64-bit
word can hold is a bound that an operation checks where it matters. This module names those bounds.
-/

namespace HostServices.Word

/-- The number of values of a word. -/
def count : Nat := 0x10000000000000000

/-- The largest value of an unsigned word. -/
def max : Nat := 0xffffffffffffffff

/-- The largest value of a signed word. -/
def signedMax : Nat := 0x7fffffffffffffff

/-- The address that stands for a failure towards callers who cannot take an optional value. -/
def failureAddress : Nat := max

/-- A number as a word, `none` if no word holds it. -/
def ofNat? (n : Nat) : Option Nat := if n ≤ max then some n else none

/-- A number as a word, held at the largest one. -/
def hold (n : Nat) : Nat := (ofNat? n).getD max

theorem hold_eq_min (n : Nat) : hold n = min max n := by
  unfold hold ofNat?
  split <;> simp only [Option.getD_some, Option.getD_none] <;> omega

end HostServices.Word
