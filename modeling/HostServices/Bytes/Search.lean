/-!
# Searching byte strings

A byte string is a list of bytes. `Bytes.find?` gives the offset of the first occurrence of a
needle; an empty needle occurs at the start of everything. `Bytes.terminatedLength` measures a
zero-terminated string without looking further than it may: where no terminator is in reach, the
reach itself is the length.
-/

namespace HostServices

/-- A byte string. -/
abbrev Bytes := List UInt8

namespace Bytes

/-- The offset of the first occurrence of `needle`, or `none` if it does not occur. -/
def find? (needle : Bytes) : Bytes → Option Nat
  | [] => if needle.isPrefixOf [] then some 0 else none
  | b :: rest =>
    if needle.isPrefixOf (b :: rest) then some 0 else (find? needle rest).map (· + 1)

/-- An empty needle occurs at the start. -/
@[simp] theorem find?_nil_left (haystack : Bytes) : find? [] haystack = some 0 := by
  cases haystack <;> simp [find?]

/-- The length of the zero-terminated string at the start of `buffer`, looking at most `reach`
bytes far. -/
def terminatedLength (buffer : Bytes) (reach : Nat) : Nat :=
  ((buffer.take reach).takeWhile (· ≠ 0)).length

end Bytes

end HostServices
