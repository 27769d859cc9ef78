import HostServices.Word

/-!
# Pages

Regions grow by whole pages, and the size of a page is a power of two. `roundUp` rounds a size up to
the next multiple of a page, or finds that no word can hold it. Asking for a multiple of anything
else than a power of two is a mistake of the caller, which has a type of its own.
-/

namespace HostServices

/-- A promise that a caller broke. -/
inductive Misuse where
  /-- A page size that is not a power of two. -/
  | pageNotPowerOfTwo
  /-- A direct extension of paged memory by something else than whole pages. -/
  | growthNotAligned
deriving DecidableEq, Repr

def Misuse.message : Misuse → String
  | pageNotPowerOfTwo => "Page size is not a power of two."
  | growthNotAligned => "Growth is not page aligned."

namespace Page

/-- A number is a power of two when its highest bit is its only one. -/
def IsPowerOfTwo (n : Nat) : Prop := 1 <<< n.log2 = n

instance (n : Nat) : Decidable (IsPowerOfTwo n) :=
  inferInstanceAs (Decidable (1 <<< n.log2 = n))

theorem isPowerOfTwo_iff {n : Nat} : IsPowerOfTwo n ↔ ∃ k, n = 1 <<< k := by
  constructor
  · exact fun h => ⟨n.log2, h.symm⟩
  · rintro ⟨k, rfl⟩
    simp only [IsPowerOfTwo, Nat.one_shiftLeft, Nat.log2_two_pow]

theorem IsPowerOfTwo.pos {n : Nat} (h : IsPowerOfTwo n) : 0 < n := by
  rw [← h, Nat.one_shiftLeft]
  exact Nat.two_pow_pos _

/-- Rounds a size up to a multiple of a page, or answers `none` if a word cannot hold the sum that
the rounding passes through. -/
def roundUp (size page : Nat) : Except Misuse (Option Nat) :=
  if IsPowerOfTwo page then
    let reach := size + (page - 1)
    .ok (if reach ≤ Word.max then some (reach - reach % page) else none)
  else .error .pageNotPowerOfTwo

/-! ### The page size of the host -/

/-- The page size that is assumed when the host cannot tell. -/
def defaultSize : Nat := 4096

theorem isPowerOfTwo_defaultSize : IsPowerOfTwo defaultSize := by decide

/-- The page size that an answer of the host stands for. -/
def hostSize (answer : Int) : Nat :=
  if answer ≤ 0 then defaultSize else answer.toNat

end Page

end HostServices
