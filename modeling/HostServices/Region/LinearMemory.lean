import HostServices.Region.Arena

/-!
# Linear memory

Linear memory is sized in pages of 64 KiB, and its addresses are offsets from its start, so its top
is its size in bytes. It lies over a paged memory, which is all that is known of the host: how many
pages there are, and a way to add some. The new top has to be an address before anything is grown,
and an observer is told the new size after that.
-/

namespace HostServices

/-- A memory that is sized in pages and only grows. -/
class Paged (μ : Type) where
  /-- The number of pages. -/
  pages : μ → Nat
  /-- Adds so many pages. The number is the number of pages that there were before, as far as the
  memory tells. Where it fails the memory stays as it is. -/
  grow? : μ → Nat → Option (Nat × μ)

/-- A region over a paged memory. -/
structure LinearMemory (μ : Type) where
  memory : μ
deriving DecidableEq, Repr

namespace LinearMemory

variable {μ : Type} [Paged μ]

/-- The number of bytes of a page. -/
def pageSize : Nat := 65536

theorem isPowerOfTwo_pageSize : Page.IsPowerOfTwo pageSize := by decide

/-- A number of pages in bytes, or `none` if a word cannot hold it. -/
def byteSize? (pages : Nat) : Option Nat :=
  if pages * pageSize ≤ Word.max then some (pages * pageSize) else none

/-- What observers see of a growth to so many bytes. -/
def tell (observer? : Option String) (size : Nat) : List Region.Event :=
  match observer? with
  | some observer => [.grown observer size]
  | none => []

/-- Extends the memory by so many bytes, which have to be whole pages. The address drops the bits
that a word cannot hold. -/
def extend (observer? : Option String) (r : LinearMemory μ) (size : Nat) :
    Extension (LinearMemory μ) :=
  if size % pageSize ≠ 0 then ⟨[], r, .misused .growthNotAligned⟩
  else
    let more := size / pageSize
    -- A top that is no address is refused before the memory is touched.
    match byteSize? (Paged.pages r.memory + more) with
    | none => ⟨[], r, .refused⟩
    | some top => match Paged.grow? r.memory more with
      | none => ⟨[], r, .refused⟩
      | some (before, memory) =>
        ⟨.asked (.added more before) :: tell observer? top, ⟨memory⟩,
          .granted (before * pageSize % Word.count)⟩

instance : Region (LinearMemory μ) where
  page? _ := some pageSize
  top? r := byteSize? (Paged.pages r.memory)
  extend := extend

end LinearMemory

/-- A paged memory that grows up to a limit. -/
structure PageStore where
  /-- The number of pages. -/
  pages : Nat
  /-- The largest number of pages. -/
  limit : Nat
  /-- The number of pages that it always reports as the one before, if that is not the true one. -/
  reported? : Option Nat := none
deriving DecidableEq, Repr

instance : Paged PageStore where
  pages m := m.pages
  grow? m more :=
    if m.pages + more ≤ min m.limit Word.max then
      some (m.reported?.getD m.pages, { m with pages := m.pages + more })
    else none

end HostServices
