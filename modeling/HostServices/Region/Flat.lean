import HostServices.Region.Arena

/-!
# Flat regions

A flat region is the plainest kind: consecutive bytes up to a limit, with a page size of its own and
an event for each extension. The page size is taken as it is, so one that is not a power of two
shows when the region is asked to grow.
-/

namespace HostServices

/-- A region of consecutive bytes with a page size of its own. -/
structure FlatRegion where
  /-- The granularity of its growth. -/
  page : Nat
  /-- Where it ends. -/
  top : Nat
  /-- Where it may end at most. -/
  limit : Nat
deriving DecidableEq, Repr

namespace FlatRegion

/-- Extends the region, and reports it. -/
def extend (r : FlatRegion) (size : Nat) : Extension FlatRegion :=
  if r.top + size ≤ min r.limit Word.max then
    ⟨[.extended size], { r with top := r.top + size }, .granted r.top⟩
  else ⟨[.extended size], r, .refused⟩

instance : Region FlatRegion where
  page? r := some r.page
  top? r := some r.top
  extend _ r size := r.extend size

end FlatRegion

end HostServices
