import HostServices.Page
import Mathlib.Algebra.Order.Floor.Div
import Mathlib.Order.Bounds.Basic

/-!
# Rounding up to whole pages

`Page.ceil size page` is the least multiple of `page` that is not below `size`
(`Page.isLeast_ceil`), whatever a word can hold. `Page.roundUp` computes it for the pages there are,
which are powers of two, as long as the sum that it passes through is a word (`Page.roundUp_eq`).
-/

namespace HostServices

namespace Page

/-- A size rounded up to a multiple of `page`, in exact arithmetic. -/
def ceil (size page : Nat) : Nat := size ⌈/⌉ page * page

variable {size page n : Nat}

theorem dvd_ceil (size page : Nat) : page ∣ ceil size page := Nat.dvd_mul_left page _

/-- The rounded size is the least multiple of the page that is not below the size. -/
theorem isLeast_ceil (hp : 0 < page) : IsLeast {n | page ∣ n ∧ size ≤ n} (ceil size page) := by
  have hcomm : ceil size page = page * (size ⌈/⌉ page) := Nat.mul_comm _ _
  refine ⟨⟨dvd_ceil size page, ?_⟩, ?_⟩
  · rw [hcomm]
    exact le_smul_ceilDiv hp
  · rintro n ⟨⟨k, rfl⟩, hk⟩
    rw [hcomm]
    exact Nat.mul_le_mul_left page ((ceilDiv_le_iff_le_mul hp).2 hk)

theorem le_ceil (hp : 0 < page) : size ≤ ceil size page := (isLeast_ceil hp).1.2

theorem ceil_eq_sub_mod (hp : 0 < page) :
    ceil size page = size + (page - 1) - (size + (page - 1)) % page := by
  rw [ceil, Nat.ceilDiv_eq_add_pred_div, Nat.add_sub_assoc hp, Nat.div_mul_self_eq_mod_sub_self]

theorem ceil_mono {size' : Nat} (hp : 0 < page) (h : size ≤ size') :
    ceil size page ≤ ceil size' page :=
  (isLeast_ceil hp).2 ⟨dvd_ceil size' page, h.trans (le_ceil hp)⟩

/-- A multiple of the page is rounded to itself. -/
theorem ceil_of_dvd (hp : 0 < page) (h : page ∣ size) : ceil size page = size :=
  le_antisymm ((isLeast_ceil hp).2 ⟨h, le_rfl⟩) (le_ceil hp)

/-- Rounding up adds less than a page. -/
theorem ceil_lt (hp : 0 < page) : ceil size page < size + page := by
  rw [ceil_eq_sub_mod hp]
  omega

/-- Rounding up to a power of two finds the rounded size, unless the sum that it passes through is
no word. -/
theorem roundUp_eq (hp : IsPowerOfTwo page) :
    roundUp size page =
      .ok (if size + (page - 1) ≤ Word.max then some (ceil size page) else none) := by
  rw [roundUp, if_pos hp, ceil_eq_sub_mod hp.pos]

end Page

end HostServices
