import HostServices.Bytes.Search
import Mathlib.Order.Bounds.Basic

/-!
# Where a needle occurs

A needle occurs at an offset in a haystack if it stands there, whatever comes before it and behind
it (`OccursAt`). Occurrences may overlap each other. The search goes along the haystack and looks at
each offset in turn, so what it finds is an occurrence and none is before it (`isLeast_of_find?`),
and it does not get past one (`exists_find?_le`).

The rest follows from these two. An occurrence stays one when bytes are put behind the haystack or
in front of it, and bytes behind it bring no occurrence that ends inside it (`OccursAt.of_append`).
`finds_first` puts this together.
-/

namespace HostServices

namespace Bytes

/-- The needle stands in the haystack, `i` bytes behind its start. -/
def OccursAt (needle haystack : Bytes) (i : Nat) : Prop :=
  ∃ a b, haystack = a ++ needle ++ b ∧ a.length = i

section Occurrences

variable {needle haystack rest : Bytes} {b : UInt8} {i : Nat}

/-! ### Occurrences -/

@[simp] theorem occursAt_zero : OccursAt needle haystack 0 ↔ needle <+: haystack := by
  constructor
  · rintro ⟨a, c, rfl, ha⟩
    obtain rfl := List.eq_nil_of_length_eq_zero ha
    exact List.prefix_append needle c
  · rintro ⟨c, rfl⟩
    exact ⟨[], c, rfl, rfl⟩

@[simp] theorem occursAt_succ_cons :
    OccursAt needle (b :: rest) (i + 1) ↔ OccursAt needle rest i := by
  constructor
  · rintro ⟨a, c, hrest, ha⟩
    obtain ⟨b', a, rfl⟩ := List.exists_cons_of_length_eq_add_one ha
    exact ⟨a, c, (List.cons.inj hrest).2, Nat.succ.inj ha⟩
  · rintro ⟨a, c, rfl, rfl⟩
    exact ⟨b :: a, c, rfl, rfl⟩

/-- At the start is the first place to be. -/
theorem isLeast_zero (h : needle <+: haystack) : IsLeast {j | OccursAt needle haystack j} 0 :=
  ⟨occursAt_zero.2 h, fun _ _ => Nat.zero_le _⟩

/-- An occurrence ends in the haystack. -/
theorem OccursAt.add_length_le (h : OccursAt needle haystack i) :
    i + needle.length ≤ haystack.length := by
  obtain ⟨a, c, rfl, rfl⟩ := h
  rw [List.length_append, List.length_append]
  omega

theorem exists_occursAt_iff : (∃ i, OccursAt needle haystack i) ↔ needle <:+: haystack := by
  constructor
  · rintro ⟨-, a, c, rfl, -⟩
    exact ⟨a, c, rfl⟩
  · rintro ⟨a, c, rfl⟩
    exact ⟨a.length, a, c, rfl, rfl⟩

/-- Bytes behind the haystack leave an occurrence where it is. -/
theorem OccursAt.append (h : OccursAt needle haystack i) (behind : Bytes) :
    OccursAt needle (haystack ++ behind) i := by
  obtain ⟨a, c, rfl, rfl⟩ := h
  exact ⟨a, c ++ behind, by rw [List.append_assoc _ c], rfl⟩

/-- Bytes in front of the haystack put an occurrence off by as many. -/
theorem OccursAt.prepend (h : OccursAt needle haystack i) (front : Bytes) :
    OccursAt needle (front ++ haystack) (front.length + i) := by
  obtain ⟨a, c, rfl, rfl⟩ := h
  exact ⟨front ++ a, c, by simp only [List.append_assoc], List.length_append⟩

/-- An occurrence that ends in the haystack does not need the bytes behind it. -/
theorem OccursAt.of_append {behind : Bytes} (h : OccursAt needle (haystack ++ behind) i)
    (hend : i + needle.length ≤ haystack.length) : OccursAt needle haystack i := by
  obtain ⟨a, c, hbytes, rfl⟩ := h
  have hstart : a ++ needle <+: haystack ++ behind := ⟨c, hbytes.symm⟩
  have hlength : (a ++ needle).length ≤ haystack.length := List.length_append.trans_le hend
  obtain ⟨c', rfl⟩ := List.prefix_of_prefix_length_le hstart (List.prefix_append _ _) hlength
  exact ⟨a, c', rfl, rfl⟩

end Occurrences

/-! ### The search -/

section Search

variable {needle haystack rest : Bytes} {b : UInt8} {i : Nat}

theorem find?_of_isPrefix (h : needle <+: haystack) : find? needle haystack = some 0 := by
  cases haystack <;> exact if_pos (List.isPrefixOf_iff_prefix.2 h)

theorem find?_nil_of_not_isPrefix (h : ¬needle <+: []) : find? needle [] = none :=
  if_neg (mt List.isPrefixOf_iff_prefix.1 h)

theorem find?_cons_of_not_isPrefix (h : ¬needle <+: b :: rest) :
    find? needle (b :: rest) = (find? needle rest).map (· + 1) :=
  if_neg (mt List.isPrefixOf_iff_prefix.1 h)

/-- What is found is an occurrence, and there is none before it. -/
theorem isLeast_of_find? (h : find? needle haystack = some i) :
    IsLeast {j | OccursAt needle haystack j} i := by
  induction haystack generalizing i with
  | nil =>
    by_cases hstart : needle <+: []
    · rw [find?_of_isPrefix hstart] at h
      obtain rfl := Option.some.inj h
      exact isLeast_zero hstart
    · rw [find?_nil_of_not_isPrefix hstart] at h
      cases h
  | cons b rest ih =>
    by_cases hstart : needle <+: b :: rest
    · rw [find?_of_isPrefix hstart] at h
      obtain rfl := Option.some.inj h
      exact isLeast_zero hstart
    · -- no occurrence is at the start, so all of them are in the rest
      rw [find?_cons_of_not_isPrefix hstart] at h
      obtain ⟨i, hfound, rfl⟩ := Option.map_eq_some_iff.1 h
      obtain ⟨hoccurs, hleast⟩ := ih hfound
      refine ⟨occursAt_succ_cons.2 hoccurs, ?_⟩
      intro j hj
      cases j with
      | zero => exact absurd (occursAt_zero.1 hj) hstart
      | succ j => exact Nat.succ_le_succ (hleast (occursAt_succ_cons.1 hj))

/-- The search does not get past an occurrence. -/
theorem exists_find?_le (h : OccursAt needle haystack i) :
    ∃ j ≤ i, find? needle haystack = some j := by
  -- with each byte that the search leaves behind, the occurrence comes nearer by one
  induction i generalizing haystack with
  | zero => exact ⟨0, Nat.le_refl 0, find?_of_isPrefix (occursAt_zero.1 h)⟩
  | succ i ih =>
    cases haystack with
    | nil =>
      -- an occurrence behind the start needs bytes in front of it
      have hlength := h.add_length_le
      rw [List.length_nil] at hlength
      omega
    | cons b rest =>
      by_cases hstart : needle <+: b :: rest
      · exact ⟨0, Nat.zero_le _, find?_of_isPrefix hstart⟩
      · obtain ⟨j, hj, hfound⟩ := ih (occursAt_succ_cons.1 h)
        refine ⟨j + 1, Nat.succ_le_succ hj, ?_⟩
        rw [find?_cons_of_not_isPrefix hstart, hfound, Option.map_some]

/-- The offset of the first occurrence is found. -/
theorem find?_eq_some_iff :
    find? needle haystack = some i ↔ IsLeast {j | OccursAt needle haystack j} i := by
  constructor
  · exact isLeast_of_find?
  · intro hleast
    obtain ⟨j, -, hfound⟩ := exists_find?_le hleast.1
    rw [hfound, (isLeast_of_find? hfound).unique hleast]

/-- Nothing is found just if the needle is nowhere in the haystack. -/
theorem find?_eq_none_iff : find? needle haystack = none ↔ ¬needle <:+: haystack := by
  rw [← exists_occursAt_iff, not_exists]
  constructor
  · intro hnone i h
    obtain ⟨j, -, hfound⟩ := exists_find?_le h
    cases hnone.symm.trans hfound
  · intro hnowhere
    cases hfound : find? needle haystack with
    | none => rfl
    | some i => exact absurd (isLeast_of_find? hfound).1 (hnowhere i)

/-- A single byte is found just if it is in the haystack. -/
theorem find?_singleton_eq_none_iff : find? [b] haystack = none ↔ b ∉ haystack := by
  rw [find?_eq_none_iff]
  refine not_congr ⟨fun hinfix => hinfix.subset (List.mem_singleton_self b), fun hb => ?_⟩
  obtain ⟨a, c, rfl⟩ := List.append_of_mem hb
  exact ⟨a, c, (List.append_cons a b c).symm⟩

/-- What is found stays where it is when the haystack goes on. -/
theorem find?_append (h : find? needle haystack = some i) (behind : Bytes) :
    find? needle (haystack ++ behind) = some i := by
  obtain ⟨hoccurs, hleast⟩ := isLeast_of_find? h
  rw [find?_eq_some_iff]
  refine ⟨hoccurs.append behind, ?_⟩
  intro j hj
  by_contra hlt
  -- an earlier occurrence would end before this one does, and so in the haystack
  have hend : j + needle.length ≤ haystack.length := by
    have hle := hoccurs.add_length_le
    omega
  exact hlt (hleast (hj.of_append hend))

/-- With bytes in front of the haystack, something is found no later than what was found before. -/
theorem find?_prepend (h : find? needle haystack = some i) (front : Bytes) :
    ∃ j ≤ front.length + i, find? needle (front ++ haystack) = some j :=
  exists_find?_le ((isLeast_of_find? h).1.prepend front)

/-- What comes of searching a haystack for a needle. -/
structure FindsFirst (needle haystack : Bytes) : Prop where
  /-- An offset is found just if the needle stands there and at no lesser one. -/
  some_iff : ∀ i, find? needle haystack = some i ↔
    (∃ a b, haystack = a ++ needle ++ b ∧ a.length = i) ∧
      ∀ a b, haystack = a ++ needle ++ b → i ≤ a.length
  /-- Nothing is found just if the needle stands nowhere. -/
  none_iff : find? needle haystack = none ↔ ¬∃ a b, haystack = a ++ needle ++ b
  /-- So a needle that is longer than the haystack is not found. -/
  longer : haystack.length < needle.length → find? needle haystack = none
  /-- An empty needle stands at the start. -/
  empty : needle = [] → find? needle haystack = some 0
  /-- Bytes behind the haystack do not matter to what is found. -/
  behind : ∀ i, find? needle haystack = some i →
    ∀ bytes, find? needle (haystack ++ bytes) = some i
  /-- Bytes in front of it put off what is found by no more than their number. -/
  front : ∀ i, find? needle haystack = some i →
    ∀ bytes, ∃ j ≤ bytes.length + i, find? needle (bytes ++ haystack) = some j

/-- **The search finds the first occurrence and misses none**, whatever the bytes are. -/
theorem finds_first (needle haystack : Bytes) : FindsFirst needle haystack := by
  have hnone : find? needle haystack = none ↔ ¬∃ a b, haystack = a ++ needle ++ b := by
    rw [find?_eq_none_iff]
    simp only [List.IsInfix, eq_comm]
  constructor
  case some_iff =>
    intro i
    rw [find?_eq_some_iff]
    refine and_congr_right fun _ => ?_
    constructor
    · intro hleast a b hbytes
      exact hleast ⟨a, b, hbytes, rfl⟩
    · rintro hleast - ⟨a, b, hbytes, rfl⟩
      exact hleast a b hbytes
  case none_iff => exact hnone
  case longer =>
    intro hlonger
    rw [find?_eq_none_iff]
    intro hinfix
    exact absurd hinfix.length_le (Nat.not_le.2 hlonger)
  case empty =>
    rintro rfl
    exact find?_nil_left haystack
  case behind => exact fun i h => find?_append h
  case front => exact fun i h => find?_prepend h

/-- A needle whose occurrences overlap. A byte in front of the haystack completes an earlier one,
and a haystack that is a byte too short has none. -/
theorem finds_first_overlapping :
    let needle : Bytes := [97, 98, 97]
    let haystack : Bytes := [98, 97, 98, 97, 98, 97]
    FindsFirst needle haystack ∧ find? needle haystack = some 1 ∧
      find? needle (haystack ++ [98, 97]) = some 1 ∧
      (∃ j ≤ 1 + 1, find? needle ([97] ++ haystack) = some j) ∧
      find? needle ([97] ++ haystack) = some 0 ∧ find? needle [97, 98] = none := by
  intro needle haystack
  have hfinds := finds_first needle haystack
  have hfound : find? needle haystack = some 1 := by decide
  exact ⟨hfinds, hfound, hfinds.behind 1 hfound _, hfinds.front 1 hfound [97], by decide,
    (finds_first needle [97, 98]).longer (by decide)⟩

end Search

end Bytes

end HostServices
