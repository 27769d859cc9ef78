import HostServices.Region.Flat
import HostServices.Proofs.Region.Run

/-!
# Rounding on words

`Page.roundUp` refuses a size when the sum that it passes through is no word. It might seem to
refuse too much, since the rounded size can be smaller than that sum. It does not on pages that are
words: the words end at a multiple of every such page, so between the last multiple that is a word
and the end there is just the room that the sum needs (`Page.sum_le_max_iff`). A size is therefore
refused exactly if the rounded size is no word (`Page.roundUp_eq_ceil`).

A machine does the same with a checked sum and a mask (`Page.roundUp_toNat`). A positive signed word
is never refused, for the largest page is half of the words and so is the room above the signed
words. A request for growth always comes as far as its extension (`Arena.grow_of_signed`).
-/

namespace HostServices

namespace Page

variable {size page n : Nat}

/-! ### Pages that are words -/

theorem IsPowerOfTwo.eq_two_pow (hp : IsPowerOfTwo page) (hw : page ≤ Word.max) :
    ∃ k < 64, page = 2 ^ k := by
  obtain ⟨k, rfl⟩ := isPowerOfTwo_iff.1 hp
  rw [Nat.one_shiftLeft] at hw ⊢
  refine ⟨k, ?_, rfl⟩
  apply (Nat.pow_lt_pow_iff_right (a := 2) (by decide)).1
  calc 2 ^ k ≤ Word.max := hw
    _ < 2 ^ 64 := by decide

/-- The words end at a multiple of every page. -/
theorem IsPowerOfTwo.dvd_wordCount (hp : IsPowerOfTwo page) (hw : page ≤ Word.max) :
    page ∣ Word.count := by
  obtain ⟨k, hk, rfl⟩ := hp.eq_two_pow hw
  change 2 ^ k ∣ 2 ^ 64
  exact Nat.pow_dvd_pow 2 hk.le

/-- The largest page is half of the words. -/
theorem IsPowerOfTwo.le_half (hp : IsPowerOfTwo page) (hw : page ≤ Word.max) :
    page ≤ Word.signedMax + 1 := by
  obtain ⟨k, hk, rfl⟩ := hp.eq_two_pow hw
  change 2 ^ k ≤ 2 ^ 63
  exact Nat.pow_le_pow_right (by decide) (Nat.le_of_lt_succ hk)

/-- The sum that the rounding passes through is a word just if the rounded size is one. -/
theorem sum_le_max_iff (hp : IsPowerOfTwo page) (hw : page ≤ Word.max) :
    size + (page - 1) ≤ Word.max ↔ ceil size page ≤ Word.max := by
  have hlt : ceil size page < size + page := ceil_lt hp.pos
  have hle : size ≤ ceil size page := le_ceil hp.pos
  have hcount : Word.count = Word.max + 1 := rfl
  constructor
  · intro hsum
    omega
  · intro hceil
    -- the rounded size and the end of the words are a whole page apart, both being multiples of it
    have hroom : page ≤ Word.count - ceil size page :=
      Nat.le_of_dvd (by omega) (Nat.dvd_sub (hp.dvd_wordCount hw) (dvd_ceil size page))
    omega

/-- A size is refused exactly if the rounded size is no word. -/
theorem roundUp_eq_ceil (hp : IsPowerOfTwo page) (hw : page ≤ Word.max) :
    roundUp size page =
      .ok (if ceil size page ≤ Word.max then some (ceil size page) else none) := by
  rw [roundUp_eq hp]
  simp only [sum_le_max_iff hp hw]

theorem roundUp_eq_some_iff (hp : IsPowerOfTwo page) (hw : page ≤ Word.max) :
    roundUp size page = .ok (some n) ↔ ceil size page = n ∧ n ≤ Word.max := by
  rw [roundUp_eq_ceil hp hw]
  constructor
  · intro h
    split at h <;> cases h
    exact ⟨rfl, ‹_›⟩
  · rintro ⟨rfl, hn⟩
    rw [if_pos hn]

theorem roundUp_eq_none_iff (hp : IsPowerOfTwo page) (hw : page ≤ Word.max) :
    roundUp size page = .ok none ↔ Word.max < ceil size page := by
  rw [roundUp_eq_ceil hp hw, ← Nat.not_le]
  constructor
  · intro h hle
    rw [if_pos hle] at h
    cases h
  · intro hnot
    rw [if_neg hnot]

/-- The rounded size of a signed word is a word, whatever the page. -/
theorem ceil_le_max_of_signed (hp : IsPowerOfTwo page) (hw : page ≤ Word.max)
    (hsize : size ≤ Word.signedMax) : ceil size page ≤ Word.max := by
  have hhalf : page ≤ Word.signedMax + 1 := hp.le_half hw
  have hmax : Word.signedMax + Word.signedMax + 1 = Word.max := rfl
  apply (sum_le_max_iff hp hw).1
  omega

/-! ### The machine's way -/

/-- Rounding as a machine does it: a checked sum, from which the bits below the page are taken
off. -/
def roundUpWord? (size page : BitVec 64) : Option (BitVec 64) :=
  if size.uaddOverflow (page - 1) then none else some ((size + (page - 1)) &&& ~~~(page - 1))

/-- To take the low bits off is to go down to a multiple. -/
theorem toNat_and_not {x low : BitVec 64} {k : Nat} (hlow : low.toNat = 2 ^ k - 1) :
    (x &&& ~~~low).toNat = x.toNat - x.toNat % 2 ^ k := by
  rw [← Nat.div_mul_self_eq_mod_sub_self]
  apply Nat.eq_of_testBit_eq
  intro i
  have hbit : low.getLsbD i = decide (i < k) := by
    rw [← BitVec.testBit_toNat, hlow, Nat.testBit_two_pow_sub_one]
  rw [BitVec.testBit_toNat, BitVec.getLsbD_and, BitVec.getLsbD_not, hbit, Nat.testBit_mul_two_pow]
  -- the bits below `k` are off on both sides, and the others are those of `x`
  by_cases hi : i < k
  · simp [hi, Nat.not_le.2 hi]
  · have hle : k ≤ i := Nat.le_of_not_lt hi
    rw [Nat.testBit_div_two_pow, Nat.sub_add_cancel hle, BitVec.testBit_toNat]
    by_cases hword : i < 64
    · simp [hi, hle, hword]
    · simp [BitVec.getLsbD_of_ge x i (Nat.le_of_not_lt hword)]

/-- Both ways of rounding come to the same. -/
theorem roundUp_toNat (size : BitVec 64) {word : BitVec 64} (hp : IsPowerOfTwo word.toNat) :
    roundUp size.toNat word.toNat = .ok ((roundUpWord? size word).map BitVec.toNat) := by
  have hlow : (word - 1).toNat = word.toNat - 1 := BitVec.toNat_sub_of_le hp.pos
  have hover : size.uaddOverflow (word - 1) = true ↔
      ¬ size.toNat + (word.toNat - 1) ≤ Word.max := by
    have hcount : Word.max + 1 = 2 ^ 64 := rfl
    rw [BitVec.uaddOverflow, hlow, decide_eq_true_iff]
    omega
  rw [roundUp, if_pos hp, roundUpWord?]
  simp only
  by_cases hsum : size.toNat + (word.toNat - 1) ≤ Word.max
  · have hfree : ¬ size.uaddOverflow (word - 1) = true := fun h => hover.1 h hsum
    have hadd : (size + (word - 1)).toNat = size.toNat + (word.toNat - 1) := by
      rw [BitVec.toNat_add_of_not_uaddOverflow hfree, hlow]
    obtain ⟨k, -, hk⟩ := hp.eq_two_pow (Nat.le_of_lt_succ word.isLt)
    have hmask : (word - 1).toNat = 2 ^ k - 1 := by rw [hlow, hk]
    rw [if_pos hsum, if_neg hfree, Option.map_some, toNat_and_not hmask, hadd, hk]
  · rw [if_neg hsum, if_pos (hover.2 hsum), Option.map_none]

end Page

namespace Arena

variable {ρ : Type} [Region ρ] {a : Arena ρ} {answer delta : Int}

/-- The rounding of a request never fails. -/
theorem grow_of_signed (hp : Page.IsPowerOfTwo (a.page answer)) (hw : a.page answer ≤ Word.max)
    (hd : 0 < delta) (hs : delta ≤ Word.signedMax) :
    a.grow answer delta = a.growBy answer delta.toNat := by
  have hsize : delta.toNat ≤ Word.signedMax := Int.toNat_le.2 hs
  rw [grow_of_pos hd hp]
  exact if_pos ((Page.sum_le_max_iff hp hw).2 (Page.ceil_le_max_of_signed hp hw hsize))

/-- **Rounding is exact, and no request fails in it.** A size is rounded to the least multiple of
the page that is not below it, and refused just if no multiple that is a word is so large. A larger
size is not rounded to less, and a rounded size is rounded to itself. On words the same is done by a
checked sum and a mask. A positive signed word is never refused, so that a request for it comes to
the extension of the region, by a multiple of the page that is not zero and less than a page above
what was asked for. -/
theorem rounding_exact {page : Nat} (hp : Page.IsPowerOfTwo page) (hw : page ≤ Word.max) :
    (∀ size, (∀ n, Page.roundUp size page = .ok (some n) ↔
        IsLeast {n | page ∣ n ∧ size ≤ n} n ∧ n ≤ Word.max) ∧
      (Page.roundUp size page = .ok none ↔ ∀ n, page ∣ n → size ≤ n → Word.max < n)) ∧
    (∀ size size' n', size ≤ size' → Page.roundUp size' page = .ok (some n') →
      ∃ n ≤ n', Page.roundUp size page = .ok (some n)) ∧
    (∀ size n, Page.roundUp size page = .ok (some n) → Page.roundUp n page = .ok (some n)) ∧
    (∀ size word : BitVec 64, word.toNat = page →
      Page.roundUp size.toNat page = .ok ((Page.roundUpWord? size word).map BitVec.toNat)) ∧
    ∀ {ρ : Type} [Region ρ] (a : Arena ρ) (answer delta : Int), a.page answer = page →
      0 < delta → delta ≤ Word.signedMax →
      let size := Page.ceil delta.toNat page
      Page.roundUp delta.toNat page = .ok (some size) ∧ size ≠ 0 ∧ page ∣ size ∧
        size < delta.toNat + page ∧ a.grow answer delta = a.growBy answer delta.toNat := by
  have hleast (size : Nat) : IsLeast {n | page ∣ n ∧ size ≤ n} (Page.ceil size page) :=
    Page.isLeast_ceil hp.pos
  refine ⟨fun size => ⟨fun n => ?_, ?_⟩, ?_, ?_, ?_, ?_⟩
  · rw [Page.roundUp_eq_some_iff hp hw]
    constructor
    · rintro ⟨rfl, hn⟩
      exact ⟨hleast size, hn⟩
    · rintro ⟨h, hn⟩
      exact ⟨(hleast size).unique h, hn⟩
  · rw [Page.roundUp_eq_none_iff hp hw]
    constructor
    · intro h n hdvd hle
      exact h.trans_le ((hleast size).2 ⟨hdvd, hle⟩)
    · intro h
      exact h _ (Page.dvd_ceil size page) (Page.le_ceil hp.pos)
  · intro size size' n' hle h
    obtain ⟨rfl, hn'⟩ := (Page.roundUp_eq_some_iff hp hw).1 h
    have hmono := Page.ceil_mono hp.pos hle
    exact ⟨_, hmono, (Page.roundUp_eq_some_iff hp hw).2 ⟨rfl, hmono.trans hn'⟩⟩
  · intro size n h
    obtain ⟨rfl, hn⟩ := (Page.roundUp_eq_some_iff hp hw).1 h
    have hself := Page.ceil_of_dvd hp.pos (Page.dvd_ceil size page)
    exact (Page.roundUp_eq_some_iff hp hw).2 ⟨hself, hn⟩
  · rintro size word rfl
    exact Page.roundUp_toNat size hp
  · rintro ρ _ a answer delta rfl hd hs
    have hsize : delta.toNat ≤ Word.signedMax := Int.toNat_le.2 hs
    have hword := Page.ceil_le_max_of_signed hp hw hsize
    have hpos : 0 < Page.ceil delta.toNat (a.page answer) := by
      calc 0 < delta.toNat := Int.lt_toNat.2 hd
        _ ≤ _ := Page.le_ceil hp.pos
    exact ⟨(Page.roundUp_eq_some_iff hp hw).2 ⟨rfl, hword⟩, hpos.ne', Page.dvd_ceil _ _,
      Page.ceil_lt hp.pos, grow_of_signed hp hw hd hs⟩

/-- The largest page: a size above it is refused, and the largest request is rounded to just it. -/
theorem rounding_exact_largest :
    let page := 2 ^ 63
    let a : Arena FlatRegion := ⟨{ page, top := 0, limit := 2 ^ 63 }, none, none⟩
    Page.IsPowerOfTwo page ∧ page ≤ Word.max ∧ a.page 0 = page ∧
      Page.roundUp (2 ^ 63 + 1) page = .ok none ∧
      (∀ n, page ∣ n → 2 ^ 63 + 1 ≤ n → Word.max < n) ∧
      Page.ceil Word.signedMax page = 2 ^ 63 ∧
      Page.roundUp Word.signedMax page = .ok (some (Page.ceil Word.signedMax page)) ∧
      a.grow 0 Word.signedMax = a.growBy 0 Word.signedMax ∧
      (a.grow 0 Word.signedMax).verdict = .granted 0 := by
  intro page a
  have hp : Page.IsPowerOfTwo page := by decide
  have hw : page ≤ Word.max := by decide
  have hnone : Page.roundUp (2 ^ 63 + 1) page = .ok none := by
    rw [Page.roundUp, if_pos hp]
    rfl
  obtain ⟨hexact, -, -, -, hgrow⟩ := rounding_exact hp hw
  obtain ⟨hround, -, -, -, hgrown⟩ := hgrow a 0 Word.signedMax rfl (by decide) le_rfl
  exact ⟨hp, hw, rfl, hnone, (hexact _).2.1 hnone, by decide, hround, hgrown, by decide⟩

end Arena

end HostServices
