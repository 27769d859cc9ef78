import HostServices.Region.Flat
import HostServices.Region.LinearMemory
import HostServices.Region.ProgramBreak

/-!
# What an extension does

A region keeps a promise towards those who ask it to grow: its pages are powers of two, it tells its
top as long as that is an address, and an extension either is refused and changes nothing, or grants
the old top and moves it by just the size asked for (`Region.Lawful`). The three kinds of regions
keep it, each on a condition of its own:

* a flat region, if its page is a power of two (`FlatRegion.lawful`);
* linear memory, if the memory below it tells the truth about its size (`LinearMemory.lawful`);
* the program break, if the host is honest about it (`BreakHost.lawful`).

Linear memory is used over memories that lie as well, so `LinearMemory.extend_cases` says what an
extension of it does over any memory.
-/

namespace HostServices

namespace Region

variable {ρ : Type} [Region ρ]

/-- What comes of an extension by `size` bytes of a region that keeps its promise. -/
def Extends (top : ρ → Nat) (Kept : ρ → Prop) (r : ρ) (size : Nat) (e : Extension ρ) : Prop :=
  e.verdict = .refused ∧ e.region = r ∨
    e.verdict = .granted (top r) ∧ top e.region = top r + size ∧ Kept e.region

/-- The promise of a kind of region, for those of them that are `Kept`. The top of a region is
counted by `top`, whether or not it can be told as an address. -/
structure Lawful (top : ρ → Nat) (Kept : ρ → Prop) : Prop where
  page : ∀ {r}, Kept r → ∀ n ∈ Region.page? r, Page.IsPowerOfTwo n
  told : ∀ {r}, Kept r → Region.top? r = if top r ≤ Word.max then some (top r) else none
  extend : ∀ {r}, Kept r → ∀ observer? size, (∀ n ∈ Region.page? r, n ∣ size) →
    Extends top Kept r size (Region.extend observer? r size)

end Region

/-! ### Flat regions -/

namespace FlatRegion

theorem extend_cases (r : FlatRegion) (size : Nat) :
    r.extend size = ⟨[.extended size], r, .refused⟩ ∨
      r.top + size ≤ Word.max ∧
        r.extend size = ⟨[.extended size], { r with top := r.top + size }, .granted r.top⟩ := by
  unfold extend
  split
  · exact .inr ⟨by omega, rfl⟩
  · exact .inl rfl

theorem lawful :
    Region.Lawful FlatRegion.top fun r => Page.IsPowerOfTwo r.page ∧ r.top ≤ Word.max where
  page := by
    rintro r ⟨hp, -⟩ n ⟨⟩
    exact hp
  told := fun hr => (if_pos hr.2).symm
  extend := by
    rintro r ⟨hp, -⟩ observer? size -
    change Region.Extends _ _ r size (r.extend size)
    obtain h | ⟨hmax, h⟩ := r.extend_cases size <;> rw [h]
    · exact .inl ⟨rfl, rfl⟩
    · exact .inr ⟨rfl, rfl, hp, hmax⟩

end FlatRegion

/-! ### Linear memory -/

namespace Paged

variable {μ : Type} [Paged μ] {m m' : μ} {n before : Nat}

/-- Every growth of a memory, and of all that grows out of it, comes out as `P` says: of a memory,
the pages asked for, the number reported, and the memory afterwards. -/
def Always (P : μ → Nat → Nat → μ → Prop) (m : μ) : Prop :=
  ∃ Kept : μ → Prop, Kept m ∧ ∀ m, Kept m → ∀ n before m', grow? m n = some (before, m') →
    P m n before m' ∧ Kept m'

theorem Always.grow {P : μ → Nat → Nat → μ → Prop} (hm : Always P m)
    (hg : grow? m n = some (before, m')) : P m n before m' ∧ Always P m' := by
  obtain ⟨Kept, hk, hstep⟩ := hm
  obtain ⟨hp, hk'⟩ := hstep m hk n before m' hg
  exact ⟨hp, Kept, hk', hstep⟩

/-- Whenever the memory grows, it has just those more pages that were asked for. What it reports does
not matter. -/
def Exact : μ → Prop := Always fun m n _ m' => pages m' = pages m + n

/-- Besides, it reports the number of pages that there were. -/
def Truthful : μ → Prop := Always fun m n before m' => before = pages m ∧ pages m' = pages m + n

end Paged

namespace PageStore

theorem grow?_eq_some_iff {m m' : PageStore} {n before : Nat} :
    Paged.grow? m n = some (before, m') ↔ m.pages + n ≤ min m.limit Word.max ∧
      before = m.reported?.getD m.pages ∧ m' = { m with pages := m.pages + n } := by
  change (if m.pages + n ≤ min m.limit Word.max then
    some (m.reported?.getD m.pages, { m with pages := m.pages + n }) else none) = _ ↔ _
  constructor
  · intro h
    split at h <;> cases h
    exact ⟨‹_›, rfl, rfl⟩
  · rintro ⟨hn, rfl, rfl⟩
    rw [if_pos hn]

/-- A store has just those more pages that were asked for, whatever it reports. -/
theorem exact (m : PageStore) : Paged.Exact m := by
  refine ⟨fun _ => True, trivial, ?_⟩
  intro m _ n before m' hg
  obtain ⟨-, -, rfl⟩ := grow?_eq_some_iff.1 hg
  exact ⟨rfl, trivial⟩

/-- A store that reports nothing else tells the truth. -/
theorem truthful {m : PageStore} (hm : m.reported? = none) : Paged.Truthful m := by
  refine ⟨fun m => m.reported? = none, hm, ?_⟩
  intro m hm n before m' hg
  obtain ⟨-, rfl, rfl⟩ := grow?_eq_some_iff.1 hg
  refine ⟨⟨?_, rfl⟩, hm⟩
  rw [hm]
  rfl

end PageStore

namespace LinearMemory

variable {μ : Type} [Paged μ]

/-- The number of bytes of a memory, in exact arithmetic. -/
def size (r : LinearMemory μ) : Nat := Paged.pages r.memory * pageSize

/-- What an extension does, whatever the memory reports. Only where the new top is an address is the
memory asked to grow. -/
theorem extend_cases (observer? : Option String) (r : LinearMemory μ) (size : Nat) :
    ¬ pageSize ∣ size ∧ extend observer? r size = ⟨[], r, .misused .growthNotAligned⟩ ∨
      pageSize ∣ size ∧ extend observer? r size = ⟨[], r, .refused⟩ ∧
        (r.size + size ≤ Word.max → Paged.grow? r.memory (size / pageSize) = none) ∨
      pageSize ∣ size ∧ r.size + size ≤ Word.max ∧ ∃ before memory,
        Paged.grow? r.memory (size / pageSize) = some (before, memory) ∧
        extend observer? r size =
          ⟨.asked (.added (size / pageSize) before) :: tell observer? (r.size + size), ⟨memory⟩,
            .granted (before * pageSize % Word.count)⟩ := by
  by_cases ha : pageSize ∣ size
  · -- whole pages: counting pages and counting bytes come to the same
    have hmod : ¬ size % pageSize ≠ 0 := by simp [Nat.mod_eq_zero_of_dvd ha]
    have hbytes : byteSize? (Paged.pages r.memory + size / pageSize) =
        if r.size + size ≤ Word.max then some (r.size + size) else none := by
      rw [byteSize?, Nat.add_mul, Nat.div_mul_cancel ha, LinearMemory.size]
    by_cases hmax : r.size + size ≤ Word.max
    · rw [if_pos hmax] at hbytes
      cases hg : Paged.grow? r.memory (size / pageSize) with
      | none => exact .inr (.inl ⟨ha, by simp only [extend, if_neg hmod, hbytes, hg], fun _ => rfl⟩)
      | some grown =>
        obtain ⟨before, memory⟩ := grown
        exact .inr (.inr ⟨ha, hmax, before, memory, rfl,
          by simp only [extend, if_neg hmod, hbytes, hg]⟩)
    · rw [if_neg hmax] at hbytes
      exact .inr (.inl ⟨ha, by simp only [extend, if_neg hmod, hbytes], fun h => absurd h hmax⟩)
  · have hmod : size % pageSize ≠ 0 := fun h => ha (Nat.dvd_of_mod_eq_zero h)
    exact .inl ⟨ha, by rw [extend, if_pos hmod]⟩

theorem lawful :
    Region.Lawful (ρ := LinearMemory μ) size fun r => Paged.Truthful r.memory where
  page := by
    rintro r - n ⟨⟩
    exact isPowerOfTwo_pageSize
  told := fun _ => rfl
  extend := by
    intro r hr observer? n hn
    have ha : pageSize ∣ n := hn pageSize rfl
    change Region.Extends _ _ r n (extend observer? r n)
    obtain ⟨hna, -⟩ | ⟨-, he, -⟩ | ⟨-, hmax, before, memory, hg, he⟩ := extend_cases observer? r n
    · exact absurd ha hna
    · rw [he]
      exact .inl ⟨rfl, rfl⟩
    · obtain ⟨⟨rfl, hpages⟩, hm⟩ := hr.grow hg
      rw [he]
      refine .inr ⟨?_, ?_, hm⟩
      · -- the old top was an address, so the address drops nothing
        have hlt : r.size < Word.count := by
          have : Word.max < Word.count := by decide
          omega
        exact congrArg Verdict.granted (Nat.mod_eq_of_lt hlt)
      · change Paged.pages memory * pageSize = r.size + n
        rw [hpages, Nat.add_mul, Nat.div_mul_cancel ha, size]

end LinearMemory

/-! ### The program break -/

namespace BreakHost

variable {η : Type} [BreakHost η] {b b' : η} {n old : Nat}

/-- A host is honest about the break, and stays so: it answers a question for the break and each
move with where the break stood, moves it by just the bytes asked for, and the break stays below the
address that looks like a failure. -/
def Honest (b : η) : Prop :=
  ∃ Kept : η → Prop, Kept b ∧ ∀ b, Kept b → top b < Word.failureAddress ∧ (move? b 0).isSome ∧
    ∀ n old b', move? b n = some (old, b') → old = top b ∧ top b' = top b + n ∧ Kept b'

theorem Honest.top_lt (hb : Honest b) : top b < Word.failureAddress := by
  obtain ⟨Kept, hk, hstep⟩ := hb
  exact (hstep b hk).1

theorem Honest.move (hb : Honest b) (hm : move? b n = some (old, b')) :
    old = top b ∧ top b' = top b + n ∧ Honest b' := by
  obtain ⟨Kept, hk, hstep⟩ := hb
  obtain ⟨hold, htop, hk'⟩ := (hstep b hk).2.2 n old b' hm
  exact ⟨hold, htop, Kept, hk', hstep⟩

theorem Honest.told?_top (hb : Honest b) : told? (top b) = some (top b) :=
  if_neg (Nat.ne_of_lt hb.top_lt)

theorem Honest.query? (hb : Honest b) : BreakHost.query? b = some (top b) := by
  have hsome : (move? b 0).isSome := by
    obtain ⟨Kept, hk, hstep⟩ := hb
    exact (hstep b hk).2.1
  obtain ⟨⟨old, b'⟩, hm⟩ := Option.isSome_iff_exists.1 hsome
  obtain ⟨rfl, -, -⟩ := hb.move hm
  rw [BreakHost.query?, hm]
  exact hb.told?_top

theorem lawful : Region.Lawful (ρ := η) top Honest where
  page := by
    rintro b - n ⟨⟩
  told := by
    intro b hb
    have hle : top b ≤ Word.max := Nat.le_of_lt hb.top_lt
    rw [if_pos hle]
    exact hb.query?
  extend := by
    intro b hb _ n _
    change Region.Extends top Honest b n (extend b n)
    rw [extend]
    split
    · exact .inl ⟨rfl, rfl⟩
    · cases hm : move? b n with
      | none => exact .inl ⟨rfl, rfl⟩
      | some moved =>
        obtain ⟨old, b'⟩ := moved
        obtain ⟨rfl, htop, hb'⟩ := hb.move hm
        exact .inr ⟨by simp only [hb.told?_top]; rfl, htop, hb'⟩

end BreakHost

namespace ProgramBreak

theorem move?_eq_some_iff {b b' : ProgramBreak} {n old : Nat} :
    b.move? n = some (old, b') ↔ ¬ (b.broken ∧ n = 0) ∧ b.top + n ≤ min b.limit Word.max ∧
      old = b.top ∧ b' = { b with top := b.top + n } := by
  constructor
  · intro h
    unfold move? at h
    split at h
    · cases h
    · split at h <;> cases h
      exact ⟨‹_›, ‹_›, rfl, rfl⟩
  · rintro ⟨hq, hn, rfl, rfl⟩
    rw [move?, if_neg hq, if_pos hn]

/-- A host that answers questions and moves the break up to a limit below the failure address is
honest about it. -/
theorem honest {b : ProgramBreak} (hb : b.broken = false) (hl : b.limit < Word.failureAddress)
    (ht : b.top ≤ b.limit) : BreakHost.Honest b := by
  refine ⟨fun b => b.broken = false ∧ b.limit < Word.failureAddress ∧ b.top ≤ b.limit,
    ⟨hb, hl, ht⟩, ?_⟩
  rintro b ⟨hb, hl, ht⟩
  refine ⟨Nat.lt_of_le_of_lt ht hl, ?_, ?_⟩
  · -- a move that goes nowhere stays within the limit
    have hmax : b.limit ≤ Word.max := Nat.le_of_lt hl
    refine Option.isSome_iff_exists.2 ⟨_, move?_eq_some_iff.2 ⟨by simp [hb], ?_, rfl, rfl⟩⟩
    omega
  · intro n old b' hm
    obtain ⟨-, hn, rfl, rfl⟩ := move?_eq_some_iff.1 hm
    exact ⟨rfl, rfl, hb, hl, by simp only; omega⟩

end ProgramBreak

end HostServices
