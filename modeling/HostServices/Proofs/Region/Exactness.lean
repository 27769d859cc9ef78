import HostServices.Proofs.Region.Extension
import HostServices.Proofs.Region.WordRounding

/-!
# Which requests are granted

A positive request is granted or refused, and nothing but exact arithmetic tells which. Linear
memory grants it just if the pages there would be are within the limit of the memory and can be
addressed (`Arena.linear_growth_exact`); the program break, just if the rounded size is a signed
word and the new break is within the limit of the host and the last word
(`Arena.break_growth_exact`). No check on the way refuses more than that, and none lets a bit be
lost.

The last word is a place where a break may stand, and it is also what a host answers when it fails.
A break that stands there is spent: no request is granted any more, a question least of all
(`Arena.run_of_spent`). That the old top of a growth is never the last word follows from the growth
itself, which is not nothing, so callers who are only told an address can tell a failure from it.
-/

namespace HostServices

/-! ### Linear memory -/

namespace Paged

variable {μ : Type} [Paged μ]

/-- The memory has room for so many pages in all: it grows just if it has no more than that
afterwards. -/
def GrowsUpTo (limit : Nat) (m : μ) : Prop :=
  ∀ n, (grow? m n).isSome = true ↔ pages m + n ≤ limit

/-- The same memories, if they answered every request to grow in another way. -/
@[reducible] def answering (grows : μ → Nat → Option (Nat × μ)) : Paged μ := ⟨pages, grows⟩

end Paged

theorem PageStore.growsUpTo {m : PageStore} (hlimit : m.limit ≤ Word.max) :
    Paged.GrowsUpTo m.limit m := by
  intro n
  have hmin : min m.limit Word.max = m.limit := Nat.min_eq_left hlimit
  rw [Option.isSome_iff_exists]
  constructor
  · rintro ⟨⟨before, m'⟩, hg⟩
    exact hmin ▸ (grow?_eq_some_iff.1 hg).1
  · intro hn
    exact ⟨_, grow?_eq_some_iff.2 ⟨by rwa [hmin], rfl, rfl⟩⟩

namespace LinearMemory

variable {μ : Type} [Paged μ] {r : LinearMemory μ} {limit size : Nat}

/-- So many pages can be addressed just if there are fewer than `2 ^ 48`. -/
theorem size_add_le_max_iff (hsize : pageSize ∣ size) :
    r.size + size ≤ Word.max ↔ Paged.pages r.memory + size / pageSize ≤ 2 ^ 48 - 1 := by
  obtain ⟨n, rfl⟩ := hsize
  rw [Nat.mul_div_cancel_left n (by decide), LinearMemory.size]
  simp only [pageSize, Word.max]
  omega

/-- Where the new top is no address, nothing depends on what the memory would say. -/
theorem extend_of_unaddressable (hsize : pageSize ∣ size)
    (h : 2 ^ 48 ≤ Paged.pages r.memory + size / pageSize) (observer? : Option String) :
    extend observer? r size = ⟨[], r, .refused⟩ := by
  obtain ⟨hnot, -⟩ | ⟨-, he, -⟩ | ⟨-, hmax, -⟩ := extend_cases observer? r size
  · exact absurd hsize hnot
  · exact he
  · have hle := (size_add_le_max_iff hsize).1 hmax
    omega

/-- An extension by whole pages is granted just if there is room for them below the limit and below
the end of the address space. -/
theorem extend_exact (ht : Paged.Truthful r.memory) (hl : Paged.GrowsUpTo limit r.memory)
    (hsize : pageSize ∣ size) (observer? : Option String) :
    (Paged.pages r.memory + size / pageSize ≤ min limit (2 ^ 48 - 1) ∧
      ∃ memory, Paged.pages memory = Paged.pages r.memory + size / pageSize ∧
        extend observer? r size =
          ⟨.asked (.added (size / pageSize) (Paged.pages r.memory)) ::
              tell observer? (r.size + size), ⟨memory⟩,
            .granted (Paged.pages r.memory * pageSize)⟩) ∨
    (¬ Paged.pages r.memory + size / pageSize ≤ min limit (2 ^ 48 - 1) ∧
      extend observer? r size = ⟨[], r, .refused⟩) := by
  obtain ⟨hnot, -⟩ | ⟨-, he, hfull⟩ | ⟨-, hmax, before, memory, hg, he⟩ :=
    extend_cases observer? r size
  · exact absurd hsize hnot
  · refine .inr ⟨?_, he⟩
    -- if there were room, the new top would be an address and the memory would have grown
    intro hroom
    obtain ⟨hlimit, haddress⟩ := le_min_iff.1 hroom
    have hnone := hfull ((size_add_le_max_iff hsize).2 haddress)
    have hsome := (hl (size / pageSize)).2 hlimit
    rw [hnone] at hsome
    cases hsome
  · have haddress := (size_add_le_max_iff hsize).1 hmax
    have hlimit : Paged.pages r.memory + size / pageSize ≤ limit := by
      apply (hl _).1
      rw [hg]
      rfl
    obtain ⟨⟨rfl, hpages⟩, -⟩ := ht.grow hg
    -- the old top is below the new one, so no bit of it is dropped
    have hword : Paged.pages r.memory * pageSize < Word.count := by
      calc Paged.pages r.memory * pageSize ≤ r.size + size := Nat.le_add_right _ _
        _ ≤ Word.max := hmax
        _ < Word.count := by decide
    rw [Nat.mod_eq_of_lt hword] at he
    exact .inl ⟨le_min hlimit haddress, memory, hpages, he⟩

end LinearMemory

/-! ### The program break -/

namespace ProgramBreak

variable {b : ProgramBreak} {size : Nat}

/-- An extension that is not nothing is granted just if it is by a signed word and the new break is
within the limit and the last word. -/
theorem extend_eq (hsize : 0 < size) :
    BreakHost.extend b size =
      if size ≤ Word.signedMax ∧ b.top + size ≤ min b.limit Word.max then
        ⟨[], { b with top := b.top + size }, .granted b.top⟩
      else ⟨[], b, .refused⟩ := by
  have hquery : ¬ (b.broken = true ∧ size = 0) := fun h => hsize.ne' h.2
  rw [BreakHost.extend]
  by_cases hsigned : size ≤ Word.signedMax
  · rw [if_neg hsigned.not_gt]
    by_cases hroom : b.top + size ≤ min b.limit Word.max
    · have hmove : BreakHost.move? b size = some (b.top, { b with top := b.top + size }) :=
        move?_eq_some_iff.2 ⟨hquery, hroom, rfl, rfl⟩
      -- the old break is below the new one, so it does not look like a failure
      have htold : BreakHost.told? b.top = some b.top := by
        refine if_neg ?_
        have : Word.failureAddress = Word.max := rfl
        omega
      rw [if_pos ⟨hsigned, hroom⟩, hmove]
      simp only [htold]
      rfl
    · have hmove : BreakHost.move? b size = none := by
        refine Option.eq_none_iff_forall_not_mem.2 ?_
        rintro ⟨old, b'⟩ hb
        exact hroom (move?_eq_some_iff.1 hb).2.1
      rw [if_neg fun h => hroom h.2, hmove]
  · rw [if_pos (Nat.lt_of_not_le hsigned), if_neg fun h => hsigned h.1]

/-- Where the break is told: on a host that answers, within its limit, and not at the last word. -/
theorem query?_eq (b : ProgramBreak) :
    BreakHost.query? b =
      if b.broken = false ∧ b.top ≤ b.limit ∧ b.top < Word.max then some b.top else none := by
  have hmove : BreakHost.move? b 0 =
      if b.broken = true then none else if b.top ≤ min b.limit Word.max then some (b.top, b)
      else none := by
    change b.move? 0 = _
    simp only [move?, and_true, Nat.add_zero]
  have hfailure : Word.failureAddress = Word.max := rfl
  rw [BreakHost.query?, hmove]
  cases b.broken with
  | true => simp
  | false =>
    by_cases hroom : b.top ≤ min b.limit Word.max
    · simp only [Bool.false_eq_true, if_false, if_pos hroom, Option.bind_some, BreakHost.told?]
      by_cases hlast : b.top = Word.failureAddress
      · rw [if_pos hlast, if_neg (by omega)]
      · rw [if_neg hlast, if_pos ⟨trivial, by omega⟩]
    · simp only [Bool.false_eq_true, if_false, if_neg hroom, Option.bind_none]
      rw [if_neg (by omega)]

/-- A break at the last word is not extended, not even by nothing. -/
theorem extend_of_spent (hb : b.top = Word.max) (size : Nat) :
    BreakHost.extend b size = ⟨[], b, .refused⟩ := by
  obtain rfl | hsize := Nat.eq_zero_or_pos size
  · rw [BreakHost.extend, if_neg (Nat.not_lt_zero _)]
    cases hm : BreakHost.move? b 0 with
    | none => rfl
    | some moved =>
      -- a move that goes nowhere is answered with the word that looks like a failure
      obtain ⟨old, b'⟩ := moved
      obtain ⟨-, -, rfl, rfl⟩ := move?_eq_some_iff.1 hm
      have htold : BreakHost.told? b.top = none := if_pos hb
      simp only [htold]
      rfl
  · rw [extend_eq hsize, if_neg]
    rintro ⟨-, hroom⟩
    omega

end ProgramBreak

/-! ### Requests for growth -/

namespace Arena

section Grow

variable {ρ : Type} [Region ρ] {a : Arena ρ} {answer delta : Int}

/-- A positive request is refused where the extension by its rounded size is, and nothing changes
then but that the page size is known. -/
theorem grow_of_refused (hd : 0 < delta) (hp : Page.IsPowerOfTwo (a.page answer))
    {events : List Region.Event} (ht : Region.told events = [])
    (he : a.extension answer delta.toNat = ⟨events, a.region, .refused⟩) :
    (a.grow answer delta).verdict = .refused ∧ (a.grow answer delta).arena.region = a.region ∧
      Region.told (a.grow answer delta).events = [] := by
  rw [grow_of_pos hd hp]
  by_cases hword : delta.toNat + (a.page answer - 1) ≤ Word.max
  · rw [if_pos hword, verdict_growBy, region_growBy, told_growBy, he]
    exact ⟨rfl, rfl, ht⟩
  · rw [if_neg hword]
    exact ⟨rfl, a.region_settled answer, a.told_asked answer⟩

end Grow

/-! ### Requests to linear memory -/

section Linear

open LinearMemory

variable {μ : Type} [Paged μ] {a : Arena (LinearMemory μ)} {delta : Int}

/-- Linear memory has pages of its own. -/
theorem isPowerOfTwo_page (a : Arena (LinearMemory μ)) (answer : Int) :
    Page.IsPowerOfTwo (a.page answer) := isPowerOfTwo_pageSize

/-- The request, if the memory answered every request to grow by `grows`. -/
def growAnswering (grows : μ → Nat → Option (Nat × μ)) (a : Arena (LinearMemory μ))
    (answer delta : Int) : Outcome (LinearMemory μ) :=
  letI := Paged.answering grows
  a.grow answer delta

/-- A request for a top that is no address is refused, and what comes of it does not speak of how
the memory grows. -/
theorem grow_of_unaddressable (answer : Int) (hd : 0 < delta)
    (h : 2 ^ 48 ≤ Paged.pages a.region.memory +
      Page.ceil delta.toNat LinearMemory.pageSize / LinearMemory.pageSize) :
    a.grow answer delta =
      ⟨if delta.toNat + (LinearMemory.pageSize - 1) ≤ Word.max then
          [.notice (.growing (Page.ceil delta.toNat LinearMemory.pageSize) delta.toNat),
            .notice (.growthFailed (Page.ceil delta.toNat LinearMemory.pageSize))]
        else [], a, .refused⟩ := by
  have he : a.extension answer delta.toNat = ⟨[], a.region, .refused⟩ :=
    extend_of_unaddressable (Page.dvd_ceil _ _) h a.observer?
  have hpage : a.page answer = LinearMemory.pageSize := rfl
  rw [grow_of_pos hd (isPowerOfTwo_page a answer), hpage]
  by_cases hword : delta.toNat + (LinearMemory.pageSize - 1) ≤ Word.max
  · rw [if_pos hword, if_pos hword, growBy, he]
    rfl
  · rw [if_neg hword, if_neg hword]
    rfl

/-- **Linear memory is granted exactly what there is room for.** Over a memory that tells the truth
and grows up to a limit, a positive request is granted just if the pages that there would be are
within the limit and fewer than `2 ^ 48`, in exact arithmetic. It is then answered with the number
of bytes before, the memory has just the pages of the rounded size more, and the top is told
accordingly. Otherwise nothing changes and no observer is told anything. Where the new top would be
no address the memory is not asked: the request comes to the same whatever the memory would say. -/
theorem linear_growth_exact {limit : Nat} (ht : Paged.Truthful a.region.memory)
    (hl : Paged.GrowsUpTo limit a.region.memory) (answer : Int) (hd : 0 < delta) :
    let pages := Paged.pages a.region.memory
    let size := Page.ceil delta.toNat LinearMemory.pageSize
    let more := size / LinearMemory.pageSize
    let o := a.grow answer delta
    ((∃ address, o.verdict = .granted address) ↔ pages + more ≤ min limit (2 ^ 48 - 1)) ∧
      (pages + more ≤ min limit (2 ^ 48 - 1) →
        o.verdict = .granted (pages * LinearMemory.pageSize) ∧
          Paged.pages o.arena.region.memory = pages + more ∧
          Region.top? o.arena.region = some (pages * LinearMemory.pageSize + size)) ∧
      (¬ pages + more ≤ min limit (2 ^ 48 - 1) →
        o.verdict = .refused ∧ o.arena.region = a.region ∧ Region.told o.events = []) ∧
      (2 ^ 48 ≤ pages + more → ∀ grows : μ → Nat → Option (Nat × μ),
        a.growAnswering grows answer delta = o) := by
  intro pages size more o
  have hdvd : LinearMemory.pageSize ∣ size := Page.dvd_ceil _ _
  have hsize : more * LinearMemory.pageSize = size := Nat.div_mul_cancel hdvd
  have hunasked : 2 ^ 48 ≤ pages + more → ∀ grows : μ → Nat → Option (Nat × μ),
      a.growAnswering grows answer delta = o := by
    intro h grows
    calc a.growAnswering grows answer delta = _ :=
          letI := Paged.answering grows
          grow_of_unaddressable answer hd h
      _ = o := (grow_of_unaddressable answer hd h).symm
  obtain ⟨hroom, memory, hpages, he⟩ | ⟨hroom, he⟩ := extend_exact ht hl hdvd a.observer?
  · have haddress : pages * LinearMemory.pageSize + size ≤ Word.max := by
      have hle : pages + more ≤ 2 ^ 48 - 1 := hroom.trans (min_le_right _ _)
      exact (size_add_le_max_iff (r := a.region) hdvd).2 hle
    have hgrow : o = a.growBy answer delta.toNat := by
      refine (grow_of_pos hd (isPowerOfTwo_page a answer)).trans (if_pos ?_)
      apply (Page.sum_le_max_iff isPowerOfTwo_pageSize (by decide)).2
      exact (Nat.le_add_left size _).trans haddress
    have hv : o.verdict = .granted (pages * LinearMemory.pageSize) := by
      rw [hgrow, verdict_growBy]
      exact congrArg Extension.verdict he
    have hr : o.arena.region = ⟨memory⟩ := by
      rw [hgrow, region_growBy]
      exact congrArg Extension.region he
    have htop : Region.top? o.arena.region = some (pages * LinearMemory.pageSize + size) := by
      have hbytes : Paged.pages memory * LinearMemory.pageSize =
          pages * LinearMemory.pageSize + size := by
        rw [hpages, Nat.add_mul]
        exact congrArg _ hsize
      rw [hr]
      change byteSize? (Paged.pages memory) = _
      rw [byteSize?, hbytes, if_pos haddress]
    refine ⟨⟨fun _ => hroom, fun _ => ⟨_, hv⟩⟩, fun _ => ⟨hv, ?_, htop⟩, ?_, hunasked⟩
    · rw [hr]
      exact hpages
    · intro hnot
      exact absurd hroom hnot
  · obtain ⟨hv, hr, htold⟩ := grow_of_refused hd (isPowerOfTwo_page a answer) rfl he
    refine ⟨⟨?_, fun h => absurd h hroom⟩, fun h => absurd h hroom, fun _ => ⟨hv, hr, htold⟩,
      hunasked⟩
    rintro ⟨address, hgranted⟩
    cases hv.symm.trans hgranted

/-- Three requests to a memory of just below `2 ^ 48` pages: for the last page that can be
addressed, for one more than that, and for more than the limit. -/
theorem linear_growth_exact_last :
    let a : Arena (LinearMemory PageStore) :=
      ⟨⟨{ pages := 2 ^ 48 - 2, limit := 2 ^ 50 }⟩, none, some "a"⟩
    let b : Arena (LinearMemory PageStore) := ⟨⟨{ pages := 14, limit := 16 }⟩, none, some "a"⟩
    Paged.Truthful a.region.memory ∧ Paged.GrowsUpTo (2 ^ 50) a.region.memory ∧
      Paged.Truthful b.region.memory ∧ Paged.GrowsUpTo 16 b.region.memory ∧
      (a.grow 0 1).verdict = .granted ((2 ^ 48 - 2) * 65536) ∧
      Region.top? (a.grow 0 1).arena.region = some ((2 ^ 48 - 2) * 65536 + 65536) ∧
      (∀ grows : PageStore → Nat → Option (Nat × PageStore),
        a.growAnswering grows 0 65537 = a.grow 0 65537) ∧
      (a.grow 0 65537).arena.region = a.region ∧
      (b.grow 0 131073).verdict = .refused ∧ Region.told (b.grow 0 131073).events = [] := by
  intro a b
  have hta : Paged.Truthful a.region.memory := PageStore.truthful rfl
  have htb : Paged.Truthful b.region.memory := PageStore.truthful rfl
  have hla : Paged.GrowsUpTo (2 ^ 50) a.region.memory :=
    PageStore.growsUpTo (m := a.region.memory) (by decide)
  have hlb : Paged.GrowsUpTo 16 b.region.memory :=
    PageStore.growsUpTo (m := b.region.memory) (by decide)
  have hpos : 0 < (1 : Int) ∧ 0 < (65537 : Int) ∧ 0 < (131073 : Int) := by decide
  obtain ⟨-, hgranted, -, -⟩ := linear_growth_exact hta hla 0 hpos.1
  obtain ⟨-, -, hsame, hunasked⟩ := linear_growth_exact hta hla 0 hpos.2.1
  obtain ⟨-, -, hrefused, -⟩ := linear_growth_exact htb hlb 0 hpos.2.2
  obtain ⟨hv, -, htop⟩ := hgranted (by decide)
  obtain ⟨hv', -, htold⟩ := hrefused (by decide)
  exact ⟨hta, hla, htb, hlb, hv, htop, hunasked (by decide), (hsame (by decide)).2.1, hv', htold⟩

end Linear

/-! ### Requests to the program break -/

section Break

variable {a : Arena ProgramBreak} {delta : Int}

/-- The break has the pages of the process. -/
theorem PageSettled.isPowerOfTwo_breakPage (hp : a.PageSettled) (answer : Int) :
    Page.IsPowerOfTwo (a.page answer) := by
  refine hp.isPowerOfTwo_page ?_ answer
  rintro n ⟨⟩

/-- A positive request is granted just if the rounded size is a signed word and the new break is
within the limit and the last word. -/
theorem break_grow_cases (hp : a.PageSettled) (answer : Int) (hd : 0 < delta) :
    (Page.ceil delta.toNat (a.page answer) ≤ Word.signedMax ∧
        a.region.top + Page.ceil delta.toNat (a.page answer) ≤ min a.region.limit Word.max ∧
        (a.grow answer delta).verdict = .granted a.region.top ∧
        (a.grow answer delta).arena.region =
          { a.region with top := a.region.top + Page.ceil delta.toNat (a.page answer) }) ∨
    (¬ (Page.ceil delta.toNat (a.page answer) ≤ Word.signedMax ∧
        a.region.top + Page.ceil delta.toNat (a.page answer) ≤ min a.region.limit Word.max) ∧
        (a.grow answer delta).verdict = .refused ∧
        (a.grow answer delta).arena.region = a.region) := by
  have hpage : Page.IsPowerOfTwo (a.page answer) := hp.isPowerOfTwo_breakPage answer
  have hdelta : 0 < delta.toNat := Int.lt_toNat.2 hd
  have hle : delta.toNat ≤ Page.ceil delta.toNat (a.page answer) := Page.le_ceil hpage.pos
  have he : a.extension answer delta.toNat = _ :=
    ProgramBreak.extend_eq (b := a.region) (hdelta.trans_le hle)
  by_cases hroom : Page.ceil delta.toNat (a.page answer) ≤ Word.signedMax ∧
      a.region.top + Page.ceil delta.toNat (a.page answer) ≤ min a.region.limit Word.max
  · rw [if_pos hroom] at he
    -- the rounded size is a signed word, and so are the page and what was asked for
    have hword : delta.toNat + (a.page answer - 1) ≤ Word.max := by
      have hpage_le : a.page answer ≤ Page.ceil delta.toNat (a.page answer) :=
        Nat.le_of_dvd (hdelta.trans_le hle) (Page.dvd_ceil _ _)
      have : Word.signedMax + Word.signedMax + 1 = Word.max := rfl
      omega
    have hgrow : a.grow answer delta = a.growBy answer delta.toNat :=
      (grow_of_pos hd hpage).trans (if_pos hword)
    rw [hgrow, verdict_growBy, region_growBy, he]
    exact .inl ⟨hroom.1, hroom.2, rfl, rfl⟩
  · rw [if_neg hroom] at he
    obtain ⟨hv, hr, -⟩ := grow_of_refused hd hpage rfl he
    exact .inr ⟨hroom, hv, hr⟩

/-- A question for the break changes nothing, and is answered where the break can be told. -/
theorem break_grow_zero (a : Arena ProgramBreak) (answer : Int) :
    (a.grow answer 0).arena.region = a.region ∧ (a.grow answer 0).verdict =
      if a.region.broken = false ∧ a.region.top ≤ a.region.limit ∧ a.region.top < Word.max then
        .granted a.region.top
      else .refused := by
  have hquery : Region.top? a.region = _ := a.region.query?_eq
  rw [grow_zero, hquery, apply_ite Verdict.ofTop?]
  exact ⟨rfl, rfl⟩

/-- A request is refused or granted, and it is not the last word that it is granted. -/
theorem break_verdict_cases (hp : a.PageSettled) (answer delta : Int) :
    (a.grow answer delta).verdict = .refused ∨
      ∃ address, (a.grow answer delta).verdict = .granted address ∧
        address ≠ Word.failureAddress := by
  have hfailure : Word.failureAddress = Word.max := rfl
  obtain hneg | rfl | hpos := Int.lt_trichotomy delta 0
  · rw [grow_of_neg a answer hneg]
    exact .inl rfl
  · rw [(break_grow_zero a answer).2]
    split
    · exact .inr ⟨_, rfl, by omega⟩
    · exact .inl rfl
  · obtain ⟨-, hroom, hv, -⟩ | ⟨-, hv, -⟩ := break_grow_cases hp answer hpos
    · -- the new break is above the old one, and no further than the last word
      have hsize : 0 < Page.ceil delta.toNat (a.page answer) := by
        calc 0 < delta.toNat := Int.lt_toNat.2 hpos
          _ ≤ _ := Page.le_ceil (hp.isPowerOfTwo_breakPage answer).pos
      exact .inr ⟨_, hv, by omega⟩
    · exact .inl hv

/-- No call to a break at the last word is granted anything, and it stays there. -/
theorem step_of_spent (hp : a.PageSettled) (ha : a.region.top = Word.max) (c : Call) :
    (∀ v, (a.step c).reply = .verdict v → v = .refused) ∧
      (a.step c).after.region = a.region ∧ (a.step c).after.PageSettled := by
  have hquery : Region.top? a.region = none := by
    refine (a.region.query?_eq).trans (if_neg ?_)
    omega
  obtain ⟨answer, request⟩ := c
  cases request with
  | top =>
    refine ⟨?_, rfl, hp⟩
    rintro v ⟨⟩
    exact congrArg Verdict.ofTop? hquery
  | observe observer => exact ⟨nofun, rfl, hp⟩
  | pageSize => exact ⟨nofun, a.region_settled answer, hp.settled answer⟩
  | extend size =>
    have he : Region.extend a.observer? a.region size = ⟨[], a.region, .refused⟩ :=
      a.region.extend_of_spent ha size
    refine ⟨?_, congrArg Extension.region he, hp⟩
    rintro v ⟨⟩
    exact congrArg Extension.verdict he
  | grow delta =>
    have he (n : Nat) : a.extension answer n = ⟨[], a.region, .refused⟩ :=
      a.region.extend_of_spent ha _
    rw [step_grow]
    obtain ⟨-, h⟩ | ⟨-, h⟩ | ⟨-, hodd, -⟩ | ⟨-, -, h⟩ | ⟨-, -, h⟩ := grow_cases a answer delta
    · rw [h]
      exact ⟨fun v hv => (Reply.verdict.inj hv).symm, rfl, hp⟩
    · rw [h, hquery]
      exact ⟨fun v hv => (Reply.verdict.inj hv).symm, rfl, hp⟩
    · exact absurd (hp.isPowerOfTwo_breakPage answer) hodd
    · rw [h]
      exact ⟨fun v hv => (Reply.verdict.inj hv).symm, a.region_settled answer, hp.settled answer⟩
    · rw [h, verdict_growBy, he]
      refine ⟨fun v hv => (Reply.verdict.inj hv).symm, ?_, hp.growBy answer _⟩
      exact congrArg Extension.region (he _)

/-- Once the break is at the last word, no call of a run is granted anything and the break stays. -/
theorem run_of_spent (hp : a.PageSettled) (ha : a.region.top = Word.max) (calls : List Call) :
    (∀ s ∈ a.run calls, ∀ v, s.reply = .verdict v → v = .refused) ∧
      (a.finish calls).region = a.region := by
  induction calls generalizing a with
  | nil => exact ⟨List.forall_mem_nil _, rfl⟩
  | cons c calls ih =>
    obtain ⟨hreply, hregion, hp'⟩ := step_of_spent hp ha c
    have ha' : (a.step c).after.region.top = Word.max := by rw [hregion, ha]
    obtain ⟨hlater, hfinish⟩ := ih hp' ha'
    exact ⟨List.forall_mem_cons.2 ⟨hreply, hlater⟩, hfinish.trans hregion⟩

/-- **The program break is granted exactly what there is room for.** A positive request is granted
just if the rounded size is a signed word and the new break is within the limit and the last word,
in exact arithmetic. It is then answered with the old break, which is never the last word, and the
break moves by the rounded size; a host that answers questions tells it right after, unless it is
the last word. Otherwise the break stays. A host that does not answer questions grants positive
requests just the same. Once the break is at the last word nothing is granted any more. And a caller
who is only told an address is told the failure address just if the request failed. -/
theorem break_growth_exact (a : Arena ProgramBreak) (hp : a.PageSettled) (answer : Int) :
    (∀ delta : Int, 0 < delta →
      let size := Page.ceil delta.toNat (a.page answer)
      let o := a.grow answer delta
      ((∃ address, o.verdict = .granted address) ↔
        size ≤ Word.signedMax ∧ a.region.top + size ≤ min a.region.limit Word.max) ∧
      (∀ address, o.verdict = .granted address →
        address = a.region.top ∧ address ≠ Word.failureAddress ∧
          o.arena.region = { a.region with top := a.region.top + size } ∧
          (a.region.broken = false → ∀ answer', (o.arena.grow answer' 0).verdict =
            if a.region.top + size = Word.max then .refused
            else .granted (a.region.top + size))) ∧
      ((∀ address, o.verdict ≠ .granted address) →
        o.verdict = .refused ∧ o.arena.region = a.region)) ∧
    (a.region.broken = true →
      (a.grow answer 0).verdict = .refused ∧ (a.grow answer 0).arena.region = a.region) ∧
    (a.region.top = Word.max → ∀ calls,
      (∀ s ∈ a.run calls, ∀ v, s.reply = .verdict v → v = .refused) ∧
        (a.finish calls).region = a.region) ∧
    ∀ delta, let v := (a.grow answer delta).verdict
      (v.address = Word.failureAddress ↔ v = .refused) ∧
        ∀ address, v = .granted address → v.address = address := by
  refine ⟨?_, ?_, fun ha => run_of_spent hp ha, ?_⟩
  · intro delta hd size o
    obtain ⟨hsigned, hroom, hv, hr⟩ | ⟨hroom, hv, hr⟩ := break_grow_cases hp answer hd
    · refine ⟨iff_of_true ⟨_, hv⟩ ⟨hsigned, hroom⟩, ?_, fun h => absurd hv (h _)⟩
      intro address haddress
      cases haddress.symm.trans hv
      refine ⟨rfl, ?_, hr, ?_⟩
      · obtain h | ⟨address, h, hne⟩ := break_verdict_cases hp answer delta
        · cases hv.symm.trans h
        · cases hv.symm.trans h
          exact hne
      intro hbroken answer'
      rw [(break_grow_zero o.arena answer').2, hr]
      -- the new break is within the limit, so it is told unless it is the last word
      by_cases hlast : a.region.top + size = Word.max
      · rw [if_pos hlast, if_neg fun h => h.2.2.ne hlast]
      · rw [if_neg hlast, if_pos]
        exact ⟨hbroken, hroom.trans (min_le_left _ _),
          Nat.lt_of_le_of_ne (hroom.trans (min_le_right _ _)) hlast⟩
    · refine ⟨iff_of_false ?_ hroom, ?_, fun _ => ⟨hv, hr⟩⟩
      · rintro ⟨address, hgranted⟩
        cases hv.symm.trans hgranted
      · intro address hgranted
        cases hv.symm.trans hgranted
  · intro hbroken
    obtain ⟨hr, hv⟩ := break_grow_zero a answer
    refine ⟨hv.trans (if_neg ?_), hr⟩
    rw [hbroken]
    exact fun h => Bool.noConfusion h.1
  · intro delta v
    obtain hv | ⟨address, hv, hne⟩ := break_verdict_cases hp answer delta
    · have hv : v = .refused := hv
      rw [hv]
      exact ⟨iff_of_true rfl rfl, nofun⟩
    · have hv : v = .granted address := hv
      rw [hv]
      refine ⟨iff_of_false hne nofun, ?_⟩
      rintro address' ⟨⟩
      rfl

/-- A break that a request moves to the last word, and a host with the largest page, which leaves no
room for a signed request and does not answer questions. -/
theorem break_growth_exact_end :
    let a : Arena ProgramBreak := ⟨{ top := 2 ^ 64 - 2, limit := Word.max }, some 1, none⟩
    let b : Arena ProgramBreak :=
      ⟨{ top := 0, limit := Word.max, broken := true }, some (2 ^ 63), none⟩
    a.PageSettled ∧ b.PageSettled ∧
      (∃ address, (a.grow 0 1).verdict = .granted address) ∧
      ((a.grow 0 1).arena.grow 0 0).verdict = .refused ∧
      (∀ calls, ((a.grow 0 1).arena.finish calls).region.top = Word.max) ∧
      (¬ ∃ address, (b.grow 0 1).verdict = .granted address) ∧
      (b.grow 0 0).verdict = .refused ∧ (b.grow 0 0).verdict.address = Word.failureAddress := by
  intro a b
  have ha : a.PageSettled := by
    rintro n ⟨⟩
    decide
  have hb : b.PageSettled := by
    rintro n ⟨⟩
    decide
  have ha' : (a.grow 0 1).arena.PageSettled := by
    rintro n ⟨⟩
    decide
  obtain ⟨hgrow, -, -, -⟩ := break_growth_exact a ha 0
  obtain ⟨-, -, hspent, -⟩ := break_growth_exact (a.grow 0 1).arena ha' 0
  obtain ⟨hgrow', hbroken, -, htold⟩ := break_growth_exact b hb 0
  have hgranted : (a.grow 0 1).verdict = .granted (2 ^ 64 - 2) := by decide
  obtain ⟨-, -, hregion, hquery⟩ := (hgrow 1 (by decide)).2.1 _ hgranted
  have hlast : (a.grow 0 1).arena.region.top = Word.max := by
    rw [hregion]
    decide
  refine ⟨ha, hb, ⟨_, hgranted⟩, (hquery rfl 0).trans (if_pos (by decide)), ?_, ?_,
    (hbroken rfl).1, (htold 0).1.2 (hbroken rfl).1⟩
  · intro calls
    rw [(hspent hlast calls).2]
    exact hlast
  · rw [(hgrow' 1 (by decide)).1]
    decide

end Break

end Arena

end HostServices
