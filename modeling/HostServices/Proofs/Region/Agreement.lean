import HostServices.Proofs.Region.Growth

/-!
# Linear memory and the program break agree

Linear memory counts pages and looks ahead whether its new top is an address; the program break
counts bytes and hands a signed number to its host. Over a memory and a break of the same size and
the same limit, in a process with the pages of linear memory, nobody who asks for growth can tell
them apart: the replies, the tops and the log records are the same (`run_linear_eq_run_break`).

Both sides come to one account of a growth by some pages, as long as the limit is below the number of
pages that can be addressed (`LinearMemory.extend_pages`, `ProgramBreak.extend_pages`).
-/

namespace HostServices

/-- The number of pages of linear memory that do not fit below the end of the address space. -/
def LinearMemory.pageCount : Nat := 2 ^ 48

/-- Linear memory over a store of so many pages, which tells the truth. -/
def LinearMemory.ofPages (pages limit : Nat) : LinearMemory PageStore := ⟨{ pages, limit }⟩

/-- A break as far up as so many pages of linear memory, with a limit as far up as `limit` pages. -/
def ProgramBreak.ofPages (pages limit : Nat) : ProgramBreak where
  top := pages * LinearMemory.pageSize
  limit := limit * LinearMemory.pageSize

/-! ### Growth by some pages -/

section Extend

open LinearMemory

variable {pages limit more : Nat}

theorem LinearMemory.extend_pages (hlimit : limit < pageCount) (observer? : Option String) :
    LinearMemory.extend observer? (.ofPages pages limit) (more * pageSize) =
      if pages + more ≤ limit then
        ⟨.asked (.added more pages) :: tell observer? ((pages + more) * pageSize),
          .ofPages (pages + more) limit,
          .granted (pages * pageSize)⟩
      else ⟨[], .ofPages pages limit, .refused⟩ := by
  have hsize : (LinearMemory.ofPages pages limit).size + more * pageSize =
      (pages + more) * pageSize := (Nat.add_mul pages more pageSize).symm
  have hmore : more * pageSize / pageSize = more := Nat.mul_div_cancel more (by decide)
  have hlimit : limit < 2 ^ 48 := hlimit
  obtain ⟨hna, -⟩ | ⟨-, he, hfull⟩ | ⟨-, hmax, before, memory, hg, he⟩ :=
    extend_cases observer? (.ofPages pages limit) (more * pageSize)
  · exact absurd (Nat.dvd_mul_left pageSize more) hna
  · rw [he, if_neg]
    -- if there were room, neither the address nor the store would have refused
    intro hle
    rw [hsize, hmore] at hfull
    have hgrows := PageStore.grow?_eq_some_iff (m := { pages, limit }) (n := more)
      |>.2 ⟨by simp only [Word.max]; omega, rfl, rfl⟩
    have hword : (pages + more) * pageSize ≤ Word.max := by
      simp only [pageSize, Word.max]
      omega
    exact absurd ((hfull hword).symm.trans hgrows) nofun
  · rw [hmore] at hg
    obtain ⟨hle, hbefore, rfl⟩ := PageStore.grow?_eq_some_iff.1 hg
    have hbefore : before = pages := hbefore
    have hle : pages + more ≤ limit := by
      simp only [ofPages] at hle
      omega
    -- the address of the old top drops nothing
    have hword : before * pageSize < Word.count := by
      simp only [hbefore, pageSize, Word.count]
      omega
    rw [he, if_pos hle, hsize, hmore, Nat.mod_eq_of_lt hword, hbefore]
    rfl

theorem ProgramBreak.extend_pages (hlimit : limit < pageCount)
    (hmore : more * pageSize ≤ Word.signedMax) :
    BreakHost.extend (ProgramBreak.ofPages pages limit) (more * pageSize) =
      if pages + more ≤ limit then
        ⟨[], .ofPages (pages + more) limit, .granted (pages * pageSize)⟩
      else ⟨[], .ofPages pages limit, .refused⟩ := by
  have hlimit : limit < 2 ^ 48 := hlimit
  rw [BreakHost.extend, if_neg hmore.not_gt]
  by_cases hle : pages + more ≤ limit
  · have hmove : BreakHost.move? (ProgramBreak.ofPages pages limit) (more * pageSize) =
        some (pages * pageSize, .ofPages (pages + more) limit) := by
      refine ProgramBreak.move?_eq_some_iff.2 ⟨by simp [ofPages], ?_, rfl, ?_⟩
      · simp only [ofPages, pageSize, Word.max]
        omega
      · rw [ofPages, Nat.add_mul]
        rfl
    -- the break is too low to be taken for a failure
    have htold : BreakHost.told? (pages * pageSize) = some (pages * pageSize) := by
      refine if_neg ?_
      simp only [pageSize, Word.failureAddress, Word.max]
      omega
    simp only [hmove, htold, if_pos hle]
    rfl
  · have hmove : BreakHost.move? (ProgramBreak.ofPages pages limit) (more * pageSize) = none := by
      refine Option.eq_none_iff_forall_not_mem.2 ?_
      rintro ⟨old, b⟩ hb
      have := (ProgramBreak.move?_eq_some_iff.1 hb).2.1
      simp only [ofPages, pageSize] at this
      omega
    simp only [hmove, if_neg hle]

end Extend

/-! ### Requests for growth -/

namespace Arena

/-- What one who asks sees of a step: the reply, the top after it, and the log records. -/
def Step.seen {ρ : Type} [Region ρ] (s : Step ρ) : Reply × Option Nat × List Notice :=
  (s.reply, Region.top? s.after.region, Region.notices s.events)

/-- The page size of a process is that of linear memory: it is known, or the host says so whenever
it is asked. -/
def GrowsByLinearPages (b : Arena ProgramBreak) (deltas : List (Int × Int)) : Prop :=
  b.pageSize? = some LinearMemory.pageSize ∨
    b.pageSize? = none ∧ ∀ d ∈ deltas, d.1 = LinearMemory.pageSize

/-- Linear memory and a break stand at the same number of pages. -/
structure Mirrors (limit : Nat) (a : Arena (LinearMemory PageStore)) (b : Arena ProgramBreak) :
    Prop where
  pages : ∃ pages ≤ limit, a.region = .ofPages pages limit ∧ b.region = .ofPages pages limit

variable {pages limit : Nat} {a : Arena (LinearMemory PageStore)} {b : Arena ProgramBreak}
  {answer delta : Int} {deltas : List (Int × Int)}

theorem GrowsByLinearPages.settle (hp : b.GrowsByLinearPages ((answer, delta) :: deltas)) :
    b.page answer = LinearMemory.pageSize ∧ Region.notices (b.asked answer) = [] ∧
      (b.settled answer).pageSize? = some LinearMemory.pageSize := by
  have hsettle : b.pageSize answer =
      ((settlePageSize b.pageSize? answer).1, (settlePageSize b.pageSize? answer).2,
        { b with pageSize? := some (settlePageSize b.pageSize? answer).2 }) := rfl
  rw [page, asked, settled, hsettle]
  obtain hp | ⟨hp, hanswer⟩ := hp
  · rw [hp]
    exact ⟨rfl, rfl, rfl⟩
  · rw [hp, show answer = LinearMemory.pageSize from hanswer _ List.mem_cons_self]
    exact ⟨rfl, rfl, rfl⟩

theorem GrowsByLinearPages.later (hp : b.GrowsByLinearPages ((answer, delta) :: deltas)) :
    b.GrowsByLinearPages deltas :=
  hp.imp_right fun h => ⟨h.1, fun d hd => h.2 d (List.mem_cons_of_mem _ hd)⟩

/-- While they stand at the same number of pages, both tell the same top. -/
theorem Mirrors.top? (hm : Mirrors limit a b) (hlimit : limit < LinearMemory.pageCount) :
    Region.top? a.region = Region.top? b.region := by
  obtain ⟨pages, hle, ha, hb⟩ := hm.pages
  have hlimit : limit < 2 ^ 48 := hlimit
  have hhonest : BreakHost.Honest b.region := by
    rw [hb]
    refine ProgramBreak.honest rfl ?_ (Nat.mul_le_mul_right _ hle)
    simp only [ProgramBreak.ofPages, LinearMemory.pageSize, Word.failureAddress, Word.max]
    omega
  have hword : pages * LinearMemory.pageSize ≤ Word.max := by
    simp only [LinearMemory.pageSize, Word.max]
    omega
  calc Region.top? a.region = some (pages * LinearMemory.pageSize) := by
        rw [ha]
        exact if_pos hword
    _ = Region.top? b.region := by
        rw [BreakHost.lawful.told hhonest, hb]
        exact (if_pos hword).symm

/-- The extension that a positive request comes to is answered alike on both sides, goes without
further notices, and leaves them at the same number of pages. -/
theorem Mirrors.extension (hm : Mirrors limit a b) (hlimit : limit < LinearMemory.pageCount)
    (hpage : b.page answer = LinearMemory.pageSize) {n : Nat}
    (hn : Page.ceil n LinearMemory.pageSize ≤ Word.signedMax) :
    (a.extension answer n).verdict = (b.extension answer n).verdict ∧
      Region.notices (a.extension answer n).events = [] ∧
      Region.notices (b.extension answer n).events = [] ∧
      ∃ pages ≤ limit, (a.extension answer n).region = .ofPages pages limit ∧
        (b.extension answer n).region = .ofPages pages limit := by
  obtain ⟨pages, hle, ha, hb⟩ := hm.pages
  have hlinear : a.extension answer n = LinearMemory.extend a.observer? (.ofPages pages limit)
      (Page.ceil n LinearMemory.pageSize) := by
    rw [← ha]
    rfl
  have hbreak : b.extension answer n = BreakHost.extend (ProgramBreak.ofPages pages limit)
      (Page.ceil n LinearMemory.pageSize) := by
    rw [← hb, ← hpage]
    rfl
  rw [hlinear, hbreak, Page.ceil, LinearMemory.extend_pages hlimit,
    ProgramBreak.extend_pages hlimit hn]
  by_cases hroom : pages + n ⌈/⌉ LinearMemory.pageSize ≤ limit
  · rw [if_pos hroom, if_pos hroom]
    refine ⟨rfl, ?_, rfl, _, hroom, rfl, rfl⟩
    cases a.observer? <;> rfl
  · rw [if_neg hroom, if_neg hroom]
    exact ⟨rfl, rfl, rfl, pages, hle, rfl, rfl⟩

/-- A request is seen to do the same on both sides, and leaves them at the same number of pages. -/
theorem Mirrors.step (hm : Mirrors limit a b) (hlimit : limit < LinearMemory.pageCount)
    (hp : b.GrowsByLinearPages ((answer, delta) :: deltas))
    (hd : delta ≤ Word.signedMax - 65535) :
    (a.step ⟨answer, .grow delta⟩).seen = (b.step ⟨answer, .grow delta⟩).seen ∧
      Mirrors limit (a.step ⟨answer, .grow delta⟩).after (b.step ⟨answer, .grow delta⟩).after ∧
      (b.step ⟨answer, .grow delta⟩).after.GrowsByLinearPages deltas := by
  rw [step_grow, step_grow]
  obtain hneg | rfl | hpos := Int.lt_trichotomy delta 0
  · rw [grow_of_neg a answer hneg, grow_of_neg b answer hneg]
    exact ⟨by simp only [Step.seen, hm.top? hlimit], hm, hp.later⟩
  · rw [grow_zero, grow_zero]
    exact ⟨by simp only [Step.seen, hm.top? hlimit], hm, hp.later⟩
  · obtain ⟨hpage, hasked, hsettled⟩ := hp.settle
    have hpage' : a.page answer = LinearMemory.pageSize := rfl
    have hpower := LinearMemory.isPowerOfTwo_pageSize
    have hword : delta.toNat + (LinearMemory.pageSize - 1) ≤ Word.max := by
      simp only [LinearMemory.pageSize, Word.max, Word.signedMax] at hd ⊢
      omega
    -- the rounded size is a signed word, by the bound on what is asked for
    have hsigned : Page.ceil delta.toNat LinearMemory.pageSize ≤ Word.signedMax := by
      have := @Page.ceil_lt delta.toNat _ hpower.pos
      simp only [LinearMemory.pageSize, Word.signedMax] at hd this ⊢
      omega
    obtain ⟨hverdict, hquiet, hquiet', hpages⟩ := hm.extension hlimit hpage hsigned
    rw [grow_of_pos hpos (by rwa [hpage']), grow_of_pos hpos (by rwa [hpage]), hpage', hpage,
      if_pos hword, if_pos hword]
    -- after the growth both stand at the same number of pages again
    have hm' : Mirrors limit (a.growBy answer delta.toNat).arena
        (b.growBy answer delta.toNat).arena := by
      obtain ⟨pages, hle, ha, hb⟩ := hpages
      exact ⟨pages, hle, (region_growBy a answer _).trans ha, (region_growBy b answer _).trans hb⟩
    refine ⟨?_, hm', .inl hsettled⟩
    have hnotices : Region.notices (a.growBy answer delta.toNat).events =
        Region.notices (b.growBy answer delta.toNat).events := by
      rw [notices_growBy, notices_growBy, hasked, hquiet, hquiet', hverdict, hpage, hpage']
      rfl
    have hreply : Reply.verdict (a.growBy answer delta.toNat).verdict =
        Reply.verdict (b.growBy answer delta.toNat).verdict := by
      rw [verdict_growBy, verdict_growBy, hverdict]
    exact Prod.ext hreply (Prod.ext (hm'.top? hlimit) hnotices)

/-- **The two strategies agree.** Linear memory that tells the truth, and a program break of the
same size and limit in a process with pages of the same size, are seen to do the same at every step
of a run, whatever is asked for, as long as the limit can be addressed and no request is so close to
the largest signed word that its rounded size is not one. -/
theorem run_linear_eq_run_break (hle : pages ≤ limit) (hlimit : limit < 2 ^ 48)
    (ha : a.region = .ofPages pages limit) (hb : b.region = .ofPages pages limit)
    (hp : b.GrowsByLinearPages deltas) (hd : ∀ d ∈ deltas, d.2 ≤ Word.signedMax - 65535) :
    (a.run (growths deltas)).map Step.seen = (b.run (growths deltas)).map Step.seen := by
  have hm : Mirrors limit a b := ⟨pages, hle, ha, hb⟩
  clear ha hb hle
  induction deltas generalizing a b with
  | nil => rfl
  | cons d deltas ih =>
    obtain ⟨answer, delta⟩ := d
    obtain ⟨hdelta, hd⟩ := List.forall_mem_cons.1 hd
    obtain ⟨hseen, hm', hp'⟩ := hm.step hlimit hp hdelta
    change (a.step ⟨answer, .grow delta⟩).seen :: _ = (b.step ⟨answer, .grow delta⟩).seen :: _
    rw [hseen]
    exact congrArg _ (ih hp' hd hm')

/-- Both strategies over one page of three: two growths, a negative request, a question, a request
that is too large, and one that just fits. -/
theorem run_linear_eq_run_break_mixed :
    let a : Arena (LinearMemory PageStore) := ⟨.ofPages 1 3, none, none⟩
    let b : Arena ProgramBreak := ⟨.ofPages 1 3, none, none⟩
    let deltas : List (Int × Int) :=
      [(65536, 1), (65536, -5), (65536, 0), (65536, 200000), (65536, 65536), (65536, 1)]
    1 ≤ 3 ∧ 3 < 2 ^ 48 ∧ b.GrowsByLinearPages deltas ∧
      (∀ d ∈ deltas, d.2 ≤ Word.signedMax - 65535) ∧
      (a.run (growths deltas)).map Step.seen = (b.run (growths deltas)).map Step.seen ∧
      (b.run (growths deltas)).map Step.reply = [.verdict (.granted 65536), .verdict .refused,
        .verdict (.granted 131072), .verdict .refused, .verdict (.granted 131072),
        .verdict .refused] := by
  intro a b deltas
  have hp : b.GrowsByLinearPages deltas := .inr ⟨rfl, by decide⟩
  have hd : ∀ d ∈ deltas, d.2 ≤ Word.signedMax - 65535 := by decide
  exact ⟨by decide, by decide, hp, hd,
    run_linear_eq_run_break (by decide) (by decide) rfl rfl hp hd, by decide⟩

end Arena

end HostServices
