import HostServices.Proofs.Region.PageSize

/-!
# Broken promises

Two mistakes can be made with the regions of a process: to let a region grow whose own page size is
not a power of two, and to extend linear memory, past the rounding, by something else than whole
pages. `Regions.broken?` tells them from the request alone. A request is found to be a mistake just
when it is one of these (`Regions.misuse_iff_broken`): growth never comes to ask linear memory for a
part of a page, since it rounds to the memory's pages, and never rounds to a page size of the process
that is not a power of two, since what the host says is replaced if it is none.

A mistake is found before anything happens, so a run goes as if it had not been made.
-/

namespace HostServices

namespace Region

/-- A region that says that it grows by something else than a power of two. -/
def OddPage {ρ : Type} [Region ρ] (r : ρ) : Prop := ∃ n ∈ page? r, ¬ Page.IsPowerOfTwo n

instance {ρ : Type} [Region ρ] (r : ρ) : Decidable (OddPage r) :=
  inferInstanceAs (Decidable (∃ n ∈ page? r, ¬ Page.IsPowerOfTwo n))

/-- A region of this kind can only be misused by an extension that is no multiple of its
granularity. -/
def Careful (ρ : Type) [Region ρ] : Prop :=
  ∀ (observer? : Option String) (r : ρ) (size : Nat), (∀ n ∈ page? r, n ∣ size) →
    ∀ m, (extend observer? r size).verdict ≠ .misused m

/-- A region of this kind cannot be misused by an extension at all. -/
def Faultless (ρ : Type) [Region ρ] : Prop :=
  ∀ (observer? : Option String) (r : ρ) (size : Nat) (m : Misuse),
    (extend observer? r size).verdict ≠ .misused m

theorem Faultless.careful {ρ : Type} [Region ρ] (h : Faultless ρ) : Careful ρ :=
  fun observer? r size _ => h observer? r size

end Region

theorem Verdict.ofTop?_ne_misused (top? : Option Nat) (m : Misuse) : ofTop? top? ≠ .misused m := by
  cases top? <;> exact nofun

theorem FixedRegion.faultless : Region.Faultless FixedRegion := nofun

theorem FlatRegion.faultless : Region.Faultless FlatRegion := by
  intro observer? r size m
  change (r.extend size).verdict ≠ .misused m
  obtain h | ⟨-, h⟩ := r.extend_cases size <;> rw [h] <;> exact nofun

theorem BreakHost.faultless (η : Type) [BreakHost η] : Region.Faultless η := by
  intro observer? b size m
  change (BreakHost.extend b size).verdict ≠ .misused m
  unfold BreakHost.extend
  split
  · exact nofun
  · split
    · exact Verdict.ofTop?_ne_misused _ m
    · exact nofun

theorem LinearMemory.careful (μ : Type) [Paged μ] : Region.Careful (LinearMemory μ) := by
  intro observer? r size hsize m
  have hdvd : LinearMemory.pageSize ∣ size := hsize _ rfl
  change (LinearMemory.extend observer? r size).verdict ≠ .misused m
  obtain ⟨h, -⟩ | ⟨-, h, -⟩ | ⟨-, -, before, memory, -, h⟩ :=
    LinearMemory.extend_cases observer? r size
  · exact absurd hdvd h
  · rw [h]
    exact nofun
  · rw [h]
    exact nofun

namespace Arena

/-- The promise that was broken, if a reply says so. -/
def Reply.misuse? : Reply → Option Misuse
  | .verdict (.misused m) => some m
  | _ => none

theorem Reply.misuse?_verdict {v : Verdict} (h : ∀ m, v ≠ .misused m) :
    (Reply.verdict v).misuse? = none := by
  cases v with
  | granted | refused => rfl
  | misused m => exact absurd rfl (h m)

variable {ρ : Type} [Region ρ] {a : Arena ρ} {answer delta : Int}

/-- To let a region grow by pages of its own that are not powers of two is a mistake, and nothing
else comes of it. -/
theorem grow_of_oddPage (hd : 0 < delta) (hodd : Region.OddPage a.region) (answer : Int) :
    a.grow answer delta = ⟨[], a, .misused .pageNotPowerOfTwo⟩ := by
  obtain ⟨n, hn, hnot⟩ := hodd
  have hpage : a.pageSize answer = ([], n, a) := by
    rw [pageSize, hn]
  have hnot : ¬ Page.IsPowerOfTwo (a.page answer) := by rwa [page, hpage]
  rw [grow_of_not_isPowerOfTwo hd hnot, asked, settled, hpage]

/-- To extend linear memory by a part of a page is a mistake, and nothing else comes of it. -/
theorem extend_of_not_dvd {μ : Type} [Paged μ] {a : Arena (LinearMemory μ)} {size : Nat}
    (h : ¬ LinearMemory.pageSize ∣ size) :
    a.extend size = ⟨[], a, .misused .growthNotAligned⟩ := by
  have hextend : Region.extend a.observer? a.region size =
      ⟨[], a.region, .misused .growthNotAligned⟩ :=
    if_pos fun hmod => h (Nat.dvd_of_mod_eq_zero hmod)
  rw [extend, hextend]

/-- In no other case is a request for growth a mistake. -/
theorem verdict_grow_ne_misused (ha : a.PageSettled) (hcareful : Region.Careful ρ)
    (hodd : 0 < delta → ¬ Region.OddPage a.region) (answer : Int) (m : Misuse) :
    (a.grow answer delta).verdict ≠ .misused m := by
  have hpage (hd : 0 < delta) : Page.IsPowerOfTwo (a.page answer) := by
    refine ha.isPowerOfTwo_page (fun n hn => ?_) answer
    by_contra hnot
    exact hodd hd ⟨n, hn, hnot⟩
  obtain ⟨-, h⟩ | ⟨-, h⟩ | ⟨hd, hp, -⟩ | ⟨-, -, h⟩ | ⟨-, -, h⟩ := grow_cases a answer delta
  · rw [h]
    exact nofun
  · rw [h]
    exact Verdict.ofTop?_ne_misused _ m
  · exact absurd (hpage hd) hp
  · rw [h]
    exact nofun
  · -- the extension is by whole pages, of whatever size they are
    rw [h, verdict_growBy, extension]
    refine hcareful _ _ _ (fun n hn => ?_) m
    rw [page_of_page? hn]
    exact Page.dvd_ceil _ n

/-- A request to a region is a mistake only if it is for a growth by something that is not a power of
two, or one that the region itself finds to be one. -/
theorem misuse?_perform (ha : a.PageSettled) (hcareful : Region.Careful ρ) {r : Request}
    (hgrow : ∀ delta, r = .grow delta → 0 < delta → ¬ Region.OddPage a.region)
    (hextend : ∀ size, r = .extend size →
      ∀ m, (Region.extend a.observer? a.region size).verdict ≠ .misused m) (answer : Int) :
    (a.perform answer r).2.1.misuse? = none := by
  cases r with
  | grow delta =>
    exact Reply.misuse?_verdict (verdict_grow_ne_misused ha hcareful (hgrow delta rfl) answer)
  | top => exact Reply.misuse?_verdict (Verdict.ofTop?_ne_misused _)
  | extend size => exact Reply.misuse?_verdict (hextend size rfl)
  | pageSize => rfl
  | observe observer => rfl

end Arena

namespace Regions

variable {η μ ρ : Type} [BreakHost η] [Paged μ] [Region ρ]

/-- The promise that a request breaks, if it breaks one. -/
def broken? (p : Regions η μ ρ) : Request → Option Misuse
  | .of .memory (.extend size) =>
    if LinearMemory.pageSize ∣ size then none else some .growthNotAligned
  | .of .other (.grow delta) =>
    if 0 < delta ∧ Region.OddPage p.other then some .pageNotPowerOfTwo else none
  | _ => none

/-- The page size of the process is a power of two as soon as it is known. -/
def PageSettled (p : Regions η μ ρ) : Prop := ∀ n ∈ p.pageSize?, Page.IsPowerOfTwo n

variable {p : Regions η μ ρ} {c : Call} {calls : List Call}

/-- A request that breaks a promise is found to be a mistake, and nothing else comes of it. -/
theorem perform_of_broken {r : Request} {m : Misuse} (h : p.broken? r = some m) (answer : Int) :
    p.perform answer r = ([], .verdict (.misused m), p) := by
  unfold broken? at h
  split at h
  · rename_i size
    split at h
    · cases h
    · rename_i hdvd
      obtain rfl := Option.some.inj h
      rw [perform, visit, Arena.perform, Arena.extend_of_not_dvd (a := p.arena p.memory) hdvd]
      rfl
  · rename_i delta
    split at h
    · rename_i hbroken
      obtain rfl := Option.some.inj h
      have hgrow := Arena.grow_of_oddPage (a := p.arena p.other) hbroken.1 hbroken.2 answer
      rw [perform, visit, Arena.perform, hgrow]
      rfl
    · cases h
  · cases h

section Visit

omit [BreakHost η] [Paged μ] [Region ρ]

theorem misuse?_visit {σ : Type} [Region σ] (hp : p.PageSettled) (hcareful : Region.Careful σ)
    (region : σ) {r : Arena.Request}
    (hgrow : ∀ delta, r = .grow delta → 0 < delta → ¬ Region.OddPage region)
    (hextend : ∀ size, r = .extend size →
      ∀ m, (Region.extend p.observer? region size).verdict ≠ .misused m) (answer : Int)
    (put : σ → Regions η μ ρ → Regions η μ ρ) :
    (p.visit answer r region put).2.1.misuse? = none :=
  Arena.misuse?_perform (a := p.arena region) hp hcareful hgrow hextend answer

end Visit

/-- Nothing else is found to be one. -/
theorem misuse?_of_not_broken (hp : p.PageSettled) (hother : Region.Faultless ρ) {r : Request}
    (h : p.broken? r = none) (answer : Int) : (p.perform answer r).2.1.misuse? = none := by
  cases r with
  | pageSize => rfl
  | of place r =>
    cases place with
    | heap =>
      exact misuse?_visit hp (BreakHost.faultless η).careful p.heap nofun
        (fun size _ => BreakHost.faultless η _ _ size) answer _
    | fixed =>
      exact misuse?_visit hp FixedRegion.faultless.careful FixedRegion.mk nofun nofun answer _
    | memory =>
      refine misuse?_visit hp (LinearMemory.careful μ) p.memory ?_ ?_ answer _
      · rintro delta - - ⟨n, ⟨⟩, hnot⟩
        exact hnot LinearMemory.isPowerOfTwo_pageSize
      · rintro size rfl
        refine LinearMemory.careful μ _ _ size ?_
        rintro n ⟨⟩
        -- otherwise the request would break a promise
        by_contra hdvd
        exact absurd ((if_neg hdvd).symm.trans h) nofun
    | other =>
      refine misuse?_visit hp hother.careful p.other ?_ (fun size _ => hother _ _ size) answer _
      rintro delta rfl hd hodd
      exact absurd ((if_pos ⟨hd, hodd⟩).symm.trans h) nofun

theorem PageSettled.step (hp : p.PageSettled) (c : Call) : (p.step c).after.PageSettled := by
  rw [PageSettled, pageSize?_step]
  split
  · rintro n ⟨⟩
    exact Arena.isPowerOfTwo_settlePageSize hp c.answer
  · exact hp

theorem PageSettled.finish (hp : p.PageSettled) (calls : List Call) :
    (service.finish p calls).PageSettled :=
  service.finish_induction hp fun c _ _ hp => hp.step c

/-- A step is a mistake just if its request breaks a promise. -/
theorem misuse?_step (hp : p.PageSettled) (hother : Region.Faultless ρ) (c : Call) :
    (p.step c).reply.misuse? = p.broken? c.request := by
  change (p.perform c.answer c.request).2.1.misuse? = _
  cases h : p.broken? c.request with
  | none => exact misuse?_of_not_broken hp hother h c.answer
  | some m =>
    rw [perform_of_broken h]
    rfl

/-- Nothing is observed of a mistake, and it leaves everything as it was. -/
theorem step_of_misuse (hp : p.PageSettled) (hother : Region.Faultless ρ)
    (h : (p.step c).reply.misuse?.isSome) : (p.step c).events = [] ∧ (p.step c).after = p := by
  rw [misuse?_step hp hother] at h
  obtain ⟨m, hm⟩ := Option.isSome_iff_exists.1 h
  have hperform := perform_of_broken hm c.answer
  exact ⟨congrArg Prod.fst hperform, congrArg (·.2.2) hperform⟩

/-- In a run of requests, just those are found to be mistakes that break a promise. Nothing is
observed of them, and the run goes as if they had not been made. -/
theorem misuse_iff_broken (p : Regions η μ ρ) (hp : p.PageSettled) (hother : Region.Faultless ρ)
    (calls : List Call) :
    (∀ c : Call,
      let s := (service.finish p calls).step c
      s.reply.misuse? = s.before.broken? c.request ∧
        (s.reply.misuse?.isSome → s.events = [] ∧ s.after = s.before)) ∧
      let kept := (service.run p calls).filter fun s => s.reply.misuse?.isNone
      service.run p (kept.map Step.call) = kept ∧
        service.finish p (kept.map Step.call) = service.finish p calls := by
  have hfinish := hp.finish calls
  refine ⟨fun c => ⟨misuse?_step hfinish hother c, step_of_misuse hfinish hother⟩, ?_⟩
  refine service.run_filter hp (fun p c hp => hp.step c) (fun p c => rfl) fun p c hp h => ?_
  rw [Option.isNone_eq_false_iff] at h
  exact (step_of_misuse hp hother h).2

/-- Four mistakes among eight requests: growth by a page size of zero, twice, and extensions of
linear memory that are no whole pages. -/
theorem misuse_iff_broken_mixed :
    let p : Regions ProgramBreak PageStore FlatRegion :=
      { heap := { top := 65536, limit := 1048576 }, memory := ⟨{ pages := 1, limit := 4 }⟩,
        other := { page := 0, top := 0, limit := 8192 }, observer? := some "a" }
    let calls : List Call :=
      [⟨3, .of .other (.grow 1)⟩, ⟨3, .of .memory (.extend 65537)⟩, ⟨3, .of .memory (.grow 65537)⟩,
        ⟨3, .of .other (.grow 0)⟩, ⟨3, .of .memory (.extend 1)⟩, ⟨3, .of .heap (.grow 1)⟩,
        ⟨3, .of .heap (.extend 1)⟩, ⟨3, .of .other (.grow 9)⟩]
    p.PageSettled ∧ Region.Faultless FlatRegion ∧
      (service.run p calls).map (fun s => s.reply.misuse?) =
        [some .pageNotPowerOfTwo, some .growthNotAligned, none, none, some .growthNotAligned, none,
          none, some .pageNotPowerOfTwo] ∧
      (service.run p calls).map Step.events =
        [[], [], [.notice (.growing 131072 65537), .asked (.added 2 1), .grown "a" 196608], [], [],
          [.asked (.pageSize 3), .notice (.oddPageSize 3), .notice (.growing 4096 1)], [], []] ∧
      service.finish p [calls[2], calls[3], calls[5], calls[6]] = service.finish p calls ∧
      ((service.finish p calls).step ⟨3, .of .other (.grow 7)⟩).events = [] := by
  intro p calls
  have hp : p.PageSettled := nofun
  have hkept : ((service.run p calls).filter fun s => s.reply.misuse?.isNone).map Step.call =
      [calls[2], calls[3], calls[5], calls[6]] := by decide
  obtain ⟨hstep, -, hfinish⟩ := misuse_iff_broken p hp FlatRegion.faultless calls
  obtain ⟨hmisuse, hnothing⟩ := hstep ⟨3, .of .other (.grow 7)⟩
  rw [hkept] at hfinish
  exact ⟨hp, FlatRegion.faultless, by decide, by decide, hfinish, (hnothing (hmisuse ▸ rfl)).1⟩

end Regions

end HostServices
