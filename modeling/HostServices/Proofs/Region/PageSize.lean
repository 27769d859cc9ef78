import HostServices.Proofs.Region.Shared

/-!
# The page size of a process

The page size is settled once in the life of a process, by the first answer of the host that a
request asks for, and from then on everything goes by it (`Regions.pageSize_settled`). What the host would
say later does not matter, and neither does what it would have said to requests that do not need the
page size. A first answer that is a positive power of two is taken as it is; any other stands for the
default size, and one that is positive is warned of, before anything else that the request does.

Behind it stands the page size that the process has after a run (`Regions.pageSize?_finish`): the one
that the first answer settles.
-/

namespace HostServices

namespace Page

/-- The page size that an answer of the host settles. -/
def settledBy (answer : Int) : Nat :=
  if 0 < answer ∧ IsPowerOfTwo answer.toNat then answer.toNat else defaultSize

/-- What is observed when an answer of the host settles the page size. -/
def settling (answer : Int) : List Region.Event :=
  .asked (.pageSize answer) ::
    if 0 < answer ∧ ¬ IsPowerOfTwo answer.toNat then [.notice (.oddPageSize answer.toNat)] else []

theorem isPowerOfTwo_settledBy (answer : Int) : IsPowerOfTwo (settledBy answer) := by
  unfold settledBy
  split
  · rename_i h
    exact h.2
  · exact isPowerOfTwo_defaultSize

end Page

/-- What an answer of the host settles, if it is the first. -/
theorem settlePageSize_none (answer : Int) :
    settlePageSize none answer = (Page.settling answer, Page.settledBy answer) := by
  by_cases hpos : 0 < answer
  · have hhost : Page.hostSize answer = answer.toNat := if_neg hpos.not_ge
    by_cases hpower : Page.IsPowerOfTwo answer.toNat
    all_goals simp [settlePageSize, Page.settling, Page.settledBy, hhost, hpos, hpower]
  · have hhost : Page.hostSize answer = Page.defaultSize := if_pos (not_lt.1 hpos)
    simp [settlePageSize, Page.settling, Page.settledBy, hhost, hpos, Page.isPowerOfTwo_defaultSize]

namespace Arena

variable {ρ : Type} [Region ρ] {a : Arena ρ} {r : Request}

/-- Only a question for the page size is answered with a number. -/
theorem size_perform {answer : Int} {n : Nat} (h : (a.perform answer r).2.1 = .size n) :
    n = a.page answer := by
  cases r with
  | pageSize => exact (Reply.size.inj h).symm
  | grow | top | extend | observe => cases h

theorem page_of_page?_eq_none (h : Region.page? a.region = none) (answer : Int) :
    a.page answer = (settlePageSize a.pageSize? answer).2 := by
  rw [page, pageSize_of_page?_eq_none h]

end Arena

namespace Regions

variable {η μ ρ : Type} [BreakHost η] [Paged μ] [Region ρ]

/-- Whether a step needs the page size. -/
def Step.needsPage (s : Step η μ ρ) : Bool := s.before.needsPage s.call.request

/-- A step goes by a page size: what is observed of it, after an opening, and what it comes to are as
in a process that has known this page size all along, and this is the page size that is reported
and that growth is rounded to. -/
structure Step.GoesBy (s : Step η μ ρ) (page : Nat) (opening : List Region.Event) : Prop where
  events : s.events = opening ++ ((s.before.known page).step s.call).events
  reply : s.reply = ((s.before.known page).step s.call).reply
  after : s.after = ((s.before.known page).step s.call).after
  silent : ∀ e ∈ ((s.before.known page).step s.call).events, e.ofPages = false
  reported : ∀ n, s.reply = .size n → n = page
  rounded : ∀ size requested, .notice (.growing size requested) ∈ s.events →
    size = Page.ceil requested page

/-! ### A step -/

section Visit

variable {σ : Type} [Region σ] (p : Regions η μ ρ) (region : σ)
  (put : σ → Regions η μ ρ → Regions η μ ρ) {r : Arena.Request} {c : Call}

/-- A request to a region that grows by the pages of the process opens with settling the page size,
and goes by what is settled. That it is a request to this region is `hself`, and `hknown` says so of
the process once it knows its page size. -/
theorem goesBy_of_visit (hquiet : Region.Quiet σ) (h : (p.arena region).needsPage r = true)
    (hself : p.perform c.answer c.request = p.visit c.answer r region put)
    (hknown : ∀ n, (p.known n).perform c.answer c.request =
      (p.known n).visit c.answer r region put) :
    (p.step c).GoesBy (settlePageSize p.pageSize? c.answer).2
      (settlePageSize p.pageSize? c.answer).1 := by
  have hpage : (p.arena region).page c.answer = (settlePageSize p.pageSize? c.answer).2 :=
    Arena.page_of_page?_eq_none (Arena.needsPage_eq_true h).1 c.answer
  have hstep : p.perform c.answer c.request =
      ((settlePageSize p.pageSize? c.answer).1 ++
          ((p.known (settlePageSize p.pageSize? c.answer).2).perform c.answer c.request).1,
        ((p.known (settlePageSize p.pageSize? c.answer).2).perform c.answer c.request).2) := by
    rw [hself, hknown, visit, Arena.perform_of_needsPage h]
    rfl
  refine ⟨congrArg Prod.fst hstep, congrArg (·.2.1) hstep, congrArg (·.2.2) hstep, ?_, ?_, ?_⟩
  · intro e he
    change e ∈ ((p.known _).perform c.answer c.request).1 at he
    rw [hknown] at he
    exact Arena.ofPages_perform (a := (p.known _).arena region) hquiet (.inr rfl) c.answer e he
  · intro n hn
    change (p.perform c.answer c.request).2.1 = .size n at hn
    rw [hself] at hn
    exact (Arena.size_perform hn).trans hpage
  · intro size requested hg
    change _ ∈ (p.perform c.answer c.request).1 at hg
    rw [hself] at hg
    exact hpage ▸ Arena.growing_perform hquiet hg

omit [BreakHost η] [Paged μ] [Region ρ] in
theorem pageSize?_visit (hput : ∀ region p, (put region p).pageSize? = p.pageSize?)
    (answer : Int) :
    (p.visit answer r region put).2.2.pageSize? =
      if (p.arena region).needsPage r then some (settlePageSize p.pageSize? answer).2
      else p.pageSize? := by
  rw [visit]
  exact (hput _ _).trans (Arena.pageSize?_perform (p.arena region) answer r)

end Visit

variable {p : Regions η μ ρ} {c : Call}

@[simp] theorem needsPage_step (p : Regions η μ ρ) (c : Call) :
    (p.step c).needsPage = p.needsPage c.request := rfl

/-- A request that needs the page size opens with settling it, and goes by what is settled. -/
theorem goesBy_step (hother : Region.Quiet ρ) (h : p.needsPage c.request = true) :
    (p.step c).GoesBy (settlePageSize p.pageSize? c.answer).2
      (settlePageSize p.pageSize? c.answer).1 := by
  obtain ⟨answer, request⟩ := c
  cases request with
  | pageSize =>
    refine ⟨(List.append_nil _).symm, rfl, rfl, nofun, ?_, ?_⟩
    · intro n hn
      exact (Arena.Reply.size.inj hn).symm
    · intro size requested hg
      -- all that is observed of a question is about the page size
      cases ofPages_settlePageSize p.pageSize? answer _ hg
  | of place r =>
    cases place with
    | heap =>
      exact goesBy_of_visit p p.heap (fun heap p => { p with heap }) (BreakHost.quiet η) h rfl
        fun _ => rfl
    | memory => cases h
    | fixed =>
      exact goesBy_of_visit p FixedRegion.mk (fun _ p => p) FixedRegion.quiet h rfl fun _ => rfl
    | other =>
      exact goesBy_of_visit p p.other (fun other p => { p with other }) hother h rfl fun _ => rfl

/-- Only a request that needs the page size settles it. -/
theorem pageSize?_step (p : Regions η μ ρ) (c : Call) :
    (p.step c).after.pageSize? =
      if p.needsPage c.request then some (settlePageSize p.pageSize? c.answer).2
      else p.pageSize? := by
  obtain ⟨answer, request⟩ := c
  cases request with
  | pageSize => rfl
  | of place r =>
    cases place with
    | heap => exact pageSize?_visit p p.heap _ (fun _ _ => rfl) answer
    | memory => exact pageSize?_visit p p.memory _ (fun _ _ => rfl) answer
    | fixed => exact pageSize?_visit p FixedRegion.mk _ (fun _ _ => rfl) answer
    | other => exact pageSize?_visit p p.other _ (fun _ _ => rfl) answer

/-- A request that does not need the page size has nothing to do with it. -/
theorem ofPages_step (hother : Region.Quiet ρ) (h : p.needsPage c.request = false) :
    ∀ e ∈ (p.step c).events, e.ofPages = false := by
  obtain ⟨answer, request⟩ := c
  cases request with
  | pageSize => cases h
  | of place r =>
    cases place with
    | heap =>
      exact Arena.ofPages_perform (a := p.arena p.heap) (BreakHost.quiet η) (.inl h) answer
    | memory =>
      exact Arena.ofPages_perform (a := p.arena p.memory) (LinearMemory.quiet μ) (.inl rfl) answer
    | fixed =>
      exact Arena.ofPages_perform (a := p.arena FixedRegion.mk) FixedRegion.quiet (.inl h) answer
    | other => exact Arena.ofPages_perform (a := p.arena p.other) hother (.inl h) answer

/-- What a step does about the page size comes from a request that needs it, and is nothing once the
page size is known. -/
theorem filter_ofPages_step (hother : Region.Quiet ρ) (p : Regions η μ ρ) (c : Call) :
    (p.step c).events.filter Region.Event.ofPages =
      if p.needsPage c.request then (settlePageSize p.pageSize? c.answer).1 else [] := by
  split
  · rename_i h
    have hstep := goesBy_step hother h
    have hopening := List.filter_eq_self.2 (ofPages_settlePageSize p.pageSize? c.answer)
    have hrest := List.filter_eq_nil_iff.2 fun e he => Bool.eq_false_iff.1 (hstep.silent e he)
    rw [hstep.events, List.filter_append, hopening]
    exact (congrArg _ hrest).trans (List.append_nil _)
  · rename_i h
    refine List.filter_eq_nil_iff.2 fun e he => Bool.eq_false_iff.1 ?_
    exact ofPages_step hother (Bool.eq_false_iff.2 h) e he

/-! ### Runs -/

section FirstAnswer

omit [BreakHost η] [Paged μ]

/-- What the host says to the first step that needs the page size. -/
def firstAnswer? (steps : List (Step η μ ρ)) : Option Int :=
  (steps.find? Step.needsPage).map fun s => s.call.answer

theorem firstAnswer?_cons (s : Step η μ ρ) (steps : List (Step η μ ρ)) :
    firstAnswer? (s :: steps) =
      if s.needsPage then some s.call.answer else firstAnswer? steps := by
  unfold firstAnswer?
  rw [List.find?_cons]
  split <;> simp [*]

theorem firstAnswer?_concat (steps : List (Step η μ ρ)) (s : Step η μ ρ) :
    firstAnswer? (steps ++ [s]) =
      (firstAnswer? steps).or (if s.needsPage then some s.call.answer else none) := by
  induction steps with
  | nil => exact firstAnswer?_cons s []
  | cons first steps ih =>
    rw [List.cons_append, firstAnswer?_cons, firstAnswer?_cons, ih]
    split <;> rfl

end FirstAnswer

variable {calls : List Call}

/-- The page size after a run is the one that the first answer asked for settles. -/
theorem pageSize?_finish (p : Regions η μ ρ) (calls : List Call) :
    (service.finish p calls).pageSize? =
      (firstAnswer? (service.run p calls)).elim p.pageSize?
        fun answer => some (settlePageSize p.pageSize? answer).2 := by
  induction calls generalizing p with
  | nil => rfl
  | cons c calls ih =>
    have hafter := pageSize?_step p c
    rw [finish_cons, run_cons, ih, firstAnswer?_cons, needsPage_step]
    by_cases h : p.needsPage c.request = true
    · -- the page size is known from here on, whatever is asked later
      rw [if_pos h] at hafter ⊢
      rw [hafter]
      cases firstAnswer? (service.run (p.step c).after calls) <;> rfl
    · rw [if_neg h] at hafter ⊢
      rw [hafter]

/-- All that a run does about the page size is to settle it with the first answer asked for. -/
theorem filter_ofPages_run (hother : Region.Quiet ρ) (p : Regions η μ ρ) (calls : List Call) :
    ((service.run p calls).flatMap Step.events).filter Region.Event.ofPages =
      ((firstAnswer? (service.run p calls)).map
        fun answer => (settlePageSize p.pageSize? answer).1).getD [] := by
  induction calls generalizing p with
  | nil => rfl
  | cons c calls ih =>
    have hafter := pageSize?_step p c
    rw [run_cons, List.flatMap_cons, List.filter_append, ih, filter_ofPages_step hother,
      firstAnswer?_cons, needsPage_step]
    by_cases h : p.needsPage c.request = true
    · -- nothing is left to be settled in the rest of the run
      rw [if_pos h] at hafter
      rw [if_pos h, if_pos h, hafter]
      cases firstAnswer? (service.run (p.step c).after calls) <;> exact List.append_nil _
    · rw [if_neg h] at hafter
      rw [if_neg h, if_neg h, hafter]
      rfl

/-- The page size is settled once in a run of requests. -/
structure SettlesOnce (p : Regions η μ ρ) (calls : List Call) : Prop where
  /-- The host is asked once at most. What it says is warned of if it is a positive number that is
  not a power of two. -/
  asked : ((service.run p calls).flatMap Step.events).filter Region.Event.ofPages =
    ((firstAnswer? (service.run p calls)).map Page.settling).getD []
  /-- A request that needs the page size goes by the power of two that the first answer settles,
  whatever the host would say by now. The first of them tells what the host said before anything
  else. -/
  needed : ∀ c : Call, (service.finish p calls).needsPage c.request = true →
    ∃ answer,
      firstAnswer? (service.run p calls ++ [(service.finish p calls).step c]) = some answer ∧
      Page.IsPowerOfTwo (Page.settledBy answer) ∧
      ((service.finish p calls).step c).GoesBy (Page.settledBy answer)
        (if firstAnswer? (service.run p calls) = none then Page.settling answer else [])
  /-- No other request asks the host, or warns. -/
  spared : ∀ c : Call, (service.finish p calls).needsPage c.request = false →
    ∀ e ∈ ((service.finish p calls).step c).events, e.ofPages = false

/-- The page size of a process is settled by what the host says to the first request that needs it,
and by nothing else, however the requests to its regions are mixed. -/
theorem pageSize_settled (p : Regions η μ ρ) (hp : p.pageSize? = none) (hother : Region.Quiet ρ)
    (calls : List Call) : SettlesOnce p calls := by
  have hfinish : (service.finish p calls).pageSize? =
      (firstAnswer? (service.run p calls)).map Page.settledBy := by
    rw [pageSize?_finish, hp]
    cases firstAnswer? (service.run p calls) with
    | none => rfl
    | some answer => exact congrArg (fun settled => some settled.2) (settlePageSize_none answer)
  refine ⟨?_, ?_, ?_⟩
  · rw [filter_ofPages_run hother, hp]
    simp only [settlePageSize_none]
  · intro c h
    have hstep := goesBy_step hother h
    rw [hfinish] at hstep
    cases hfirst : firstAnswer? (service.run p calls) with
    | none =>
      -- this is the first request that needs the page size, so its answer counts
      rw [hfirst, Option.map_none, settlePageSize_none] at hstep
      refine ⟨c.answer, ?_, Page.isPowerOfTwo_settledBy c.answer, hstep⟩
      rw [firstAnswer?_concat, hfirst, needsPage_step, if_pos h]
      rfl
    | some answer =>
      rw [hfirst] at hstep
      refine ⟨answer, ?_, Page.isPowerOfTwo_settledBy answer, hstep⟩
      rw [firstAnswer?_concat, hfirst]
      rfl
  · intro c h
    exact ofPages_step hother h

/-- Requests to all regions of a process, on a host that says something else each time. The first
that needs the page size is a growth of the break, behind one that asks for its top and one that is
refused. -/
theorem pageSize_settled_odd :
    let p : Regions ProgramBreak PageStore FlatRegion :=
      { heap := { top := 65536, limit := 1048576 }, memory := ⟨{ pages := 1, limit := 4 }⟩,
        other := { page := 512, top := 0, limit := 8192 } }
    let calls : List Call :=
      [⟨-1, .of .heap (.grow 0)⟩, ⟨16384, .of .fixed (.grow (-5))⟩, ⟨16384, .of .other (.grow 1)⟩,
        ⟨5000, .of .heap (.grow 5000)⟩, ⟨16384, .of .fixed (.grow 1)⟩, ⟨16384, .pageSize⟩]
    p.pageSize? = none ∧ Region.Quiet FlatRegion ∧ SettlesOnce p calls ∧
      (service.run p calls).map Step.events =
        [[], [.notice (.shrinkRefused (-5))], [.notice (.growing 512 1), .extended 512],
          [.asked (.pageSize 5000), .notice (.oddPageSize 5000), .notice (.growing 8192 5000)],
          [.notice (.growing 4096 1), .notice (.growthFailed 4096)], []] ∧
      (service.run p calls).map Step.reply =
        [.verdict (.granted 65536), .verdict .refused, .verdict (.granted 0),
          .verdict (.granted 65536), .verdict .refused, .size 4096] ∧
      ((service.finish p calls).step ⟨0, .of .heap (.grow 1)⟩).GoesBy 4096 [] := by
  intro p calls
  have hsettles := pageSize_settled p rfl FlatRegion.quiet calls
  have hfirst : firstAnswer? (service.run p calls ++
      [(service.finish p calls).step ⟨0, .of .heap (.grow 1)⟩]) = some 5000 := by decide
  obtain ⟨answer, hanswer, -, hstep⟩ := hsettles.needed ⟨0, .of .heap (.grow 1)⟩ rfl
  obtain rfl := Option.some.inj (hanswer.symm.trans hfirst)
  exact ⟨rfl, FlatRegion.quiet, hsettles, by decide, by decide, hstep⟩

end Regions

end HostServices
