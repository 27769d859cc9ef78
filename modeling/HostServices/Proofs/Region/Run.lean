import HostServices.Region.Arena
import HostServices.Proofs.Region.Rounding

/-!
# Runs of requests

An arena carries out one call after another. A `Step` is a call with all that came of it, and
`Arena.run` lists the steps of a run, so that what is said about every step of a run is said about
the steps on that list. What every step keeps holds at the end (`Arena.finish_induction`).

The second half says what a request for growth comes to in the three cases of its sign, once and for
all kinds of regions. Where the page is a power of two, as the pages of a process are
(`Arena.PageSettled`), a positive request extends the region by the rounded size or is refused.
-/

namespace HostServices

/-- The notice of an event, if it is one. -/
def Region.Event.notice? : Region.Event → Option Notice
  | .notice n => some n
  | _ => none

/-- The notices among some events, in order. -/
def Region.notices (events : List Region.Event) : List Notice :=
  events.filterMap Region.Event.notice?

/-- What an event tells an observer, if it tells one: who it is, and the new size. -/
def Region.Event.told? : Region.Event → Option (String × Nat)
  | .grown observer size => some (observer, size)
  | _ => none

/-- What some events tell observers, in order. -/
def Region.told (events : List Region.Event) : List (String × Nat) :=
  events.filterMap Region.Event.told?

namespace Arena

variable {ρ : Type} [Region ρ]

/-- A request, with what the host would say meanwhile if it were asked for its page size. -/
structure Call where
  answer : Int
  request : Request
deriving DecidableEq, Repr

/-- A call and what came of it. -/
structure Step (ρ : Type) where
  before : Arena ρ
  call : Call
  events : List Region.Event
  reply : Reply
  after : Arena ρ

/-- Carries out a call. -/
def step (a : Arena ρ) (c : Call) : Step ρ :=
  let (events, reply, after) := a.perform c.answer c.request
  ⟨a, c, events, reply, after⟩

/-- The arena after one call after another. -/
def finish (a : Arena ρ) (calls : List Call) : Arena ρ :=
  calls.foldl (fun a c => (a.step c).after) a

/-- The steps of one call after another. -/
def run (a : Arena ρ) : List Call → List (Step ρ)
  | [] => []
  | c :: calls => a.step c :: (a.step c).after.run calls

variable {a : Arena ρ} {c : Call} {calls : List Call}

@[simp] theorem finish_cons (a : Arena ρ) (c : Call) (calls : List Call) :
    a.finish (c :: calls) = (a.step c).after.finish calls := rfl

theorem finish_append (a : Arena ρ) (calls later : List Call) :
    a.finish (calls ++ later) = (a.finish calls).finish later := List.foldl_append

@[simp] theorem run_nil (a : Arena ρ) : a.run [] = [] := rfl

@[simp] theorem run_cons (a : Arena ρ) (c : Call) (calls : List Call) :
    a.run (c :: calls) = a.step c :: (a.step c).after.run calls := rfl

theorem run_append (a : Arena ρ) (calls later : List Call) :
    a.run (calls ++ later) = a.run calls ++ (a.finish calls).run later := by
  induction calls generalizing a with
  | nil => rfl
  | cons c calls ih => rw [List.cons_append, run_cons, run_cons, ih, finish_cons, List.cons_append]

/-- What every step keeps holds after a run. -/
theorem finish_induction {P : Arena ρ → Prop} (ha : P a)
    (hstep : ∀ c ∈ calls, ∀ a, P a → P (a.step c).after) : P (a.finish calls) := by
  induction calls generalizing a with
  | nil => exact ha
  | cons c calls ih =>
    obtain ⟨hc, hcalls⟩ := List.forall_mem_cons.1 hstep
    exact ih (hc a ha) hcalls

/-! ### The page size of an arena -/

/-- The page size that a growth of the arena rounds to. -/
def page (a : Arena ρ) (answer : Int) : Nat := (a.pageSize answer).2.1

/-- What is observed when the arena is asked for its page size. -/
def asked (a : Arena ρ) (answer : Int) : List Region.Event := (a.pageSize answer).1

/-- The arena after it was asked for its page size. -/
def settled (a : Arena ρ) (answer : Int) : Arena ρ := (a.pageSize answer).2.2

theorem pageSize_eq (a : Arena ρ) (answer : Int) :
    a.pageSize answer = (a.asked answer, a.page answer, a.settled answer) := rfl

/-- The page size of the process is a power of two as soon as it is known. -/
def PageSettled (a : Arena ρ) : Prop := ∀ n ∈ a.pageSize?, Page.IsPowerOfTwo n

@[simp] theorem region_settled (a : Arena ρ) (answer : Int) :
    (a.settled answer).region = a.region := by
  unfold settled pageSize
  split <;> rfl

@[simp] theorem observer?_settled (a : Arena ρ) (answer : Int) :
    (a.settled answer).observer? = a.observer? := by
  unfold settled pageSize
  split <;> rfl

theorem page_of_page? {n : Nat} (hn : Region.page? a.region = some n) (answer : Int) :
    a.page answer = n := by
  rw [page, pageSize, hn]

/-- A page size that was settled before or is settled now is a power of two. -/
theorem isPowerOfTwo_settlePageSize {known? : Option Nat}
    (hk : ∀ n ∈ known?, Page.IsPowerOfTwo n) (answer : Int) :
    Page.IsPowerOfTwo (settlePageSize known? answer).2 := by
  cases known? with
  | none => exact isPowerOfTwo_settlePageSize_none answer
  | some n => exact hk n rfl

theorem PageSettled.settled (ha : a.PageSettled) (answer : Int) :
    (a.settled answer).PageSettled := by
  unfold Arena.settled Arena.pageSize
  split
  · exact ha
  · rintro n ⟨⟩
    exact isPowerOfTwo_settlePageSize ha answer

theorem PageSettled.isPowerOfTwo_page (ha : a.PageSettled)
    (hr : ∀ n ∈ Region.page? a.region, Page.IsPowerOfTwo n) (answer : Int) :
    Page.IsPowerOfTwo (a.page answer) := by
  unfold Arena.page Arena.pageSize
  split
  · exact hr _ ‹_›
  · exact isPowerOfTwo_settlePageSize ha answer

/-! ### A request for growth -/

variable {answer delta : Int}

theorem step_grow (a : Arena ρ) (answer delta : Int) :
    a.step ⟨answer, .grow delta⟩ = ⟨a, ⟨answer, .grow delta⟩, (a.grow answer delta).events,
      .verdict (a.grow answer delta).verdict, (a.grow answer delta).arena⟩ := rfl

theorem grow_of_neg (a : Arena ρ) (answer : Int) (hd : delta < 0) :
    a.grow answer delta = ⟨[.notice (.shrinkRefused delta)], a, .refused⟩ := if_pos hd

theorem grow_zero (a : Arena ρ) (answer : Int) :
    a.grow answer 0 = ⟨[], a, .ofTop? (Region.top? a.region)⟩ := rfl

/-- The extension that a positive request comes to: by the rounded size. -/
def extension (a : Arena ρ) (answer : Int) (delta : Nat) : Extension ρ :=
  Region.extend a.observer? a.region (Page.ceil delta (a.page answer))

/-- A positive request whose rounding is a word. The page size is settled, the growth is announced,
the region is extended, and a failure is told. -/
def growBy (a : Arena ρ) (answer : Int) (delta : Nat) : Outcome ρ where
  events :=
    a.asked answer ++ .notice (.growing (Page.ceil delta (a.page answer)) delta) ::
      (a.extension answer delta).events ++
      if (a.extension answer delta).verdict = .refused then
        [.notice (.growthFailed (Page.ceil delta (a.page answer)))]
      else []
  arena := ⟨(a.extension answer delta).region, (a.settled answer).pageSize?, a.observer?⟩
  verdict := (a.extension answer delta).verdict

@[simp] theorem verdict_growBy (a : Arena ρ) (answer : Int) (delta : Nat) :
    (a.growBy answer delta).verdict = (a.extension answer delta).verdict := rfl

@[simp] theorem region_growBy (a : Arena ρ) (answer : Int) (delta : Nat) :
    (a.growBy answer delta).arena.region = (a.extension answer delta).region := rfl

theorem notices_growBy (a : Arena ρ) (answer : Int) (delta : Nat) :
    Region.notices (a.growBy answer delta).events =
      Region.notices (a.asked answer) ++ .growing (Page.ceil delta (a.page answer)) delta ::
        Region.notices (a.extension answer delta).events ++
        if (a.extension answer delta).verdict = .refused then
          [.growthFailed (Page.ceil delta (a.page answer))]
        else [] := by
  simp only [growBy, Region.notices, List.filterMap_append, List.filterMap_cons,
    Region.Event.notice?, apply_ite (List.filterMap _), List.filterMap_nil]

section FilterMap

variable {γ : Type} {f : Region.Event → Option γ}

/-- While the page size is settled nothing is observed but the answer of the host and notices. -/
theorem filterMap_asked (hnotice : ∀ n, f (.notice n) = none)
    (hpages : ∀ n, f (.asked (.pageSize n)) = none) (a : Arena ρ) (answer : Int) :
    (a.asked answer).filterMap f = [] := by
  have hsettle (known? : Option Nat) : (settlePageSize known? answer).1.filterMap f = [] := by
    cases known? with
    | some n => rfl
    | none =>
      simp only [settlePageSize]
      split <;> simp [hnotice, hpages]
  unfold asked pageSize
  split
  · rfl
  · exact hsettle a.pageSize?

/-- All else that is observed of a growth is observed of the extension itself. -/
theorem filterMap_growBy (hnotice : ∀ n, f (.notice n) = none)
    (hpages : ∀ n, f (.asked (.pageSize n)) = none) (a : Arena ρ) (answer : Int) (delta : Nat) :
    (a.growBy answer delta).events.filterMap f =
      (a.extension answer delta).events.filterMap f := by
  rw [growBy, List.filterMap_append, List.filterMap_append, filterMap_asked hnotice hpages]
  split <;> simp [hnotice]

end FilterMap

theorem told_asked (a : Arena ρ) (answer : Int) : Region.told (a.asked answer) = [] :=
  filterMap_asked (fun _ => rfl) (fun _ => rfl) a answer

/-- Only the extension itself tells an observer. -/
theorem told_growBy (a : Arena ρ) (answer : Int) (delta : Nat) :
    Region.told (a.growBy answer delta).events = Region.told (a.extension answer delta).events :=
  filterMap_growBy (fun _ => rfl) (fun _ => rfl) a answer delta

theorem PageSettled.growBy (ha : a.PageSettled) (answer : Int) (delta : Nat) :
    (a.growBy answer delta).arena.PageSettled := ha.settled answer

/-- A positive request extends the region by the rounded size, if that can be computed. -/
theorem grow_of_pos (hd : 0 < delta) (hp : Page.IsPowerOfTwo (a.page answer)) :
    a.grow answer delta =
      if delta.toNat + (a.page answer - 1) ≤ Word.max then a.growBy answer delta.toNat
      else ⟨a.asked answer, a.settled answer, .refused⟩ := by
  rw [grow, if_neg hd.not_gt, if_neg hd.ne']
  simp only [pageSize_eq, Page.roundUp_eq hp]
  by_cases hword : delta.toNat + (a.page answer - 1) ≤ Word.max
  · -- settling the page size first makes no difference to the extension
    simp only [if_pos hword, growBy, extension, extend, region_settled, observer?_settled]
    rfl
  · simp only [if_neg hword]

/-- A positive request is a mistake where the page is not a power of two. -/
theorem grow_of_not_isPowerOfTwo (hd : 0 < delta) (hp : ¬ Page.IsPowerOfTwo (a.page answer)) :
    a.grow answer delta = ⟨a.asked answer, a.settled answer, .misused .pageNotPowerOfTwo⟩ := by
  have hround : Page.roundUp delta.toNat (a.page answer) = .error .pageNotPowerOfTwo := if_neg hp
  rw [grow, if_neg hd.not_gt, if_neg hd.ne']
  simp only [pageSize_eq, hround]

/-- All that a request for growth may come to. -/
theorem grow_cases (a : Arena ρ) (answer delta : Int) :
    delta < 0 ∧ a.grow answer delta = ⟨[.notice (.shrinkRefused delta)], a, .refused⟩ ∨
      delta = 0 ∧ a.grow answer delta = ⟨[], a, .ofTop? (Region.top? a.region)⟩ ∨
      0 < delta ∧ ¬ Page.IsPowerOfTwo (a.page answer) ∧
        a.grow answer delta = ⟨a.asked answer, a.settled answer, .misused .pageNotPowerOfTwo⟩ ∨
      0 < delta ∧ Page.IsPowerOfTwo (a.page answer) ∧
        a.grow answer delta = ⟨a.asked answer, a.settled answer, .refused⟩ ∨
      0 < delta ∧ Page.IsPowerOfTwo (a.page answer) ∧
        a.grow answer delta = a.growBy answer delta.toNat := by
  obtain hd | rfl | hd := Int.lt_trichotomy delta 0
  · exact .inl ⟨hd, grow_of_neg a answer hd⟩
  · exact .inr (.inl ⟨rfl, grow_zero a answer⟩)
  · by_cases hp : Page.IsPowerOfTwo (a.page answer)
    · have h := grow_of_pos hd hp
      by_cases hword : delta.toNat + (a.page answer - 1) ≤ Word.max
      · rw [if_pos hword] at h
        exact .inr (.inr (.inr (.inr ⟨hd, hp, h⟩)))
      · rw [if_neg hword] at h
        exact .inr (.inr (.inr (.inl ⟨hd, hp, h⟩)))
    · exact .inr (.inr (.inl ⟨hd, hp, grow_of_not_isPowerOfTwo hd hp⟩))

/-- No request for growth installs an observer. -/
theorem observer?_grow (a : Arena ρ) (answer delta : Int) :
    (a.grow answer delta).arena.observer? = a.observer? := by
  rw [grow]
  split
  · rfl
  · split
    · rfl
    · -- whatever the rounding comes to, the page size was settled before it
      simp only [pageSize_eq]
      split <;> exact observer?_settled a answer

end Arena

end HostServices
