import HostServices.Proofs.Region.Extension
import HostServices.Proofs.Region.Run

/-!
# The observer of growth

A part of the program that keeps the size of linear memory installs an observer, and is told the new
size whenever the memory grew. It never has to ask again (`observer_fresh`): each growth tells the
observer that was installed last, and nobody else, a size that is the top right after, and nothing
else tells anybody anything. So the last thing an observer was told stays true until another one
takes its place, and what is told grows with every request.

All that is needed of the memory is that it grows by the pages asked for (`Paged.Exact`). What it
reports as its size before is passed on as an address and tells the observer nothing: the size told
is computed before the growth, from the number of pages and the pages asked for. It is told after the
growth (`Arena.Step.effects`).

Everything follows from what one step may do (`Arena.linear_step_cases`): it is quiet and leaves the
region as it is, or the region grows and the observer is told.
-/

namespace HostServices

/-! ### What is done to a memory and its observer -/

/-- Something that is done to a memory or its observer. -/
inductive Region.Effect where
  /-- So many pages were added to the memory, which told how many it had before. -/
  | added (pages before : Nat)
  /-- An observer was told the new size. -/
  | told (observer : String) (size : Nat)
deriving DecidableEq, Repr

namespace Region

/-- What an event did to a memory or its observer. -/
def Event.effect? : Event → Option Effect
  | .asked (.added pages before) => some (.added pages before)
  | .grown observer size => some (.told observer size)
  | .asked (.pageSize _) | .notice _ | .extended _ => none

/-- What some events did to a memory and its observer, in order. -/
def effects (events : List Event) : List Effect := events.filterMap Event.effect?

def Effect.told? : Effect → Option (String × Nat)
  | told observer size => some (observer, size)
  | added .. => none

/-- Observers are told in the order of the effects. -/
theorem told_eq_filterMap_effects (events : List Event) :
    told events = (effects events).filterMap Effect.told? := by
  rw [told, effects, List.filterMap_filterMap]
  congr 1
  funext e
  cases e with
  | asked answer => cases answer <;> rfl
  | notice | grown | extended => rfl

end Region

def Verdict.isGranted : Verdict → Bool
  | .granted _ => true
  | .refused | .misused _ => false

namespace Arena

/-! ### What a step tells -/

namespace Step

variable {ρ : Type}

/-- What a step tells observers. -/
def told (s : Step ρ) : List (String × Nat) := Region.told s.events

/-- What a step does to the memory and its observer, in order. -/
def effects (s : Step ρ) : List Region.Effect := Region.effects s.events

theorem told_eq_filterMap_effects (s : Step ρ) :
    s.told = s.effects.filterMap Region.Effect.told? := Region.told_eq_filterMap_effects s.events

/-- Whether the region grew in a step: a positive request or an extension was granted. -/
def grew (s : Step ρ) : Bool :=
  match s.call.request, s.reply with
  | .grow delta, .verdict v => decide (0 < delta) && v.isGranted
  | .extend _, .verdict v => v.isGranted
  | _, _ => false

end Step

/-- What a run tells observers, in order. -/
def tellings {ρ : Type} (steps : List (Step ρ)) : List (String × Nat) := steps.flatMap Step.told

/-- What a run tells one observer, in order. -/
def tellingsTo {ρ : Type} (observer : String) (steps : List (Step ρ)) : List Nat :=
  ((tellings steps).filter (·.1 = observer)).map Prod.snd

theorem getLast?_tellingsTo {ρ : Type} {observer : String} {size : Nat} {steps : List (Step ρ)}
    (hlast : (tellings steps).getLast? = some (observer, size)) :
    (tellingsTo observer steps).getLast? = some size := by
  obtain ⟨init, hinit⟩ := List.getLast?_eq_some_iff.1 hlast
  rw [tellingsTo, hinit]
  simp

/-- The observers that some calls install, in order. -/
def installed (calls : List Call) : List String :=
  calls.filterMap fun c => match c.request with
    | .observe observer => some observer
    | _ => none

section Observer

variable {ρ : Type} [Region ρ] {a : Arena ρ} {calls : List Call} {observer : String}

theorem installed_append (calls later : List Call) :
    installed (calls ++ later) = installed calls ++ installed later := List.filterMap_append

/-- Only an observer that is installed changes the observer. -/
theorem observer?_step (a : Arena ρ) (c : Call) :
    (a.step c).after.observer? = (installed [c]).getLast?.or a.observer? := by
  obtain ⟨answer, request⟩ := c
  cases request with
  | grow delta => exact observer?_grow a answer delta
  | pageSize => exact observer?_settled a answer
  | _ => rfl

/-- The observer after a run is the one installed last, or the first one if none was. -/
theorem observer?_finish (a : Arena ρ) (calls : List Call) :
    (a.finish calls).observer? = (installed calls).getLast?.or a.observer? := by
  induction calls generalizing a with
  | nil => rfl
  | cons c calls ih =>
    have hcons : installed (c :: calls) = installed [c] ++ installed calls :=
      installed_append [c] calls
    rw [finish_cons, ih, observer?_step, hcons, List.getLast?_append, Option.or_assoc]

/-- An observer stays as long as nobody else is installed. -/
theorem observer?_finish_of_installed (ho : a.observer? = some observer)
    (hcalls : ∀ o ∈ installed calls, o = observer) :
    (a.finish calls).observer? = some observer := by
  rw [observer?_finish, ho]
  cases hlast : (installed calls).getLast? with
  | none => rfl
  | some o => exact congrArg some (hcalls o (List.mem_of_getLast? hlast))

end Observer

/-! ### A step over linear memory -/

section Linear

variable {μ : Type} [Paged μ] {a : Arena (LinearMemory μ)} {calls mid : List Call}
  {observer : String}

/-- What a growth by `more` bytes comes to: the memory grew by as many pages, the new top can be
addressed, and just the observer there is is told of it after that. -/
structure Grows (r : LinearMemory μ) (observer? : Option String) (more : Nat)
    (after : LinearMemory μ) (effects : List Region.Effect) : Prop where
  grown : ∃ before,
    Paged.grow? r.memory (more / LinearMemory.pageSize) = some (before, after.memory) ∧
      effects = .added (more / LinearMemory.pageSize) before ::
        (observer?.map (.told · after.size)).toList
  size : after.size = r.size + more
  addressable : after.size ≤ Word.max
  exact : Paged.Exact after.memory

theorem Grows.told {r after : LinearMemory μ} {observer? : Option String} {more : Nat}
    {effects : List Region.Effect} (hg : Grows r observer? more after effects) :
    effects.filterMap Region.Effect.told? = (observer?.map (·, after.size)).toList := by
  obtain ⟨before, -, he⟩ := hg.grown
  rw [he]
  cases observer? <;> rfl

/-- An extension is granted, and then the memory grows and the observer there is is told the new
size, or it does nothing to either and leaves the region as it is. -/
theorem extend_effects {r : LinearMemory μ} (hm : Paged.Exact r.memory) (observer? : Option String)
    (size : Nat) :
    (Region.extend observer? r size).verdict.isGranted = true ∧
        Grows r observer? size (Region.extend observer? r size).region
          (Region.effects (Region.extend observer? r size).events) ∨
      (Region.extend observer? r size).verdict.isGranted = false ∧
        Region.effects (Region.extend observer? r size).events = [] ∧
        (Region.extend observer? r size).region = r := by
  have hextend : Region.extend observer? r size = LinearMemory.extend observer? r size := rfl
  rw [hextend]
  obtain ⟨-, he⟩ | ⟨-, he, -⟩ | ⟨ha, hmax, before, memory, hg, he⟩ :=
    LinearMemory.extend_cases observer? r size
  · rw [he]
    exact .inr ⟨rfl, rfl, rfl⟩
  · rw [he]
    exact .inr ⟨rfl, rfl, rfl⟩
  · obtain ⟨hpages, hm'⟩ := hm.grow hg
    have hsize : (⟨memory⟩ : LinearMemory μ).size = r.size + size := by
      rw [LinearMemory.size, hpages, Nat.add_mul, Nat.div_mul_cancel ha]
      rfl
    rw [he]
    refine .inl ⟨rfl, ⟨before, hg, ?_⟩, hsize, hsize.trans_le hmax, hm'⟩
    rw [hsize]
    cases observer? <;> rfl

/-- A step is quiet and leaves the region as it is, or the region grows by something, unless the call
was an extension by nothing. -/
theorem linear_step_cases (hm : Paged.Exact a.region.memory) (c : Call) :
    (a.step c).grew = false ∧ (a.step c).effects = [] ∧ (a.step c).after.region = a.region ∨
      (a.step c).grew = true ∧ ∃ more, (c.request ≠ .extend 0 → 0 < more) ∧
        Grows a.region a.observer? more (a.step c).after.region (a.step c).effects := by
  have hasked (answer : Int) : Region.effects (a.asked answer) = [] :=
    filterMap_asked (fun _ => rfl) (fun _ => rfl) a answer
  obtain ⟨answer, request⟩ := c
  -- only an extension, direct or after the rounding, can be anything but quiet
  cases request with
  | top => exact .inl ⟨rfl, rfl, rfl⟩
  | observe observer => exact .inl ⟨rfl, rfl, rfl⟩
  | pageSize => exact .inl ⟨rfl, hasked answer, region_settled a answer⟩
  | extend size =>
    obtain ⟨hv, hg⟩ | hq := extend_effects hm a.observer? size
    · refine .inr ⟨hv, size, ?_, hg⟩
      intro hne
      exact Nat.pos_of_ne_zero fun h => hne (by rw [h])
    · exact .inl hq
  | grow delta =>
    rw [step_grow]
    obtain hneg | rfl | hpos := Int.lt_trichotomy delta 0
    · rw [grow_of_neg a answer hneg]
      exact .inl ⟨Bool.and_false _, rfl, rfl⟩
    · rw [grow_zero]
      exact .inl ⟨rfl, rfl, rfl⟩
    · have hpower : Page.IsPowerOfTwo (a.page answer) := LinearMemory.isPowerOfTwo_pageSize
      rw [grow_of_pos hpos hpower]
      by_cases hword : delta.toNat + (a.page answer - 1) ≤ Word.max
      · rw [if_pos hword]
        have hsize : 0 < Page.ceil delta.toNat (a.page answer) := by
          have := @Page.le_ceil delta.toNat _ hpower.pos
          omega
        have hverdict := verdict_growBy a answer delta.toNat
        have hregion := region_growBy a answer delta.toNat
        have heffects : Region.effects (a.growBy answer delta.toNat).events =
            Region.effects (a.extension answer delta.toNat).events :=
          filterMap_growBy (fun _ => rfl) (fun _ => rfl) a answer delta.toNat
        -- the extension is the one that `extend_effects` speaks of
        rw [extension] at hverdict hregion heffects
        obtain ⟨hv, hg⟩ | ⟨hv, he, hr⟩ :=
          extend_effects hm a.observer? (Page.ceil delta.toNat (a.page answer))
        · rw [← hverdict] at hv
          rw [← heffects, ← hregion] at hg
          exact .inr ⟨Bool.and_eq_true_iff.2 ⟨decide_eq_true hpos, hv⟩, _, fun _ => hsize, hg⟩
        · rw [← hverdict] at hv
          rw [← heffects] at he
          rw [← hregion] at hr
          exact .inl ⟨Bool.and_eq_false_iff.2 (.inr hv), he, hr⟩
      · -- the rounded size is no word, so the request is refused before the extension
        rw [if_neg hword]
        exact .inl ⟨Bool.and_false _, hasked answer, region_settled a answer⟩

theorem exact_finish (hm : Paged.Exact a.region.memory) (calls : List Call) :
    Paged.Exact (a.finish calls).region.memory := by
  refine finish_induction
    (P := fun a : Arena (LinearMemory μ) => Paged.Exact a.region.memory) hm ?_
  intro c _ a hm
  obtain ⟨-, -, hr⟩ | ⟨-, more, -, hg⟩ := linear_step_cases hm c
  · rw [hr]
    exact hm
  · exact hg.exact

/-! ### What a run tells -/

theorem tellings_append (a : Arena (LinearMemory μ)) (calls later : List Call) :
    tellings (a.run (calls ++ later)) =
      tellings (a.run calls) ++ tellings ((a.finish calls).run later) := by
  rw [tellings, run_append, List.flatMap_append]
  rfl

theorem tellings_concat (a : Arena (LinearMemory μ)) (calls : List Call) (c : Call) :
    tellings (a.run (calls ++ [c])) =
      tellings (a.run calls) ++ ((a.finish calls).step c).told := by
  rw [tellings_append]
  exact congrArg _ (List.append_nil _)

theorem finish_concat (a : Arena (LinearMemory μ)) (calls : List Call) (c : Call) :
    a.finish (calls ++ [c]) = ((a.finish calls).step c).after := finish_append a calls [c]

/-- No size that was told is above the top. -/
theorem tellings_le (hm : Paged.Exact a.region.memory) (calls : List Call) :
    ∀ p ∈ tellings (a.run calls), p.2 ≤ (a.finish calls).region.size := by
  -- from the end, since the last step has the top that all is compared with
  induction calls using List.reverseRecOn with
  | nil => exact nofun
  | append_singleton calls c ih =>
    rw [tellings_concat, finish_concat]
    intro p hp
    rw [Step.told_eq_filterMap_effects] at hp
    obtain ⟨-, he, hr⟩ | ⟨-, more, -, hg⟩ := linear_step_cases (exact_finish hm calls) c
    · rw [he, List.filterMap_nil, List.append_nil] at hp
      rw [hr]
      exact ih p hp
    · rcases List.mem_append.1 hp with hp | hp
      · rw [hg.size]
        exact (ih p hp).trans (Nat.le_add_right _ _)
      · rw [hg.told, Option.mem_toList, Option.map_eq_some_iff] at hp
        obtain ⟨o, -, rfl⟩ := hp
        exact le_rfl

/-- Once an observer was told of a growth, and as long as nobody else is installed, the last thing
that anybody was told is that this observer was told the top. -/
theorem getLast?_tellings (hm : Paged.Exact a.region.memory) (ho : a.observer? = some observer)
    (hmid : ∀ o ∈ installed mid, o = observer) (hgrew : ∃ s ∈ a.run mid, s.grew = true) :
    (tellings (a.run mid)).getLast? = some (observer, (a.finish mid).region.size) ∧
      (a.finish mid).region.size ≤ Word.max := by
  induction mid using List.reverseRecOn with
  | nil =>
    obtain ⟨s, hs, -⟩ := hgrew
    cases hs
  | append_singleton mid c ih =>
    have hmid : ∀ o ∈ installed mid, o = observer := by
      intro o h
      refine hmid o ?_
      rw [installed_append]
      exact List.mem_append_left _ h
    rw [tellings_concat, finish_concat, Step.told_eq_filterMap_effects]
    obtain ⟨hquiet, he, hr⟩ | ⟨-, more, -, hg⟩ := linear_step_cases (exact_finish hm mid) c
    · -- the growth was an earlier one
      rw [he, hr, List.filterMap_nil, List.append_nil]
      refine ih hmid ?_
      obtain ⟨s, hs, hgrew⟩ := hgrew
      rw [run_append] at hs
      rcases List.mem_append.1 hs with hs | hs
      · exact ⟨s, hs, hgrew⟩
      · rw [List.mem_singleton.1 hs, hquiet] at hgrew
        cases hgrew
    · rw [hg.told, observer?_finish_of_installed ho hmid]
      exact ⟨List.getLast?_concat, hg.addressable⟩

/-- What a step comes to, when `observer?` was installed last and `past` is what was told before. -/
structure Step.Informs (s : Step (LinearMemory μ)) (observer? : Option String)
    (past : List (String × Nat)) : Prop where
  /-- Where the region grew, the memory did, and the observer is told the top that is answered right
  after, once and after the memory grew. -/
  grown : s.grew = true → ∃ more before top,
    Paged.grow? s.before.region.memory more = some (before, s.after.region.memory) ∧
      Region.top? s.after.region = some top ∧ s.told = (observer?.map (·, top)).toList ∧
      s.effects = .added more before :: (observer?.map (.told · top)).toList
  /-- Where it did not grow, nothing changes, nothing is added to the memory and nobody is told
  anything. -/
  quiet : s.grew = false → s.after.region = s.before.region ∧ s.told = [] ∧ s.effects = []
  /-- What is told is more than all that was told before. Only an extension by nothing, which no
  caller is to ask for, tells the same size again. -/
  above : ∀ p ∈ past, ∀ q ∈ s.told, p.2 ≤ q.2 ∧ (s.call.request ≠ .extend 0 → p.2 < q.2)

/-- Each step informs the observer that was installed last. -/
theorem step_informs (hm : Paged.Exact a.region.memory) (calls : List Call) (c : Call) :
    ((a.finish calls).step c).Informs ((installed calls).getLast?.or a.observer?)
      (tellings (a.run calls)) := by
  rw [← observer?_finish]
  have htold := ((a.finish calls).step c).told_eq_filterMap_effects
  obtain ⟨hgrew, he, hr⟩ | ⟨hgrew, more, hmore, hg⟩ := linear_step_cases (exact_finish hm calls) c
  · have ht : ((a.finish calls).step c).told = [] := by rw [htold, he]; rfl
    refine ⟨?_, fun _ => ⟨hr, ht, he⟩, ?_⟩
    · intro h
      rw [hgrew] at h
      cases h
    · intro p _ q hq
      rw [ht] at hq
      cases hq
  · have ht := htold.trans hg.told
    refine ⟨fun _ => ?_, ?_, ?_⟩
    · obtain ⟨before, hgrow, he⟩ := hg.grown
      exact ⟨_, before, _, hgrow, if_pos hg.addressable, ht, he⟩
    · intro h
      rw [hgrew] at h
      cases h
    · intro p hp q hq
      have hle : p.2 ≤ (a.finish calls).region.size := tellings_le hm calls p hp
      have hq : q.2 = (a.finish calls).region.size + more := by
        rw [ht, Option.mem_toList, Option.map_eq_some_iff] at hq
        obtain ⟨o, -, rfl⟩ := hq
        exact hg.size
      rw [hq]
      refine ⟨hle.trans (Nat.le_add_right _ _), ?_⟩
      intro hne
      exact hle.trans_lt (Nat.lt_add_of_pos_right (hmore hne))

end Linear

/-- **The observer of growth.** Over a linear memory that grows by the pages asked for, every step of
every run informs the observer installed last: of a growth it is told the top, once the memory has
grown, and of nothing else is anybody told anything. What is told is more than everything told before, unless the
call was an extension by nothing. And from the first growth after an observer was installed, until
another one takes its place, the last thing that it was told is the top. -/
theorem observer_fresh {μ : Type} [Paged μ] (a : Arena (LinearMemory μ))
    (hm : Paged.Exact a.region.memory) (calls : List Call) :
    (∀ c, ((a.finish calls).step c).Informs ((installed calls).getLast?.or a.observer?)
      (tellings (a.run calls))) ∧
    (∀ pre answer observer mid, calls = pre ++ ⟨answer, .observe observer⟩ :: mid →
      (∀ o ∈ installed mid, o = observer) →
      (∃ s ∈ (a.finish (pre ++ [⟨answer, .observe observer⟩])).run mid, s.grew = true) →
      ∃ top, Region.top? (a.finish calls).region = some top ∧
        (tellingsTo observer (a.run calls)).getLast? = some top) := by
  refine ⟨step_informs hm calls, ?_⟩
  rintro pre answer observer mid rfl hmid hgrew
  have hsplit : pre ++ ⟨answer, .observe observer⟩ :: mid =
      (pre ++ [⟨answer, .observe observer⟩]) ++ mid := List.append_cons pre _ mid
  have ho : (a.finish (pre ++ [⟨answer, .observe observer⟩])).observer? = some observer := by
    rw [finish_append]
    rfl
  obtain ⟨hlast, haddress⟩ := getLast?_tellings (exact_finish hm _) ho hmid hgrew
  rw [hsplit, finish_append]
  refine ⟨_, if_pos haddress, getLast?_tellingsTo ?_⟩
  rw [tellings_append, List.getLast?_append, hlast]
  rfl

/-- Two observers, one after the other, over a memory that reports a wrong size. A request that fails
and a negative one come after the last growth. -/
theorem observer_fresh_replaced :
    let a : Arena (LinearMemory PageStore) :=
      ⟨⟨{ pages := 2, limit := 6, reported? := some 9 }⟩, none, none⟩
    let pre : List Call := [⟨0, .observe "a"⟩, ⟨0, .grow 1⟩]
    let mid : List Call := [⟨0, .extend 65536⟩, ⟨0, .grow 70000⟩, ⟨0, .grow 1⟩, ⟨0, .grow (-1)⟩]
    let calls := pre ++ ⟨0, .observe "b"⟩ :: mid
    Paged.Exact a.region.memory ∧ (∀ o ∈ installed mid, o = "b") ∧
      (∃ s ∈ (a.finish (pre ++ [⟨0, .observe "b"⟩])).run mid, s.grew = true) ∧
      tellings (a.run calls) = [("a", 196608), ("b", 262144), ("b", 393216)] ∧
      (a.run calls).flatMap Step.effects = [.added 1 9, .told "a" 196608, .added 1 9,
        .told "b" 262144, .added 2 9, .told "b" 393216] ∧
      (∃ top, Region.top? (a.finish calls).region = some top ∧
        (tellingsTo "b" (a.run calls)).getLast? = some top) ∧
      ∀ c, ((a.finish calls).step c).Informs (some "b") (tellings (a.run calls)) := by
  intro a pre mid calls
  have hm : Paged.Exact a.region.memory := PageStore.exact _
  have hmid : ∀ o ∈ installed mid, o = "b" := nofun
  have hgrew : ∃ s ∈ (a.finish (pre ++ [⟨0, .observe "b"⟩])).run mid, s.grew = true :=
    ⟨_, List.mem_cons_self, by decide⟩
  obtain ⟨hinforms, hfresh⟩ := observer_fresh a hm calls
  exact ⟨hm, hmid, hgrew, by decide, by decide, hfresh pre 0 "b" mid rfl hmid hgrew, hinforms⟩

end Arena

end HostServices
