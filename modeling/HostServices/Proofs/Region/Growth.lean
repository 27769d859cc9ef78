import HostServices.Proofs.Region.Extension
import HostServices.Proofs.Region.Run

/-!
# Growth over whole runs

An allocator asks a region for memory again and again, by signed numbers of bytes as it likes. What
a single request may come to is `Arena.Step.Deals`: only a positive request that is granted changes
the region, it is answered with the old top, and it moves the top by the rounded size.

The ranges that a run grants are therefore apart from each other and in increasing order, they lie
between the first top and the last, and the rounded sizes add up to all that the region grew
(`Arena.Orderly`). That holds of the three kinds of regions (`orderly_growth`), by one induction over
the run for all that keep their promise (`Region.Lawful.orderly`).
-/

namespace HostServices

namespace Arena

variable {ρ : Type} [Region ρ]

/-- Memory that a request was granted: where it starts, how much was asked for, and by how much the
region grew. -/
structure Grant where
  address : Nat
  delta : Nat
  size : Nat
deriving DecidableEq, Repr

namespace Step

/-- What a positive request was granted, if it was. -/
def grant? (s : Step ρ) : Option Grant :=
  match s.call.request, s.reply with
  | .grow delta, .verdict (.granted address) =>
    if 0 < delta then
      some ⟨address, delta.toNat, Page.ceil delta.toNat (s.before.page s.call.answer)⟩
    else none
  | _, _ => none

/-- What a request for `delta` bytes may come to, when the top of a region is counted by `top`. -/
inductive Deals (top : ρ → Nat) (s : Step ρ) : Int → Verdict → Prop
  /-- A negative request fails, and nothing changes. -/
  | shrink {delta : Int} : delta < 0 → s.after.region = s.before.region → Deals top s delta .refused
  /-- A request for nothing is answered with the top, or fails if that is no address, and nothing
  changes. -/
  | query : s.after.region = s.before.region →
      Deals top s 0 (if top s.before.region ≤ Word.max then .granted (top s.before.region)
        else .refused)
  /-- A positive request fails, and nothing changes. -/
  | refusal {delta : Int} : 0 < delta → s.after.region = s.before.region →
      Deals top s delta .refused
  /-- A positive request is granted the old top, which moves by the rounded size. -/
  | grant {delta : Int} : 0 < delta →
      top s.after.region =
        top s.before.region + Page.ceil delta.toNat (s.before.page s.call.answer) →
      Deals top s delta (.granted (top s.before.region))

variable {top : ρ → Nat} {s : Step ρ} {delta : Int} {v : Verdict}

/-- Either nothing is granted and nothing changes, or the grant starts at the old top and the region
grows by its size. -/
theorem Deals.grant?_cases (hs : s.Deals top delta v) (hreq : s.call.request = .grow delta)
    (hreply : s.reply = .verdict v) (hp : 0 < s.before.page s.call.answer) :
    s.grant? = none ∧ s.after.region = s.before.region ∨
      ∃ g, s.grant? = some g ∧ g.address = top s.before.region ∧ 0 < g.delta ∧ g.delta ≤ g.size ∧
        top s.after.region = g.address + g.size := by
  rw [grant?, hreq, hreply]
  cases hs with
  | shrink _ hsame => exact .inl ⟨rfl, hsame⟩
  | query hsame =>
    refine .inl ⟨?_, hsame⟩
    by_cases htop : top s.before.region ≤ Word.max
    · rw [if_pos htop]
      rfl
    · rw [if_neg htop]
  | refusal _ hsame => exact .inl ⟨rfl, hsame⟩
  | grant hd htop => exact .inr ⟨_, if_pos hd, rfl, Int.lt_toNat.2 hd, Page.le_ceil hp, htop⟩

end Step

/-- The grants of a run, in order. -/
def grants (steps : List (Step ρ)) : List Grant := steps.filterMap Step.grant?

/-- Requests for growth, each with what the host would say meanwhile. -/
def growths (deltas : List (Int × Int)) : List Call :=
  deltas.map fun (answer, delta) => ⟨answer, .grow delta⟩

/-- What requests for growth come to over a run, when the top of a region is counted by `top`. -/
structure Orderly (top : ρ → Nat) (a : Arena ρ) (deltas : List (Int × Int)) : Prop where
  /-- Each request has one of the four outcomes. -/
  deals : ∀ s ∈ a.run (growths deltas), ∃ delta v, s.call.request = .grow delta ∧
    s.reply = .verdict v ∧ s.Deals top delta v
  /-- The top never moves back. -/
  mono : ∀ s ∈ a.run (growths deltas), top s.before.region ≤ top s.after.region
  /-- What is granted is not nothing, and the region grows by no less. -/
  sized : ∀ g ∈ grants (a.run (growths deltas)), 0 < g.delta ∧ g.delta ≤ g.size
  /-- What is granted is apart from, and below, what is granted later. -/
  apart : (grants (a.run (growths deltas))).Pairwise fun g h => g.address + g.delta ≤ h.address
  /-- What is granted lies between the top at the start and the top at the end. -/
  inside : ∀ g ∈ grants (a.run (growths deltas)),
    top a.region ≤ g.address ∧ g.address + g.delta ≤ top (a.finish (growths deltas)).region
  /-- The region grows by the rounded sizes of what is granted. -/
  total : top (a.finish (growths deltas)).region =
    top a.region + ((grants (a.run (growths deltas))).map Grant.size).sum

end Arena

namespace Region.Lawful

open Arena

variable {ρ : Type} [Region ρ] {top : ρ → Nat} {Kept : ρ → Prop} {a : Arena ρ}
  {deltas : List (Int × Int)}

/-- A request to an arena whose region keeps its promise has one of the four outcomes, and leaves
another such arena. -/
theorem deals (hl : Lawful top Kept) (hk : Kept a.region) (hp : a.PageSettled)
    (answer delta : Int) :
    ∃ v, (a.step ⟨answer, .grow delta⟩).reply = .verdict v ∧
      (a.step ⟨answer, .grow delta⟩).Deals top delta v ∧
      Kept (a.step ⟨answer, .grow delta⟩).after.region ∧
      (a.step ⟨answer, .grow delta⟩).after.PageSettled := by
  rw [step_grow]
  obtain hd | rfl | hd := Int.lt_trichotomy delta 0
  · rw [grow_of_neg a answer hd]
    exact ⟨_, rfl, .shrink hd rfl, hk, hp⟩
  · rw [grow_zero, hl.told hk]
    refine ⟨_, rfl, ?_, hk, hp⟩
    rw [apply_ite Verdict.ofTop?]
    exact .query rfl
  · have hpage := hp.isPowerOfTwo_page (hl.page hk) answer
    rw [grow_of_pos hd hpage]
    by_cases hword : delta.toNat + (a.page answer - 1) ≤ Word.max
    · rw [if_pos hword]
      -- the size is rounded to the region's own pages, if it has any
      have hdvd : ∀ n ∈ Region.page? a.region, n ∣ Page.ceil delta.toNat (a.page answer) := by
        intro n hn
        rw [page_of_page? hn]
        exact Page.dvd_ceil _ n
      have hreply := verdict_growBy a answer delta.toNat
      have hregion := region_growBy a answer delta.toNat
      have hsettled : (a.growBy answer delta.toNat).arena.PageSettled := hp.growBy answer _
      rw [extension] at hreply hregion
      obtain ⟨hv, hsame⟩ | ⟨hv, htop, hk'⟩ := hl.extend hk a.observer? _ hdvd
      · rw [← hreply] at hv
        rw [← hregion] at hsame
        rw [hv]
        refine ⟨.refused, rfl, .refusal hd hsame, ?_, hsettled⟩
        rw [hsame]
        exact hk
      · rw [← hreply] at hv
        rw [← hregion] at htop hk'
        rw [hv]
        exact ⟨.granted (top a.region), rfl, .grant hd htop, hk', hsettled⟩
    · rw [if_neg hword]
      have hsame : (a.settled answer).region = a.region := region_settled a answer
      refine ⟨.refused, rfl, .refusal hd hsame, ?_, hp.settled answer⟩
      rw [hsame]
      exact hk

/-- Either a request is granted nothing and changes nothing, or what it is granted starts at the old
top and is what the region grows by. -/
theorem grant?_cases (hl : Lawful top Kept) (hk : Kept a.region) (hp : a.PageSettled)
    (answer delta : Int) :
    (a.step ⟨answer, .grow delta⟩).grant? = none ∧
        (a.step ⟨answer, .grow delta⟩).after.region = a.region ∨
      ∃ g, (a.step ⟨answer, .grow delta⟩).grant? = some g ∧ g.address = top a.region ∧
        0 < g.delta ∧ g.delta ≤ g.size ∧
        top (a.step ⟨answer, .grow delta⟩).after.region = g.address + g.size := by
  obtain ⟨v, hreply, hdeals, -, -⟩ := hl.deals hk hp answer delta
  exact hdeals.grant?_cases rfl hreply (hp.isPowerOfTwo_page (hl.page hk) answer).pos

/-- A run of requests to an arena whose region keeps its promise is orderly. -/
theorem orderly (hl : Lawful top Kept) (hk : Kept a.region) (hp : a.PageSettled)
    (deltas : List (Int × Int)) : a.Orderly top deltas := by
  -- on the requests, for every start: what comes later is orderly from where the first one led
  induction deltas generalizing a with
  | nil =>
    have hrun : a.run (growths []) = [] := run_nil a
    refine ⟨?_, ?_, ?_, ?_, ?_, rfl⟩ <;> rw [hrun]
    · exact List.forall_mem_nil _
    · exact List.forall_mem_nil _
    · exact List.forall_mem_nil _
    · exact .nil
    · exact List.forall_mem_nil _
  | cons d deltas ih =>
    obtain ⟨answer, delta⟩ := d
    let b := (a.step ⟨answer, .grow delta⟩).after
    obtain ⟨v, hreply, hdeals, hk', hp'⟩ := hl.deals hk hp answer delta
    have later : b.Orderly top deltas := ih hk' hp'
    have hrun : a.run (growths ((answer, delta) :: deltas)) =
        a.step ⟨answer, .grow delta⟩ :: b.run (growths deltas) := rfl
    have hfinish : a.finish (growths ((answer, delta) :: deltas)) = b.finish (growths deltas) := rfl
    -- the top only moves forward, so all that comes later lies above it
    have hbelow : top b.region ≤ top (b.finish (growths deltas)).region := by
      rw [later.total]
      exact Nat.le_add_right _ _
    have hgrants : grants (a.run (growths ((answer, delta) :: deltas))) =
        (a.step ⟨answer, .grow delta⟩).grant?.toList ++ grants (b.run (growths deltas)) := by
      rw [hrun, grants, List.filterMap_cons]
      cases (a.step ⟨answer, .grow delta⟩).grant? <;> rfl
    have hdeals : ∀ s ∈ a.run (growths ((answer, delta) :: deltas)), ∃ delta v,
        s.call.request = .grow delta ∧ s.reply = .verdict v ∧ s.Deals top delta v := by
      rw [hrun]
      exact List.forall_mem_cons.2 ⟨⟨delta, v, rfl, hreply, hdeals⟩, later.deals⟩
    have hmono (h : top a.region ≤ top b.region) :
        ∀ s ∈ a.run (growths ((answer, delta) :: deltas)),
          top s.before.region ≤ top s.after.region := by
      rw [hrun]
      exact List.forall_mem_cons.2 ⟨h, later.mono⟩
    obtain ⟨hno, hsame⟩ | ⟨g, hg, haddress, hpos, hsize, htop⟩ := hl.grant?_cases hk hp answer delta
    · have hsame : top b.region = top a.region := congrArg top hsame
      refine ⟨hdeals, hmono hsame.ge, ?_, ?_, ?_, ?_⟩
      · rw [hgrants, hno]
        exact later.sized
      · rw [hgrants, hno]
        exact later.apart
      · rw [hgrants, hno, hfinish, ← hsame]
        exact later.inside
      · rw [hgrants, hno, hfinish, later.total, hsame]
        rfl
    · have htop : top b.region = g.address + g.size := htop
      refine ⟨hdeals, hmono (by omega), ?_, ?_, ?_, ?_⟩
      · rw [hgrants, hg]
        exact List.forall_mem_cons.2 ⟨⟨hpos, hsize⟩, later.sized⟩
      · rw [hgrants, hg]
        refine List.pairwise_cons.2 ⟨?_, later.apart⟩
        -- later grants lie above the new top, which is no lower than the end of this one
        intro h hh
        have := (later.inside h hh).1
        omega
      · rw [hgrants, hg, hfinish]
        refine List.forall_mem_cons.2 ⟨⟨haddress.ge, by omega⟩, ?_⟩
        intro h hh
        have := later.inside h hh
        omega
      · rw [hgrants, hg, hfinish, later.total, htop, haddress, Nat.add_assoc]
        rfl

end Region.Lawful

namespace Arena

/-- **Growth over whole runs.** Whatever numbers of bytes are asked for, one after another, a run is
orderly over any region that keeps the promise of its kind. That is so of a flat region whose page is
a power of two, of linear memory on a memory that tells the truth about its size, and of the break of
a host that is honest about it. -/
theorem orderly_growth (deltas : List (Int × Int)) :
    (∀ (ρ : Type) [Region ρ] (top : ρ → Nat) (Kept : ρ → Prop), Region.Lawful top Kept →
      ∀ a : Arena ρ, Kept a.region → a.PageSettled → a.Orderly top deltas) ∧
    (∀ a : Arena FlatRegion, Page.IsPowerOfTwo a.region.page → a.region.top ≤ Word.max →
      a.PageSettled → a.Orderly FlatRegion.top deltas) ∧
    (∀ (μ : Type) [Paged μ] (a : Arena (LinearMemory μ)), Paged.Truthful a.region.memory →
      a.PageSettled → a.Orderly LinearMemory.size deltas) ∧
    (∀ (η : Type) [BreakHost η] (a : Arena η), BreakHost.Honest a.region →
      a.PageSettled → a.Orderly BreakHost.top deltas) := by
  refine ⟨?_, ?_, ?_, ?_⟩
  · intro ρ _ top Kept hl a hk hp
    exact hl.orderly hk hp deltas
  · intro a hpage hmax hp
    exact FlatRegion.lawful.orderly ⟨hpage, hmax⟩ hp deltas
  · intro μ _ a hm hp
    exact LinearMemory.lawful.orderly hm hp deltas
  · intro η _ a hb hp
    exact BreakHost.lawful.orderly hb hp deltas

/-- Requests that are granted and refused, a negative one and a question, over one region of each
kind. -/
theorem orderly_growth_mixed :
    let flat : Arena FlatRegion := ⟨{ page := 4096, top := 4096, limit := 20480 }, none, none⟩
    let linear : Arena (LinearMemory PageStore) := ⟨⟨{ pages := 2, limit := 4 }⟩, none, none⟩
    let host : Arena ProgramBreak := ⟨{ top := 8192, limit := 140000 }, none, none⟩
    let deltas : List (Int × Int) := [(4096, 1), (0, -5), (0, 0), (0, 9000), (0, 65536), (0, 1)]
    Page.IsPowerOfTwo flat.region.page ∧ flat.region.top ≤ Word.max ∧ flat.PageSettled ∧
      Paged.Truthful linear.region.memory ∧ linear.PageSettled ∧
      BreakHost.Honest host.region ∧ host.PageSettled ∧
      flat.Orderly FlatRegion.top deltas ∧ linear.Orderly LinearMemory.size deltas ∧
      host.Orderly BreakHost.top deltas ∧
      grants (flat.run (growths deltas)) = [⟨4096, 1, 4096⟩, ⟨8192, 9000, 12288⟩] ∧
      grants (linear.run (growths deltas)) = [⟨131072, 1, 65536⟩, ⟨196608, 9000, 65536⟩] ∧
      grants (host.run (growths deltas)) =
        [⟨8192, 1, 4096⟩, ⟨12288, 9000, 12288⟩, ⟨24576, 65536, 65536⟩, ⟨90112, 1, 4096⟩] := by
  intro flat linear host deltas
  have hpage : Page.IsPowerOfTwo flat.region.page := by decide
  have hmax : flat.region.top ≤ Word.max := by decide
  have htruthful : Paged.Truthful linear.region.memory := PageStore.truthful rfl
  have hhonest : BreakHost.Honest host.region := ProgramBreak.honest rfl (by decide) (by decide)
  have hflat : flat.PageSettled := nofun
  have hlinear : linear.PageSettled := nofun
  have hhost : host.PageSettled := nofun
  obtain ⟨-, horderly, horderly', horderly''⟩ := orderly_growth deltas
  exact ⟨hpage, hmax, hflat, htruthful, hlinear, hhonest, hhost, horderly flat hpage hmax hflat,
    horderly' PageStore linear htruthful hlinear, horderly'' ProgramBreak host hhonest hhost,
    by decide, by decide, by decide⟩

end Arena

end HostServices
