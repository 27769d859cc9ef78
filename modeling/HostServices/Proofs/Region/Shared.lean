import HostServices.Proofs.Region.Extension
import HostServices.Proofs.Region.Run
import HostServices.Proofs.Service

/-!
# The regions of a process

A process has several regions side by side: its break, linear memory, one that cannot grow, and one
of some other kind that a part of the program brings along (`Regions`). They share what growth depends
on, the page size and the observer. A request to one of them is carried out as `Arena` does it, on
the region it is put to together with what is shared (`Regions.visit`).

A process asks the host for the page size when a request needs it (`Arena.needsPage`): a question for
the page size, or a positive request to a region that grows by the pages of the process. Such a
request goes as if the page size had been known before, once it is settled
(`Arena.perform_of_needsPage`), and no other request has anything to do with it
(`Arena.ofPages_perform`).
-/

namespace HostServices

/-! ### Events about the page size -/

namespace Region

/-- Whether an event is about the page size of the process: the host was asked for it, or what it
said was replaced. -/
def Event.ofPages : Event → Bool
  | .asked (.pageSize _) | .notice (.oddPageSize _) => true
  | _ => false

/-- An extension of a region of this kind neither asks the host for its page size nor writes to the
log. -/
def Quiet (ρ : Type) [Region ρ] : Prop :=
  ∀ (observer? : Option String) (r : ρ) (size : Nat), ∀ e ∈ (extend observer? r size).events,
    (∀ answer, e ≠ .asked (.pageSize answer)) ∧ ∀ n, e ≠ .notice n

end Region

/-- All that is observed when the page size is settled is about it. -/
theorem ofPages_settlePageSize (known? : Option Nat) (answer : Int) :
    ∀ e ∈ (settlePageSize known? answer).1, e.ofPages = true := by
  cases known? with
  | some n => exact nofun
  | none =>
    simp only [settlePageSize]
    split <;> simp [Region.Event.ofPages]

theorem FixedRegion.quiet : Region.Quiet FixedRegion := nofun

theorem FlatRegion.quiet : Region.Quiet FlatRegion := by
  intro observer? r size e he
  change e ∈ (r.extend size).events at he
  obtain h | ⟨-, h⟩ := r.extend_cases size
  all_goals
    rw [h] at he
    obtain rfl := List.mem_singleton.1 he
    exact ⟨nofun, nofun⟩

theorem LinearMemory.quiet (μ : Type) [Paged μ] : Region.Quiet (LinearMemory μ) := by
  intro observer? r size e he
  change e ∈ (LinearMemory.extend observer? r size).events at he
  obtain ⟨-, h⟩ | ⟨-, h, -⟩ | ⟨-, -, before, memory, -, h⟩ :=
    LinearMemory.extend_cases observer? r size
  · rw [h] at he
    cases he
  · rw [h] at he
    cases he
  · rw [h] at he
    obtain rfl | he := List.mem_cons.1 he
    · exact ⟨nofun, nofun⟩
    cases observer? with
    | none => cases he
    | some observer =>
      obtain rfl := List.mem_singleton.1 he
      exact ⟨nofun, nofun⟩

theorem BreakHost.quiet (η : Type) [BreakHost η] : Region.Quiet η := by
  intro observer? b size e he
  change e ∈ (BreakHost.extend b size).events at he
  unfold BreakHost.extend at he
  split at he
  · cases he
  · split at he <;> cases he

/-! ### Requests that need the page size -/

namespace Arena

/-- Whether a request needs the granularity of the region's growth. -/
def Request.needsPage : Request → Bool
  | .pageSize => true
  | .grow delta => decide (0 < delta)
  | .top | .extend _ | .observe _ => false

variable {ρ : Type} [Region ρ]

/-- Whether a request needs the page size of the process. -/
def needsPage (a : Arena ρ) (r : Request) : Bool := (Region.page? a.region).isNone && r.needsPage

/-- The arena in a process whose page size is known. -/
def known (a : Arena ρ) (n : Nat) : Arena ρ := { a with pageSize? := some n }

variable {a : Arena ρ} {r : Request}

theorem needsPage_eq_true (h : a.needsPage r = true) :
    Region.page? a.region = none ∧ r.needsPage = true := by
  obtain ⟨hpage, hr⟩ := Bool.and_eq_true_iff.1 h
  exact ⟨Option.isNone_iff_eq_none.1 hpage, hr⟩

theorem pageSize_of_page?_eq_none (h : Region.page? a.region = none) (answer : Int) :
    a.pageSize answer = ((settlePageSize a.pageSize? answer).1,
      (settlePageSize a.pageSize? answer).2,
      a.known (settlePageSize a.pageSize? answer).2) := by
  rw [pageSize, h]
  rfl

/-- A request that needs the page size of the process settles it first, and then goes as if it had
been known before. -/
theorem perform_of_needsPage (h : a.needsPage r = true) (answer : Int) :
    a.perform answer r =
      ((settlePageSize a.pageSize? answer).1 ++
          ((a.known (settlePageSize a.pageSize? answer).2).perform answer r).1,
        ((a.known (settlePageSize a.pageSize? answer).2).perform answer r).2) := by
  obtain ⟨hpage, hr⟩ := needsPage_eq_true h
  have hknown : Region.page? (a.known (settlePageSize a.pageSize? answer).2).region = none := hpage
  cases r with
  | pageSize =>
    simp only [perform, pageSize_of_page?_eq_none hpage, pageSize_of_page?_eq_none hknown]
    simp [known]
  | grow delta =>
    have hd : 0 < delta := of_decide_eq_true hr
    simp only [perform, grow, if_neg hd.not_gt, if_neg hd.ne', pageSize_of_page?_eq_none hpage,
      pageSize_of_page?_eq_none hknown]
    simp only [known, settlePageSize_some]
    -- from here on the two requests differ only in what was observed before
    cases Page.roundUp delta.toNat (settlePageSize a.pageSize? answer).2 with
    | error m => simp only [List.append_nil]
    | ok size? =>
      cases size? with
      | none => simp only [List.append_nil]
      | some size =>
        simp only [List.nil_append, List.append_assoc]
        rfl
  | top => cases hr
  | extend size => cases hr
  | observe observer => cases hr

theorem needsPage_grow_of_pos {delta : Int} (hd : 0 < delta) :
    a.needsPage (.grow delta) = (Region.page? a.region).isNone := by
  rw [needsPage, Request.needsPage, decide_eq_true hd, Bool.and_true]

theorem needsPage_grow_of_not_pos {delta : Int} (hd : ¬ 0 < delta) :
    a.needsPage (.grow delta) = false := by
  rw [needsPage, Request.needsPage, decide_eq_false hd, Bool.and_false]

/-- Only a request that needs the page size of the process settles it. -/
theorem pageSize?_perform (a : Arena ρ) (answer : Int) (r : Request) :
    (a.perform answer r).2.2.pageSize? =
      if a.needsPage r then some (settlePageSize a.pageSize? answer).2 else a.pageSize? := by
  have hsettled : (a.settled answer).pageSize? =
      if (Region.page? a.region).isNone then some (settlePageSize a.pageSize? answer).2
      else a.pageSize? := by
    unfold settled pageSize
    cases Region.page? a.region <;> rfl
  cases r with
  | top | extend size | observe observer =>
    rw [needsPage, Request.needsPage, Bool.and_false]
    rfl
  | pageSize =>
    rw [needsPage, Request.needsPage, Bool.and_true]
    exact hsettled
  | grow delta =>
    change (a.grow answer delta).arena.pageSize? = _
    obtain ⟨hd, h⟩ | ⟨rfl, h⟩ | ⟨hd, -, h⟩ | ⟨hd, -, h⟩ | ⟨hd, -, h⟩ := grow_cases a answer delta
    · rw [h, needsPage_grow_of_not_pos hd.not_gt]
      rfl
    · rw [h, needsPage_grow_of_not_pos (lt_irrefl 0)]
      rfl
    -- a positive request settles the page size, whatever comes of it
    all_goals
      rw [h, needsPage_grow_of_pos hd]
      exact hsettled

/-- Once the page size is known, the host is not asked for it. -/
theorem asked_eq_nil (h : (Region.page? a.region).isSome ∨ a.pageSize?.isSome) (answer : Int) :
    a.asked answer = [] := by
  unfold asked pageSize
  split
  · rfl
  · rename_i hnone
    rw [hnone] at h
    obtain ⟨n, hn⟩ := Option.isSome_iff_exists.1 (h.resolve_left nofun)
    rw [hn]
    rfl

/-- The extension that a request comes to says nothing about the page size. -/
theorem ofPages_extend (hq : Region.Quiet ρ) {observer? : Option String} {region : ρ} {size : Nat}
    {e : Region.Event} (he : e ∈ (Region.extend observer? region size).events) :
    e.ofPages = false := by
  obtain ⟨hasked, hnotice⟩ := hq observer? region size e he
  cases e with
  | asked answer =>
    cases answer with
    | pageSize n => exact absurd rfl (hasked n)
    | added => rfl
  | notice n => exact absurd rfl (hnotice n)
  | grown | extended => rfl

/-- A request that does not need the page size of the process, or finds it known, has nothing to do
with it. -/
theorem ofPages_perform (hq : Region.Quiet ρ) (h : a.needsPage r = false ∨ a.pageSize?.isSome)
    (answer : Int) : ∀ e ∈ (a.perform answer r).1, e.ofPages = false := by
  have hasked (hr : r.needsPage = true) : a.asked answer = [] := by
    refine asked_eq_nil (h.imp_left fun h => ?_) answer
    rwa [needsPage, hr, Bool.and_true, Option.isNone_eq_false_iff] at h
  cases r with
  | top => exact nofun
  | observe observer => exact nofun
  | extend size => exact fun e he => ofPages_extend hq he
  | pageSize =>
    intro e he
    change e ∈ a.asked answer at he
    rw [hasked rfl] at he
    cases he
  | grow delta =>
    intro e he
    change e ∈ (a.grow answer delta).events at he
    obtain ⟨hd, h⟩ | ⟨-, h⟩ | ⟨hd, -, h⟩ | ⟨hd, -, h⟩ | ⟨hd, -, h⟩ := grow_cases a answer delta
    · rw [h] at he
      obtain rfl := List.mem_singleton.1 he
      rfl
    · rw [h] at he
      cases he
    · rw [h, hasked (decide_eq_true hd)] at he
      cases he
    · rw [h, hasked (decide_eq_true hd)] at he
      cases he
    · rw [h, growBy, hasked (decide_eq_true hd), List.nil_append] at he
      rcases List.mem_cons.1 he with rfl | he
      · rfl
      rcases List.mem_append.1 he with he | he
      · exact ofPages_extend hq he
      · split at he
        · obtain rfl := List.mem_singleton.1 he
          rfl
        · cases he

theorem ofPages_asked (a : Arena ρ) (answer : Int) : ∀ e ∈ a.asked answer, e.ofPages = true := by
  unfold asked pageSize
  split
  · exact nofun
  · exact ofPages_settlePageSize a.pageSize? answer

/-- The size that a growth is announced to have is the rounded one. -/
theorem growing_perform (hq : Region.Quiet ρ) {answer : Int} {size requested : Nat}
    (h : .notice (.growing size requested) ∈ (a.perform answer r).1) :
    size = Page.ceil requested (a.page answer) := by
  have hasked : .notice (.growing size requested) ∉ a.asked answer := by
    intro h
    cases ofPages_asked a answer _ h
  have hextend {observer? : Option String} {region : ρ} {n : Nat} :
      .notice (.growing size requested) ∉ (Region.extend observer? region n).events :=
    fun h => (hq observer? region n _ h).2 _ rfl
  cases r with
  | top => cases h
  | observe observer => cases h
  | extend n => exact absurd h hextend
  | pageSize => exact absurd h hasked
  | grow delta =>
    change _ ∈ (a.grow answer delta).events at h
    obtain ⟨-, hg⟩ | ⟨-, hg⟩ | ⟨-, -, hg⟩ | ⟨-, -, hg⟩ | ⟨-, -, hg⟩ := grow_cases a answer delta
    all_goals rw [hg] at h
    · cases List.mem_singleton.1 h
    · cases h
    · exact absurd h hasked
    · exact absurd h hasked
    · -- of all that is observed of a growth, only its announcement has this form
      rw [growBy, List.append_assoc, List.mem_append] at h
      rcases h.resolve_left hasked with _ | ⟨_, h⟩
      · rfl
      rcases List.mem_append.1 h with h | h
      · exact absurd h hextend
      · split at h
        · cases List.mem_singleton.1 h
        · cases h

end Arena

/-! ### The regions of one process -/

/-- The regions of one process, and what they share. -/
structure Regions (η μ ρ : Type) where
  /-- The break of the process. -/
  heap : η
  memory : LinearMemory μ
  /-- A region of another kind. -/
  other : ρ
  /-- The page size of the process, once the host was asked for it. -/
  pageSize? : Option Nat := none
  observer? : Option String := none

namespace Regions

/-- A region of a process. The fixed one cannot grow, and has nothing to be kept. -/
inductive Place where
  | heap
  | memory
  | fixed
  | other
deriving DecidableEq, Repr

/-- Something that is asked of a process. -/
inductive Request where
  /-- The page size of the process. -/
  | pageSize
  /-- Something of one of its regions. -/
  | of (place : Place) (request : Arena.Request)
deriving DecidableEq, Repr

/-- A request, with what the host would say meanwhile if it were asked for its page size. -/
structure Call where
  answer : Int
  request : Request
deriving DecidableEq, Repr

/-- A call and what came of it. -/
structure Step (η μ ρ : Type) where
  before : Regions η μ ρ
  call : Call
  events : List Region.Event
  reply : Arena.Reply
  after : Regions η μ ρ

variable {η μ ρ : Type} [BreakHost η] [Paged μ] [Region ρ]

/-- A region of a process together with what the process shares. -/
def arena {σ : Type} (p : Regions η μ ρ) (region : σ) : Arena σ := ⟨region, p.pageSize?, p.observer?⟩

/-- Puts a request to one of the regions of a process, and takes over what is left of it. -/
def visit {σ : Type} [Region σ] (p : Regions η μ ρ) (answer : Int) (r : Arena.Request) (region : σ)
    (put : σ → Regions η μ ρ → Regions η μ ρ) :
    List Region.Event × Arena.Reply × Regions η μ ρ :=
  let (events, reply, a) := (p.arena region).perform answer r
  (events, reply, put a.region { p with pageSize? := a.pageSize?, observer? := a.observer? })

/-- Carries out a request. The answer is what was observed, the reply, and the process afterwards. -/
def perform (p : Regions η μ ρ) (answer : Int) :
    Request → List Region.Event × Arena.Reply × Regions η μ ρ
  | .pageSize =>
    let (events, n) := settlePageSize p.pageSize? answer
    (events, .size n, { p with pageSize? := some n })
  | .of .heap r => p.visit answer r p.heap fun heap p => { p with heap }
  | .of .memory r => p.visit answer r p.memory fun memory p => { p with memory }
  | .of .other r => p.visit answer r p.other fun other p => { p with other }
  | .of .fixed r => p.visit answer r FixedRegion.mk fun _ p => p

/-- Carries out a call. -/
def step (p : Regions η μ ρ) (c : Call) : Step η μ ρ :=
  let (events, reply, after) := p.perform c.answer c.request
  ⟨p, c, events, reply, after⟩

/-- One call after another. -/
def service : Service (Regions η μ ρ) Call (Step η μ ρ) := ⟨step, Step.after⟩

theorem finish_cons (p : Regions η μ ρ) (c : Call) (calls : List Call) :
    service.finish p (c :: calls) = service.finish (p.step c).after calls := rfl

theorem run_cons (p : Regions η μ ρ) (c : Call) (calls : List Call) :
    service.run p (c :: calls) = p.step c :: service.run (p.step c).after calls := rfl

/-- The process once its page size is known. -/
def known (p : Regions η μ ρ) (n : Nat) : Regions η μ ρ := { p with pageSize? := some n }

/-- Whether a request needs the page size of the process: it asks for it, of the process or of one of
the regions that grow by it, or asks such a region for more memory. -/
def needsPage (p : Regions η μ ρ) : Request → Bool
  | .pageSize => true
  | .of .heap r | .of .fixed r => r.needsPage
  | .of .memory _ => false
  | .of .other r => (Region.page? p.other).isNone && r.needsPage

end Regions

end HostServices
