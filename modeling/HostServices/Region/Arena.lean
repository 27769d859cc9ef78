import HostServices.Region.Basic

/-!
# Growth

An allocator asks for backing memory by a signed number of bytes. `Arena.grow` gives such
a request its meaning for every kind of region: a positive number is rounded up to whole pages, zero
asks for the top, and a negative number is refused, since a region never shrinks.

An `Arena` is a region together with what its growth depends on in the process: the page size, which
the host is asked for once, and the observer of growth. What the host would say if it were asked is
an argument of every operation.
-/

namespace HostServices

/-- A region and what its growth depends on. -/
structure Arena (ρ : Type) where
  region : ρ
  /-- The page size of the process, once the host was asked for it. -/
  pageSize? : Option Nat := none
  /-- The observer of growth that was set last, if any. -/
  observer? : Option String := none

/-! ### The page size of the process -/

/-- The page size of a process, when the host would answer as given. The host is asked only if the
size is not known yet. A size that is not a power of two is replaced. -/
def settlePageSize (known? : Option Nat) (answer : Int) : List Region.Event × Nat :=
  match known? with
  | some n => ([], n)
  | none =>
    let n := Page.hostSize answer
    if Page.IsPowerOfTwo n then ([.asked (.pageSize answer)], n)
    else ([.asked (.pageSize answer), .notice (.oddPageSize n)], Page.defaultSize)

@[simp] theorem settlePageSize_some (n : Nat) (answer : Int) :
    settlePageSize (some n) answer = ([], n) := rfl

/-- What the host says is made a power of two. -/
theorem isPowerOfTwo_settlePageSize_none (answer : Int) :
    Page.IsPowerOfTwo (settlePageSize none answer).2 := by
  unfold settlePageSize
  simp only
  split
  · assumption
  · exact Page.isPowerOfTwo_defaultSize

namespace Arena

variable {ρ : Type} [Region ρ]

/-- What comes of a request for growth. -/
structure Outcome (ρ : Type) where
  events : List Region.Event
  arena : Arena ρ
  verdict : Verdict

/-- The granularity of the region's growth, with what is observed when the host is asked for it. -/
def pageSize (a : Arena ρ) (answer : Int) : List Region.Event × Nat × Arena ρ :=
  match Region.page? a.region with
  | some n => ([], n, a)
  | none =>
    let (events, n) := settlePageSize a.pageSize? answer
    (events, n, { a with pageSize? := some n })

/-- Extends the region by so many bytes. -/
def extend (a : Arena ρ) (size : Nat) : Outcome ρ :=
  let e := Region.extend a.observer? a.region size
  ⟨e.events, { a with region := e.region }, e.verdict⟩

/-- Asks for `delta` more bytes. -/
def grow (a : Arena ρ) (answer delta : Int) : Outcome ρ :=
  if delta < 0 then ⟨[.notice (.shrinkRefused delta)], a, .refused⟩
  else if delta = 0 then ⟨[], a, .ofTop? (Region.top? a.region)⟩
  else
    -- The page size is settled before the growth is announced, and what is said while it is
    -- settled comes first.
    let (asked, page, a) := a.pageSize answer
    match Page.roundUp delta.toNat page with
    | .error m => ⟨asked, a, .misused m⟩
    | .ok none => ⟨asked, a, .refused⟩
    | .ok (some size) =>
      let o := a.extend size
      let failure := if o.verdict = .refused then [.notice (.growthFailed size)] else []
      ⟨asked ++ .notice (.growing size delta.toNat) :: o.events ++ failure, o.arena, o.verdict⟩

/-! ### Requests as data -/

/-- Something that is asked of an arena. -/
inductive Request where
  /-- More memory, by a signed number of bytes. -/
  | grow (delta : Int)
  | top
  /-- An extension of the region past the rounding. -/
  | extend (size : Nat)
  | pageSize
  /-- From now on this observer is told of growth. -/
  | observe (observer : String)
deriving DecidableEq, Repr

/-- What is said to a request. -/
inductive Reply where
  | verdict (v : Verdict)
  | size (n : Nat)
  | done
deriving DecidableEq, Repr

/-- Carries out a request. The answer is what was observed, the reply, and the arena afterwards. -/
def perform (a : Arena ρ) (answer : Int) : Request → List Region.Event × Reply × Arena ρ
  | .grow delta =>
    let o := a.grow answer delta
    (o.events, .verdict o.verdict, o.arena)
  | .top => ([], .verdict (.ofTop? (Region.top? a.region)), a)
  | .extend size =>
    let o := a.extend size
    (o.events, .verdict o.verdict, o.arena)
  | .pageSize =>
    let (events, n, a) := a.pageSize answer
    (events, .size n, a)
  | .observe observer => ([], .done, { a with observer? := some observer })

end Arena

end HostServices
