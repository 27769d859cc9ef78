/-!
# Destructor chains

A thread keeps its registered destructors on a chain, most recent first, in memory that it reserves
ahead. A chain asks for memory only when it is full: room for four entries at first, and for twice
as many each time after that. Taking entries off gives no memory back, so a chain that was once
long has room without asking.
-/

namespace HostServices

/-- A cleanup callback and the context that it runs with. -/
structure Destructor where
  callback : String
  /-- The context, which the library passes on and never looks at. -/
  context : Nat
deriving DecidableEq, Repr

/-- The destructors that wait for a thread to end. -/
structure Chain where
  /-- The entries, most recent first. -/
  entries : List Destructor
  /-- The number of entries that there is memory for. -/
  capacity : Nat
deriving DecidableEq, Repr

namespace Chain

def empty : Chain := ⟨[], 0⟩

/-- The number of entries that a chain has room for when it first asks for memory. -/
def firstCapacity : Nat := 4

/-- The capacity after asking for memory once more. -/
def nextCapacity (c : Chain) : Nat :=
  if c.capacity = 0 then firstCapacity else 2 * c.capacity

/-- Puts an entry on top. A full chain asks for memory, and answers `none` if there is none. -/
def push? (c : Chain) (memory : Bool) (d : Destructor) : Option Chain :=
  if c.entries.length < c.capacity then some { c with entries := d :: c.entries }
  else if memory then some ⟨d :: c.entries, c.nextCapacity⟩
  else none

/-- Takes the most recent entry off. The memory stays. -/
def pop? (c : Chain) : Option (Destructor × Chain) :=
  match c.entries with
  | [] => none
  | d :: entries => some (d, { c with entries })

variable {c c' : Chain} {memory : Bool} {d : Destructor}

/-- Pushing fails exactly when the chain is full and there is no memory. -/
theorem push?_eq_none_iff :
    c.push? memory d = none ↔ c.capacity ≤ c.entries.length ∧ memory = false := by
  unfold push?
  split <;> cases memory <;> simp_all

/-- A successful push adds its entry on top and changes no other. -/
theorem entries_of_push? (h : c.push? memory d = some c') : c'.entries = d :: c.entries := by
  unfold push? at h
  split at h
  · cases h; rfl
  · split at h <;> cases h; rfl

theorem pop?_eq_some_iff :
    c.pop? = some (d, c') ↔ c.entries = d :: c'.entries ∧ c'.capacity = c.capacity := by
  obtain ⟨entries, capacity⟩ := c
  obtain ⟨entries', capacity'⟩ := c'
  cases entries <;> simp [pop?, eq_comm, and_assoc]

theorem pop?_eq_none_iff : c.pop? = none ↔ c.entries = [] := by
  unfold pop?
  split <;> simp_all

end Chain

end HostServices
