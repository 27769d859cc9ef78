import HostServices.Thread.Run

/-!
# Processes

A process is its live threads, which share the hooks and what destructors do. It carries out one
command after another: an action on a thread, which is started when it is first named, or the end
of a thread, whose locals are then torn down. A thread that was named again after it ended is a new
one. Once the process has ended no command is carried out.

A step of one thread leaves every other thread as it is (`Process.get?_perform_of_ne`).
-/

namespace HostServices

/-- Something that is done on a thread of a process. -/
inductive Command where
  | act (thread : Nat) (a : Action)
  /-- The end of a thread. Nothing happens if there is no such thread. -/
  | leave (thread : Nat)

namespace Command

def thread : Command → Nat
  | act n _ | leave n => n

end Command

/-- The live threads of a process by number, in increasing order. -/
abbrev Threads := List (Nat × Thread)

namespace Threads

def get? (ts : Threads) (n : Nat) : Option Thread :=
  match ts with
  | [] => none
  | (m, t) :: rest => if n = m then some t else get? rest n

def insert (ts : Threads) (n : Nat) (t : Thread) : Threads :=
  match ts with
  | [] => [(n, t)]
  | (m, s) :: rest =>
    if n < m then (n, t) :: (m, s) :: rest
    else if n = m then (n, t) :: rest
    else (m, s) :: insert rest n t

def erase (ts : Threads) (n : Nat) : Threads :=
  ts.filter fun entry => entry.1 ≠ n

theorem get?_insert (ts : Threads) (n : Nat) (t : Thread) (m : Nat) :
    (ts.insert n t).get? m = if m = n then some t else ts.get? m := by
  induction ts with
  | nil => simp [insert, get?]
  | cons entry rest ih =>
    obtain ⟨k, s⟩ := entry
    unfold insert
    split
    · simp [get?]
    · split
      · subst_vars; simp only [get?]; split <;> rfl
      · simp only [get?, ih]
        split <;> split <;> first | rfl | omega

theorem get?_erase (ts : Threads) (n m : Nat) :
    (ts.erase n).get? m = if m = n then none else ts.get? m := by
  induction ts with
  | nil => simp [erase, get?]
  | cons entry rest ih =>
    obtain ⟨k, s⟩ := entry
    unfold erase at ih ⊢
    by_cases hk : k = n
    · subst hk
      simp only [List.filter_cons, ne_eq, not_true_eq_false, decide_false, Bool.false_eq_true,
        if_false, ih, get?]
      split <;> simp_all
    · simp only [List.filter_cons, ne_eq, hk, not_false_eq_true, decide_true, if_true, get?, ih]
      split <;> split <;> simp_all

end Threads

/-- A process between two commands. -/
structure Process (β : Type) where
  threads : Threads := []
  hooks : Hooks := {}
  bodies : β
  /-- How the process ended, if it did. -/
  ending? : Option Ending := none

/-- A process that has just started. Its destructors follow the script, and no thread has used the
library yet. -/
def Script.process (bodies : Script) (hooks : Hooks) : Process Script := { hooks, bodies }

namespace Process

variable {β : Type}

/-- A thread of the process with one task to do. -/
def activity (p : Process β) (t : Thread) (task : Task) : Activity β where
  thread := t
  hooks := p.hooks
  bodies := p.bodies
  tasks := [task]

/-- The work of a command, or `none` if there is nothing to do. -/
def start? (p : Process β) : Command → Option (Activity β)
  | .act n a => some (p.activity ((p.threads.get? n).getD {}) (.act a))
  | .leave n => (p.threads.get? n).map (p.activity · .tearDown)

/-- The process after the work of a command is done. A thread that left is forgotten. -/
def settle (p : Process β) (c : Command) (a : Activity β) : Process β where
  threads := match c with
    | .act n _ => p.threads.insert n a.thread
    | .leave n => p.threads.erase n
  hooks := a.hooks
  bodies := a.bodies
  ending? := a.ending?

/-- The work of a command leaves the other threads as they are. -/
theorem get?_settle_of_ne (p : Process β) (c : Command) (a : Activity β) {n : Nat}
    (h : n ≠ c.thread) : (p.settle c a).threads.get? n = p.threads.get? n := by
  cases c <;> simp_all [settle, Command.thread, Threads.get?_insert, Threads.get?_erase]

/-- Carries out a command. The answer is what was observed and the process afterwards. -/
def perform (p : Process Script) (c : Command) : List Thread.Event × Process Script :=
  match p.start? c with
  | none => ([], p)
  | some a => (a.run.1, p.settle c a.run.2)

theorem get?_perform_of_ne (p : Process Script) (c : Command) {n : Nat} (h : n ≠ c.thread) :
    (p.perform c).2.threads.get? n = p.threads.get? n := by
  unfold perform
  split
  · rfl
  · exact get?_settle_of_ne p c _ h

/-- Carries out commands in turn until the process ends. The answer is what was observed at each
command that was begun, and the process afterwards. -/
def performAll (p : Process Script) : List Command → List (List Thread.Event) × Process Script
  | [] => ([], p)
  | c :: rest =>
    if p.ending?.isSome then ([], p)
    else
      let (events, p) := p.perform c
      let (later, p) := p.performAll rest
      (events :: later, p)

/-- Carries out commands and then lets the live threads end, by increasing number. -/
def performAllAndLeave (p : Process Script) (commands : List Command) :
    List (List Thread.Event) × Process Script :=
  let (steps, p) := p.performAll commands
  let (leaves, p) := p.performAll (p.threads.map fun entry => .leave entry.1)
  (steps ++ leaves, p)

end Process

end HostServices
