import HostServices.Proofs.Thread.Dependence
import HostServices.Thread.Process

/-!
# The commands of a process

A process carries out one command after another. `Process.CarriesOut` and `Process.Performs` say so
for destructors of any kind, and keep what was done of each command. A process whose destructors
follow a script performs its commands in just this way (`Process.performs_performAll`).

What a command does to a thread is part of the life of that thread (`Process.Performs.lives`): all
the commands before it, on this thread and on others, make up the life so far. Whatever holds at any
time of a life therefore holds at any time of a process.
-/

namespace HostServices

/-- A new thread with `actions` to do. -/
def Activity.ofActions {β : Type} (hooks : Hooks) (bodies : β) (actions : List Action) :
    Activity β where
  thread := {}
  hooks := hooks
  bodies := bodies
  tasks := actions.map .act

theorem Activity.ofActions_under {β : Type} (hooks : Hooks) (bodies : β) (actions : List Action)
    (below : List Task) : (ofActions hooks bodies actions).under below =
      { ofActions hooks bodies actions with tasks := actions.map .act ++ below } :=
  under_of_none (finishing?_eq_none_iff.2 (by simp [ofActions])) rfl

theorem Activity.done_under {β : Type} (t : Thread) (hooks : Hooks) (bodies : β)
    (below : List Task) : { thread := t, hooks, bodies, tasks := [] : Activity β }.under below =
      { thread := t, hooks, bodies, tasks := below } :=
  under_of_none rfl rfl

namespace Process

variable {β : Type}

variable {p q r : Process β} {c c' : Command} {h k : History}

theorem start?_eq_some {a : Activity β} (ha : p.start? c = some a) :
    a.hooks = p.hooks ∧ a.bodies = p.bodies := by
  cases c with
  | act n x =>
    obtain rfl := Option.some.inj ha
    exact ⟨rfl, rfl⟩
  | leave n =>
    obtain ⟨t, -, rfl⟩ := Option.map_eq_some_iff.1 ha
    exact ⟨rfl, rfl⟩

theorem get?_settle_self (p : Process β) (c : Command) (a : Activity β) :
    (p.settle c a).threads.get? c.thread =
      match c with
      | .act _ _ => some a.thread
      | .leave _ => none := by
  cases c <;> simp [settle, Command.thread, Threads.get?_insert, Threads.get?_erase]

variable [Bodies β]

/-- `p` carries out the command `c` by the deeds `h`, which leaves `q`. -/
def CarriesOut (p : Process β) (c : Command) (h : History) (q : Process β) : Prop :=
  p.ending? = none ∧
    (p.start? c = none ∧ h = [] ∧ q = p ∨
      ∃ a b, p.start? c = some a ∧ a.Finishes h b ∧ q = p.settle c b)

/-- `p` carries out one command after another, which leaves `q`. Of each command the log tells on
which thread it was and by what deeds it was carried out. -/
inductive Performs : Process β → List Command → List (Nat × History) → Process β → Prop
  | nil (p : Process β) : Performs p [] [] p
  | cons {p q r : Process β} {c : Command} {cs : List Command} {h : History}
      {log : List (Nat × History)} :
      p.CarriesOut c h q → Performs q cs log r → Performs p (c :: cs) ((c.thread, h) :: log) r

variable {cs : List Command} {log : List (Nat × History)}

theorem CarriesOut.get?_of_ne (hc : p.CarriesOut c h q) {n : Nat} (hn : n ≠ c.thread) :
    q.threads.get? n = p.threads.get? n := by
  obtain ⟨-, ⟨-, -, rfl⟩ | ⟨a, b, -, -, rfl⟩⟩ := hc
  · rfl
  · exact get?_settle_of_ne p c b hn

theorem CarriesOut.unique {q' : Process β} (h₁ : p.CarriesOut c h q) (h₂ : p.CarriesOut c k q') :
    h = k ∧ q = q' := by
  obtain ⟨-, ⟨hn, rfl, rfl⟩ | ⟨a, b, ha, hf, rfl⟩⟩ := h₁ <;>
    obtain ⟨-, ⟨hn', rfl, rfl⟩ | ⟨a', b', ha', hf', rfl⟩⟩ := h₂
  · exact ⟨rfl, rfl⟩
  · rw [hn] at ha'
    cases ha'
  · rw [hn'] at ha
    cases ha
  · rw [ha] at ha'
    obtain rfl := Option.some.inj ha'
    obtain ⟨rfl, rfl⟩ := hf.unique hf'
    exact ⟨rfl, rfl⟩

theorem Performs.unique {log' : List (Nat × History)} {q' : Process β} (h₁ : p.Performs cs log q)
    (h₂ : p.Performs cs log' q') : log = log' ∧ q = q' := by
  induction h₁ generalizing log' with
  | nil p =>
    cases h₂ with
    | nil => exact ⟨rfl, rfl⟩
  | cons hc _ ih =>
    cases h₂ with
    | cons hc' h₂ =>
      obtain ⟨rfl, rfl⟩ := hc.unique hc'
      obtain ⟨rfl, rfl⟩ := ih h₂
      exact ⟨rfl, rfl⟩

theorem Performs.get?_of_forall_ne (hp : p.Performs cs log q) {n : Nat}
    (hn : ∀ c ∈ cs, c.thread ≠ n) : q.threads.get? n = p.threads.get? n := by
  induction hp with
  | nil => rfl
  | cons hc _ ih =>
    obtain ⟨hne, hn⟩ := List.forall_mem_cons.1 hn
    exact (ih hn).trans (hc.get?_of_ne hne.symm)

theorem CarriesOut.get?_leave {n : Nat} (hc : p.CarriesOut (.leave n) h q) :
    q.threads.get? n = none := by
  obtain ⟨-, ⟨hn, -, rfl⟩ | ⟨a, b, -, -, rfl⟩⟩ := hc
  · simpa [start?] using hn
  · exact get?_settle_self p (.leave n) b

theorem Performs.ending?_eq_none (hp : p.Performs cs log q) (hlive : q.ending? = none) :
    p.ending? = none := by
  cases hp with
  | nil => exact hlive
  | cons hc _ => exact hc.1

/-! ### The threads of a process -/

/-- `t` is what some actions made of a new thread by the deeds `h`, now that `p` knows what it
knows. -/
def Lived (p : Process β) (t : Thread) (h : History) : Prop :=
  ∃ hooks bodies actions, (Activity.ofActions hooks bodies actions).Reaches h
    { thread := t, hooks := p.hooks, bodies := p.bodies, tasks := [] }

variable {t : Thread} {a b : Activity β}

theorem Lived.new (p : Process β) : p.Lived {} [] := ⟨p.hooks, p.bodies, [], .refl _⟩

theorem Lived.meanwhile (ht : p.Lived t h) (q : Process β) : q.Lived t h := by
  obtain ⟨hooks, bodies, actions, hr⟩ := ht
  exact ⟨hooks, bodies, actions, hr.meanwhile q.hooks q.bodies⟩

/-- Whatever else the thread has to do may have waited below its actions from the start. -/
theorem Lived.reaches (ht : p.Lived t h) (task : Task) (hne : ∀ e held, task ≠ .finish e held) :
    ∃ hooks bodies actions, ((Activity.ofActions hooks bodies actions).under [task]).Reaches h
      (p.activity t task) := by
  obtain ⟨hooks, bodies, actions, hr⟩ := ht
  -- its past is the same with the task below
  have hbelow : ∀ e held, Task.finish e held ∉ [task] := fun e held hm =>
    hne e held (List.mem_singleton.1 hm).symm
  have h := hr.under (fun he => absurd rfl he) hbelow
  rw [Activity.done_under] at h
  exact ⟨hooks, bodies, actions, h⟩

/-- The teardown of a thread is part of its life. -/
theorem Lived.tearDown (ht : p.Lived t h) : (p.activity t .tearDown).Lives h := by
  obtain ⟨hooks, bodies, actions, hr⟩ := ht.reaches .tearDown nofun
  rw [Activity.ofActions_under] at hr
  exact ⟨hooks, bodies, actions, hr⟩

theorem Lived.act (ht : p.Lived t h) (x : Action) : ∃ hooks bodies actions,
    (Activity.ofActions hooks bodies actions).Reaches h (p.activity t (.act x)) := by
  obtain ⟨hooks, bodies, actions, hr⟩ := ht.reaches (.act x) nofun
  refine ⟨hooks, bodies, actions ++ [x], ?_⟩
  rw [Activity.ofActions_under] at hr
  rw [Activity.ofActions, List.map_append]
  exact hr

theorem exists_lived (hp : ∀ n t, p.threads.get? n = some t → ∃ h, p.Lived t h) (n : Nat) :
    ∃ h, p.Lived ((p.threads.get? n).getD {}) h := by
  cases ht : p.threads.get? n with
  | none => exact ⟨[], .new p⟩
  | some t => exact hp n t ht

/-- A command leaves every thread with a past. -/
theorem CarriesOut.lived (hc : p.CarriesOut c k q) (hlive : q.ending? = none)
    (hp : ∀ n t, p.threads.get? n = some t → ∃ h, p.Lived t h) {n : Nat}
    (ht : q.threads.get? n = some t) : ∃ h, q.Lived t h := by
  by_cases hn : n ≠ c.thread
  · rw [hc.get?_of_ne hn] at ht
    obtain ⟨h, hl⟩ := hp n t ht
    exact ⟨h, hl.meanwhile q⟩
  obtain rfl := not_not.1 hn
  cases c with
  | leave n =>
    have hnone : q.threads.get? n = none := hc.get?_leave
    exact absurd (hnone.symm.trans ht) (Option.some_ne_none t).symm
  | act n x =>
    obtain ⟨-, ⟨hs, -, -⟩ | ⟨a, b, hs, ⟨hr, hb⟩, rfl⟩⟩ := hc
    · cases hs
    · obtain rfl := Option.some.inj hs
      rw [get?_settle_self] at ht
      obtain rfl := Option.some.inj ht
      obtain ⟨h, hl⟩ := exists_lived hp n
      obtain ⟨hooks, bodies, actions, hr'⟩ := hl.act x
      refine ⟨h ++ k, hooks, bodies, actions, ?_⟩
      -- the command is done and the process goes on, so the thread is all that there is of `b`
      have hend : b = { thread := b.thread, hooks := b.hooks, bodies := b.bodies, tasks := [] } := by
        obtain ⟨thread, hooks', bodies', tasks, ending?⟩ := b
        obtain rfl : tasks = [] := hb
        obtain rfl : ending? = none := hlive
        rfl
      have hall := hr'.trans hr.reaches
      rw [hend] at hall
      exact hall

theorem Performs.lived (hp : p.Performs cs log q) (hlive : q.ending? = none)
    (hold : ∀ n t, p.threads.get? n = some t → ∃ h, p.Lived t h) :
    ∀ n t, q.threads.get? n = some t → ∃ h, q.Lived t h := by
  induction hp with
  | nil => exact hold
  | cons hc hp ih =>
    have hlive' := hp.ending?_eq_none hlive
    exact ih hlive fun n t ht => hc.lived hlive' hold ht

/-- **Every thread of a process lives a life.** At any time of the work of a command, after other
commands of a process that had no threads at first, what is reached is reached by a life. While the
command is an action, the teardown of the thread still waits below. -/
theorem Performs.lives {hooks : Hooks} {bodies : β}
    (hp : Performs { hooks, bodies } cs log p) (hs : p.start? c = some a) (hlive : p.ending? = none)
    (hr : a.Runs k b) : ∃ h, match c with
      | .act _ _ => (b.under [.tearDown]).Lives (h ++ k)
      | .leave _ => b.Lives (h ++ k) := by
  have hold := hp.lived hlive nofun
  cases c with
  | act n x =>
    obtain rfl := Option.some.inj hs
    obtain ⟨h, hl⟩ := exists_lived hold n
    obtain ⟨hooks, bodies, actions, hr'⟩ := hl.act x
    have hbelow : ∀ e held, Task.finish e held ∉ [Task.tearDown] := by simp
    have hall := (hr'.trans hr.reaches).under (fun he => absurd rfl he) hbelow
    rw [Activity.ofActions_under] at hall
    exact ⟨h, hooks, bodies, actions, hall⟩
  | leave n =>
    obtain ⟨t, ht, rfl⟩ := Option.map_eq_some_iff.1 hs
    obtain ⟨h, hl⟩ := hold n t ht
    exact ⟨h, hl.tearDown.reaches hr.reaches⟩

end Process

/-! ### Scripts -/

/-- What was observed. -/
def History.events (h : History) : List Thread.Event := h.flatMap Deed.events

/-- A run does all tasks. -/
theorem Activity.finishes_run (a : Activity Script) :
    ∃ h, a.Finishes h a.run.2 ∧ a.run.1 = h.events := by
  match hs : a.step? with
  | none =>
    rw [run_of_step?_eq_none hs]
    exact ⟨[], ⟨.refl a, (step?_eq_none_iff a).1 hs⟩, rfl⟩
  | some (events, b) =>
    have := potential_lt_of_step? hs
    obtain ⟨h, ⟨hr, hb⟩, he⟩ := b.finishes_run
    obtain ⟨task, hd⟩ := step?_eq_some_iff.1 hs
    rw [run_of_step?_eq_some hs]
    refine ⟨_, ⟨.deed hd hr, hb⟩, ?_⟩
    rw [he, History.events, History.events, List.flatMap_cons]
termination_by a.potential

namespace Process

variable {p : Process Script}

theorem carriesOut_perform (hlive : p.ending? = none) (c : Command) :
    ∃ h, p.CarriesOut c h (p.perform c).2 ∧ (p.perform c).1 = h.events := by
  cases hs : p.start? c with
  | none =>
    rw [perform, hs]
    exact ⟨[], ⟨hlive, .inl ⟨hs, rfl, rfl⟩⟩, rfl⟩
  | some a =>
    obtain ⟨h, hf, he⟩ := a.finishes_run
    rw [perform, hs]
    exact ⟨h, ⟨hlive, .inr ⟨a, _, hs, hf, rfl⟩⟩, he⟩

/-- The commands that a process carries out are those that it begins, and it observes what the log
tells of them. -/
theorem performs_performAll (p : Process Script) (cs : List Command) : ∃ log,
    p.Performs (cs.take (p.performAll cs).1.length) log (p.performAll cs).2 ∧
      (p.performAll cs).1 = log.map (·.2.events) := by
  induction cs generalizing p with
  | nil => exact ⟨[], .nil p, rfl⟩
  | cons c cs ih =>
    rw [performAll]
    split
    · exact ⟨[], .nil p, rfl⟩
    · next hlive =>
      replace hlive : p.ending? = none := by simpa using hlive
      obtain ⟨h, hc, he⟩ := carriesOut_perform hlive c
      obtain ⟨log, hp, hlog⟩ := ih (p.perform c).2
      exact ⟨(c.thread, h) :: log, .cons hc hp, by rw [List.map_cons, ← hlog, ← he]⟩

end Process

end HostServices
