import HostServices.Proofs.Thread.Commands

/-!
# Threads do not depend on one another

The threads of a process share the hooks and what is known of the destructors, and nothing else. As
long as no hook is installed, and no destructor that ran on one thread changes what one on another
thread does, the order in which the threads take their turns is of no account: every interleaving of
their commands has every thread do the same and leaves it in the same state
(`Process.performs_interleaving`).

Destructors that do the same whenever they run are apart from one another (`Bodies.apart_of_table`),
and so are destructors that follow a script, if their contexts differ (`Script.apart_of_ne`).

Two neighbouring commands on different threads can be exchanged (`Process.CarriesOut.exchange`),
because a command does the same in every process that agrees with its own on the one thread, on the
hooks and on the destructors that it runs (`Process.CarriesOut.transfer`). Every interleaving is
reached from every other one by such exchanges.
-/

namespace HostServices

/-- Destructors that follow a script are apart if they run with different contexts. -/
theorem Script.apart_of_ne {d e : Destructor} (hne : d.context ≠ e.context) :
    Bodies.Apart Script d e := by
  intro script
  change ((script.next d.context).2.next e.context).1 = (script.next e.context).1 ∧
    ((script.next e.context).2.next d.context).1 = (script.next d.context).1 ∧
    ((script.next d.context).2.next e.context).2 = ((script.next e.context).2.next d.context).2
  induction script with
  | nil => exact ⟨rfl, rfl, rfl⟩
  | cons entry rest ih =>
    obtain ⟨n, runs⟩ := entry
    obtain ⟨h₁, h₂, h₃⟩ := ih
    by_cases hd : n = d.context
    · have he : n ≠ e.context := fun he => hne (hd.symm.trans he)
      simp [next, hd, hne]
    · by_cases he : n = e.context
      · simp [next, he, hne.symm]
      · simp [next, hd, he, h₁, h₂, h₃]

namespace Process

variable {β : Type}

/-! ### Exchanging two commands -/

/-- Both processes are the same to anyone who asks for a thread by its number. -/
structure Same (p q : Process β) : Prop where
  threads : ∀ n, p.threads.get? n = q.threads.get? n
  hooks : p.hooks = q.hooks
  bodies : p.bodies = q.bodies
  ending : p.ending? = q.ending?

variable {p q r : Process β} {c c' : Command} {h k : History} {cs pre post : List Command}
  {log : List (Nat × History)}

theorem Same.refl (p : Process β) : p.Same p := ⟨fun _ => rfl, rfl, rfl, rfl⟩

theorem Same.trans (h₁ : p.Same q) (h₂ : q.Same r) : p.Same r :=
  ⟨fun n => (h₁.threads n).trans (h₂.threads n), h₁.hooks.trans h₂.hooks,
    h₁.bodies.trans h₂.bodies, h₁.ending.trans h₂.ending⟩

theorem start?_eq_map {p' : Process β}
    (ht : p'.threads.get? c.thread = p.threads.get? c.thread) (hh : p'.hooks = p.hooks) :
    p'.start? c = (p.start? c).map fun a => { a with bodies := p'.bodies } := by
  cases c with
  | act n x =>
    simp only [start?, activity, Command.thread] at ht ⊢
    rw [ht, hh]
    rfl
  | leave n =>
    simp only [start?, Command.thread, Option.map_map] at ht ⊢
    rw [ht]
    simp only [Function.comp_def, activity, hh]

variable [Bodies β]

theorem CarriesOut.bodies_eq (hc : p.CarriesOut c h q) :
    q.bodies = Bodies.after p.bodies h.ran := by
  obtain ⟨-, ⟨-, rfl, rfl⟩ | ⟨a, b, ha, ⟨hr, -⟩, rfl⟩⟩ := hc
  · rfl
  · rw [← (start?_eq_some ha).2]
    exact (hr.withBodies (.refl _ _)).1

theorem CarriesOut.hooks_eq (hc : p.CarriesOut c h q) (hh : h.setsHook = false) :
    q.hooks = p.hooks := by
  obtain ⟨-, ⟨-, rfl, rfl⟩ | ⟨a, b, ha, ⟨hr, -⟩, rfl⟩⟩ := hc
  · rfl
  · rw [← (start?_eq_some ha).1]
    exact hr.hooks_eq hh

/-- A command is carried out by the same deeds in every process that has the same thread and the
same hooks, and whose destructors do the same. -/
theorem CarriesOut.transfer (hc : p.CarriesOut c h q) {p' : Process β} (he : p'.ending? = none)
    (ht : p'.threads.get? c.thread = p.threads.get? c.thread) (hh : p'.hooks = p.hooks)
    (hB : Bodies.Agree p.bodies p'.bodies h.ran) : ∃ q', p'.CarriesOut c h q' ∧
      q'.threads.get? c.thread = q.threads.get? c.thread ∧ q'.hooks = q.hooks ∧
      q'.ending? = q.ending? := by
  have hstart := start?_eq_map ht hh
  obtain ⟨hlive, ⟨hn, rfl, rfl⟩ | ⟨a, b, ha, ⟨hr, hb⟩, rfl⟩⟩ := hc
  · rw [hn] at hstart
    exact ⟨p', ⟨he, .inl ⟨hstart, rfl, rfl⟩⟩, ht, hh, he.trans hlive.symm⟩
  · rw [ha] at hstart
    obtain ⟨-, hr'⟩ := hr.withBodies (B := p'.bodies) (by rw [(start?_eq_some ha).2]; exact hB)
    refine ⟨_, ⟨he, .inr ⟨_, _, hstart, ⟨hr', hb⟩, rfl⟩⟩, ?_, rfl, rfl⟩
    rw [get?_settle_self, get?_settle_self]

/-- **Two commands on different threads can be exchanged.** -/
theorem CarriesOut.exchange (h₁ : p.CarriesOut c h q) (h₂ : q.CarriesOut c' k r)
    (hlive : r.ending? = none) (hne : c.thread ≠ c'.thread) (hh : h.setsHook = false)
    (hk : k.setsHook = false) (hapart : ∀ d ∈ h.ran, ∀ e ∈ k.ran, Bodies.Apart β d e) :
    ∃ q' r', p.CarriesOut c' k q' ∧ q'.CarriesOut c h r' ∧ r.Same r' := by
  obtain ⟨agree₁, agree₂, hafter⟩ := Bodies.agree_after hapart p.bodies
  have hooks₁ := h₁.hooks_eq hh
  have hooks₂ := h₂.hooks_eq hk
  -- the second command does not mind the first one ...
  obtain ⟨q', h₂', ht₂, hhooks₂, he₂⟩ := h₂.transfer h₁.1
    (h₁.get?_of_ne hne.symm).symm hooks₁.symm (h₁.bodies_eq ▸ agree₁)
  -- ... and the first one not the second
  obtain ⟨r', h₁', ht₁, hhooks₁, he₁⟩ := h₁.transfer (he₂.trans hlive)
    (h₂'.get?_of_ne hne) (by rw [hhooks₂, hooks₂, hooks₁])
    (by rw [h₂'.bodies_eq]; exact agree₂.symm)
  refine ⟨q', r', h₂', h₁', fun n => ?_, by rw [hhooks₁, hooks₂], ?_, ?_⟩
  · -- a thread is as its own command left it, whichever of the two came first
    by_cases hn : n = c.thread
    · subst hn
      rw [ht₁, h₂.get?_of_ne hne]
    · rw [h₁'.get?_of_ne hn]
      by_cases hn' : n = c'.thread
      · subst hn'
        exact ht₂.symm
      · rw [h₂.get?_of_ne hn', h₁.get?_of_ne hn, h₂'.get?_of_ne hn']
  · rw [h₁'.bodies_eq, h₂'.bodies_eq, h₂.bodies_eq, h₁.bodies_eq, hafter]
  · rw [he₁, hlive, h₂.1]

/-! ### Interleavings -/

theorem CarriesOut.same {p' : Process β} (hc : p.CarriesOut c h q) (hp : p.Same p') :
    ∃ q', p'.CarriesOut c h q' ∧ q.Same q' := by
  obtain ⟨q', hc', ht, hhooks, he⟩ := hc.transfer (hp.ending.symm.trans hc.1) (hp.threads _).symm
    hp.hooks.symm (hp.bodies ▸ .refl _ _)
  refine ⟨q', hc', fun n => ?_, hhooks.symm, ?_, he.symm⟩
  · by_cases hn : n = c.thread
    · rw [hn, ht]
    · rw [hc.get?_of_ne hn, hc'.get?_of_ne hn, hp.threads]
  · rw [hc.bodies_eq, hc'.bodies_eq, hp.bodies]

theorem Performs.same {p' : Process β} (hp : p.Performs cs log q) (hs : p.Same p') :
    ∃ q', p'.Performs cs log q' ∧ q.Same q' := by
  induction hp generalizing p' with
  | nil p => exact ⟨p', .nil p', hs⟩
  | cons hc _ ih =>
    obtain ⟨q₁, hc', hs'⟩ := hc.same hs
    obtain ⟨q', hp', hq⟩ := ih hs'
    exact ⟨q', .cons hc' hp', hq⟩

/-- No hook was installed, and destructors that ran on different threads are apart. -/
structure Independent (β : Type) [Bodies β] (log : List (Nat × History)) : Prop where
  hooks : ∀ e ∈ log, e.2.setsHook = false
  apart : ∀ e ∈ log, ∀ e' ∈ log, e.1 ≠ e'.1 →
    ∀ d ∈ e.2.ran, ∀ d' ∈ e'.2.ran, Bodies.Apart β d d'

theorem Independent.subset {log' : List (Nat × History)} (hi : Independent β log)
    (hs : ∀ e ∈ log', e ∈ log) : Independent β log' :=
  ⟨fun e he => hi.hooks e (hs e he), fun e he e' he' => hi.apart e (hs e he) e' (hs e' he')⟩

theorem mem_of_filter_eq {log log' : List (Nat × History)}
    (hf : ∀ n, log'.filter (·.1 = n) = log.filter (·.1 = n)) : ∀ e ∈ log', e ∈ log := by
  intro e he
  have hm : e ∈ log'.filter (·.1 = e.1) := List.mem_filter.2 ⟨he, by simp⟩
  rw [hf] at hm
  exact (List.mem_filter.1 hm).1

/-- A command can be put off until commands on other threads are carried out. -/
theorem CarriesOut.postpone (hc : p.CarriesOut c h q) (hp : q.Performs (pre ++ post) log r)
    (hlive : r.ending? = none) (hpre : ∀ x ∈ pre, x.thread ≠ c.thread)
    (hi : Independent β ((c.thread, h) :: log)) : ∃ log' r',
      p.Performs (pre ++ c :: post) log' r' ∧ r.Same r' ∧
        ∀ n, log'.filter (·.1 = n) = ((c.thread, h) :: log).filter (·.1 = n) := by
  induction pre generalizing p q r log with
  | nil => exact ⟨_, r, .cons hc hp, .refl r, fun _ => rfl⟩
  | cons x pre ih =>
    obtain ⟨hx, hpre⟩ := List.forall_mem_cons.1 hpre
    cases hp with
    | @cons _ q₁ _ _ _ k log₁ hcx hp₁ =>
      obtain ⟨q', r₁, hx', hc', hs⟩ := hc.exchange hcx (hp₁.ending?_eq_none hlive) hx.symm
        (hi.hooks (c.thread, h) (by simp)) (hi.hooks (x.thread, k) (by simp))
        (hi.apart (c.thread, h) (by simp) (x.thread, k) (by simp) hx.symm)
      obtain ⟨r₂, hp₂, hs₂⟩ := hp₁.same hs
      have hi' : Independent β ((c.thread, h) :: log₁) :=
        hi.subset (List.cons_subset_cons _ (List.subset_cons_self _ _))
      obtain ⟨log', r', hp', hs', hf⟩ := ih hc' hp₂ (hs₂.ending.symm.trans hlive) hpre hi'
      refine ⟨_, r', .cons hx' hp', hs₂.trans hs', fun n => ?_⟩
      -- of the two commands at most one is on the thread that is asked for
      rw [List.filter_cons, hf]
      by_cases hn : n = c.thread
      · subst hn
        simp [hx]
      · simp [List.filter_cons, Ne.symm hn]

/-- Every interleaving of the commands is carried out, and does the same on every thread. -/
theorem Performs.interleave {cs' : List Command} (hp : p.Performs cs log q)
    (hlive : q.ending? = none) (hi : Independent β log)
    (hf : ∀ n, cs'.filter (·.thread = n) = cs.filter (·.thread = n)) : ∃ log' q',
      p.Performs cs' log' q' ∧ q.Same q' ∧
        ∀ n, log'.filter (·.1 = n) = log.filter (·.1 = n) := by
  induction hp generalizing cs' with
  | nil p =>
    have hnil : cs' = [] := by
      cases cs' with
      | nil => rfl
      | cons c cs' => simpa using hf c.thread
    rw [hnil]
    exact ⟨[], p, .nil p, .refl p, fun _ => rfl⟩
  | @cons p q r c cs h log hc hp ih =>
    -- the command is somewhere among the others, after commands on other threads
    have hc' := hf c.thread
    rw [List.filter_cons_of_pos (by simp), List.filter_eq_cons_iff] at hc'
    obtain ⟨pre, post, rfl, hpre, -, -⟩ := hc'
    replace hpre : ∀ x ∈ pre, x.thread ≠ c.thread := by simpa using hpre
    have hf' : ∀ n, (pre ++ post).filter (·.thread = n) = cs.filter (·.thread = n) := by
      intro n
      have hn := hf n
      rw [List.filter_append, List.filter_cons] at hn
      rw [List.filter_append]
      by_cases h : c.thread = n
      · subst h
        have hnone : pre.filter (·.thread = c.thread) = [] := by simpa using hpre
        simpa [hnone] using hn
      · simpa [h] using hn
    obtain ⟨log₁, r₁, hp₁, hs₁, hlog₁⟩ := ih hlive
      (hi.subset (List.subset_cons_self _ _)) hf'
    have hi₁ : Independent β ((c.thread, h) :: log₁) :=
      hi.subset (List.cons_subset_cons _ (mem_of_filter_eq hlog₁))
    obtain ⟨log', r', hp', hs', hlog'⟩ :=
      hc.postpone hp₁ (hs₁.ending.symm.trans hlive) hpre hi₁
    refine ⟨log', r', hp', hs₁.trans hs', fun n => ?_⟩
    rw [hlog', List.filter_cons, List.filter_cons, hlog₁]

/-- **Threads do not depend on one another.** Let a process carry out commands without an end of the
process, while no hook is installed and destructors that run on different threads are apart. Then
every interleaving of these commands is carried out too, every thread does by it what it did before,
and every thread is left in the same state. A command leaves all threads but its own as they are,
and a thread that is named again after it left is a new one. -/
theorem performs_interleaving {cs' : List Command} (hp : p.Performs cs log q)
    (hlive : q.ending? = none) (hi : Independent β log)
    (hf : ∀ n, cs'.filter (·.thread = n) = cs.filter (·.thread = n)) :
    (∃ log' q', p.Performs cs' log' q') ∧
    (∀ log' q', p.Performs cs' log' q' → q'.ending? = none ∧
      ∀ n, log'.filter (·.1 = n) = log.filter (·.1 = n) ∧
        q'.threads.get? n = q.threads.get? n) ∧
    (∀ (r : Process β) c h r', r.CarriesOut c h r' →
      ∀ n, n ≠ c.thread → r'.threads.get? n = r.threads.get? n) ∧
    (∀ (r : Process β) n h r' others log' s, r.CarriesOut (.leave n) h r' →
      r'.Performs others log' s → (∀ c ∈ others, c.thread ≠ n) →
      s.threads.get? n = none ∧ ∀ x, s.start? (.act n x) = some (s.activity {} (.act x))) := by
  -- commands are carried out in one way only, so it is enough that there is one that does the same
  obtain ⟨log₁, q₁, hp₁, hs, hlog⟩ := hp.interleave hlive hi hf
  refine ⟨⟨log₁, q₁, hp₁⟩, ?_, ?_, ?_⟩
  · intro log' q' hp'
    obtain ⟨rfl, rfl⟩ := hp₁.unique hp'
    exact ⟨hs.ending.symm.trans hlive, fun n => ⟨hlog n, (hs.threads n).symm⟩⟩
  · intro r c h r' hc n hn
    exact hc.get?_of_ne hn
  · intro r n h r' others log' s hc ho hn
    have hnone : s.threads.get? n = none := by
      rw [ho.get?_of_forall_ne hn]
      exact hc.get?_leave
    refine ⟨hnone, ?_⟩
    intro x
    rw [start?, hnone]
    rfl

/-- Two interleavings of the commands of two threads, of which one has a destructor that registers
another. -/
theorem performs_interleaving_reentrant : ∃ log log' q q',
    Performs { bodies := Activity.reentrant }
      [.act 0 (.register ⟨"a", 1⟩ true .native), .act 1 .touch, .leave 0, .leave 1] log q ∧
    Performs { bodies := Activity.reentrant }
      [.act 1 .touch, .act 0 (.register ⟨"a", 1⟩ true .native), .leave 1, .leave 0] log' q' ∧
    (log.filter (·.1 = 0)).flatMap (·.2.ran) = [⟨"a", 1⟩, ⟨"a", 2⟩] ∧
    ∀ n, log'.filter (·.1 = n) = log.filter (·.1 = n) := by
  obtain ⟨q, hp, hlive⟩ : ∃ q, Performs { bodies := Activity.reentrant }
      [.act 0 (.register ⟨"a", 1⟩ true .native), .act 1 .touch, .leave 0, .leave 1]
      [(0, [⟨.act (.register ⟨"a", 1⟩ true .native), [.notice (.registered 1)]⟩]),
        (1, [⟨.act .touch, []⟩]),
        (0, [⟨.tearDown, []⟩, ⟨.drain 0, [.ran ⟨"a", 1⟩]⟩,
          ⟨.act (.register ⟨"a", 2⟩ true .native), [.notice (.registered 2)]⟩,
          ⟨.act .pending, [.pending 1]⟩, ⟨.drain 1, [.ran ⟨"a", 2⟩]⟩,
          ⟨.drain 2, [.notice (.drained 2)]⟩, ⟨.tearDown, []⟩]),
        (1, [⟨.tearDown, []⟩, ⟨.drain 0, [.notice (.drained 0)]⟩, ⟨.tearDown, []⟩])] q ∧
      q.ending? = none :=
    ⟨_, .cons ⟨rfl, .inr ⟨_, _, rfl, ⟨.deed ⟨_, rfl, rfl⟩ (.refl _), rfl⟩, rfl⟩⟩ <|
      .cons ⟨rfl, .inr ⟨_, _, rfl, ⟨.deed ⟨_, rfl, rfl⟩ (.refl _), rfl⟩, rfl⟩⟩ <|
      .cons ⟨rfl, .inr ⟨_, _, rfl, ⟨.deed ⟨_, rfl, rfl⟩ (.deed ⟨_, rfl, rfl⟩
        (.deed ⟨_, rfl, rfl⟩ (.deed ⟨_, rfl, rfl⟩ (.deed ⟨_, rfl, rfl⟩ (.deed ⟨_, rfl, rfl⟩
          (.deed ⟨_, rfl, rfl⟩ (.refl _))))))), rfl⟩, rfl⟩⟩ <|
      .cons ⟨rfl, .inr ⟨_, _, rfl, ⟨.deed ⟨_, rfl, rfl⟩ (.deed ⟨_, rfl, rfl⟩
        (.deed ⟨_, rfl, rfl⟩ (.refl _))), rfl⟩, rfl⟩⟩ (.nil _), rfl⟩
  have hf : ∀ n,
      [Command.act 1 .touch, .act 0 (.register ⟨"a", 1⟩ true .native), .leave 1, .leave 0].filter
        (·.thread = n) =
      [.act 0 (.register ⟨"a", 1⟩ true .native), .act 1 .touch, .leave 0, .leave 1].filter
        (·.thread = n)
    | 0 | 1 | n + 2 => rfl
  obtain ⟨⟨log', q', hp'⟩, hsame, -, -⟩ := performs_interleaving hp hlive
    ⟨by simp [History.setsHook, Deed.setsHook, Action.setsHook],
      fun _ _ _ _ _ _ _ _ _ => Bodies.apart_of_table _ _⟩ hf
  exact ⟨_, log', q, q', hp, hp', rfl, fun n => ((hsame log' q' hp').2 n).1⟩

end Process

end HostServices
