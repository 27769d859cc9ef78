import HostServices.Proofs.Thread.Calm
import HostServices.Proofs.Thread.Capacity

/-!
# Drains that come to an end

A destructor may register any number of others while it runs, so the chain of a drain may be longer
after each run than before it. Still the drain comes to its end if each destructor that runs
registers only destructors of a lower rank (`Descent`). What is registered then makes up a forest:
the entries of the chain are its roots, and what a destructor registers are its children. The drain
runs the nodes of the forest, each of them once (`Activity.drain_comesTo_end`).

The length of the chain says nothing about how far a drain has come, so the proof has two parts. The
forest is there at all by induction on the rank (`Descent.exists_grows`). The drain runs it by
induction on the forest: it comes to the older entries of its chain by running the trees of those
above them and nothing else (`Activity.Draining.visit`). What must be known of the chain all the
while is that it takes what is registered. That is so if there is memory, and the argument goes by
any other `Supply` as well.

Other threads may change the hooks between any two tasks. `Activity.ComesTo` says that a thread gets
somewhere whatever they do.
-/

namespace HostServices

open HostServices.Action

/-! ### Getting somewhere -/

namespace Activity

section ComesTo

variable {β : Type} [Bodies β]

/-- Whatever other threads do to the hooks meanwhile, the thread comes to a state of which `Q`
holds, together with the deeds on the way. -/
inductive ComesTo : Activity β → (History → Activity β → Prop) → Prop
  | here {a : Activity β} {Q : History → Activity β → Prop} : Q [] a → ComesTo a Q
  | deed {a : Activity β} {Q : History → Activity β → Prop} : a.tasks ≠ [] →
      (∀ hooks task events b, { a with hooks }.Does task events b →
        ComesTo b fun h => Q (⟨task, events⟩ :: h)) →
      ComesTo a Q

variable {a : Activity β} {Q R : History → Activity β → Prop}

/-- It is enough to know one deed that is done next, since there is no other one. -/
theorem ComesTo.step (hd : ∀ hooks, ∃ task events b, { a with hooks }.Does task events b ∧
    b.ComesTo fun h => Q (⟨task, events⟩ :: h)) : a.ComesTo Q := by
  refine .deed ?_ ?_
  · obtain ⟨task, events, b, ⟨rest, ht, -⟩, -⟩ := hd a.hooks
    rw [show a.tasks = task :: rest from ht]
    exact List.cons_ne_nil _ _
  · intro hooks task events b hdoes
    obtain ⟨task', events', b', hdoes', hb⟩ := hd hooks
    obtain ⟨rfl, rfl, rfl⟩ := hdoes.unique hdoes'
    exact hb

theorem ComesTo.trans (ha : a.ComesTo Q) (hQ : ∀ h b, Q h b → b.ComesTo fun k => R (h ++ k)) :
    a.ComesTo R := by
  induction ha generalizing R with
  | here h => exact hQ [] _ h
  | deed hne _ ih =>
    refine .deed hne fun hooks task events b hd => ?_
    exact ih hooks task events b hd fun h c hc => hQ _ c hc

theorem ComesTo.imp (ha : a.ComesTo Q) (hQ : ∀ h b, Q h b → R h b) : a.ComesTo R := by
  refine ha.trans fun h b hb => .here ?_
  rw [List.append_nil]
  exact hQ h b hb

/-- A thread that is left alone gets there too. -/
theorem ComesTo.runs (ha : a.ComesTo Q) : ∃ h b, a.Runs h b ∧ Q h b := by
  induction ha with
  | here h => exact ⟨[], _, .refl _, h⟩
  | @deed a Q hne _ ih =>
    -- whatever the others may do, they may also do nothing
    cases ht : a.tasks with
    | nil => exact absurd ht hne
    | cons task rest =>
      have hd : a.Does task _ _ := ⟨rest, ht, rfl⟩
      obtain ⟨h, b, hr, hb⟩ := ih a.hooks task _ _ hd
      exact ⟨_, b, .deed hd hr, hb⟩

end ComesTo

/-- Actions on top of the stack do not hold the chain. -/
theorem chainHeld_map_act_append {β : Type} (a : Activity β) (actions : List Action)
    (tasks : List Task) :
    { a with tasks := actions.map Task.act ++ tasks }.chainHeld = { a with tasks }.chainHeld := by
  induction actions with
  | nil => rfl
  | cons _ _ ih => exact ih

end Activity

/-! ### Chains that take what is registered -/

namespace Chain

/-- The chain after the registrations of some actions, if it takes all of them. -/
def pushAll? (c : Chain) : List Action → Option Chain
  | [] => some c
  | .register d memory _ :: actions => (c.push? memory d).bind (pushAll? · actions)
  | _ :: actions => c.pushAll? actions

variable {c c' : Chain} {actions : List Action}

theorem entries_of_pushAll? (h : c.pushAll? actions = some c') :
    c'.entries = (registered actions).reverse ++ c.entries := by
  fun_induction pushAll? c actions with
  | case1 c => rw [← Option.some.inj h]; rfl
  | case2 c d memory caller actions ih =>
    obtain ⟨c₁, hp, h⟩ := Option.bind_eq_some_iff.1 h
    rw [ih c₁ h, entries_of_push? hp]
    simp [registered?]
  | case3 c x actions hx ih =>
    have hr : x.registered? = none := by
      cases x with
      | register d memory caller => exact absurd rfl (hx d memory caller)
      | _ => rfl
    rw [ih h, registered_cons, hr]
    rfl

/-- With memory any chain takes any registrations. -/
theorem exists_pushAll?_of_memory
    (memory : ∀ d memory caller, .register d memory caller ∈ actions → memory = true) :
    ∃ c', c.pushAll? actions = some c' := by
  fun_induction pushAll? c actions with
  | case1 c => exact ⟨c, rfl⟩
  | case2 c d m caller actions ih =>
    obtain ⟨c₁, hp⟩ := exists_push?_iff.2 (.inl (memory d m caller List.mem_cons_self))
    obtain ⟨c', hc'⟩ := ih c₁ fun d m caller hm => memory d m caller (List.mem_cons_of_mem _ hm)
    exact ⟨c', by rw [hp]; exact hc'⟩
  | case3 c x actions hx ih =>
    exact ih fun d m caller hm => memory d m caller (List.mem_cons_of_mem _ hm)

end Chain

/-! ### Forests of registrations -/

/-- A destructor, and what is registered on account of it, most recent first. -/
inductive RegistrationTree where
  | node (d : Destructor) (children : List RegistrationTree)

namespace RegistrationTree

mutual

/-- The number of nodes. -/
def size : RegistrationTree → Nat
  | node _ children => 1 + sizes children

/-- The number of nodes of a forest. -/
def sizes : List RegistrationTree → Nat
  | [] => 0
  | tree :: forest => tree.size + sizes forest

end

mutual

/-- The nodes, each of them before its children. -/
def nodes : RegistrationTree → List Destructor
  | node d children => d :: nodesOf children

/-- The nodes of a forest. -/
def nodesOf : List RegistrationTree → List Destructor
  | [] => []
  | tree :: forest => tree.nodes ++ nodesOf forest

end

mutual

theorem length_nodes (tree : RegistrationTree) : tree.nodes.length = tree.size := by
  cases tree with
  | node d children => rw [nodes, size, List.length_cons, length_nodesOf children, Nat.add_comm]

theorem length_nodesOf (forest : List RegistrationTree) :
    (nodesOf forest).length = sizes forest := by
  cases forest with
  | nil => rfl
  | cons tree forest =>
    rw [nodesOf, sizes, List.length_append, length_nodes tree, length_nodesOf forest]

end

end RegistrationTree

open RegistrationTree

section Grows

variable {β : Type} [Bodies β] {P : List Action → Prop} {B B' B'' : β} {d : Destructor}
  {ds : List Destructor} {forest forest' : List RegistrationTree}

/-- Run one after another, the destructors and all that is registered on account of them make up the
forest. What they do is known from `B`, and is as `P` says; after all of them `B'` is known. -/
inductive Grows (P : List Action → Prop) : β → List Destructor → List RegistrationTree → β → Prop
  | nil (B : β) : Grows P B [] [] B
  | cons {B B₁ B₂ : β} {d : Destructor} {ds : List Destructor}
      {children forest : List RegistrationTree} : P (Bodies.next B d).1 →
      -- what was registered last comes off the chain first
      Grows P (Bodies.next B d).2 (registered (Bodies.next B d).1).reverse children B₁ →
      Grows P B₁ ds forest B₂ → Grows P B (d :: ds) (.node d children :: forest) B₂

/-- There is one forest at most. -/
theorem Grows.unique (h : Grows P B ds forest B') (h' : Grows P B ds forest' B'') :
    forest = forest' ∧ B' = B'' := by
  induction h generalizing forest' B'' with
  | nil =>
    cases h'
    exact ⟨rfl, rfl⟩
  | cons _ _ _ ihc ihf =>
    cases h' with
    | cons _ hc' hf' =>
      obtain ⟨rfl, rfl⟩ := ihc hc'
      obtain ⟨rfl, rfl⟩ := ihf hf'
      exact ⟨rfl, rfl⟩

/-- Destructors each of which, when it runs, does as `P` says and registers only destructors of a
lower rank. This is asked of destructors that may run at all, and of what may be known of them. -/
structure Descent (β : Type) [Bodies β] (P : List Action → Prop) where
  knows : β → Prop
  runs : Destructor → Prop
  rank : Destructor → Nat
  next : ∀ {B d}, knows B → runs d → P (Bodies.next B d).1 ∧ knows (Bodies.next B d).2 ∧
    ∀ e ∈ registered (Bodies.next B d).1, runs e ∧ rank e < rank d

/-- What is registered on account of some destructors is a forest. -/
theorem Descent.exists_grows (t : Descent β P) (hB : t.knows B) (hds : ∀ d ∈ ds, t.runs d) :
    ∃ forest B', Grows P B ds forest B' ∧ t.knows B' := by
  -- the children are of a lower rank than all entries, and the other entries are fewer
  obtain ⟨n, hn⟩ : ∃ n, ∀ d ∈ ds, t.rank d < n :=
    ⟨(ds.map t.rank).max?.getD 0 + 1, fun d hd =>
      Nat.lt_succ_of_le (List.le_max?_getD_of_mem (List.mem_map_of_mem hd))⟩
  induction n generalizing ds B with
  | zero =>
    cases ds with
    | nil => exact ⟨[], B, .nil B, hB⟩
    | cons d ds => exact absurd (hn d List.mem_cons_self) (Nat.not_lt_zero _)
  | succ n ihn =>
    induction ds generalizing B with
    | nil => exact ⟨[], B, .nil B, hB⟩
    | cons d ds ihd =>
      obtain ⟨hd, hds⟩ := List.forall_mem_cons.1 hds
      obtain ⟨hrank, hn⟩ := List.forall_mem_cons.1 hn
      obtain ⟨hP, hB₁, hlower⟩ := t.next hB hd
      obtain ⟨children, B₂, hchildren, hB₂⟩ := ihn hB₁
        (fun e he => (hlower e (List.mem_reverse.1 he)).1)
        (fun e he => Nat.lt_of_lt_of_le (hlower e (List.mem_reverse.1 he)).2
          (Nat.le_of_lt_succ hrank))
      obtain ⟨forest, B₃, hforest, hB₃⟩ := ihd hB₂ hds hn
      exact ⟨_, B₃, .cons hP hchildren hforest, hB₃⟩

end Grows

/-! ### Drains -/

/-- The deeds run these destructors in turn, end no drain, and memory does not run out. -/
structure History.RunsJust (h : History) (ds : List Destructor) : Prop where
  ran : h.ran = ds
  drained : h.drained = []
  memory : ∀ x ∈ h, .notice .outOfMemory ∉ x.events

namespace History.RunsJust

variable {h k : History} {ds es : List Destructor}

theorem nil : RunsJust [] [] := ⟨rfl, rfl, nofun⟩

theorem append (hh : h.RunsJust ds) (hk : k.RunsJust es) : (h ++ k).RunsJust (ds ++ es) where
  ran := by rw [ran_append, hh.ran, hk.ran]
  drained := by rw [drained_append, hh.drained, hk.drained]; rfl
  memory := List.forall_mem_append.2 ⟨hh.memory, hk.memory⟩

end History.RunsJust

/-- The action comes back to its caller, unless it is a registration for which there is no room. -/
def Action.Mild : Action → Prop
  | .exit .. | .abort | .exhausted | .fatal _ => False
  | .register .. | .pending | .touch | .whenTornDown _ | .setExitHook _ | .setExhaustedHook _ =>
    True

/-- The actions come back, and there is memory for what they register. -/
def Action.Supplied (actions : List Action) : Prop :=
  (∀ x ∈ actions, x.Mild) ∧ ∀ d memory caller, .register d memory caller ∈ actions → memory = true

/-- What is kept up about the chain of a drain between two runs, so that all actions that are as `P`
says come back. -/
structure Supply (P : List Action → Prop) where
  holds : Chain → Prop
  mild : ∀ {actions}, P actions → ∀ x ∈ actions, x.Mild
  takes : ∀ {actions chain below d}, P actions → holds chain → chain.pop? = some (d, below) →
    ∃ chain', below.pushAll? actions = some chain' ∧ holds chain'

/-- Where there is memory nothing else is needed. -/
def Supply.ofMemory : Supply Supplied where
  holds _ := True
  mild := And.left
  takes {_ _ below _} hP _ _ := by
    obtain ⟨chain', h⟩ := Chain.exists_pushAll?_of_memory (c := below) hP.2
    exact ⟨chain', h, trivial⟩

namespace Activity

variable {β : Type} {a b : Activity β} {B B' : β} {x : Action} {actions : List Action}
  {chain chain' below : Chain} {ran : Nat} {rest : List Task} {d : Destructor}
  {older ds : List Destructor} {forest : List RegistrationTree} {P : List Action → Prop}

/-- A drain is under way, and `B` is known of what destructors do. The one that runs has still to do
`actions`, and below the drain, which ran `ran` destructors so far, is `rest`. -/
structure Draining (a : Activity β) (B : β) (actions : List Action) (chain : Chain) (ran : Nat)
    (rest : List Task) : Prop where
  bodies : a.bodies = B
  tasks : a.tasks = actions.map .act ++ .drain ran :: rest
  slot : a.thread.slot = .draining chain
  free : { a with tasks := rest }.chainHeld = false

theorem Draining.withHooks (hd : a.Draining B actions chain ran rest) (hooks : Hooks) :
    { a with hooks }.Draining B actions chain ran rest :=
  ⟨hd.bodies, hd.tasks, hd.slot, hd.free⟩

variable [Bodies β]

theorem Draining.acted (hd : a.Draining B (x :: actions) chain ran rest) (hx : x.Mild)
    (hp : chain.pushAll? (x :: actions) = some chain') :
    ∃ events b chain₁, a.Does (.act x) events b ∧ History.RunsJust [⟨.act x, events⟩] [] ∧
      b.Draining B actions chain₁ ran rest ∧ chain₁.pushAll? actions = some chain' := by
  have ht : a.tasks = .act x :: (actions.map .act ++ .drain ran :: rest) := hd.tasks
  have htouch : a.thread.touchSlot = a.thread := by simp [Thread.touchSlot, hd.slot]
  have hc : a.thread.slot.chain? = some chain := by rw [hd.slot]; rfl
  have free :
      { a with tasks := actions.map Task.act ++ Task.drain ran :: rest }.chainHeld = false :=
    (a.chainHeld_map_act_append actions _).trans hd.free
  -- all actions but a registration leave the slot as it is
  cases x with
  | register d memory caller =>
    obtain ⟨chain₁, hpush, hp⟩ := Option.bind_eq_some_iff.1 hp
    have hset : a.thread.slot.setChain chain₁ = .draining chain₁ := by rw [hd.slot]; rfl
    refine ⟨[.notice (.registered d.context)],
      { a with
        thread := { a.thread with slot := .draining chain₁ }
        tasks := actions.map .act ++ .drain ran :: rest }, chain₁, ⟨_, ht, ?_⟩,
      ⟨rfl, rfl, by simp⟩, ⟨hd.bodies, rfl, rfl, hd.free⟩, hp⟩
    simp only [perform, act, Activity.register, htouch, hc, free, hpush, hset]
    rfl
  | pending =>
    refine ⟨[.pending chain.entries.length],
      { a with tasks := actions.map .act ++ .drain ran :: rest }, chain, ⟨_, ht, ?_⟩,
      ⟨rfl, rfl, by simp⟩, ⟨hd.bodies, rfl, hd.slot, hd.free⟩, hp⟩
    simp only [perform, act, Activity.pending, htouch, hc, free]
    rfl
  | touch =>
    have hslot : a.thread.touchSlot.slot = .draining chain := by rw [htouch, hd.slot]
    exact ⟨[], _, chain, ⟨_, ht, rfl⟩, ⟨rfl, rfl, by simp⟩, ⟨hd.bodies, rfl, hslot, hd.free⟩, hp⟩
  | whenTornDown later =>
    have hslot : (a.thread.whenTornDown later).slot = .draining chain := by
      rw [a.thread.slot_whenTornDown later, hd.slot]
    exact ⟨[], _, chain, ⟨_, ht, rfl⟩, ⟨rfl, rfl, by simp⟩, ⟨hd.bodies, rfl, hslot, hd.free⟩, hp⟩
  | setExitHook | setExhaustedHook =>
    exact ⟨[], _, chain, ⟨_, ht, rfl⟩, ⟨rfl, rfl, by simp⟩,
      ⟨hd.bodies, rfl, hd.slot, hd.free⟩, hp⟩
  | exit | abort | exhausted | fatal => exact hx.elim

/-- The actions of a destructor come to their end, and leave on the chain what they register. -/
theorem Draining.acts (hd : a.Draining B actions chain ran rest) (hm : ∀ x ∈ actions, x.Mild)
    (hp : chain.pushAll? actions = some chain') :
    a.ComesTo fun h b => h.RunsJust [] ∧ b.Draining B [] chain' ran rest := by
  induction actions generalizing a chain with
  | nil =>
    obtain rfl := Option.some.inj hp
    exact .here ⟨.nil, hd⟩
  | cons x actions ih =>
    obtain ⟨hx, hm⟩ := List.forall_mem_cons.1 hm
    refine .step fun hooks => ?_
    obtain ⟨events, b, chain₁, hdoes, hjust, hb, hp₁⟩ := (hd.withHooks hooks).acted hx hp
    refine ⟨_, events, b, hdoes, (ih hb hm hp₁).imp fun h c hc => ⟨?_, hc.2⟩⟩
    exact hjust.append hc.1

/-- The next run starts with the topmost entry off the chain. -/
theorem Draining.started (hd : a.Draining B [] chain ran rest)
    (hpop : chain.pop? = some (d, below)) : ∃ b, a.Does (.drain ran) [.ran d] b ∧
      b.Draining (Bodies.next B d).2 (Bodies.next B d).1 below (ran + 1) rest := by
  obtain rfl := hd.bodies
  have hc : a.thread.slot.chain? = some chain := by rw [hd.slot]; rfl
  exact ⟨_, ⟨rest, hd.tasks, drain_of_entry (a := { a with tasks := rest }) hd.free hc
    (Chain.pop?_eq_some_iff.1 hpop)⟩, ⟨rfl, rfl, rfl, hd.free⟩⟩

theorem Draining.ended (hd : a.Draining B [] chain ran rest) (he : chain.entries = []) :
    a.Does (.drain ran) [.notice (.drained ran)]
      { a with thread := { a.thread with slot := .gone }, tasks := rest } := by
  have hw : a.waiting = [] := by rw [Activity.waiting, hd.slot]; exact he
  exact ⟨rest, hd.tasks, drain_of_empty (a := { a with tasks := rest }) hd.free hw⟩

/-- A drain ran the forest, and is at the entries below it. -/
structure Visits (supply : Supply P) (B : β) (forest : List RegistrationTree)
    (older : List Destructor) (ran : Nat) (rest : List Task) (h : History) (b : Activity β) :
    Prop where
  runs : h.RunsJust (nodesOf forest)
  at_older : ∃ chain, b.Draining B [] chain (ran + sizes forest) rest ∧ chain.entries = older ∧
    supply.holds chain

/-- A drain comes to the older entries by running the forest above them, and nothing else. -/
theorem Draining.visit (hd : a.Draining B [] chain ran rest) (supply : Supply P)
    (hs : supply.holds chain) (hg : Grows P B ds forest B') (he : chain.entries = ds ++ older) :
    a.ComesTo (Visits supply B' forest older ran rest) := by
  -- what a destructor registers is drained above whatever is older
  induction hg generalizing a chain ran older with
  | nil => exact .here ⟨.nil, chain, hd, he, hs⟩
  | @cons B B₁ B₂ d ds children forest hP _ _ ihc ihf =>
    have hpop : chain.pop? = some (d, ⟨ds ++ older, chain.capacity⟩) :=
      Chain.pop?_eq_some_iff.2 ⟨he, rfl⟩
    obtain ⟨chain', hp, hs'⟩ := supply.takes hP hs hpop
    have hchildren := Chain.entries_of_pushAll? hp
    refine .step fun hooks => ?_
    obtain ⟨b, hdoes, hb⟩ := (hd.withHooks hooks).started hpop
    -- the destructor itself, then its children, then the entries that were next to it
    refine ⟨_, _, b, hdoes, (hb.acts (supply.mild hP) hp).trans ?_⟩
    rintro h₁ c ⟨hjust₁, hc⟩
    refine (ihc hc hs' hchildren).trans ?_
    rintro h₂ y ⟨hjust₂, chain₂, hy, he₂, hs₂⟩
    refine (ihf hy hs₂ he₂).imp ?_
    rintro h₃ z ⟨hjust₃, chain₃, hz, he₃, hs₃⟩
    have hstart : History.RunsJust [⟨.drain ran, [.ran d]⟩] [d] := ⟨rfl, rfl, by simp⟩
    refine ⟨?_, chain₃, ?_, he₃, hs₃⟩
    · have hall := hstart.append (hjust₁.append (hjust₂.append hjust₃))
      simpa [nodesOf, nodes] using hall
    · have hcount : ran + sizes (.node d children :: forest) =
          ran + 1 + sizes children + sizes forest := by
        simp [sizes, size, Nat.add_assoc]
      rwa [hcount]

/-- What a drain comes to that runs a forest. -/
structure Drained (forest : List RegistrationTree) (rest : List Task) (h : History)
    (b : Activity β) : Prop where
  /-- Each node ran once, before its children and after what is more recent. -/
  ran : h.ran = nodesOf forest
  /-- So many runs are what the drain counted. -/
  count : h.drained = [sizes forest] ∧ h.ran.length = sizes forest
  memory : ∀ x ∈ h, .notice .outOfMemory ∉ x.events
  /-- No chain is left, neither entries nor room for them, and no drain that could be reached. -/
  slot : b.thread.slot = .gone ∧ b.thread.slot.chain? = none
  /-- The thread goes on with what is below the drain. -/
  tasks : b.tasks = rest

theorem Draining.comesTo_drained (hd : a.Draining B [] chain 0 rest) (supply : Supply P)
    (hs : supply.holds chain) (hg : Grows P B chain.entries forest B') :
    a.ComesTo (Drained forest rest) := by
  -- nothing is older than all entries
  refine (hd.visit supply hs hg (List.append_nil chain.entries).symm).trans ?_
  rintro h b ⟨hjust, chain', hd', he', -⟩
  refine .step fun hooks => ⟨_, _, _, (hd'.withHooks hooks).ended he', .here ?_⟩
  have hran : History.ran (h ++ [⟨.drain (0 + sizes forest),
      [.notice (.drained (0 + sizes forest))]⟩]) = nodesOf forest := by
    rw [History.ran_append, hjust.ran]
    exact List.append_nil _
  refine ⟨hran, ⟨?_, ?_⟩, ?_, ⟨rfl, rfl⟩, rfl⟩
  · rw [History.drained_append, hjust.drained, Nat.zero_add]
    rfl
  · rw [hran, length_nodesOf]
  · exact List.forall_mem_append.2 ⟨hjust.memory, by simp⟩

/-- The teardown of the slot puts a drain on the stack. -/
theorem does_slotTornDown (hooks : Hooks) {order : List LocalName}
    (ht : a.tasks = .tearDown :: rest) (ho : a.thread.order = .slot :: order)
    (hs : a.thread.slot = .live chain) (free : a.chainHeld = false) :
    ∃ b, { a with hooks }.Does .tearDown [] b ∧
      b.Draining a.bodies [] chain 0 (.tearDown :: rest) := by
  refine ⟨{ a with
    thread := { a.thread with order, slot := .draining chain }
    hooks
    tasks := .drain 0 :: .tearDown :: rest }, ⟨rest, ht, ?_⟩, rfl, rfl, rfl, ?_⟩
  · simp only [perform, tearDown, ho, hs, Slot.chain?_live, Option.getD_some]
  · rw [← ht]
    exact free

/-- **A drain ends if it can.** Let the destructors on the chain, and all that they register, go
down a rank, let there be memory for what they register, and let no earlier registration for which
there was none hold the chain. Then what is registered on account of the chain is one forest.
Whatever other threads do to the hooks, the teardown of the slot comes to the end of its drain,
where each node of the forest was run, nothing is left of the chain, and the thread goes on with the
teardown of its other locals. -/
theorem drain_comesTo_end (t : Descent β Supplied) {order : List LocalName}
    (hB : t.knows a.bodies) (hruns : ∀ d ∈ chain.entries, t.runs d)
    (ht : a.tasks = .tearDown :: rest) (ho : a.thread.order = .slot :: order)
    (hs : a.thread.slot = .live chain) (free : a.chainHeld = false) :
    (∃! forest, ∃ B', Grows Supplied a.bodies chain.entries forest B') ∧
    ∀ forest B', Grows Supplied a.bodies chain.entries forest B' →
      a.ComesTo (Drained forest (.tearDown :: rest)) ∧
      ∃ h b, a.Runs h b ∧ Drained forest (.tearDown :: rest) h b := by
  obtain ⟨forest, B', hgrows, -⟩ := t.exists_grows hB hruns
  refine ⟨⟨forest, ⟨B', hgrows⟩, ?_⟩, ?_⟩
  · rintro forest' ⟨B'', hg⟩
    exact (hg.unique hgrows).1
  · intro forest B' hg
    have hcomes : a.ComesTo (Drained forest (.tearDown :: rest)) := by
      refine .step fun hooks => ?_
      obtain ⟨b, hdoes, hd⟩ := does_slotTornDown hooks ht ho hs free
      refine ⟨_, _, b, hdoes, (hd.comesTo_drained .ofMemory trivial hg).imp ?_⟩
      rintro h c ⟨hran, hcount, hmemory, hslot, htasks⟩
      exact ⟨hran, hcount, List.forall_mem_cons.2 ⟨nofun, hmemory⟩, hslot, htasks⟩
    exact ⟨hcomes, hcomes.runs⟩

/-- Destructors each of which registers two others, one of them with the next lower context. -/
def stepping (d : Destructor) : List Action :=
  match d.context with
  | 0 => [.setExitHook .unwinding, .pending]
  | n + 1 => [.register ⟨"a", n⟩ true .native, .whenTornDown [.exit 3 .foreign],
      .register ⟨"b", 0⟩ true .foreign]

theorem supplied_stepping (d : Destructor) : Supplied (stepping d) := by
  unfold stepping
  split <;> simp [Supplied, Mild]

/-- The contexts go down. -/
def steppingDescent : Descent (Destructor → List Action) Supplied where
  knows B := B = stepping
  runs _ := True
  rank := Destructor.context
  next := by
    rintro _ d rfl -
    refine ⟨supplied_stepping d, rfl, fun e he => ⟨trivial, ?_⟩⟩
    change e ∈ registered (stepping d) at he
    unfold stepping at he
    split at he
    · cases he
    · next n hn =>
      obtain rfl | rfl : e = ⟨"a", n⟩ ∨ e = ⟨"b", 0⟩ := by simpa [registered?] using he
      all_goals simp [hn]

/-- A chain of two entries without room for a third one comes to six runs. -/
theorem drain_comesTo_end_stepping :
    let a : Activity (Destructor → List Action) := {
      thread := { slot := .live ⟨[⟨"a", 2⟩, ⟨"b", 0⟩], 2⟩, order := [.slot, .own] }
      hooks := {}
      bodies := stepping
      tasks := [.tearDown] }
    a.ComesTo fun h b => h.drained = [6] ∧ b.thread.slot = .gone ∧ b.tasks = [.tearDown] ∧
      h.ran = [⟨"a", 2⟩, ⟨"b", 0⟩, ⟨"a", 1⟩, ⟨"b", 0⟩, ⟨"a", 0⟩, ⟨"b", 0⟩] := by
  intro a
  obtain ⟨-, hdrained⟩ := drain_comesTo_end (a := a) steppingDescent rfl (fun _ _ => trivial) rfl
    rfl rfl rfl
  have hcons : ∀ {d ds children forest},
      Grows Supplied stepping (registered (stepping d)).reverse children stepping →
      Grows Supplied stepping ds forest stepping →
      Grows Supplied stepping (d :: ds) (.node d children :: forest) stepping :=
    fun {d _ _ _} hchildren hforest => .cons (supplied_stepping d) hchildren hforest
  have hnil : Grows Supplied stepping [] [] stepping := .nil stepping
  have hgrows : Grows Supplied stepping [⟨"a", 2⟩, ⟨"b", 0⟩]
      [.node ⟨"a", 2⟩ [.node ⟨"b", 0⟩ [], .node ⟨"a", 1⟩ [.node ⟨"b", 0⟩ [], .node ⟨"a", 0⟩ []]],
        .node ⟨"b", 0⟩ []] stepping :=
    hcons (hcons hnil (hcons (hcons hnil (hcons hnil hnil)) hnil)) (hcons hnil hnil)
  refine (hdrained _ _ hgrows).1.imp ?_
  rintro h b ⟨hran, ⟨hcount, -⟩, -, ⟨hslot, -⟩, htasks⟩
  exact ⟨hcount, hslot, htasks, hran⟩

end Activity

end HostServices
