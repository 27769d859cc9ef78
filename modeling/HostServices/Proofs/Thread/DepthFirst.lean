import HostServices.Proofs.Thread.Calm

/-!
# The order in which destructors run

A destructor may register others while it runs. When what each of them registers is laid down in a
`Cascade`, which comes to an end, then what runs at the end of a thread is the depth-first traversal
of what was registered before (`drain_depthFirst`): the most recent entry runs first, then, most
recent first, all that it registered, and so on, and only then the next older entry.

The drain knows nothing of that. It pops one entry after another off the chain that the entries push
to. What relates the two is that a drain over `d :: older` comes, by the runs of `visit d` and
nothing else, to a drain over `older` (`Cascade.drain_visit`), whatever is below. The induction is on
the cascade, since what `d` registers is on the chain by the time the drain is reached again.

Actions that neither end the process nor run out of memory are `Calm`. A thread whose actions are
calm never looks at the hooks, and so other threads cannot disturb it (`Cascade.runs_of_reaches`).
-/

namespace HostServices

open HostServices.Action

/-! ### Cascades -/

/-- What destructors do when they run, if that is calm and what they register comes to an end. -/
structure Cascade where
  body : Destructor → List Action
  calm : ∀ d, ∀ x ∈ body d, x.Calm
  wellFounded : WellFounded fun e d => e ∈ registered (body d)

namespace Cascade

/-- What runs on account of a destructor: itself, and then, most recent first, what runs on account
of all that it registers. -/
def visit (c : Cascade) (d : Destructor) : List Destructor :=
  d :: (registered (c.body d)).reverse.attach.flatMap fun e =>
    have := List.mem_reverse.1 e.2
    c.visit e.1
termination_by c.wellFounded.wrap d

theorem visit_eq (c : Cascade) (d : Destructor) :
    c.visit d = d :: (registered (c.body d)).reverse.flatMap c.visit := by
  rw [visit]
  congr 1
  rw [← List.flatMap_map Subtype.val c.visit, List.attach_map_subtype_val]

/-- What runs on account of the entries of a chain. -/
def depthFirst (c : Cascade) (entries : List Destructor) : List Destructor :=
  entries.flatMap c.visit

@[simp] theorem depthFirst_append (c : Cascade) (entries older : List Destructor) :
    c.depthFirst (entries ++ older) = c.depthFirst entries ++ c.depthFirst older :=
  List.flatMap_append

/-- The most recent entry runs first, then all that it registers, and then the next older entry. -/
theorem depthFirst_cons (c : Cascade) (d : Destructor) (older : List Destructor) :
    c.depthFirst (d :: older) =
      d :: (c.depthFirst (registered (c.body d)).reverse ++ c.depthFirst older) := by
  rw [depthFirst, List.flatMap_cons, visit_eq]
  rfl

/-- The thread drains its chain, on which `entries` wait, with `rest` below. -/
structure Drains (c : Cascade) (a : Activity (Destructor → List Action))
    (entries : List Destructor) (rest : List Task) : Prop where
  body : a.bodies = c.body
  tasks : ∃ ran, a.tasks = .drain ran :: rest
  slot : ∃ chain, a.thread.slot = .draining chain
  waiting : a.waiting = entries
  stays : ∀ e held, .finish e held ∉ rest

open Activity

variable {c : Cascade} {a b : Activity (Destructor → List Action)} {d : Destructor}
  {older entries : List Destructor} {rest : List Task} {task : Task} {events : List Thread.Event}

theorem Drains.started (hd : c.Drains a (d :: older) rest) : ∃ ran b,
    a.Does (.drain ran) [.ran d] b ∧ b.bodies = c.body ∧ b.waiting = older ∧
      b.tasks = (c.body d).map .act ++ .drain (ran + 1) :: rest ∧
      ∃ chain, b.thread.slot = .draining chain := by
  obtain ⟨ran, ht⟩ := hd.tasks
  obtain ⟨chain, hs⟩ := hd.slot
  have free : { a with tasks := rest }.chainHeld = false := chainHeld_eq_false hd.stays
  have hw : chain.entries = d :: older := by
    rw [← hd.waiting, Activity.waiting, hs]
    rfl
  have hc : a.thread.slot.chain? = some chain := by rw [hs]; rfl
  obtain ⟨chain', hc', holder⟩ : ∃ chain' : Chain, (chain.entries = d :: chain'.entries ∧
      chain'.capacity = chain.capacity) ∧ chain'.entries = older :=
    ⟨⟨older, chain.capacity⟩, ⟨hw, rfl⟩, rfl⟩
  have hbody : (Bodies.next a.bodies d).1 = c.body d := congrFun hd.body d
  refine ⟨ran, _, ⟨rest, ht, drain_of_entry (a := { a with tasks := rest }) free hc hc'⟩, hd.body,
    holder, by rw [hbody], ⟨chain', rfl⟩⟩

/-- Entries are drained one after another, if each of them is drained with all that it registers. -/
theorem Drains.append (hd : c.Drains a (entries ++ older) rest)
    (hvisit : ∀ d ∈ entries, ∀ {a older}, c.Drains a (d :: older) rest →
      ∃ h b, a.Runs h b ∧ h.ran = c.visit d ∧ c.Drains b older rest) :
    ∃ h b, a.Runs h b ∧ h.ran = c.depthFirst entries ∧ c.Drains b older rest := by
  induction entries generalizing a with
  | nil => exact ⟨[], a, .refl a, rfl, hd⟩
  | cons d entries ih =>
    obtain ⟨hv, hvisit⟩ := List.forall_mem_cons.1 hvisit
    obtain ⟨h, b, hr, hran, hb⟩ := hv hd
    obtain ⟨k, b', hr', hran', hb'⟩ := ih hb hvisit
    exact ⟨h ++ k, b', hr.trans hr', by rw [History.ran_append, hran, hran']; rfl, hb'⟩

/-- By the time a drain is reached again, what its destructor registered is on top of the chain. -/
theorem drains_of_started {ran : Nat} (hbody : a.bodies = c.body)
    (ht : a.tasks = (c.body d).map .act ++ .drain ran :: rest)
    (hs : ∃ chain, a.thread.slot = .draining chain) (hf : ∀ e held, .finish e held ∉ rest) :
    ∃ h b, a.Runs h b ∧ h.ran = [] ∧
      c.Drains b ((registered (c.body d)).reverse ++ a.waiting) rest := by
  have hg : a.thread.slot ≠ .gone := by
    obtain ⟨chain, hs⟩ := hs
    simp [hs]
  obtain ⟨h, b, hr, hb, hran, hw, -, hdraining⟩ := runs_calm (c.calm d) ht hg (by simpa using hf)
  exact ⟨h, b, hr, hran, by rw [hb]; exact hbody, ⟨ran, by rw [hb]⟩, hdraining hs, hw, hf⟩

/-- A drain comes to the entries below the topmost one by the runs on account of that one, and
nothing else. -/
theorem drain_visit (c : Cascade) (d : Destructor) (hd : c.Drains a (d :: older) rest) :
    ∃ h b, a.Runs h b ∧ h.ran = c.visit d ∧ c.Drains b older rest := by
  -- what `d` registers is lower in the cascade, and is drained above whatever is older
  induction d using c.wellFounded.induction generalizing a older with
  | _ d ih =>
    obtain ⟨ran, a₁, hdoes, hbody, hw, ht, hs⟩ := hd.started
    obtain ⟨h, a₂, hr, hran, hd₂⟩ := drains_of_started hbody ht hs hd.stays
    rw [hw] at hd₂
    obtain ⟨k, b, hr', hran', hb⟩ := hd₂.append fun e he => ih e (List.mem_reverse.1 he)
    refine ⟨_, b, .deed hdoes (hr.trans hr'), ?_, hb⟩
    rw [History.ran_cons, History.ran_append, hran, hran', visit_eq]
    rfl

theorem Drains.empties (hd : c.Drains a entries rest) :
    ∃ h b, a.Runs h b ∧ h.ran = c.depthFirst entries ∧ b.bodies = c.body ∧ b.tasks = rest ∧
      b.thread.slot = .gone := by
  -- nothing is older than all entries
  rw [← List.append_nil entries] at hd
  obtain ⟨h, b, hr, hran, hb⟩ := hd.append fun d _ _ _ => c.drain_visit d
  obtain ⟨n, ht⟩ := hb.tasks
  have free : { b with tasks := rest }.chainHeld = false := chainHeld_eq_false hb.stays
  have hd' : b.Does (.drain n) [.notice (.drained n)]
      { b with thread := { b.thread with slot := .gone }, tasks := rest } :=
    ⟨rest, ht, drain_of_empty (a := { b with tasks := rest }) free hb.waiting⟩
  refine ⟨_, _, hr.trans (.single hd'), ?_, hb.body, rfl, rfl⟩
  rw [History.ran_append, hran]
  exact List.append_nil _

/-! ### Calm threads -/

/-- All that the thread has to do is calm. -/
structure Calm (c : Cascade) (a : Activity (Destructor → List Action)) : Prop where
  body : a.bodies = c.body
  tasks : ∀ t ∈ a.tasks, t.Calm
  own : ∀ x ∈ a.thread.own.actions, x.Calm

theorem Calm.does (ha : c.Calm a) (hd : a.Does task events b) : c.Calm b := by
  obtain ⟨rest, ht, hp, turn⟩ := hd.perform_turn
  obtain ⟨hcalm, hrest⟩ : task.Calm ∧ ∀ t ∈ rest, t.Calm :=
    List.forall_mem_cons.1 (ht ▸ ha.tasks)
  cases turn with
  | acted x hx =>
    subst hx
    obtain ⟨hbody, htasks, hown⟩ := act_frame hcalm hp
    refine ⟨hbody.trans ha.body, ?_, ?_⟩
    · rcases htasks with h | h <;> rw [h]
      · exact hrest
      · nofun
    · rcases hown with h | h <;> rw [h]
      · exact ha.own
      · exact own_after hcalm ha.own
  | bare hx he ho hb | drainEnded ran hx he free hw hb =>
    subst hb
    exact ⟨ha.body, hrest, ha.own⟩
  | slotTornDown order hx he ho hb =>
    subst hb
    refine ⟨ha.body, ?_, ha.own⟩
    exact List.forall_mem_cons.2 ⟨trivial, List.forall_mem_cons.2 ⟨trivial, hrest⟩⟩
  | ownTornDown order hx he ho hb =>
    -- what was set down for later is calm too, and nothing is left of it in the local
    subst hb
    refine ⟨ha.body, ?_, nofun⟩
    exact forall_calm_map_act ha.own (List.forall_mem_cons.2 ⟨trivial, hrest⟩)
  | drainRefused ran hx he held hb =>
    subst hb
    exact ⟨ha.body, nofun, ha.own⟩
  | started ran d chain chain' hx he free hc hc' hb =>
    subst hb
    refine ⟨ha.body, ?_, ha.own⟩
    have hbody : (Bodies.next a.bodies d).1 = c.body d := congrFun ha.body d
    rw [hbody]
    exact forall_calm_map_act (c.calm d) (List.forall_mem_cons.2 ⟨trivial, hrest⟩)
  | finished e held hx =>
    subst hx
    exact hcalm.elim

theorem Calm.runs {h : History} (ha : c.Calm a) (hr : a.Runs h b) : c.Calm b := by
  induction hr with
  | refl => exact ha
  | deed hd _ ih => exact ih (ha.does hd)

/-- What a calm thread comes to does not depend on what other threads do to the hooks. -/
theorem Calm.runs_of_reaches {h : History} (ha : c.Calm a)
    (hr : a.ReachesWithin (·.bodies = c.body) h b) : a.Runs h { b with hooks := a.hooks } := by
  induction hr with
  | refl => exact .refl a
  | @deed h b b' task events hr hd _ ih =>
    obtain ⟨rest, ht, hp⟩ := hd
    -- the state that is reached without the other threads is calm, and the hooks are all that differs
    have hcalm : task.Calm := (ha.runs ih).tasks task (by simp [ht])
    refine ih.trans (.single ⟨rest, ht, ?_⟩)
    have h := perform_hooks { b with tasks := rest } hcalm a.hooks
    rwa [hp] at h
  | @meanwhile h b hooks bodies hr hbody ih =>
    have hb : b.bodies = c.body := hr.holds
    rw [show bodies = b.bodies from hbody.trans hb.symm]
    exact ih

/-! ### After the drain -/

/-- A thread whose slot is gone comes to its end, and runs nothing on the way. -/
theorem Calm.finishes_gone (ha : c.Calm a) (ht : a.tasks = [.tearDown]) (hs : a.thread.slot = .gone)
    (hno : .slot ∉ a.thread.order) : ∃ h b, a.Finishes h b ∧ h.ran = [] := by
  -- by induction on the locals that are left, of which the slot is none
  induction ho : a.thread.order generalizing a with
  | nil => exact ⟨_, _, ⟨.single (does_bare ht ho), rfl⟩, rfl⟩
  | cons name order ih =>
    cases name with
    | slot => simp [ho] at hno
    | own =>
      obtain ⟨a₁, hd, hthread, ht₁⟩ := does_ownTornDown ht ho
      have hs₁ : a₁.thread.slot = .gone := by rw [hthread]; exact hs
      have hcons : ∀ h : History, h.ran = [] →
          History.ran (⟨.tearDown, [.localTornDown]⟩ :: h) = [] := fun h hh => hh
      obtain ⟨h, b, ⟨hr, hb⟩, hh⟩ | ⟨h, hr, hh⟩ :=
        runs_late ha.own ht₁ hs₁ (by rw [hthread])
      · exact ⟨_, b, ⟨.deed hd hr, hb⟩, hcons h hh⟩
      · have horder : a₁.thread.order = order := by rw [hthread]
        have hno₁ : .slot ∉ a₁.thread.order := by
          rw [horder]
          simpa [ho] using hno
        obtain ⟨k, b, ⟨hr', hb⟩, hk⟩ := ih ((ha.does hd).runs hr) rfl hs₁ hno₁ horder
        refine ⟨_, b, ⟨.deed hd (hr.trans hr'), hb⟩, hcons _ ?_⟩
        rw [History.ran_append, hh, hk]
        rfl

/-- A drain with nothing but the teardown below comes to the end of the thread. -/
theorem Drains.finishes {h : History} (hd : c.Drains a entries [.tearDown]) (ha : c.Calm a)
    (hl : a.Lives h) : ∃ k b, a.Finishes k b ∧ k.ran = c.depthFirst entries := by
  obtain ⟨k, b, hr, hran, hbody, ht, hs⟩ := hd.empties
  -- a slot that is gone is not torn down again
  have horder := (hl.reaches hr.reaches).stacked.order
  rw [hs, Slot.isLive_gone, if_neg Bool.false_ne_true, List.count_eq_zero] at horder
  obtain ⟨k', b', ⟨hr', hb'⟩, hran'⟩ := (ha.runs hr).finishes_gone ht hs horder
  exact ⟨k ++ k', b', ⟨hr.trans hr', hb'⟩, by rw [History.ran_append, hran, hran', List.append_nil]⟩

/-- The teardown of a thread runs what waits, unless its own local is torn down first. -/
theorem Calm.finishes_drain {h : History} (ha : c.Calm a) (hl : a.Lives h)
    (ht : a.tasks = [.tearDown]) (ho : a.thread.order.head? ≠ some .own) :
    ∃ k b, a.Finishes k b ∧ k.ran = c.depthFirst a.waiting := by
  have hs := hl.stacked
  cases horder : a.thread.order with
  | nil =>
    refine ⟨_, _, ⟨.single (does_bare ht horder), rfl⟩, ?_⟩
    -- a slot that is not to be torn down is not in use, and none is drained without a drain
    have hcount := hs.order
    have hw : a.waiting = [] := by
      cases hslot : a.thread.slot with
      | untouched | gone => rw [Activity.waiting, hslot]; rfl
      | live chain => simp [horder, hslot] at hcount
      | draining chain =>
        obtain ⟨n, hn⟩ := hs.draining chain hslot (by simp [ht]) (hs.ending?_eq_none ht)
        simp [ht] at hn
    rw [hw]
    rfl
  | cons name order =>
    cases name with
    | own => simp [horder] at ho
    | slot =>
      have hd : a.Does .tearDown [] { a with
          thread := { a.thread with
            order, slot := .draining (a.thread.slot.chain?.getD .empty) }
          tasks := [.drain 0, .tearDown] } :=
        ⟨[], ht, by simp only [perform, tearDown, horder]⟩
      have hdrains : c.Drains { a with
          thread := { a.thread with
            order, slot := .draining (a.thread.slot.chain?.getD .empty) }
          tasks := [.drain 0, .tearDown] } a.waiting [.tearDown] := by
        refine ⟨ha.body, ⟨0, rfl⟩, ⟨_, rfl⟩, ?_, by simp⟩
        cases hslot : a.thread.slot <;> simp [Activity.waiting, hslot, Slot.chain?, Chain.empty]
      obtain ⟨k, b, ⟨hr, hb⟩, hran⟩ := hdrains.finishes (ha.does hd) (hl.reaches (Runs.single hd).reaches)
      exact ⟨_, b, ⟨.deed hd hr, hb⟩, hran⟩

/-- The teardown of a thread whose own local is torn down first. -/
theorem Calm.finishes_own {h : History} {order : List LocalName} (ha : c.Calm a) (hl : a.Lives h)
    (ht : a.tasks = [.tearDown]) (ho : a.thread.order = .own :: order) (hno : .own ∉ order)
    (hs : a.thread.slot ≠ .gone) : ∃ k b, a.Finishes k b ∧
      k.ran = c.depthFirst ((registered a.thread.own.actions).reverse ++ a.waiting) := by
  -- the actions of the local come first, and what they register is on top of the chain
  obtain ⟨a₁, hd, hthread, ht₁⟩ := does_ownTornDown ht ho
  obtain ⟨k, a₂, hr, ha₂, hran, hw, -, -⟩ := runs_calm (a := a₁) ha.own ht₁
    (by rw [hthread]; exact hs) (by simp)
  have hr₁ : a.Runs _ a₂ := .deed hd hr
  have horder : a₂.thread.order.head? ≠ some .own := fun hhead => by
    refine absurd (List.mem_of_mem_head? hhead) ?_
    rw [ha₂]
    exact own_notMem_foldl ha.own (by rw [hthread]) (by rw [hthread]; exact hno)
  obtain ⟨k', b, ⟨hr', hb⟩, hran'⟩ := (ha.runs hr₁).finishes_drain (hl.reaches hr₁.reaches)
    (by rw [ha₂]) horder
  refine ⟨_, b, ⟨hr₁.trans hr', hb⟩, ?_⟩
  have hw₁ : a₁.waiting = a.waiting := by rw [Activity.waiting, hthread]; rfl
  rw [History.ran_append, hran', hw, hw₁, History.ran_cons, hran]
  rfl

theorem calm_life (c : Cascade) (hooks : Hooks) {actions : List Action}
    (calm : ∀ x ∈ actions, x.Calm) : c.Calm (life hooks c.body actions) :=
  ⟨rfl, forall_calm_map_act calm (List.forall_mem_singleton.2 trivial), nofun⟩

/-- The life of a thread whose actions are calm comes to its end. -/
theorem finishes_life (c : Cascade) (hooks : Hooks) {actions : List Action}
    (calm : ∀ x ∈ actions, x.Calm) : ∃ h last, (life hooks c.body actions).Finishes h last ∧
      h.ran = c.depthFirst (registeredBeforeDrain actions).reverse := by
  have ha := calm_life c hooks calm
  obtain ⟨h, a, hr, hthread, hran, hw, hs, -⟩ := runs_calm (a := life hooks c.body actions)
    calm rfl nofun (by simp)
  have ht : a.tasks = [.tearDown] := by rw [hthread]
  have hset : SetUpBy a.thread actions := by
    rw [hthread]
    exact setUpBy_foldl calm
  have hl : a.Lives h := ⟨_, _, _, hr.reaches⟩
  have hhead : a.thread.order.head? = (firstUses actions).getLast? := by
    rw [hset.order, List.head?_reverse]
  have hw : a.waiting = (registered actions).reverse := by
    rw [hw]
    exact List.append_nil _
  -- the local that was used last for the first time is torn down first
  by_cases hown : (firstUses actions).getLast? = some .own
  · obtain ⟨order, ho⟩ := List.head?_eq_some_iff.1 (hhead.trans hown)
    have hno : .own ∉ order := by
      have hnodup : a.thread.order.Nodup := by
        rw [hset.order, List.nodup_reverse]
        exact nodup_eraseDups _
      rw [ho] at hnodup
      exact (List.nodup_cons.1 hnodup).1
    obtain ⟨k, b, ⟨hr', hb⟩, hran'⟩ := (ha.runs hr).finishes_own hl ht ho hno hs
    have hlater : a.thread.own.actions = setDown actions := by
      obtain ⟨-, hnever, -⟩ | ⟨hlive, -⟩ := hset.own
      · exact absurd (List.mem_of_getLast? hown) hnever
      · rw [hlive]; rfl
    refine ⟨h ++ k, b, ⟨hr.trans hr', hb⟩, ?_⟩
    rw [History.ran_append, hran, hran', hw, hlater, registeredBeforeDrain, if_pos hown,
      List.reverse_append]
    rfl
  · obtain ⟨k, b, ⟨hr', hb⟩, hran'⟩ := (ha.runs hr).finishes_drain hl ht (by rw [hhead]; exact hown)
    refine ⟨h ++ k, b, ⟨hr.trans hr', hb⟩, ?_⟩
    rw [History.ran_append, hran, hran', hw, registeredBeforeDrain, if_neg hown, List.append_nil]
    rfl

theorem Calm.rest_eq {h : History} {n : Nat} (ha : c.Calm a) (hl : a.Lives h)
    (ht : a.tasks = .drain n :: rest) : rest = [.tearDown] := by
  have hs := hl.stacked
  have hall : ∀ t ∈ rest, t = .tearDown := by
    intro t hm
    have hcalm := ha.tasks t (by simp [ht, hm])
    have hrank := hs.rank_lt ht (by simp) hm
    cases t with
    | tearDown => rfl
    | finish e held => exact hcalm.elim
    | act | drain => simp at hrank
  have hdown : .tearDown ∈ rest := by
    have hm : .tearDown ∈ a.tasks :=
      hs.tearDown (hs.ending?_eq_none ht) (.inr ⟨.drain n, by simp [ht], by simp⟩)
    simpa [ht] using hm
  cases rest with
  | nil => cases hdown
  | cons t rest =>
    obtain rfl := hall t List.mem_cons_self
    -- there is no second teardown
    cases rest with
    | nil => rfl
    | cons t' rest =>
      obtain rfl := hall t' (by simp)
      have habove := (List.pairwise_cons.1 (hs.sorted_tail ht)).1 .tearDown List.mem_cons_self
      simp [Task.Above] at habove

/-- What is still to run once a destructor started: what runs on account of its own registrations,
and then what runs on account of the older entries. -/
theorem Calm.after_started {h k : History} {last : Activity (Destructor → List Action)}
    (ha : c.Calm a) (hl : a.Lives h) (hd : a.Does task [.ran d] b)
    (hr : b.ReachesWithin (·.bodies = c.body) k last) (hlast : last.tasks = []) :
    a.waiting = d :: b.waiting ∧
      k.ran = c.depthFirst (registered (c.body d)).reverse ++ c.depthFirst b.waiting := by
  have hb := ha.does hd
  have hlb := hl.reaches (Runs.single hd).reaches
  obtain ⟨rest, ht, turn⟩ := hd.turn
  cases turn with
  | started n d' chain chain' hx he free hc hc' hbe =>
    obtain rfl : d = d' := by simpa using he
    subst hx
    obtain rfl := ha.rest_eq hl ht
    have hbody : (Bodies.next a.bodies d).1 = c.body d := congrFun ha.body d
    have hw : b.waiting = chain'.entries := by rw [hbe]; rfl
    refine ⟨by rw [hw, Activity.waiting, Slot.waiting_of_chain? hc, hc'.1], ?_⟩
    have htb : b.tasks = (c.body d).map .act ++ .drain (n + 1) :: [.tearDown] := by
      rw [hbe, ← hbody]
    obtain ⟨k₁, z, hr₁, hran₁, hz⟩ := drains_of_started hb.body htb
      ⟨chain', by rw [hbe]⟩ (by simp)
    -- there is one way only to the end of the thread, and it leads through the next drain
    obtain ⟨k₂, e, ⟨hr₂, he⟩, hran₂⟩ := hz.finishes (hb.runs hr₁) (hlb.reaches hr₁.reaches)
    obtain ⟨rfl, -⟩ : k = k₁ ++ k₂ ∧ _ :=
      Finishes.unique ⟨hb.runs_of_reaches hr, hlast⟩ ⟨hr₁.trans hr₂, he⟩
    rw [History.ran_append, hran₁, hran₂, depthFirst_append]
    rfl
  | acted action hx outlook effect =>
    -- no action runs a destructor by itself
    exact absurd effect.ran_eq (by simp [Deed.ran])
  | bare hx he | slotTornDown order hx he | ownTornDown order hx he | drainRefused ran hx he
  | drainEnded ran hx he | finished e held hx he => simp at he

/-- **The order of the drain.** A thread whose actions are calm comes to its end, and whatever other
threads do to the hooks meanwhile, what runs is the depth-first traversal of what was registered
before the drain, most recent first. When a destructor starts to run, all that runs on account of
its own registrations does so before any older entry. -/
theorem drain_depthFirst (c : Cascade) (hooks : Hooks) {actions : List Action}
    (calm : ∀ x ∈ actions, x.Calm) :
    (∃ h last, (life hooks c.body actions).Finishes h last ∧
      h.ran = c.depthFirst (registeredBeforeDrain actions).reverse) ∧
    (∀ h last, (life hooks c.body actions).ReachesWithin (·.bodies = c.body) h last →
      last.tasks = [] → h.ran = c.depthFirst (registeredBeforeDrain actions).reverse) ∧
    (∀ before a task d b after last,
      (life hooks c.body actions).ReachesWithin (·.bodies = c.body) before a →
      a.Does task [.ran d] b → b.ReachesWithin (·.bodies = c.body) after last →
      last.tasks = [] → a.waiting = d :: b.waiting ∧
        after.ran = c.depthFirst (registered (c.body d)).reverse ++ c.depthFirst b.waiting) := by
  have hlife := calm_life c hooks calm
  obtain ⟨h, last, hf, hran⟩ := c.finishes_life hooks calm
  refine ⟨⟨h, last, hf, hran⟩, ?_, ?_⟩
  · intro h' last' hr hlast
    -- other threads do not matter to a calm one, and alone it has one way to its end
    obtain ⟨rfl, -⟩ : h' = h ∧ _ := Finishes.unique ⟨hlife.runs_of_reaches hr, hlast⟩ hf
    exact hran
  · intro before a task d b after last' hr hd hr' hlast
    have ha : c.Calm { a with hooks } := hlife.runs (hlife.runs_of_reaches hr)
    exact Calm.after_started ⟨ha.body, ha.tasks, ha.own⟩ ⟨_, _, _, hr.reaches⟩ hd hr' hlast

/-- Destructors with context 3 register two others, of which the one with context 2 registers a
third. -/
def stairs : Cascade where
  body d := match d.context with
    | 3 => [.register ⟨"a", 1⟩ true .native, .pending, .register ⟨"a", 2⟩ true .foreign]
    | 2 => [.register ⟨"b", 0⟩ true .native]
    | _ => []
  calm d x hx := by
    split at hx
    · simp only [List.mem_cons, List.not_mem_nil, or_false] at hx
      obtain rfl | rfl | rfl := hx
      · exact .register _ _
      · exact .pending
      · exact .register _ _
    · obtain rfl := List.mem_singleton.1 hx
      exact .register _ _
    · cases hx
  wellFounded := by
    -- a destructor registers others with lower contexts only
    refine Subrelation.wf (fun {e d} he => ?_) (measure Destructor.context).wf
    change e.context < d.context
    split at he
    · next h3 =>
      obtain rfl | rfl : e = ⟨"a", 1⟩ ∨ e = ⟨"a", 2⟩ := by simpa [registered?] using he
      all_goals simp [h3]
    · next h2 =>
      obtain rfl : e = ⟨"b", 0⟩ := by simpa [registered?] using he
      simp [h2]
    · cases he

/-- The order of a drain two levels deep, after registrations of a thread and of its own local. -/
theorem drain_depthFirst_stairs : ∃ h last,
    (life {} stairs.body [.register ⟨"a", 2⟩ true .native,
      .whenTornDown [.register ⟨"b", 3⟩ true .native]]).Finishes h last ∧
      h.ran = [⟨"b", 3⟩, ⟨"a", 2⟩, ⟨"b", 0⟩, ⟨"a", 1⟩, ⟨"a", 2⟩, ⟨"b", 0⟩] := by
  have calm : ∀ x ∈ [Action.register ⟨"a", 2⟩ true .native,
      .whenTornDown [.register ⟨"b", 3⟩ true .native]], x.Calm := by
    simp only [List.forall_mem_cons]
    refine ⟨.register _ _, .whenTornDown ?_, nofun⟩
    simp only [List.forall_mem_cons]
    exact ⟨.register _ _, nofun⟩
  obtain ⟨⟨h, last, hf, hran⟩, -⟩ := stairs.drain_depthFirst {} calm
  refine ⟨h, last, hf, hran.trans ?_⟩
  have hentries : (registeredBeforeDrain [Action.register ⟨"a", 2⟩ true .native,
      .whenTornDown [.register ⟨"b", 3⟩ true .native]]).reverse = [⟨"b", 3⟩, ⟨"a", 2⟩] := by
    decide
  have h0 : stairs.visit ⟨"b", 0⟩ = [⟨"b", 0⟩] := by rw [visit_eq]; rfl
  have h1 : stairs.visit ⟨"a", 1⟩ = [⟨"a", 1⟩] := by rw [visit_eq]; rfl
  have h2 : stairs.visit ⟨"a", 2⟩ = [⟨"a", 2⟩, ⟨"b", 0⟩] := by
    rw [visit_eq]
    change _ :: [Destructor.mk "b" 0].flatMap stairs.visit = _
    rw [List.flatMap_singleton, h0]
  have h3 : stairs.visit ⟨"b", 3⟩ = [⟨"b", 3⟩, ⟨"a", 2⟩, ⟨"b", 0⟩, ⟨"a", 1⟩] := by
    rw [visit_eq]
    change _ :: [Destructor.mk "a" 2, ⟨"a", 1⟩].flatMap stairs.visit = _
    rw [List.flatMap_cons, List.flatMap_singleton, h1, h2]
    rfl
  rw [hentries, depthFirst, List.flatMap_cons, List.flatMap_singleton, h3, h2]
  rfl

end Cascade

end HostServices
