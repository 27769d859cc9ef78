import HostServices.Proofs.Thread.Ledger

/-!
# What the work of a thread depends on

A task looks at its thread, at the hooks, and at what is known of the destructor that it runs if it
runs one. It does the same whatever is known of others (`Activity.Does.withBodies`), and whatever
waits below it on the stack (`Activity.Does.under`). Unless it installs a hook it leaves the hooks
as they are (`Activity.Does.hooks_eq`).
-/

namespace HostServices

/-! ### What is known of destructors -/

namespace Bodies

variable {β : Type} [Bodies β] {B C : β} {d : Destructor} {ds es : List Destructor}

/-- What is known of destructors after some of them ran. -/
def after (B : β) (ds : List Destructor) : β := ds.foldl (fun B d => (next B d).2) B

/-- The destructors do the same after `B` and after `C`, if they run one after another. -/
def Agree (B C : β) : List Destructor → Prop
  | [] => True
  | d :: ds => (next B d).1 = (next C d).1 ∧ Agree (next B d).2 (next C d).2 ds

/-- What the two destructors do does not depend on which of them ran before. -/
def Apart (β : Type) [Bodies β] (d e : Destructor) : Prop :=
  ∀ B : β, (next (next B d).2 e).1 = (next B e).1 ∧ (next (next B e).2 d).1 = (next B d).1 ∧
    (next (next B d).2 e).2 = (next (next B e).2 d).2

/-- Destructors that do the same at every run are apart. -/
theorem apart_of_table (d e : Destructor) : Apart (Destructor → List Action) d e :=
  fun _ => ⟨rfl, rfl, rfl⟩

theorem Agree.refl (B : β) (ds : List Destructor) : Agree B B ds := by
  induction ds generalizing B with
  | nil => trivial
  | cons d ds ih => exact ⟨rfl, ih _⟩

/-- A destructor that is apart from others has no part in what they do, nor they in what it does. -/
theorem agree_next (h : ∀ e ∈ ds, Apart β d e) (B : β) :
    Agree (next B d).2 B ds ∧ (next (after B ds) d).1 = (next B d).1 ∧
      after (next B d).2 ds = (next (after B ds) d).2 := by
  -- the three go together, for a run of `d` has to be moved past one of `ds` after the other
  induction ds generalizing B with
  | nil => exact ⟨trivial, rfl, rfl⟩
  | cons e ds ih =>
    obtain ⟨he, hds⟩ := List.forall_mem_cons.1 h
    obtain ⟨h₁, h₂, h₃⟩ := he B
    obtain ⟨ih₁, ih₂, ih₃⟩ := ih hds (next B e).2
    refine ⟨⟨h₁, ?_⟩, ih₂.trans h₂, ?_⟩
    · rw [h₃]
      exact ih₁
    · change after (next (next B d).2 e).2 ds = _
      rw [h₃]
      exact ih₃

theorem Agree.trans {D : β} (h : Agree B C ds) (h' : Agree C D ds) : Agree B D ds := by
  induction ds generalizing B C D with
  | nil => trivial
  | cons d ds ih => exact ⟨h.1.trans h'.1, ih h.2 h'.2⟩

theorem Agree.symm (h : Agree B C ds) : Agree C B ds := by
  induction ds generalizing B C with
  | nil => trivial
  | cons d ds ih => exact ⟨h.1.symm, ih h.2⟩

theorem after_append (B : β) (ds es : List Destructor) :
    after B (ds ++ es) = after (after B ds) es := List.foldl_append

theorem agree_append :
    Agree B C (ds ++ es) ↔ Agree B C ds ∧ Agree (after B ds) (after C ds) es := by
  induction ds generalizing B C with
  | nil => simp [Agree, after]
  | cons d ds ih =>
    rw [List.cons_append]
    simp only [Agree, ih, and_assoc]
    rfl

/-- Destructors that are apart from others do the same whether or not these ran before, and what is
known in the end does not depend on the order. -/
theorem agree_after (h : ∀ d ∈ ds, ∀ e ∈ es, Apart β d e) (B : β) :
    Agree (after B ds) B es ∧ Agree (after B es) B ds ∧
      after (after B ds) es = after (after B es) ds := by
  induction ds generalizing B with
  | nil => exact ⟨.refl B es, trivial, rfl⟩
  | cons d ds ih =>
    obtain ⟨hd, hds⟩ := List.forall_mem_cons.1 h
    obtain ⟨ih₁, ih₂, ih₃⟩ := ih hds (next B d).2
    obtain ⟨h₁, h₂, h₃⟩ := agree_next hd B
    refine ⟨ih₁.trans h₁, ⟨h₂, ?_⟩, ?_⟩
    · rw [← h₃]
      exact ih₂
    · change after (after (next B d).2 ds) es = after (next (after B es) d).2 ds
      rw [ih₃, h₃]

end Bodies

/-! ### Work with other destructors -/

/-- Whether an action installs a hook. -/
def Action.setsHook : Action → Bool
  | .setExitHook _ | .setExhaustedHook _ => true
  | _ => false

/-- Whether the deed was to install a hook. -/
def Deed.setsHook (x : Deed) : Bool :=
  match x.task with
  | .act action => action.setsHook
  | _ => false

/-- Whether a hook was installed. -/
def History.setsHook (h : History) : Bool := h.any Deed.setsHook

namespace Activity

variable {β : Type} {a b : Activity β} {task : Task} {events : List Thread.Event} {h : History}

theorem leave_withBodies (a : Activity β) (B : β) (e : Ending) (held : Bool) :
    { a with bodies := B }.leave e held =
      ((a.leave e held).1, { (a.leave e held).2 with bodies := B }) := by
  have hf : { a with bodies := B }.finishing? = a.finishing? := rfl
  simp only [leave, hf]
  split <;> rfl

theorem exhaust_withBodies (a : Activity β) (B : β) (caller : Caller) (held : Bool) :
    { a with bodies := B }.exhaust caller held =
      ((a.exhaust caller held).1, { (a.exhaust caller held).2 with bodies := B }) := by
  simp only [exhaust, leave_withBodies]
  split <;> rfl

theorem exit_withBodies (a : Activity β) (B : β) (status : Int) (caller : Caller) :
    { a with bodies := B }.exit status caller =
      ((a.exit status caller).1, { (a.exit status caller).2 with bodies := B }) := by
  simp only [exit, leave_withBodies]
  split <;> rfl

/-- No action looks at what destructors do. -/
theorem act_withBodies (a : Activity β) (B : β) (x : Action) :
    { a with bodies := B }.act x = ((a.act x).1, { (a.act x).2 with bodies := B }) := by
  have held : ∀ t, { a with thread := t, bodies := B }.chainHeld = { a with thread := t }.chainHeld :=
    fun _ => rfl
  cases x with
  | register d memory caller =>
    simp only [act, register, held]
    split
    · rfl
    · split
      · rfl
      · split
        · exact exhaust_withBodies { a with thread := a.thread.touchSlot } B caller true
        · rfl
  | pending =>
    simp only [act, pending, held]
    split
    · rfl
    · split <;> rfl
  | exit status caller => exact exit_withBodies a B status caller
  | exhausted => exact exhaust_withBodies a B .native false
  | _ => rfl

@[simp] theorem hooks_leave (a : Activity β) (e : Ending) (held : Bool) :
    (a.leave e held).2.hooks = a.hooks := by
  obtain ⟨-, hl⟩ | ⟨-, hl⟩ := a.leave_cases e held
  · rw [hl]
  · rw [hl]
    rfl

@[simp] theorem hooks_exhaust (a : Activity β) (caller : Caller) (held : Bool) :
    (a.exhaust caller held).2.hooks = a.hooks := by
  unfold exhaust
  split
  · rfl
  · exact hooks_leave a _ held
  · rfl
  · rfl
  · rfl

@[simp] theorem hooks_exit (a : Activity β) (status : Int) (caller : Caller) :
    (a.exit status caller).2.hooks = a.hooks := by
  unfold exit
  split
  · exact hooks_leave a _ false
  · exact hooks_leave a _ false
  · rfl
  · rfl
  · rfl

theorem hooks_act (a : Activity β) {x : Action} (hx : x.setsHook = false) :
    (a.act x).2.hooks = a.hooks := by
  cases x with
  | register d memory caller =>
    simp only [act, register]
    split
    · rfl
    · split
      · rfl
      · split
        · exact hooks_exhaust _ _ _
        · rfl
  | pending =>
    simp only [act, pending]
    split
    · rfl
    · split <;> rfl
  | exit status caller => exact hooks_exit a status caller
  | exhausted => exact hooks_exhaust a .native false
  | setExitHook hook | setExhaustedHook hook => cases hx
  | _ => rfl

variable [Bodies β]

/-- A task does the same with other destructors, if the one that it runs does. -/
theorem Does.withBodies (hd : a.Does task events b) {B : β}
    (hB : Bodies.Agree a.bodies B (Deed.ran ⟨task, events⟩)) :
    b.bodies = Bodies.after a.bodies (Deed.ran ⟨task, events⟩) ∧
      { a with bodies := B }.Does task events
        { b with bodies := Bodies.after B (Deed.ran ⟨task, events⟩) } := by
  obtain ⟨rest, ht, hp, turn⟩ := hd.perform_turn
  cases turn with
  | acted x hx outlook effect =>
    subst hx
    replace hp : { a with tasks := rest }.act x = (events, b) := hp
    -- also with the destructors of `a` itself, which tells that `b` has them still
    have hact : ∀ C : β, { a with tasks := rest, bodies := C }.act x =
        (events, { b with bodies := C }) := fun C => by
      have h := act_withBodies { a with tasks := rest } C x
      rwa [hp] at h
    rw [effect.ran_eq]
    refine ⟨?_, rest, ht, hact B⟩
    have h := (hact a.bodies).symm.trans hp
    exact (congrArg (fun r => r.2.bodies) h).symm
  | bare hx he ho hb =>
    subst hx he hb
    exact ⟨rfl, rest, ht, by simp [perform, tearDown, ho, Deed.ran, Bodies.after]⟩
  | slotTornDown order hx he ho hb =>
    subst hx he hb
    exact ⟨rfl, rest, ht, by simp [perform, tearDown, ho, Deed.ran, Bodies.after]⟩
  | ownTornDown order hx he ho hb =>
    subst hx he hb
    refine ⟨rfl, rest, ht, ?_⟩
    simp only [perform, tearDown, ho]
    rfl
  | drainRefused ran hx he hheld hb =>
    subst hx he hb
    have hheld : { a with tasks := rest }.chainHeld = true :=
      (chainHeld_below ht (by simp)).trans hheld
    exact ⟨rfl, rest, ht, drain_of_held (a := { a with tasks := rest, bodies := B }) hheld⟩
  | drainEnded ran hx he free hw hb =>
    subst hx he hb
    exact ⟨rfl, rest, ht, drain_of_empty (a := { a with tasks := rest, bodies := B }) free hw⟩
  | started ran d chain chain' hx he free hc hc' hb =>
    subst hx he hb
    refine ⟨rfl, rest, ht, ?_⟩
    rw [hB.1]
    exact drain_of_entry (a := { a with tasks := rest, bodies := B }) free hc hc'
  | finished e held hx he hb =>
    subst hx he hb
    exact ⟨rfl, rest, ht, rfl⟩

theorem Does.hooks_eq (hd : a.Does task events b) (hx : Deed.setsHook ⟨task, events⟩ = false) :
    b.hooks = a.hooks := by
  obtain ⟨rest, ht, turn⟩ := hd.turn
  cases turn with
  | acted x hx' =>
    obtain ⟨rest, ht, hp⟩ := hd
    subst hx'
    rw [show b = _ from (Prod.mk.inj hp).2.symm]
    exact hooks_act _ hx
  | bare _ _ _ hb | slotTornDown _ _ _ _ hb | ownTornDown _ _ _ _ hb | drainEnded _ _ _ _ _ hb
  | started _ _ _ _ _ _ _ _ _ hb => rw [hb]
  | drainRefused _ _ _ _ hb | finished _ _ _ _ hb => rw [hb]; rfl

/-- Work comes to the same with other destructors, if those that it runs do the same. -/
theorem Runs.withBodies (hr : a.Runs h b) {B : β} (hB : Bodies.Agree a.bodies B h.ran) :
    b.bodies = Bodies.after a.bodies h.ran ∧
      { a with bodies := B }.Runs h { b with bodies := Bodies.after B h.ran } := by
  induction hr generalizing B with
  | refl a => exact ⟨rfl, .refl _⟩
  | @deed a b c h task events hd _ ih =>
    have hran : History.ran (⟨task, events⟩ :: h) = Deed.ran ⟨task, events⟩ ++ h.ran :=
      List.flatMap_cons
    rw [hran, Bodies.agree_append] at hB
    obtain ⟨hbodies, hd'⟩ := hd.withBodies hB.1
    obtain ⟨hbodies', hr'⟩ := ih (hbodies ▸ hB.2)
    rw [hran, Bodies.after_append, Bodies.after_append, ← hbodies]
    exact ⟨hbodies', .deed hd' hr'⟩

theorem Runs.hooks_eq (hr : a.Runs h b) (hh : h.setsHook = false) : b.hooks = a.hooks := by
  induction hr with
  | refl => rfl
  | deed hd _ ih =>
    rw [History.setsHook, List.any_cons, Bool.or_eq_false_iff] at hh
    exact (ih hh.2).trans (hd.hooks_eq hh.1)

end Activity

/-! ### Work with more to do below -/

namespace Activity

variable {β : Type} {a b : Activity β} {task : Task} {events : List Thread.Event} {h : History}
  {below : List Task}

/-- The thread with more tasks below, which are given up with the others when the process ends. -/
def under (a : Activity β) (below : List Task) : Activity β :=
  if a.finishing? = none ∧ a.ending? = none then { a with tasks := a.tasks ++ below } else a

theorem under_of_none (hf : a.finishing? = none) (he : a.ending? = none) :
    a.under below = { a with tasks := a.tasks ++ below } := if_pos ⟨hf, he⟩

theorem under_of_finishing (hf : a.finishing? ≠ none) : a.under below = a := if_neg fun h => hf h.1

theorem stop_under (a : Activity β) (below : List Task) (e : Ending) :
    { a with tasks := a.tasks ++ below }.stop e = (a.stop e).under below :=
  (if_neg fun h => Option.some_ne_none _ h.2).symm

theorem finishing?_append (hbelow : ∀ e held, .finish e held ∉ below) :
    { a with tasks := a.tasks ++ below }.finishing? = none ↔ a.finishing? = none := by
  simp only [finishing?_eq_none_iff, List.mem_append, not_or]
  exact ⟨fun h e held => (h e held).1, fun h e held => ⟨h e held, hbelow e held⟩⟩

section Act

variable (hf : a.finishing? = none) (he : a.ending? = none)
  (hbelow : ∀ e held, .finish e held ∉ below)
include hf hbelow

theorem leave_under (e : Ending) (held : Bool) :
    { a with tasks := a.tasks ++ below }.leave e held =
      ((a.leave e held).1, (a.leave e held).2.under below) := by
  rw [leave, leave, hf, (finishing?_append hbelow).2 hf]
  refine Prod.ext rfl ?_
  rw [under_of_finishing (by simp [finishing?])]

include he

theorem exhaust_under (caller : Caller) (held : Bool) :
    { a with tasks := a.tasks ++ below }.exhaust caller held =
      ((a.exhaust caller held).1, (a.exhaust caller held).2.under below) := by
  simp only [exhaust, leave_under hf hbelow]
  split
  · exact Prod.ext rfl (stop_under _ _ _)
  · rfl
  · exact Prod.ext rfl (stop_under _ _ _)
  · exact Prod.ext rfl (under_of_none hf he).symm
  · exact Prod.ext rfl (stop_under _ _ _)

theorem exit_under (status : Int) (caller : Caller) :
    { a with tasks := a.tasks ++ below }.exit status caller =
      ((a.exit status caller).1, (a.exit status caller).2.under below) := by
  simp only [exit, leave_under hf hbelow]
  split
  · rfl
  · rfl
  · exact Prod.ext rfl (stop_under _ _ _)
  · exact Prod.ext rfl (under_of_none hf he).symm
  · exact Prod.ext rfl (stop_under _ _ _)

/-- No action looks at what waits below it. -/
theorem act_under (x : Action) : { a with tasks := a.tasks ++ below }.act x =
    ((a.act x).1, (a.act x).2.under below) := by
  have free : ∀ t, { a with thread := t }.chainHeld = false ∧
      { a with thread := t, tasks := a.tasks ++ below }.chainHeld = false := fun t => by
    have h := (finishing?_append hbelow).2 hf
    simp only [chainHeld, finishing?] at h hf ⊢
    rw [h, hf]
    exact ⟨rfl, rfl⟩
  have hgoes : ∀ t hooks, { a with thread := t, hooks }.under below =
      { a with thread := t, hooks, tasks := a.tasks ++ below } := fun t hooks =>
    under_of_none hf he
  cases x with
  | register d memory caller =>
    simp only [act, register, free]
    split
    · exact Prod.ext rfl (stop_under { a with thread := a.thread.touchSlot } below .aborted)
    · simp only [Bool.false_eq_true, if_false]
      split
      · exact exhaust_under (a := { a with thread := a.thread.touchSlot }) hf he hbelow caller true
      · exact Prod.ext rfl (hgoes _ _).symm
  | pending =>
    simp only [act, pending, free]
    split
    · exact Prod.ext rfl (hgoes _ _).symm
    · exact Prod.ext rfl (hgoes _ _).symm
  | exit status caller => exact exit_under hf he hbelow status caller
  | exhausted => exact exhaust_under hf he hbelow .native false
  | abort | fatal => exact Prod.ext rfl (stop_under _ _ _)
  | touch | whenTornDown | setExitHook | setExhaustedHook => exact Prod.ext rfl (hgoes _ _).symm

end Act

variable [Bodies β]

theorem Does.under_of_finishing (hd : a.Does task events b) (hf : a.finishing? ≠ none) :
    b.under below = b := by
  -- the end of the process stays on the stack, or the process ends
  refine if_neg fun ⟨hf', he'⟩ => ?_
  obtain ⟨rest, ht, turn⟩ := hd.turn
  simp only [ne_eq, finishing?_eq_none_iff, not_forall, not_not, ht] at hf hf'
  obtain ⟨e, held, hm⟩ := hf
  cases turn with
  | acted x hx outlook effect =>
    subst hx
    have hm : .finish e held ∈ rest := by simpa using hm
    cases outlook with
    | goesOn htb => exact hf' e held (by rw [htb]; exact hm)
    | stops _ heb => exact heb he'
    | leaves e' held' _ htb => exact hf' e' held' (by simp [htb])
  | bare hx _ _ hb | drainEnded _ hx _ _ _ hb =>
    subst hx hb
    exact hf' e held (by simpa using hm)
  | slotTornDown _ hx _ _ hb | ownTornDown _ hx _ _ hb | started _ _ _ _ hx _ _ _ _ hb =>
    subst hx hb
    have hm : .finish e held ∈ rest := by simpa using hm
    exact hf' e held (by simp [hm])
  | drainRefused _ _ _ _ hb | finished _ _ _ _ hb =>
    subst hb
    exact Option.some_ne_none _ he'

/-- A task does the same whatever waits below it. -/
theorem Does.under (hd : a.Does task events b) (he : a.ending? = none)
    (hbelow : ∀ e held, .finish e held ∉ below) :
    (a.under below).Does task events (b.under below) := by
  by_cases hf : a.finishing? ≠ none
  · rw [Activity.under_of_finishing hf, hd.under_of_finishing hf]
    exact hd
  replace hf := not_not.1 hf
  obtain ⟨rest, ht, hp, turn⟩ := hd.perform_turn
  have hrest : ∀ e held, .finish e held ∉ rest := fun e held hm =>
    finishing?_eq_none_iff.1 hf e held (by simp [ht, hm])
  -- the tasks that are left or put on the stack are not the end of the process
  have hgoes : ∀ b : Activity β, b.ending? = a.ending? → (∀ e held, .finish e held ∉ b.tasks) →
      b.under below = { b with tasks := b.tasks ++ below } := fun b hb hno =>
    under_of_none (finishing?_eq_none_iff.2 hno) (hb.trans he)
  have free : { a with tasks := rest ++ below }.chainHeld = false :=
    chainHeld_eq_false fun e held hm =>
      (List.mem_append.1 hm).elim (hrest e held) (hbelow e held)
  rw [under_of_none hf he]
  refine ⟨rest ++ below, by simp [ht], ?_⟩
  cases turn with
  | acted x hx outlook effect =>
    subst hx
    replace hp : { a with tasks := rest }.act x = (events, b) := hp
    have h := act_under (a := { a with tasks := rest }) (finishing?_eq_none_iff.2 hrest) he hbelow x
    rwa [hp] at h
  | bare hx hev ho hb =>
    subst hx hev
    rw [hgoes b (by rw [hb]) (by rw [hb]; exact hrest), hb]
    simp [perform, tearDown, ho]
  | slotTornDown order hx hev ho hb =>
    subst hx hev
    rw [hgoes b (by rw [hb]) (by rw [hb]; simpa using hrest), hb]
    simp [perform, tearDown, ho]
  | ownTornDown order hx hev ho hb =>
    subst hx hev
    rw [hgoes b (by rw [hb]) (by rw [hb]; simpa using hrest), hb]
    simp only [perform, tearDown, ho, List.append_assoc, List.cons_append]
    rfl
  | drainRefused ran hx hev hheld hb =>
    -- the chain is held by an end of the process only
    rw [chainHeld, hf] at hheld
    cases hheld
  | drainEnded ran hx hev hfree hw hb =>
    subst hx hev
    rw [hgoes b (by rw [hb]) (by rw [hb]; exact hrest), hb]
    exact drain_of_empty (a := { a with tasks := rest ++ below }) free hw
  | started ran d chain chain' hx hev hfree hc hc' hb =>
    subst hx hev
    rw [hgoes b (by rw [hb]) (by rw [hb]; simpa using hrest), hb]
    simp only [List.append_assoc, List.cons_append]
    exact drain_of_entry (a := { a with tasks := rest ++ below }) free hc hc'
  | finished e held hx hev hb =>
    -- there is none
    subst hx
    exact absurd (by simp [ht]) (finishing?_eq_none_iff.1 hf e held)

/-- A thread of a process that ended has nothing to do. -/
theorem Reaches.tasks_eq_nil (hr : a.Reaches h b) (ha : a.ending? ≠ none → a.tasks = [])
    (hb : b.ending? ≠ none) : b.tasks = [] := by
  induction hr with
  | refl => exact ha hb
  | @deed h b b' task events _ hd _ ih =>
    obtain ⟨rest, ht, turn⟩ := hd.turn
    have hlive : b.ending? = none := by
      by_contra he
      rw [ih he] at ht
      cases ht
    cases turn with
    | acted x hx outlook effect =>
      cases outlook with
      | goesOn _ he => exact absurd (he.trans hlive) hb
      | stops hts _ => exact hts
      | leaves _ _ _ _ he => exact absurd (he.trans hlive) hb
    | bare _ _ _ hb' | slotTornDown _ _ _ _ hb' | ownTornDown _ _ _ _ hb'
    | drainEnded _ _ _ _ _ hb' | started _ _ _ _ _ _ _ _ _ hb' =>
      rw [hb'] at hb
      exact absurd hlive hb
    | drainRefused _ _ _ _ hb' | finished _ _ _ _ hb' =>
      rw [hb']
      rfl
  | meanwhile _ _ _ _ ih => exact ih hb

/-- A thread comes to the same whatever waits below its tasks. -/
theorem Reaches.under (hr : a.Reaches h b) (ha : a.ending? ≠ none → a.tasks = [])
    (hbelow : ∀ e held, .finish e held ∉ below) :
    (a.under below).Reaches h (b.under below) := by
  induction hr with
  | refl => exact .refl _
  | @deed h b b' task events hr hd _ ih =>
    have hlive : b.ending? = none := by
      by_contra he
      obtain ⟨rest, ht, -⟩ := hd
      rw [Reaches.tasks_eq_nil hr ha he] at ht
      cases ht
    exact ih.deed (hd.under hlive hbelow)
  | @meanwhile h b hooks bodies _ _ ih =>
    have hunder : { b with hooks, bodies }.under below = { b.under below with hooks, bodies } := by
      have hf : { b with hooks, bodies }.finishing? = b.finishing? := rfl
      simp only [Activity.under, hf]
      split <;> rfl
    rw [hunder]
    exact ih.meanwhile hooks bodies

end Activity

end HostServices
