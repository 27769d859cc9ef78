import HostServices.Proofs.Thread.Ledger
import Mathlib.Data.List.Induction
import Mathlib.Data.List.Nodup

/-!
# Calm actions

An action is calm if the process goes on after it and there is memory for it. Calm actions do the
same whatever the hooks are (`perform_hooks`), and as long as the slot is not gone what they do is a
function of the thread alone (`Thread.after`): they put what they register on the chain and run no
destructor (`runs_calm`). Once the slot is gone they run none either, but a registration ends the
process (`runs_late`).

From a new thread calm actions set up the locals in the order of their first uses (`SetUpBy`), which
settles whether the thread's own local is torn down before the slot.
-/

namespace HostServices

/-! ### Calm actions -/

namespace Action

/-- The process goes on after the action, for which there is memory. -/
inductive Calm : Action → Prop
  | register (d : Destructor) (caller : Caller) : Calm (.register d true caller)
  | pending : Calm .pending
  | touch : Calm .touch
  | whenTornDown {actions : List Action} : (∀ x ∈ actions, Calm x) → Calm (.whenTornDown actions)

/-- The destructor that an action registers. -/
def registered? : Action → Option Destructor
  | .register d _ _ => some d
  | _ => none

/-- The destructors that actions register, in order. -/
def registered (actions : List Action) : List Destructor := actions.filterMap registered?

@[simp] theorem registered_nil : registered [] = [] := rfl

@[simp] theorem registered_cons (x : Action) (actions : List Action) :
    registered (x :: actions) = x.registered?.toList ++ registered actions := by
  cases hx : x.registered? <;> simp [registered, hx]

/-- The actions that actions set down for the teardown of the thread's own local, in order. -/
def setDown (actions : List Action) : List Action :=
  actions.flatMap fun
    | .whenTornDown later => later
    | _ => []

/-- The local that an action sets up unless it was set up before. -/
def local? : Action → Option LocalName
  | .register .. | .pending | .touch => some .slot
  | .whenTornDown _ => some .own
  | _ => none

/-- The locals that actions set up, in the order of their first uses. -/
def firstUses (actions : List Action) : List LocalName := (actions.filterMap local?).eraseDups

/-- The destructors that a thread with these actions registers before its slot is torn down: its own
registrations, and those of its own local if that one is torn down first. -/
def registeredBeforeDrain (actions : List Action) : List Destructor :=
  registered actions ++
    if (firstUses actions).getLast? = some .own then registered (setDown actions) else []

end Action

open HostServices.Action

/-- The process goes on after the task. -/
def Task.Calm : Task → Prop
  | .act x => x.Calm
  | .drain _ | .tearDown => True
  | .finish .. => False

/-- A slot with one more entry on its chain, for which there is memory. -/
def Slot.push (s : Slot) (d : Destructor) : Slot :=
  match s.chain?.bind (Chain.push? · true d) with
  | some chain => s.setChain chain
  | none => s

namespace Thread

/-- The thread after a calm action. -/
def after (t : Thread) : Action → Thread
  | .register d _ _ => { t.touchSlot with slot := t.touchSlot.slot.push d }
  | .pending | .touch => t.touchSlot
  | .whenTornDown actions => t.whenTornDown actions
  | _ => t

end Thread

/-! ### Threads after calm actions -/

theorem Slot.push_eq {s : Slot} {chain : Chain} (hc : s.chain? = some chain) (d : Destructor) :
    ∃ chain', chain.push? true d = some chain' ∧ s.push d = s.setChain chain' := by
  cases hp : chain.push? true d with
  | none => simp [Chain.push?_eq_none_iff] at hp
  | some chain' => exact ⟨chain', rfl, by simp [push, hc, hp]⟩

theorem own_after {t : Thread} {x : Action} (hx : x.Calm) (ht : ∀ y ∈ t.own.actions, y.Calm) :
    ∀ y ∈ (t.after x).own.actions, y.Calm := by
  cases hx with
  | register d caller | pending | touch =>
    simp only [Thread.after, Thread.own_touchSlot]
    exact ht
  | whenTornDown hl =>
    simp only [Thread.after, Thread.whenTornDown]
    split
    · exact hl
    · next earlier ho =>
      intro y hy
      rw [ho] at ht
      exact (List.mem_append.1 hy).elim (ht y) (hl y)
    · exact ht

/-- The locals of a thread are set up as calm actions do, from a thread that did nothing before. -/
structure SetUpBy (t : Thread) (actions : List Action) : Prop where
  order : t.order = (firstUses actions).reverse
  slot : t.slot = .untouched ∧ .slot ∉ firstUses actions ∨
    t.slot.isLive = true ∧ .slot ∈ firstUses actions
  own : t.own = .untouched ∧ .own ∉ firstUses actions ∧ setDown actions = [] ∨
    t.own = .live (setDown actions) ∧ .own ∈ firstUses actions

theorem eraseDups_concat {α : Type} [DecidableEq α] (l : List α) (a : α) :
    (l ++ [a]).eraseDups = if a ∈ l.eraseDups then l.eraseDups else l.eraseDups ++ [a] := by
  rw [List.eraseDups_append]
  by_cases h : a ∈ l <;> simp [List.removeAll, List.eraseDups_cons, h]

theorem nodup_eraseDups {α : Type} [DecidableEq α] (l : List α) : l.eraseDups.Nodup := by
  induction l using List.reverseRecOn with
  | nil => exact List.nodup_nil
  | append_singleton l a ih =>
    rw [eraseDups_concat]
    split
    · exact ih
    · next h =>
      rw [← List.concat_eq_append]
      exact ih.concat h

theorem firstUses_concat (actions : List Action) {x : Action} {name : LocalName}
    (hx : x.local? = some name) :
    firstUses (actions ++ [x]) =
      if name ∈ firstUses actions then firstUses actions else firstUses actions ++ [name] := by
  rw [firstUses, List.filterMap_append, List.filterMap_cons_some hx, List.filterMap_nil]
  exact eraseDups_concat _ _

theorem SetUpBy.nil : SetUpBy {} [] := ⟨rfl, .inl ⟨rfl, nofun⟩, .inl ⟨rfl, nofun, rfl⟩⟩

/-- One more action that uses the slot. -/
theorem SetUpBy.usesSlot {t t' : Thread} {actions : List Action} {x : Action}
    (ht : SetUpBy t actions) (hx : x.local? = some .slot) (ho : t'.order = t.touchSlot.order)
    (hs : t'.slot.isLive = t.touchSlot.slot.isLive) (hown : t'.own = t.own)
    (hd : setDown (actions ++ [x]) = setDown actions) : SetUpBy t' (actions ++ [x]) := by
  have hmem : .own ∈ firstUses (actions ++ [x]) ↔ .own ∈ firstUses actions := by
    rw [firstUses_concat actions hx]
    split <;> simp
  -- the slot is first in the order exactly if it was not used before
  refine ⟨?_, .inr ?_, by rw [hown, hmem, hd]; exact ht.own⟩
  · rw [ho, firstUses_concat actions hx, Thread.touchSlot]
    obtain ⟨hslot, hno⟩ | ⟨hslot, hyes⟩ := ht.slot
    · simp [hslot, hno, ht.order]
    · simp only [hyes, if_true, ← ht.order]
      split
      · next h => simp [h] at hslot
      · rfl
  · rw [hs, firstUses_concat actions hx, Thread.touchSlot]
    obtain ⟨hslot, hno⟩ | ⟨hslot, hyes⟩ := ht.slot
    · simp [hslot, hno]
    · refine ⟨?_, by simp [hyes]⟩
      split
      · rfl
      · exact hslot

theorem SetUpBy.after {t : Thread} {actions : List Action} {x : Action} (ht : SetUpBy t actions)
    (hx : x.Calm) : SetUpBy (t.after x) (actions ++ [x]) := by
  cases hx with
  | register d caller =>
    have hlive : (t.touchSlot.slot.push d).isLive = t.touchSlot.slot.isLive := by
      unfold Slot.push
      split <;> simp
    exact ht.usesSlot rfl rfl hlive t.own_touchSlot (by simp [setDown])
  | pending | touch => exact ht.usesSlot rfl rfl rfl t.own_touchSlot (by simp [setDown])
  | @whenTornDown later hl =>
    have hx : (whenTornDown later).local? = some .own := rfl
    have hset : setDown (actions ++ [whenTornDown later]) = setDown actions ++ later := by
      simp [setDown]
    have hmem : .slot ∈ firstUses (actions ++ [whenTornDown later]) ↔
        .slot ∈ firstUses actions := by
      rw [firstUses_concat actions hx]
      split <;> simp
    refine ⟨?_, by rw [Thread.after, Thread.slot_whenTornDown, hmem]; exact ht.slot, .inr ?_⟩
    · rw [Thread.after, Thread.whenTornDown, firstUses_concat actions hx]
      obtain ⟨hown, hno, -⟩ | ⟨hown, hyes⟩ := ht.own
      · simp [hown, hno, ht.order]
      · simp [hown, hyes, ht.order]
    · rw [Thread.after, Thread.whenTornDown, firstUses_concat actions hx, hset]
      obtain ⟨hown, hno, hnone⟩ | ⟨hown, hyes⟩ := ht.own
      · simp [hown, hno, hnone]
      · simp [hown, hyes]

/-- A thread that did nothing before has done calm actions. -/
theorem setUpBy_foldl {actions : List Action} (calm : ∀ x ∈ actions, x.Calm) :
    SetUpBy (actions.foldl Thread.after {}) actions := by
  -- any thread will do that is set up by what was done so far
  have hgen : ∀ (t : Thread) (done : List Action), SetUpBy t done →
      SetUpBy (actions.foldl Thread.after t) (done ++ actions) := by
    induction actions with
    | nil => intro t done ht; simpa using ht
    | cons x actions ih =>
      intro t done ht
      obtain ⟨hx, calm⟩ := List.forall_mem_cons.1 calm
      rw [List.append_cons]
      exact ih calm _ _ (ht.after hx)
  exact hgen {} [] .nil

/-- The teardown of the thread's own local keeps that local from being torn down once more. -/
theorem own_notMem_foldl {t : Thread} {actions : List Action} (calm : ∀ x ∈ actions, x.Calm)
    (ho : t.own = .gone) (hno : .own ∉ t.order) :
    .own ∉ (actions.foldl Thread.after t).order := by
  induction actions generalizing t with
  | nil => exact hno
  | cons x actions ih =>
    obtain ⟨hx, hcalm⟩ := List.forall_mem_cons.1 calm
    have htouch : t.touchSlot.own = .gone ∧ .own ∉ t.touchSlot.order := by
      unfold Thread.touchSlot
      split <;> simp [ho, hno]
    cases hx with
    | register d caller | pending | touch => exact ih hcalm htouch.1 htouch.2
    | @whenTornDown later hl =>
      -- what is set down after the teardown of the local is lost
      have hsame : t.after (.whenTornDown later) = t := by
        simp [Thread.after, Thread.whenTornDown, ho]
      rw [List.foldl_cons, hsame]
      exact ih hcalm ho hno

/-! ### Doing calm actions -/

namespace Activity

variable {β : Type} [Bodies β] {a b : Activity β} {x : Action} {actions : List Action}
  {task : Task} {rest : List Task} {events : List Thread.Event}

/-- A calm action is done without a look at the hooks. -/
theorem does_calm (hx : x.Calm) (ht : a.tasks = .act x :: rest) (hs : a.thread.slot ≠ .gone)
    (hf : ∀ e held, .finish e held ∉ rest) : ∃ events,
      a.Does (.act x) events { a with thread := a.thread.after x, tasks := rest } ∧
        Deed.returned? ⟨.act x, events⟩ = x.registered? := by
  have free : { a with thread := a.thread.touchSlot, tasks := rest }.chainHeld = false :=
    chainHeld_eq_false hf
  -- the slot is not gone, so there is a chain, and no end of the process holds it
  obtain ⟨chain, hc⟩ : ∃ chain, a.thread.touchSlot.slot.chain? = some chain :=
    Option.ne_none_iff_exists'.1 fun hn => hs ((a.thread.chain?_touchSlot_eq_none_iff).1 hn)
  cases hx with
  | register d caller =>
    obtain ⟨chain', hp, hpush⟩ := Slot.push_eq hc d
    refine ⟨[.notice (.registered d.context)], ⟨rest, ht, ?_⟩, ?_⟩
    · simp [perform, act, register, hc, free, hp, Thread.after, hpush]
    · simp [Deed.returned?, Deed.registration?, Option.filter, registered?]
  | pending =>
    refine ⟨[.pending chain.entries.length], ⟨rest, ht, ?_⟩, rfl⟩
    simp [perform, act, pending, hc, free, Thread.after]
  | touch => exact ⟨[], ⟨rest, ht, rfl⟩, rfl⟩
  | whenTornDown hl => exact ⟨[], ⟨rest, ht, rfl⟩, rfl⟩

/-- Calm actions run no destructor, and leave on the chain what they register. -/
theorem runs_calm (calm : ∀ x ∈ actions, x.Calm) (ht : a.tasks = actions.map .act ++ rest)
    (hs : a.thread.slot ≠ .gone) (hf : ∀ e held, .finish e held ∉ rest) : ∃ h b,
      a.Runs h b ∧ b = { a with thread := actions.foldl Thread.after a.thread, tasks := rest } ∧
        h.ran = [] ∧ b.waiting = (registered actions).reverse ++ a.waiting ∧
        b.thread.slot ≠ .gone ∧
        ((∃ chain, a.thread.slot = .draining chain) → ∃ chain, b.thread.slot = .draining chain) := by
  induction actions generalizing a with
  | nil =>
    refine ⟨[], a, .refl a, ?_, rfl, rfl, hs, id⟩
    rw [show rest = a.tasks from ht.symm]
    rfl
  | cons x actions ih =>
    obtain ⟨hx, calm⟩ := List.forall_mem_cons.1 calm
    have hf' : ∀ e held, .finish e held ∉ actions.map Task.act ++ rest := by simpa using hf
    obtain ⟨events, hd, hr⟩ := does_calm hx ht hs hf'
    have effect : SlotEffect a.thread ⟨.act x, events⟩ (a.thread.after x) := by
      obtain ⟨rest', ht', turn⟩ := hd.turn
      cases turn with
      | acted action _ _ effect => exact effect
      | _ => contradiction
    -- go on from the state after the first action
    obtain ⟨h, b, hruns, hb, hran, hw, hg, hdr⟩ := ih calm
      (a := { a with thread := a.thread.after x, tasks := actions.map .act ++ rest }) rfl
      (mt effect.gone_iff.1 hs)
    refine ⟨_, b, .deed hd hruns, hb, ?_, ?_, hg, fun hdrain => hdr (effect.draining_iff.2 hdrain)⟩
    · rw [History.ran_cons, effect.ran_eq, hran]
      rfl
    · rw [hw, waiting, waiting, effect.waiting_eq, hr, registered_cons]
      cases x.registered? <;> simp

/-- A calm action does not look at the hooks, and neither does any task that is no action. -/
theorem perform_hooks (a : Activity β) (calm : task.Calm) (hooks : Hooks) :
    { a with hooks }.perform task = ((a.perform task).1, { (a.perform task).2 with hooks }) := by
  have held : ∀ thread, { a with thread, hooks }.chainHeld = { a with thread }.chainHeld :=
    fun _ => rfl
  cases task with
  | act x =>
    cases (calm : x.Calm) with
    | register d caller =>
      simp only [perform, act, Activity.register]
      cases hc : a.thread.touchSlot.slot.chain? with
      | none => rfl
      | some chain =>
        obtain ⟨chain', hp, -⟩ := Slot.push_eq hc d
        simp only [hp]
        -- whether the chain is held is up to the tasks alone
        rw [held]
        by_cases hf : { a with thread := a.thread.touchSlot }.chainHeld
        · simp only [hf, if_true]
          rfl
        · simp only [hf]
          rfl
    | pending =>
      simp only [perform, act, Activity.pending]
      cases hc : a.thread.touchSlot.slot.chain? with
      | none => rfl
      | some chain =>
        simp only
        rw [held]
        by_cases hf : { a with thread := a.thread.touchSlot }.chainHeld
        · simp only [hf, if_true]
          rfl
        · simp only [hf]
          rfl
    | touch | whenTornDown => rfl
  | tearDown =>
    simp only [perform, tearDown]
    split <;> rfl
  | drain ran =>
    simp only [perform, drain]
    rw [held a.thread]
    split
    · rfl
    · split <;> rfl
  | finish => rfl

omit [Bodies β] in
theorem act_frame (hx : x.Calm) (h : a.act x = (events, b)) :
    b.bodies = a.bodies ∧ (b.tasks = a.tasks ∨ b.tasks = []) ∧
      (b.thread.own = a.thread.own ∨ b.thread = a.thread.after x) := by
  cases hx with
  | register d caller =>
    cases registration h with
    | tooLate gone h =>
      obtain ⟨-, rfl⟩ := Prod.mk.inj h
      exact ⟨rfl, .inr rfl, .inl rfl⟩
    | refused chain hc held he hb =>
      subst hb
      exact ⟨rfl, .inr rfl, .inl a.thread.own_touchSlot⟩
    | exhausted chain hc free hp h =>
      -- there is memory
      simp [Chain.push?_eq_none_iff] at hp
    | kept chain chain' hc free hp he hb =>
      subst hb
      exact ⟨rfl, .inl rfl, .inl a.thread.own_touchSlot⟩
  | pending =>
    obtain ⟨-, -, rfl⟩ | ⟨-, -, -, rfl⟩ := pending_cases h
    · exact ⟨rfl, .inl rfl, .inl a.thread.own_touchSlot⟩
    · exact ⟨rfl, .inr rfl, .inl a.thread.own_touchSlot⟩
  | touch =>
    obtain ⟨-, rfl⟩ := Prod.mk.inj h
    exact ⟨rfl, .inl rfl, .inl a.thread.own_touchSlot⟩
  | whenTornDown hl =>
    obtain ⟨-, rfl⟩ := Prod.mk.inj h
    exact ⟨rfl, .inl rfl, .inr rfl⟩

theorem forall_calm_map_act (hl : ∀ x ∈ actions, x.Calm) (hr : ∀ t ∈ rest, t.Calm) :
    ∀ t ∈ actions.map .act ++ rest, t.Calm := by
  rw [List.forall_mem_append, List.forall_mem_map]
  exact ⟨hl, hr⟩

/-- Actions that come after the drain run nothing, even if one of them ends the process. -/
theorem runs_late (calm : ∀ x ∈ actions, x.Calm)
    (ht : a.tasks = actions.map .act ++ rest) (hs : a.thread.slot = .gone)
    (ho : a.thread.own = .gone) :
    (∃ h b, a.Finishes h b ∧ h.ran = []) ∨ ∃ h, a.Runs h { a with tasks := rest } ∧ h.ran = [] := by
  induction actions generalizing a with
  | nil =>
    refine .inr ⟨[], ?_, rfl⟩
    rw [show rest = a.tasks from ht.symm]
    exact .refl a
  | cons x actions ih =>
    obtain ⟨hx, calm⟩ := List.forall_mem_cons.1 calm
    have htouch : a.thread.touchSlot = a.thread := by simp [Thread.touchSlot, hs]
    -- whatever goes on leaves the thread as it is
    have hgoes : ∀ events, Deed.ran ⟨.act x, events⟩ = [] →
        a.Does (.act x) events { a with tasks := actions.map .act ++ rest } →
        (∃ h b, a.Finishes h b ∧ h.ran = []) ∨
          ∃ h, a.Runs h { a with tasks := rest } ∧ h.ran = [] := by
      intro events hran hd
      have hcons : ∀ h : History, h.ran = [] → History.ran (⟨.act x, events⟩ :: h) = [] :=
        fun h hh => by rw [History.ran_cons, hran, hh]; rfl
      refine (ih (a := { a with tasks := actions.map .act ++ rest }) calm rfl hs ho).imp ?_ ?_
      · rintro ⟨h, b, ⟨hr, hb⟩, hh⟩
        exact ⟨_, b, ⟨.deed hd hr, hb⟩, hcons h hh⟩
      · rintro ⟨h, hr, hh⟩
        exact ⟨_, .deed hd hr, hcons h hh⟩
    cases hx with
    | register d caller =>
      -- the one calm action that ends the process now
      have hd : a.Does (.act (.register d true caller)) (a.die Activity.tooLate).1
          (a.stop .aborted) := by
        refine ⟨_, ht, ?_⟩
        simp only [perform, act, Activity.register, htouch, hs, Slot.chain?_gone]
        rfl
      exact .inl ⟨_, _, ⟨.single hd, rfl⟩, rfl⟩
    | pending =>
      refine hgoes [.pending 0] rfl ⟨_, ht, ?_⟩
      simp [perform, act, Activity.pending, htouch, hs]
    | touch => exact hgoes [] rfl ⟨_, ht, by simp [perform, act, htouch]⟩
    | whenTornDown hl =>
      exact hgoes [] rfl ⟨_, ht, by simp [perform, act, Thread.whenTornDown, ho]⟩

theorem does_ownTornDown {order : List LocalName} (ht : a.tasks = .tearDown :: rest)
    (ho : a.thread.order = .own :: order) : ∃ b, a.Does .tearDown [.localTornDown] b ∧
      b.thread = { a.thread with order, own := .gone } ∧
      b.tasks = a.thread.own.actions.map .act ++ .tearDown :: rest := by
  refine ⟨{ a with
    thread := { a.thread with order, own := .gone }
    tasks := a.thread.own.actions.map .act ++ .tearDown :: rest }, ⟨rest, ht, ?_⟩, rfl, rfl⟩
  simp only [perform, tearDown, ho]
  rfl

theorem does_bare (ht : a.tasks = .tearDown :: rest) (ho : a.thread.order = []) :
    a.Does .tearDown [] { a with tasks := rest } :=
  ⟨rest, ht, by simp [perform, tearDown, ho]⟩

end Activity

end HostServices
