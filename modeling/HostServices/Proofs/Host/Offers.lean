import HostServices.Proofs.Host.Write

/-!
# What the host is offered

Bytes are written round by round: all that is left of them is offered to the host, which gives the
next of its answers, until nothing is left or a write fails. What the rounds come to is said by
`Offers`, for whatever the host answers (`writeAll_offers`): each write offers just what was not
taken before it, only the last one can fail, and there are no more of them than there are answers,
and one.

An interruption has no other effect than that the offer is made once more. This is said in two ways.
An interruption put in anywhere among the answers puts an interrupted write in at that place, in
front of the same offer, or nothing at all if the loop does not get there (`writeAll_interrupted`).
And with all interruptions left out of the answers, the writes are the same but for the interrupted
ones (`writeAll_uninterrupted`).
-/

namespace HostServices

namespace WriteCall

/-- Whether the host was interrupted at a write. -/
def interrupted (w : WriteCall) : Bool := w.answer = .interrupted

/-- The writes at which the host was not interrupted. -/
def uninterrupted (writes : List WriteCall) : List WriteCall :=
  writes.filter fun w => !w.interrupted

/-- The host takes the start of what it is offered. -/
theorem taken_isPrefixOf (w : WriteCall) : w.taken <+: w.offered := by
  unfold taken
  split
  · exact List.take_prefix _ _
  · exact List.nil_prefix

theorem taken_append_drop (w : WriteCall) : w.taken ++ w.offered.drop w.taken.length = w.offered :=
  List.prefix_iff_eq_append.1 w.taken_isPrefixOf

/-- A host that is neither interrupted nor fails takes something of what it is offered. -/
theorem taken_ne_nil {d : Nat} {bytes : Bytes} {answer : WriteAnswer} (hbytes : bytes ≠ [])
    (hfailed : (offer d bytes answer).failed = false)
    (hinterrupted : (offer d bytes answer).interrupted = false) :
    (offer d bytes answer).taken ≠ [] := by
  cases answer with
  | interrupted => simp [interrupted, offer] at hinterrupted
  | fails => simp [failed, offer] at hfailed
  | takes most =>
    have hmost : min most bytes.length ≠ 0 := by simpa [failed, offer] using hfailed
    show bytes.take (min most bytes.length) ≠ []
    rw [ne_eq, List.take_eq_nil_iff, not_or]
    exact ⟨hmost, hbytes⟩

/-- Nothing is taken at an interrupted write. -/
theorem allTaken_uninterrupted (writes : List WriteCall) :
    allTaken (uninterrupted writes) = allTaken writes := by
  induction writes with
  | nil => rfl
  | cons w writes ih =>
    rw [uninterrupted, allTaken_cons, List.filter_cons]
    split
    · rw [allTaken_cons, ← ih, uninterrupted]
    · rename_i hw
      have hinterrupted : w.answer = .interrupted := by simpa [interrupted] using hw
      rw [taken_of_interrupted hinterrupted, List.nil_append, ← ih, uninterrupted]

/-- The writes with an interrupted one put in at place `n`, for the offer that is made there. -/
def interruptedAt (n : Nat) (writes : List WriteCall) : List WriteCall :=
  match writes[n]? with
  | some w => writes.insertIdx n { w with answer := .interrupted }
  | none => writes

@[simp] theorem interruptedAt_nil (n : Nat) : interruptedAt n [] = [] := rfl

@[simp] theorem interruptedAt_zero_cons (w : WriteCall) (writes : List WriteCall) :
    interruptedAt 0 (w :: writes) = { w with answer := .interrupted } :: w :: writes := rfl

@[simp] theorem interruptedAt_succ_cons (n : Nat) (w : WriteCall) (writes : List WriteCall) :
    interruptedAt (n + 1) (w :: writes) = w :: interruptedAt n writes := by
  unfold interruptedAt
  rw [List.getElem?_cons_succ]
  split <;> rfl

end WriteCall

open WriteCall

/-! ### Rounds -/

section Rounds

variable {d : Nat} {bytes : Bytes} {answer : WriteAnswer}

/-- A failed write ends the loop. -/
theorem writeAll_of_failed (hbytes : bytes ≠ []) (h : (offer d bytes answer).failed = true)
    (answers : List WriteAnswer) :
    writeAll d (answer :: answers) bytes = ([offer d bytes answer], false) := by
  rw [writeAll, if_neg hbytes]
  cases answer with
  | interrupted => simp [failed, offer] at h
  | fails => rfl
  | takes most =>
    have hmost : min most bytes.length = 0 := by simpa [failed, offer] using h
    simp only [offer, hmost]

/-- Behind any other write, what it left is written. -/
theorem writeAll_of_not_failed (hbytes : bytes ≠ []) (h : (offer d bytes answer).failed = false)
    (answers : List WriteAnswer) :
    writeAll d (answer :: answers) bytes =
      (offer d bytes answer ::
          (writeAll d answers (bytes.drop (offer d bytes answer).taken.length)).1,
        (writeAll d answers (bytes.drop (offer d bytes answer).taken.length)).2) := by
  rw [writeAll, if_neg hbytes]
  cases answer with
  | interrupted => rfl
  | fails => simp [failed, offer] at h
  | takes most =>
    have hmost : min most bytes.length ≠ 0 := by simpa [failed, offer] using h
    obtain ⟨n, hn⟩ := Nat.exists_eq_succ_of_ne_zero hmost
    have hle : n + 1 ≤ bytes.length := by omega
    simp [offer, taken, hn, Nat.min_eq_left hle]

/-- A host that is out of answers takes everything. -/
theorem writeAll_of_no_answers (hbytes : bytes ≠ []) (d : Nat) :
    writeAll d [] bytes = ([offer d bytes (.takes bytes.length)], true) := by
  rw [writeAll, if_neg hbytes]

/-- As long as anything is left, all of it is offered. -/
theorem exists_writeAll_eq_cons (hbytes : bytes ≠ []) (d : Nat) (answers : List WriteAnswer) :
    ∃ answer later, (writeAll d answers bytes).1 = offer d bytes answer :: later := by
  cases answers with
  | nil => exact ⟨_, [], congrArg Prod.fst (writeAll_of_no_answers hbytes d)⟩
  | cons answer answers =>
    cases h : (offer d bytes answer).failed with
    | true => exact ⟨answer, [], congrArg Prod.fst (writeAll_of_failed hbytes h answers)⟩
    | false => exact ⟨answer, _, congrArg Prod.fst (writeAll_of_not_failed hbytes h answers)⟩

end Rounds

/-- Writes that offer some bytes to a host which gives these answers. -/
structure Offers (descriptor : Nat) (answers : List WriteAnswer) (bytes : Bytes)
    (writes : List WriteCall) : Prop where
  /-- A write offers just what was not taken before it, and that is something. The host gives its
  next answer, or takes everything if it is out of answers. -/
  offers : ∀ before w after, writes = before ++ w :: after →
    w.offered ≠ [] ∧ allTaken before ++ w.offered = bytes ∧
      w = offer descriptor w.offered (answers[before.length]?.getD (.takes w.offered.length))
  /-- Behind a failed write there is no other. -/
  last : ∀ w ∈ writes.dropLast, w.failed = false
  /-- Each write uses up an answer, but for one that takes everything. -/
  length_le : writes.length ≤ answers.length + 1
  /-- Each write uses up a byte, but for a failed one and those that were interrupted. -/
  uninterrupted_length_le : (uninterrupted writes).length ≤ bytes.length

namespace Offers

variable {d : Nat} {bytes : Bytes} {answers : List WriteAnswer} {writes : List WriteCall}

theorem nil (answers : List WriteAnswer) (bytes : Bytes) : Offers d answers bytes [] where
  offers := by simp
  last := nofun
  length_le := Nat.zero_le _
  uninterrupted_length_le := Nat.zero_le _

/-- A write on its own. -/
theorem single (hbytes : bytes ≠ []) (answers : List WriteAnswer) :
    Offers d answers bytes [offer d bytes (answers.headD (.takes bytes.length))] where
  offers := by
    intro before w after hsplit
    obtain ⟨rfl, hw⟩ | ⟨-, hnil⟩ := List.singleton_eq_append_iff.1 hsplit
    · obtain rfl := (List.cons.inj hw).1
      refine ⟨by rwa [offered_offer], by rw [offered_offer, allTaken_nil, List.nil_append], ?_⟩
      rw [offered_offer, List.length_nil, ← List.head?_eq_getElem?, List.headD_eq_head?_getD]
    · cases hnil
  last := nofun
  length_le := Nat.le_add_left _ _
  uninterrupted_length_le :=
    Nat.le_trans (List.length_filter_le _ _) (List.length_pos_iff.2 hbytes)

/-- A write that did not fail, and those that offer what it left. -/
theorem cons {answer : WriteAnswer} (hbytes : bytes ≠ [])
    (hfailed : (offer d bytes answer).failed = false)
    (h : Offers d answers (bytes.drop (offer d bytes answer).taken.length) writes) :
    Offers d (answer :: answers) bytes (offer d bytes answer :: writes) where
  offers := by
    have hwhole := (offer d bytes answer).taken_append_drop
    rw [offered_offer] at hwhole
    intro before w after hsplit
    cases before with
    | nil =>
      obtain ⟨rfl, rfl⟩ := List.cons.inj hsplit
      simpa using hbytes
    | cons first before =>
      rw [List.cons_append] at hsplit
      obtain ⟨rfl, hlater⟩ := List.cons.inj hsplit
      obtain ⟨hoffered, hleft, hanswer⟩ := h.offers before w after hlater
      refine ⟨hoffered, ?_, hanswer⟩
      rw [allTaken_cons, List.append_assoc, hleft, hwhole]
  last := by
    cases hwrites : writes with
    | nil => nofun
    | cons w later =>
      rw [List.dropLast_cons_of_ne_nil (List.cons_ne_nil w later), ← hwrites]
      exact List.forall_mem_cons.2 ⟨hfailed, h.last⟩
  length_le := Nat.succ_le_succ h.length_le
  uninterrupted_length_le := by
    have hlater := h.uninterrupted_length_le
    have hstart := (offer d bytes answer).taken_isPrefixOf.length_le
    rw [List.length_drop] at hlater
    rw [offered_offer] at hstart
    rw [uninterrupted, List.filter_cons, ← uninterrupted]
    split
    · -- this write used up a byte
      rename_i hw
      have htaken := List.length_pos_iff.2 (taken_ne_nil hbytes hfailed (by simpa using hw))
      rw [List.length_cons]
      omega
    · omega

end Offers

/-- Bytes are offered round by round, whatever the host answers. -/
theorem writeAll_offers (d : Nat) (answers : List WriteAnswer) (bytes : Bytes) :
    Offers d answers bytes (writeAll d answers bytes).1 := by
  -- a round uses up an answer, and leaves the rest of the bytes for the next one
  induction answers generalizing bytes with
  | nil =>
    by_cases hbytes : bytes = []
    · rw [hbytes, writeAll_empty]
      exact .nil [] []
    · rw [writeAll_of_no_answers hbytes]
      exact .single hbytes []
  | cons answer answers ih =>
    by_cases hbytes : bytes = []
    · rw [hbytes, writeAll_empty]
      exact .nil _ []
    · cases hfailed : (offer d bytes answer).failed with
      | true =>
        rw [writeAll_of_failed hbytes hfailed]
        exact .single hbytes (answer :: answers)
      | false =>
        rw [writeAll_of_not_failed hbytes hfailed]
        exact .cons hbytes hfailed (ih _)

/-! ### Interruptions -/

section Interruptions

variable {bytes : Bytes}

/-- Behind an interruption, everything is as if it had not been. -/
theorem writeAll_cons_interrupted (hbytes : bytes ≠ []) (d : Nat) (answers : List WriteAnswer) :
    writeAll d (.interrupted :: answers) bytes =
      (offer d bytes .interrupted :: (writeAll d answers bytes).1, (writeAll d answers bytes).2) :=
  writeAll_of_not_failed hbytes rfl answers

/-- An interruption among the answers makes the loop offer once more what it offers there, if it
gets there, and nothing else. -/
theorem writeAll_interrupted (d : Nat) (pre post : List WriteAnswer) (bytes : Bytes) :
    writeAll d (pre ++ .interrupted :: post) bytes =
      (interruptedAt pre.length (writeAll d (pre ++ post) bytes).1,
        (writeAll d (pre ++ post) bytes).2) := by
  induction pre generalizing bytes with
  | nil =>
    by_cases hbytes : bytes = []
    · rw [hbytes, writeAll_empty, writeAll_empty, interruptedAt_nil]
    · -- the same is offered before and after the interruption
      obtain ⟨answer, later, hpost⟩ := exists_writeAll_eq_cons hbytes d post
      have hagain : { offer d bytes answer with answer := .interrupted } =
          offer d bytes .interrupted := by
        cases answer <;> rfl
      rw [List.nil_append, List.nil_append, writeAll_cons_interrupted hbytes, hpost,
        List.length_nil, interruptedAt_zero_cons, hagain]
  | cons answer pre ih =>
    rw [List.cons_append, List.cons_append, List.length_cons]
    by_cases hbytes : bytes = []
    · rw [hbytes, writeAll_empty, writeAll_empty, interruptedAt_nil]
    · cases hfailed : (offer d bytes answer).failed with
      | true =>
        rw [writeAll_of_failed hbytes hfailed, writeAll_of_failed hbytes hfailed,
          interruptedAt_succ_cons, interruptedAt_nil]
      | false =>
        rw [writeAll_of_not_failed hbytes hfailed, writeAll_of_not_failed hbytes hfailed, ih,
          interruptedAt_succ_cons]

/-- Without the interruptions among the answers, the same writes are made but for the interrupted
ones. -/
theorem writeAll_uninterrupted (d : Nat) (answers : List WriteAnswer) (bytes : Bytes) :
    writeAll d (answers.filter (· ≠ .interrupted)) bytes =
      (uninterrupted (writeAll d answers bytes).1, (writeAll d answers bytes).2) := by
  induction answers generalizing bytes with
  | nil =>
    rw [List.filter_nil, writeAll]
    split <;> rfl
  | cons answer answers ih =>
    by_cases hbytes : bytes = []
    · rw [hbytes, writeAll_empty, writeAll_empty]
      rfl
    · by_cases hanswer : answer = .interrupted
      · subst hanswer
        rw [List.filter_cons_of_neg (by simp), writeAll_cons_interrupted hbytes, ih]
        rfl
      · have hmade : (offer d bytes answer).interrupted = false := by
          cases answer with
          | interrupted => exact absurd rfl hanswer
          | _ => rfl
        rw [List.filter_cons_of_pos (by simpa using hanswer)]
        cases hfailed : (offer d bytes answer).failed with
        | true =>
          rw [writeAll_of_failed hbytes hfailed, writeAll_of_failed hbytes hfailed]
          simp [uninterrupted, hmade]
        | false =>
          rw [writeAll_of_not_failed hbytes hfailed, writeAll_of_not_failed hbytes hfailed, ih]
          simp [uninterrupted, hmade]

end Interruptions

end HostServices
