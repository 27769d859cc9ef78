import HostServices.Host.Write

/-!
# What the host takes

Writes that bring bytes to a descriptor are made until the host has taken all of them, or fails, or
takes nothing. `Brings` says what that comes to, whatever the host answers (`writeAll_brings`): the
bytes taken are a start of those to be written, and all of them unless one of the writes failed.
-/

namespace HostServices

namespace WriteCall

/-- Whether the host failed at a write, or took nothing, so that there is no point in another. -/
def failed (w : WriteCall) : Bool := w.answer = .fails ∨ w.answer = .takes 0

@[simp] theorem descriptor_offer (d : Nat) (bytes : Bytes) (answer : WriteAnswer) :
    (offer d bytes answer).descriptor = d := by cases answer <;> rfl

@[simp] theorem offered_offer (d : Nat) (bytes : Bytes) (answer : WriteAnswer) :
    (offer d bytes answer).offered = bytes := by cases answer <;> rfl

theorem taken_of_takes {w : WriteCall} {n : Nat} (h : w.answer = .takes n) :
    w.taken = w.offered.take n := by rw [taken, h]

theorem taken_of_interrupted {w : WriteCall} (h : w.answer = .interrupted) : w.taken = [] := by
  rw [taken, h]

/-- The bytes that the host took in some writes, in order. -/
def allTaken (writes : List WriteCall) : Bytes := writes.flatMap taken

@[simp] theorem allTaken_nil : allTaken [] = [] := rfl

@[simp] theorem allTaken_cons (w : WriteCall) (writes : List WriteCall) :
    allTaken (w :: writes) = w.taken ++ allTaken writes := List.flatMap_cons

end WriteCall

/-- Writes that bring bytes to a descriptor, as far as the host takes them. -/
structure Brings (descriptor : Nat) (bytes : Bytes) (writes : List WriteCall) (complete : Bool) :
    Prop where
  descriptor : ∀ w ∈ writes, w.descriptor = descriptor
  /-- What is taken is a start of the bytes. -/
  starts : WriteCall.allTaken writes <+: bytes
  /-- All of them are taken just if that is what is reported. -/
  complete_iff : complete = true ↔ WriteCall.allTaken writes = bytes
  /-- That is so just if no write failed. -/
  failed : complete = writes.all fun w => !w.failed

namespace Brings

variable {d : Nat} {bytes : Bytes} {w : WriteCall} {writes : List WriteCall} {complete : Bool}

/-- Nothing is there to be brought. -/
theorem nil : Brings d [] [] true where
  descriptor := nofun
  starts := List.prefix_rfl
  complete_iff := iff_of_true rfl rfl
  failed := rfl

/-- After a write of which the host has taken a part, the rest is brought. -/
theorem cons (hd : w.descriptor = d) (hfailed : w.failed = false)
    (h : Brings d bytes writes complete) : Brings d (w.taken ++ bytes) (w :: writes) complete where
  descriptor := List.forall_mem_cons.2 ⟨hd, h.descriptor⟩
  starts := by
    rw [WriteCall.allTaken_cons]
    exact (List.prefix_append_right_inj _).2 h.starts
  complete_iff := by rw [WriteCall.allTaken_cons, List.append_cancel_left_eq, h.complete_iff]
  failed := by rw [List.all_cons, hfailed, h.failed, Bool.not_false, Bool.true_and]

/-- A write that failed is the last. -/
theorem failing (hd : w.descriptor = d) (hfailed : w.failed = true) (hbytes : bytes ≠ []) :
    Brings d bytes [w] false := by
  have htaken : WriteCall.allTaken [w] = [] := by
    rw [WriteCall.allTaken_cons, WriteCall.allTaken_nil, List.append_nil, WriteCall.taken]
    obtain h | h := of_decide_eq_true hfailed <;> rw [h]
    exact List.take_zero
  refine ⟨List.forall_mem_singleton.2 hd, htaken ▸ List.nil_prefix, ?_, ?_⟩
  · rw [htaken]
    exact iff_of_false Bool.false_ne_true hbytes.symm
  · rw [List.all_cons, hfailed]
    rfl

end Brings

/-- Bytes are written as far as the host takes them, whatever it answers. -/
theorem writeAll_brings (d : Nat) (answers : List WriteAnswer) (bytes : Bytes) :
    Brings d bytes (writeAll d answers bytes).1 (writeAll d answers bytes).2 := by
  fun_induction writeAll d answers bytes with
  | case1 | case3 => exact .nil
  | case2 bytes hbytes =>
    -- the host is out of answers, and takes all that it is offered
    have hanswer : (WriteCall.offer d bytes (.takes bytes.length)).answer = .takes bytes.length :=
      congrArg WriteAnswer.takes (Nat.min_self _)
    have htaken := WriteCall.taken_of_takes hanswer
    rw [WriteCall.offered_offer, List.take_length] at htaken
    have h := (Brings.nil (d := d)).cons (w := .offer d bytes (.takes bytes.length)) (by simp)
      (by simp [WriteCall.failed, hanswer, hbytes])
    rwa [htaken, List.append_nil] at h
  | case4 answer answers bytes hbytes call hanswer writes complete hrest ih =>
    have h := ih.cons (w := call) (by simp [call]) (by simp [WriteCall.failed, hanswer])
    rwa [WriteCall.taken_of_interrupted hanswer, List.nil_append, hrest] at h
  | case5 answer answers bytes hbytes call n hanswer writes complete hrest ih =>
    have h := ih.cons (w := call) (by simp [call]) (by simp [WriteCall.failed, hanswer])
    rwa [WriteCall.taken_of_takes hanswer, WriteCall.offered_offer, List.take_append_drop,
      hrest] at h
  | case6 answer answers bytes hbytes call hanswer =>
    exact .failing (by simp [call]) (by simp [WriteCall.failed, hanswer]) hbytes
  | case7 answer answers bytes hbytes call hanswer =>
    exact .failing (by simp [call]) (by simp [WriteCall.failed, hanswer]) hbytes

end HostServices
