import HostServices.Console.Output
import HostServices.Proofs.Host.Write
import HostServices.Proofs.Service
import Mathlib.Data.List.TakeWhile

/-!
# Where console output goes

Whatever is asked of the console, in whatever order, and whatever the host answers, output goes one
way only (`Console.output_routed`): to the host as long as no sink was installed, and to the sink
installed last from then on. What a request brings to which stream can be told from the request
alone (`Console.Request.output?`), and what a single step comes to from this and from the sink there
is (`Console.Step.Routed`). A failure, of the host or of a sink, is told to those who wrote bytes, and
has no other effect.

Over a whole run, what the descriptor of a stream takes is what it took of each request for that
stream until the first sink, one after the other. The descriptors of the streams differ, so no bytes
cross.
-/

namespace HostServices

theorem Stream.descriptor_inj {stream stream' : Stream} :
    stream.descriptor = stream'.descriptor ↔ stream = stream' := by
  cases stream <;> cases stream' <;> decide

namespace Console

/-- A request, with what the host answers to the writes made meanwhile. -/
structure Call where
  answers : List WriteAnswer
  request : Request
deriving DecidableEq, Repr

/-- A call and what came of it. -/
structure Step where
  before : Console
  call : Call
  outcome : Outcome

/-- Carries out a call. -/
def step (c : Console) (call : Call) : Step := ⟨c, call, c.perform call.answers call.request⟩

/-- One call after another. -/
def service : Service Console Call Step := ⟨step, fun s => s.outcome.console⟩

/-! ### What is asked for -/

/-- What a request brings to a stream, if it brings anything there. -/
def Request.output? : Request → Option (Stream × Bytes)
  | .write stream bytes => some (stream, bytes)
  | .writeAt stream bytes? size => bytes?.map fun bytes => (stream, bytes.take size)
  | .print stream text => some (stream, text.bytes.take ScratchText.size)
  | .start | .setSink _ => none

/-- Whether those who make a request are told if everything was written. -/
def Request.isTold : Request → Bool
  | .write _ _ => true
  | _ => false

/-- The sink that a request installs, if it installs one. -/
def Request.sink? : Request → Option Sink
  | .setSink sink => some sink
  | _ => none

theorem output?_of_sink? {r : Request} {sink : Sink} (h : r.sink? = some sink) :
    r.output? = none := by
  cases r with
  | setSink => rfl
  | _ => cases h

/-- The sinks that some calls install, in order. -/
def sinks (calls : List Call) : List Sink := calls.filterMap fun c => c.request.sink?

/-- The calls before the first that installs a sink. -/
def early (calls : List Call) : List Call := calls.takeWhile fun c => c.request.sink?.isNone

theorem sinks_eq_nil_of_early {calls before : List Call} (h : ∀ c ∈ before, c ∈ early calls) :
    sinks before = [] := by
  refine List.filterMap_eq_nil_iff.2 fun c hc => ?_
  have hnone := List.mem_takeWhile_imp (h c hc)
  exact Option.isNone_iff_eq_none.1 hnone

/-! ### What is observed -/

/-- The host's write that was observed, if it was one. -/
def Event.write? : Event → Option WriteCall
  | .write w => some w
  | _ => none

/-- Whether something observed went well. -/
def Event.succeeded : Event → Bool
  | .notice _ => true
  | .write w => !w.failed
  | .sink receiver _ _ => receiver.accepts

namespace Step

/-- The writes of the host in a step. -/
def writes (s : Step) : List WriteCall := s.outcome.events.filterMap Event.write?

/-- The bytes that the host took in a step. -/
def taken (s : Step) : Bytes := WriteCall.allTaken s.writes

/-- Whether all went well in a step. -/
def succeeded (s : Step) : Bool := s.outcome.events.all Event.succeeded

/-- The bytes that the descriptor of a stream took in a step. -/
def accepted (stream : Stream) (s : Step) : Bytes :=
  WriteCall.allTaken (s.writes.filter fun w => w.descriptor = stream.descriptor)

/-- The stream that a step brings bytes to. -/
def stream? (s : Step) : Option Stream := s.call.request.output?.map Prod.fst

/-- What comes of a step when the sinks installed so far end in `sink?`. -/
structure Routed (s : Step) (sink? : Option Sink) : Prop where
  /-- A step without output neither writes nor calls a sink. -/
  silent : s.call.request.output? = none →
    s.outcome.events = if s.call.request = .start then [.notice .consoleReady] else []
  /-- The sink is called once, with all that there is to be written. -/
  sunk : ∀ sink ∈ sink?, ∀ output ∈ s.call.request.output?,
    s.outcome.events = [.sink sink output.1 output.2]
  /-- Without a sink, the host is asked to write to the descriptor of the stream, until it has taken
  everything or fails. -/
  written : sink? = none → ∀ output ∈ s.call.request.output?,
    s.outcome.events = s.writes.map .write ∧
      Brings output.1.descriptor output.2 s.writes s.succeeded
  /-- Success is told to those who wrote bytes, and to nobody else. -/
  told : s.outcome.complete? = if s.call.request.isTold then some s.succeeded else none

end Step

/-! ### A step -/

variable {c : Console} {call : Call} {calls : List Call} {stream : Stream}

theorem events_perform_of_output {r : Request} {output : Stream × Bytes}
    (h : output ∈ r.output?) (answers : List WriteAnswer) :
    (c.perform answers r).events = (c.deliver answers output.1 output.2).1 := by
  cases r with
  | write stream bytes =>
    obtain rfl := Option.some.inj h
    rfl
  | writeAt stream bytes? size =>
    obtain ⟨bytes, rfl, rfl⟩ := Option.map_eq_some_iff.1 h
    rfl
  | print stream text =>
    obtain rfl := Option.some.inj h
    rw [perform, Rendering.sendTo, ScratchText.ofRendering_eq]
  | start => cases h
  | setSink sink => cases h

theorem events_perform_of_silent {r : Request} (h : r.output? = none)
    (answers : List WriteAnswer) :
    (c.perform answers r).events = if r = .start then [.notice .consoleReady] else [] := by
  cases r with
  | write stream bytes => cases h
  | writeAt stream bytes? size =>
    obtain rfl := Option.map_eq_none_iff.1 h
    rfl
  | print stream text => cases h
  | start => rfl
  | setSink sink => rfl

/-- A sink gets all that there is in one call. -/
theorem deliver_of_sink {sink : Sink} (h : c.sink? = some sink) (answers : List WriteAnswer)
    (stream : Stream) (bytes : Bytes) :
    c.deliver answers stream bytes = ([.sink sink stream bytes], sink.accepts) := by
  rw [deliver, h]

/-- Without a sink, the host is asked. -/
theorem deliver_of_none (h : c.sink? = none) (answers : List WriteAnswer) (stream : Stream)
    (bytes : Bytes) :
    c.deliver answers stream bytes =
      ((writeAll stream.descriptor answers bytes).1.map .write,
        (writeAll stream.descriptor answers bytes).2) := by
  rw [deliver, h]

theorem succeeded_deliver (c : Console) (answers : List WriteAnswer) (stream : Stream)
    (bytes : Bytes) :
    (c.deliver answers stream bytes).1.all Event.succeeded = (c.deliver answers stream bytes).2 := by
  cases h : c.sink? with
  | some sink =>
    rw [deliver_of_sink h]
    exact Bool.and_true _
  | none =>
    rw [deliver_of_none h, List.all_map, (writeAll_brings stream.descriptor answers bytes).failed]
    rfl

/-- What comes of a step is settled by the sink there is. -/
theorem routed_step (c : Console) (call : Call) : (c.step call).Routed c.sink? where
  silent := fun h => events_perform_of_silent h call.answers
  sunk := by
    intro sink hsink output houtput
    have hevents := events_perform_of_output (c := c) houtput call.answers
    rw [deliver_of_sink hsink] at hevents
    exact hevents
  written := by
    intro hsink output houtput
    let writes := (writeAll output.1.descriptor call.answers output.2).1
    have hevents : (c.step call).outcome.events = writes.map .write :=
      (events_perform_of_output houtput call.answers).trans
        (congrArg Prod.fst (deliver_of_none hsink call.answers output.1 output.2))
    have hwrites : (c.step call).writes = writes := by
      rw [Step.writes, hevents, List.filterMap_map]
      exact List.filterMap_some
    have hbrings := writeAll_brings output.1.descriptor call.answers output.2
    have hsucceeded : (c.step call).succeeded =
        (writeAll output.1.descriptor call.answers output.2).2 := by
      rw [Step.succeeded, hevents, List.all_map, hbrings.failed]
      rfl
    rw [hwrites, hsucceeded]
    exact ⟨hevents, hbrings⟩
  told := by
    obtain ⟨answers, request⟩ := call
    cases request with
    | write stream bytes => exact congrArg some (succeeded_deliver c answers stream bytes).symm
    | writeAt stream bytes? size => cases bytes? <;> rfl
    | _ => rfl

/-! ### Runs -/

theorem run_cons (c : Console) (call : Call) (calls : List Call) :
    service.run c (call :: calls) =
      c.step call :: service.run (c.step call).outcome.console calls := rfl

/-- Only a request that installs a sink changes which one there is. -/
theorem sink?_step (c : Console) (call : Call) :
    (c.step call).outcome.console.sink? = (sinks [call]).getLast?.or c.sink? := by
  obtain ⟨answers, request⟩ := call
  cases request with
  | writeAt stream bytes? size => cases bytes? <;> rfl
  | _ => rfl

/-- The sink after some calls is the one installed last. -/
theorem sink?_finish (c : Console) (calls : List Call) :
    (service.finish c calls).sink? = (sinks calls).getLast?.or c.sink? := by
  induction calls generalizing c with
  | nil => rfl
  | cons call calls ih =>
    have hcons : sinks (call :: calls) = sinks [call] ++ sinks calls :=
      List.filterMap_append (l := [call])
    have hstep : (service.next (service.serve c call)).sink? = _ := sink?_step c call
    rw [Service.finish_cons, ih, hstep, hcons, List.getLast?_append, Option.or_assoc]

/-- The host is not written to in a step without output. -/
theorem writes_of_silent (h : call.request.output? = none) : (c.step call).writes = [] := by
  rw [Step.writes, (routed_step c call).silent h]
  split <;> rfl

/-- The host is not written to while there is a sink. -/
theorem writes_of_sink {sink : Sink} (h : c.sink? = some sink) (call : Call) :
    (c.step call).writes = [] := by
  cases houtput : call.request.output? with
  | none => exact writes_of_silent houtput
  | some output =>
    rw [Step.writes, (routed_step c call).sunk sink h output houtput]
    rfl

/-- Without a sink, the descriptor of a stream takes bytes from the steps for that stream only. -/
theorem accepted_of_none (h : c.sink? = none) (call : Call) (stream : Stream) :
    (c.step call).accepted stream =
      if (c.step call).stream? = some stream then (c.step call).taken else [] := by
  cases houtput : call.request.output? with
  | none =>
    rw [Step.accepted, Step.taken, writes_of_silent houtput]
    split <;> rfl
  | some output =>
    obtain ⟨-, hbrings⟩ := (routed_step c call).written h output houtput
    have hstream : (c.step call).stream? = some output.1 := congrArg (Option.map Prod.fst) houtput
    have hdescriptor : ∀ w ∈ (c.step call).writes,
        (w.descriptor = stream.descriptor ↔ (c.step call).stream? = some stream) := by
      intro w hw
      rw [hbrings.descriptor w hw, hstream, Stream.descriptor_inj, Option.some_inj]
    unfold Step.accepted
    split
    · rename_i hown
      rw [List.filter_eq_self.2 fun w hw => decide_eq_true ((hdescriptor w hw).2 hown), Step.taken]
    · rename_i hother
      have hfilter := List.filter_eq_nil_iff.2 fun w hw hd =>
        hother ((hdescriptor w hw).1 (of_decide_eq_true hd))
      rw [hfilter]
      rfl

/-- After a sink was installed, no descriptor takes anything more. -/
theorem accepted_run_of_sink {sink : Sink} (h : c.sink? = some sink) (calls : List Call)
    (stream : Stream) : (service.run c calls).flatMap (Step.accepted stream) = [] := by
  induction calls generalizing c sink with
  | nil => rfl
  | cons call calls ih =>
    have hstep : ∃ later, (c.step call).outcome.console.sink? = some later := by
      rw [sink?_step, h]
      cases (sinks [call]).getLast? with
      | none => exact ⟨sink, rfl⟩
      | some later => exact ⟨later, rfl⟩
    obtain ⟨later, hlater⟩ := hstep
    have haccepted : (c.step call).accepted stream = [] := by
      rw [Step.accepted, writes_of_sink h]
      rfl
    rw [run_cons, List.flatMap_cons, haccepted, ih hlater, List.append_nil]

/-- Until then, it takes what it takes of the steps for its stream. -/
theorem accepted_run_of_none (h : c.sink? = none) (calls : List Call) (stream : Stream) :
    (service.run c calls).flatMap (Step.accepted stream) =
      ((service.run c (early calls)).filter fun s => s.stream? = some stream).flatMap
        Step.taken := by
  induction calls generalizing c with
  | nil => rfl
  | cons call calls ih =>
    have hafter := sink?_step c call
    have haccepted := accepted_of_none h call stream
    rw [run_cons, List.flatMap_cons, haccepted]
    cases hsink : call.request.sink? with
    | some sink =>
      -- the first sink ends it, and its installation brings nothing to a stream
      have hearly : early (call :: calls) = [] := List.takeWhile_cons_of_neg (by simp [hsink])
      have hinstalled : sinks [call] = [sink] := List.filterMap_cons_some hsink
      rw [hinstalled] at hafter
      rw [hearly, accepted_run_of_sink hafter, Step.taken, writes_of_silent (output?_of_sink? hsink)]
      split <;> rfl
    | none =>
      have hearly : early (call :: calls) = call :: early calls :=
        List.takeWhile_cons_of_pos (by simp [hsink])
      have hinstalled : sinks [call] = [] := List.filterMap_cons_none hsink
      rw [hinstalled, h] at hafter
      rw [hearly, run_cons, ih hafter]
      simp only [List.filter_cons, decide_eq_true_eq]
      split
      · rw [List.flatMap_cons]
      · rfl

/-- What a run of requests to the console comes to, from the start of a process. -/
structure RoutesOutput (calls : List Call) : Prop where
  /-- Output goes to the sink installed last, or to the host if there is none. This is said of the
  call that follows. -/
  step : ∀ call, ((service.finish {} calls).step call).Routed (sinks calls).getLast?
  /-- The descriptor of a stream takes bytes from the steps for this stream before the first sink,
  one after the other, and no others. -/
  accepted : ∀ stream, (service.run {} calls).flatMap (Step.accepted stream) =
    ((service.run {} (early calls)).filter fun s => s.stream? = some stream).flatMap
      Step.taken
  /-- Of each of them it takes a start, and everything if the step succeeded. -/
  starts : ∀ s ∈ service.run {} (early calls), ∀ output ∈ s.call.request.output?,
    s.taken <+: output.2 ∧ (s.succeeded = true ↔ s.taken = output.2)

theorem output_routed (calls : List Call) : RoutesOutput calls where
  step := by
    intro call
    have hrouted := routed_step (service.finish {} calls) call
    rwa [sink?_finish, Option.or_none] at hrouted
  accepted := accepted_run_of_none rfl calls
  starts := by
    intro s hs output houtput
    obtain ⟨before, call, later, hearly, rfl⟩ := service.exists_of_mem_run hs
    have hnone : (service.finish {} before).sink? = none := by
      rw [sink?_finish, sinks_eq_nil_of_early fun c hc => hearly ▸ List.mem_append_left _ hc]
      rfl
    obtain ⟨-, hbrings⟩ := (routed_step (service.finish {} before) call).written hnone output houtput
    exact ⟨hbrings.starts, hbrings.complete_iff⟩

/-- Output to both streams, before and after two sinks are installed, formatted and as it is. The
host takes a part of the first output and then fails, there is nothing behind a null address, and the
first sink, which fails, is called even with no bytes at all. What is printed with a value that
cannot be formatted goes to the sink up to that value. -/
theorem output_routed_mixed :
    let calls : List Call :=
      [⟨[.takes 1, .interrupted, .fails], .write .out [65, 66, 67]⟩, ⟨[], .writeAt .err none 2⟩,
        ⟨[.takes 1], .writeAt .err (some [68, 69, 70]) 2⟩, ⟨[], .start⟩,
        ⟨[.takes 2], .print .out (.ofPieces [.text "é", .integer 7])⟩,
        ⟨[], .setSink ⟨"a", false⟩⟩, ⟨[.takes 1], .write .err []⟩,
        ⟨[.fails], .print .out (.ofPieces [.integer 8, .failing, .text "x"])⟩,
        ⟨[], .setSink ⟨"b", true⟩⟩]
    RoutesOutput calls ∧
      (service.run {} calls).map (fun s => s.outcome.events) =
        [[.write ⟨1, [65, 66, 67], .takes 1⟩, .write ⟨1, [66, 67], .interrupted⟩,
            .write ⟨1, [66, 67], .fails⟩], [],
          [.write ⟨2, [68, 69], .takes 1⟩, .write ⟨2, [69], .takes 1⟩], [.notice .consoleReady],
          [.write ⟨1, [0xC3, 0xA9, 55], .takes 2⟩, .write ⟨1, [55], .takes 1⟩], [],
          [.sink ⟨"a", false⟩ .err []], [.sink ⟨"a", false⟩ .out [56]], []] ∧
      (service.run {} calls).map (fun s => s.outcome.complete?) =
        [some false, none, none, none, none, none, some false, none, none] ∧
      (service.run {} calls).flatMap (Step.accepted .out) = [65, 0xC3, 0xA9, 55] ∧
      (service.run {} calls).flatMap (Step.accepted .err) = [68, 69] ∧
      ((service.finish {} calls).step ⟨[], .write .err [71]⟩).outcome.events =
        [.sink ⟨"b", true⟩ .err [71]] := by
  intro calls
  have hroutes := output_routed calls
  have hnext := hroutes.step ⟨[], .write .err [71]⟩
  exact ⟨hroutes, by decide +kernel, by decide +kernel, by decide +kernel, by decide +kernel,
    hnext.sunk ⟨"b", true⟩ rfl _ rfl⟩

end Console

end HostServices
