import EightBit.Proofs.Machine.StackBounds

/-!
# What a reset forgets

A machine answers each request (`EightBit.Machine.responses`). After a reset all answers are
those of a new machine, whatever has been asked of the machine before and however it went
(`EightBit.responses_reset`).

There is no more to it than that a reset leaves *the* new machine behind, not just one that
cannot be told from it (`EightBit.Machine.BuiltBy.reset`). A reset clears the memory there is
and empties the stack there is, so this rests on what no request changes: the two regions,
and the number of cells (`EightBit.Machine.BuiltBy.handled`).
-/

namespace EightBit

/-! ### Requests and responses -/

namespace Machine

/-- **The responses to some requests**, one after the other. -/
def responses : Machine → List Request → List Response
  | _, [] => []
  | m, request :: requests =>
    let response := request.perform m
    response :: response.machine.responses requests

/-- The text printed in response to some requests. -/
def output (m : Machine) (requests : List Request) : List Char :=
  printed ((m.responses requests).flatMap Response.events)

theorem responses_append (m : Machine) (requests others : List Request) :
    m.responses (requests ++ others) =
      m.responses requests ++ (m.handled requests).responses others := by
  induction requests generalizing m with
  | nil => rfl
  | cons request requests ih =>
    rw [List.cons_append, responses, responses, handled_cons, ih]
    rfl

/-- Output is printed in the order of the requests. -/
theorem output_append (m : Machine) (requests others : List Request) :
    m.output (requests ++ others) = m.output requests ++ (m.handled requests).output others := by
  rw [output, responses_append, List.flatMap_append, printed_append]
  rfl

end Machine

/-! ### What no request changes -/

/-- **A machine was built** with a layout and a number of cells. -/
structure Machine.BuiltBy (layout : Layout) (memorySize : Nat) (m : Machine) : Prop where
  laidOut : m.LaidOut layout
  size : m.memory.size = memorySize

namespace Machine.BuiltBy

variable {layout : Layout} {memorySize : Nat} {m : Machine}

/-- A new machine was built with what it was built with. -/
theorem of_new (h : new layout memorySize = .ok m) : m.BuiltBy layout memorySize where
  laidOut := .of_new h
  size := by
    obtain ⟨-, rfl⟩ := new_eq_ok_iff.1 h
    rfl

/-- **How a machine was built persists.** -/
theorem persistent (hvalid : layout.Valid) : Persistent (BuiltBy layout memorySize) where
  step m h := ⟨(Lasting.laidOut hvalid).step m h.laidOut, (Action.size_step m).trans h.size⟩
  reset m h := ⟨(Lasting.laidOut hvalid).reset m h.laidOut, h.size⟩
  registers _ _ hsp h := ⟨h.laidOut.withRegisters hsp, h.size⟩
  state _ _ h := ⟨{ h.laidOut with }, h.size⟩
  memory _ _ hsize h := ⟨{ h.laidOut with }, hsize.trans h.size⟩

variable (h : m.BuiltBy layout memorySize)

include h

/-- **No request changes how a machine was built.** -/
theorem handled (hvalid : layout.Valid) (requests : List Request) :
    (m.handled requests).BuiltBy layout memorySize :=
  (persistent hvalid).handled h requests

/-- **A reset leaves the new machine behind.** -/
theorem reset {new : Machine} (hnew : Machine.new layout memorySize = .ok new) :
    (Action.reset m).machine = new := by
  obtain ⟨hvalid, rfl⟩ := new_eq_ok_iff.1 hnew
  have hstack : m.stack.reset = .new layout.stack.start layout.stack.size := by
    obtain ⟨hstart, hstop⟩ := hvalid.2
    rw [addressSpace] at hstop
    rw [Stack.new_eq (by omega) (by rw [Region.size]; omega), Stack.reset, Stack.top,
      h.laidOut.start, h.laidOut.size]
  have hmemory : m.memory.clear = .zeros memorySize := by
    rw [Memory.clear, h.size]
  rw [Action.machine_reset, hstack, hmemory, h.laidOut.programMemory]

end Machine.BuiltBy

/-! ### After a reset -/

/-- **A reset makes the past unobservable.** Whatever has been asked of a machine before, and
however it went, a reset leaves behind the machine as it was when new. All that comes of
further requests – each answer, each machine, and all that can be watched – is what comes of
them on that new machine; and what is printed is what was printed before the reset, followed
by what the new machine prints. -/
theorem responses_reset {layout : Layout} {memorySize : Nat} {m : Machine}
    (h : Machine.new layout memorySize = .ok m) (past future : List Machine.Request) :
    m.responses (past ++ .reset :: future) = m.responses past ++
        ⟨.done (.ok ()), m, [.advance 0, .stackMove (layout.stack.stop - 1)]⟩ ::
          m.responses future ∧
      m.handled (past ++ .reset :: future) = m.handled future ∧
      m.output (past ++ .reset :: future) = m.output past ++ m.output future := by
  obtain ⟨hvalid, -⟩ := Machine.new_eq_ok_iff.1 h
  have hbuilt := (Machine.BuiltBy.of_new h).handled hvalid past
  have hreset : Machine.Request.reset.perform (m.handled past) =
      ⟨.done (.ok ()), m, [.advance 0, .stackMove (layout.stack.stop - 1)]⟩ := by
    rw [Machine.Request.perform, Machine.Request.ofOutcome, hbuilt.reset h,
      ← hbuilt.laidOut.top_eq hvalid.2]
    rfl
  refine ⟨?_, ?_, ?_⟩
  · rw [Machine.responses_append, Machine.responses, hreset]
  · rw [Machine.handled_append, Machine.handled_cons, hreset]
  · have houtput : (m.handled past).output (.reset :: future) = m.output future := by
      rw [Machine.output, Machine.responses, hreset]
      rfl
    rw [Machine.output_append, houtput]

/-- A program that calls itself faults in the middle of its second call. After a reset the
machine is new again, and a program that prints a letter runs on it as on a new machine. -/
theorem responses_reset_bottom :
    ∃ m past future, Machine.new .bottom 18 = .ok m ∧
      past = [.load 2 (image [⟨0x1E, 0, 2⟩]), .execute .never 5 2] ∧
      future = [.load 2 (image [⟨0x04, 65, 0⟩, ⟨0x59, 0, 0⟩]), .run 3] ∧
      (m.handled past).state = .faulted ∧ (m.handled past).stack.pointer = -1 ∧
      m.handled (past ++ [.reset]) = m ∧
      m.responses (past ++ .reset :: future) = m.responses past ++
        ⟨.done (.ok ()), m, [.advance 0, .stackMove 1]⟩ :: m.responses future ∧
      m.handled (past ++ .reset :: future) = m.handled future ∧
      (m.handled future).state = .halted ∧
      m.output (past ++ .reset :: future) = ['A'] := by
  refine ⟨_, _, _, rfl, rfl, rfl, by decide +kernel, by decide +kernel,
    (@responses_reset .bottom 18 _ rfl _ []).2.1, (@responses_reset .bottom 18 _ rfl _ _).1,
    (@responses_reset .bottom 18 _ rfl _ _).2.1, by decide +kernel, ?_⟩
  rw [(@responses_reset .bottom 18 _ rfl _ _).2.2]
  decide +kernel

end EightBit
