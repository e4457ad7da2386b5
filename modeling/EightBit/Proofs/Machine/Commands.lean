import EightBit.Proofs.Machine.Requests

/-!
# Commands

A machine does what is requested of it, and its memory, which is not its own, can be changed in
any way at all: these are the commands (`EightBit.Command`). The machines that can come about at
all are those that some commands lead to from a new machine (`EightBit.Machine.after`), together
with those that are passed through on the way (`EightBit.Machine.visitsAlong`).

So a property holds of all of them if a new machine has it and no command takes it away
(`EightBit.Machine.along_of_keeps`). For requests alone a persistent property will do
(`EightBit.Persistent.handled`); a lasting one survives any change of memory, too
(`EightBit.Lasting`, `EightBit.Lasting.along`).
-/

namespace EightBit

/-- **A command** to a machine, or to its memory. -/
inductive Command where
  /-- Request something of the machine. -/
  | request (asked : Machine.Request)
  /-- Change memory from outside: load a program, write to it, or replace it. -/
  | changeMemory (change : Memory → Memory)

namespace Command

/-- The machine that a command leaves behind, whatever comes of it. -/
def perform : Command → Machine → Machine
  | request asked, m => (asked.perform m).machine
  | changeMemory change, m => { m with memory := change m.memory }

/-- The machines that a command takes steps from, in order. -/
def visits : Command → Machine → List Machine
  | request asked, m => asked.visits m
  | changeMemory _, _ => []

/-- **A command keeps a property** if it leaves it behind, and all steps it takes are from
machines that have it. -/
def Keeps (I : Machine → Prop) (command : Command) : Prop :=
  ∀ m, I m → (∀ v ∈ command.visits m, I v) ∧ I (command.perform m)

end Command

namespace Machine

/-- **The machine after some commands.** -/
def after : Machine → List Command → Machine
  | m, [] => m
  | m, command :: commands => (command.perform m).after commands

/-- The machines that some commands take steps from, in order. -/
def visitsAlong : Machine → List Command → List Machine
  | _, [] => []
  | m, command :: commands => command.visits m ++ (command.perform m).visitsAlong commands

/-- **The machine that some requests leave behind.** -/
def handled (m : Machine) (requests : List Request) : Machine :=
  m.after (requests.map .request)

theorem handled_cons (m : Machine) (request : Request) (requests : List Request) :
    m.handled (request :: requests) = (request.perform m).machine.handled requests :=
  rfl

theorem handled_append (m : Machine) (requests others : List Request) :
    m.handled (requests ++ others) = (m.handled requests).handled others := by
  induction requests generalizing m with
  | nil => rfl
  | cons request requests ih => exact ih _

/-- **What every command keeps** holds of every machine that the commands lead to, and of those
on the way. -/
theorem along_of_keeps {I : Machine → Prop} {commands : List Command} {m : Machine}
    (h : ∀ command ∈ commands, command.Keeps I) (hm : I m) :
    (∀ v ∈ m.visitsAlong commands, I v) ∧ I (m.after commands) := by
  induction commands generalizing m with
  | nil => exact ⟨List.forall_mem_nil _, hm⟩
  | cons command commands ih =>
    obtain ⟨hcommand, hcommands⟩ := List.forall_mem_cons.1 h
    obtain ⟨hvisits, hperform⟩ := hcommand m hm
    obtain ⟨hway, hafter⟩ := ih hcommands hperform
    exact ⟨List.forall_mem_append.2 ⟨hvisits, hway⟩, hafter⟩

/-- **There is a new machine** exactly for the layouts that are accepted. -/
theorem new_eq_ok_iff {layout : Layout} {memorySize : Nat} {m : Machine} :
    new layout memorySize = .ok m ↔ layout.Valid ∧ showStack {
      registers := {}
      stack := .new layout.stack.start layout.stack.size
      programMemory := layout.programMemory
      state := .ready
      memory := .zeros memorySize } = m := by
  rw [← Layout.check_eq_ok_iff, new, Fallible.bind_eq_ok_iff]
  simp only [Fallible.pure_eq_ok_iff]
  constructor
  · rintro ⟨⟨⟩, hcheck, rfl⟩
    exact ⟨hcheck, rfl⟩
  · rintro ⟨hcheck, rfl⟩
    exact ⟨(), hcheck, rfl⟩

end Machine

/-- A persistent property is kept by every request. -/
theorem Persistent.keeps {I : Machine → Prop} (h : Persistent I) (request : Machine.Request) :
    (Command.request request).Keeps I :=
  fun _ hm => h.perform hm request

/-- **No requests take a persistent property away** one after the other, either. -/
theorem Persistent.handled {I : Machine → Prop} (h : Persistent I) {m : Machine} (hm : I m)
    (requests : List Machine.Request) : I (m.handled requests) :=
  (Machine.along_of_keeps (List.forall_mem_map.2 fun request _ => h.keeps request) hm).2

/-- **A lasting property** of machines: nothing that is done to a machine takes it
away. -/
structure Lasting (I : Machine → Prop) : Prop extends Enduring I where
  memory : ∀ m memory, I m → I { m with memory }

namespace Lasting

variable {I : Machine → Prop} (h : Lasting I)

include h

/-- On a lasting property memory has no bearing, by its size or otherwise. -/
theorem persistent : Persistent I :=
  { h with memory := fun m memory _ => h.memory m memory }

/-- A lasting property is kept by every command. -/
theorem keeps (command : Command) : command.Keeps I := by
  cases command with
  | request asked => exact h.persistent.keeps asked
  | changeMemory change => exact fun m hm => ⟨List.forall_mem_nil _, h.memory m _ hm⟩

/-- **A lasting property holds of every machine that commands lead to**, and of those on
the way. -/
theorem along {m : Machine} (hm : I m) (commands : List Command) :
    (∀ v ∈ m.visitsAlong commands, I v) ∧ I (m.after commands) :=
  Machine.along_of_keeps (fun command _ => h.keeps command) hm

end Lasting

end EightBit
