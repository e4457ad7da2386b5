import EightBit.Proofs.Machine.Commands
import EightBit.Proofs.Machine.Trail

/-!
# Where the stack stands

The stack pointer is an integer, while SP has eight bits and the address of a cell has
sixteen. Nothing is lost by that: whatever is done to a machine, the pointer stays
between the cell below the stack's region and the last cell of that region, SP is its
low byte, and the two regions are those that the machine was built with
(`EightBit.Machine.LaidOut`).

The pointer moves in the middle of an instruction, too, and a call or return can fail
with one of its two bytes moved. So what an instruction does to the stack is followed
access by access (`EightBit.Region.Traffic`): each byte is pushed to the cell that the
pointer points to, or popped from the one above it, and this cell is always one of the
region. `EightBit.stack_after` is all of this together.
-/

namespace EightBit

/-! ### The pointer in its region -/

/-- **A machine is laid out** as it was built: its regions are those of the layout, its
pointer is where a stack on its region can have it, and SP shows it. -/
structure Machine.LaidOut (layout : Layout) (m : Machine) : Prop where
  programMemory : m.programMemory = layout.programMemory
  start : m.stack.start = layout.stack.start
  size : m.stack.size = layout.stack.size
  /-- A full stack has its pointer one below its region. -/
  lower : (layout.stack.start : Int) - 1 ≤ m.stack.pointer
  /-- An empty stack has it at the last cell. -/
  upper : m.stack.pointer ≤ (layout.stack.stop : Int) - 1
  sp : (m.registers.sp.toNat : Int) = m.stack.pointer % 256

namespace Machine.LaidOut

variable {layout : Layout} {m : Machine} {cell : Word}

/-- Once SP has been made to show the pointer, only the pointer matters. -/
theorem of_showStack (hprogram : m.programMemory = layout.programMemory)
    (hstart : m.stack.start = layout.stack.start) (hsize : m.stack.size = layout.stack.size)
    (hlower : (layout.stack.start : Int) - 1 ≤ m.stack.pointer)
    (hupper : m.stack.pointer ≤ (layout.stack.stop : Int) - 1) : m.showStack.LaidOut layout :=
  ⟨hprogram, hstart, hsize, hlower, hupper, Byte.toNat_ofInt _⟩

/-- A new machine is laid out. -/
theorem of_new {memorySize : Nat} (h : new layout memorySize = .ok m) : m.LaidOut layout := by
  obtain ⟨⟨-, hstart, hstop⟩, rfl⟩ := new_eq_ok_iff.1 h
  rw [addressSpace] at hstop
  have hsize : (layout.stack.size : Int) = layout.stack.stop - layout.stack.start := by
    rw [Region.size]
    omega
  rw [Stack.new_eq (by omega) (by omega)]
  refine of_showStack rfl rfl rfl ?_ ?_
  · dsimp only
    omega
  · dsimp only
    omega

variable (h : m.LaidOut layout)

include h

/-- The stack ends where its region does. -/
theorem top_eq (hvalid : layout.stack.Valid) :
    m.stack.top = (layout.stack.stop : Int) - 1 := by
  have hlt := hvalid.1
  rw [Stack.top, h.start, h.size, Region.size]
  omega

/-- The number of bytes on the stack is how far the pointer is from the last cell. -/
theorem depth_eq (hvalid : layout.stack.Valid) :
    (m.stack.depth : Int) = (layout.stack.stop : Int) - 1 - m.stack.pointer := by
  have hupper := h.upper
  rw [Stack.depth, h.top_eq hvalid]
  omega

/-- **A push goes to the cell that the pointer points to**, and this one is in the
region. -/
theorem free (hvalid : layout.stack.Valid) (hfree : m.stack.free = .ok cell) :
    (cell.toNat : Int) = m.stack.pointer ∧ layout.stack.contains cell.toNat = true := by
  obtain ⟨⟨hstart, htop⟩, rfl⟩ := Stack.free_eq_ok_iff.1 hfree
  rw [h.start] at hstart
  rw [h.top_eq hvalid] at htop
  have hstop := hvalid.2
  have hcell := Word.toNat_ofInt m.stack.pointer
  rw [addressSpace] at hstop
  rw [Region.contains, decide_eq_true_iff]
  omega

/-- **A pop comes from the cell above**, and this one is in the region. -/
theorem used (hvalid : layout.stack.Valid) (hused : m.stack.used = .ok cell) :
    (cell.toNat : Int) = m.stack.pointer + 1 ∧ layout.stack.contains cell.toNat = true := by
  obtain ⟨htop, rfl⟩ := Stack.used_eq_ok_iff.1 hused
  rw [h.top_eq hvalid] at htop
  have hlower := h.lower
  have hstop := hvalid.2
  have hcell := Word.toNat_ofInt (m.stack.pointer + 1)
  rw [addressSpace] at hstop
  rw [Region.contains, decide_eq_true_iff]
  omega

/-- Only SP and the pointer have to fit each other. -/
theorem withRegisters {r : Registers} (hsp : r.sp = m.registers.sp) :
    LaidOut layout { m with registers := r } where
  __ := h
  sp := by
    rw [hsp]
    exact h.sp

theorem pushed (hfree : m.stack.free = .ok cell) (v : Byte) :
    (m.pushed cell v).LaidOut layout := by
  obtain ⟨⟨hstart, -⟩, -⟩ := Stack.free_eq_ok_iff.1 hfree
  have hupper := h.upper
  rw [h.start] at hstart
  refine of_showStack h.programMemory h.start h.size ?_ ?_
  · exact Int.sub_le_sub_right hstart 1
  · exact Int.le_trans (Int.sub_le_self _ Int.one_nonneg) hupper

theorem popped (hvalid : layout.stack.Valid) (hused : m.stack.used = .ok cell) :
    (m.popped cell).LaidOut layout := by
  obtain ⟨htop, -⟩ := Stack.used_eq_ok_iff.1 hused
  have hlower := h.lower
  rw [h.top_eq hvalid] at htop
  refine of_showStack h.programMemory h.start h.size ?_ htop
  exact Int.le_trans hlower (Int.le_add_one (Int.le_refl _))

theorem reset (hvalid : layout.stack.Valid) : (Action.reset m).machine.LaidOut layout := by
  have htop := h.top_eq hvalid
  have hlt := hvalid.1
  rw [Action.machine_reset]
  refine of_showStack h.programMemory h.start h.size ?_ (Int.le_of_eq htop)
  change _ ≤ m.stack.top
  omega

end Machine.LaidOut

/-- Whatever an instruction does, a machine stays laid out. -/
theorem Trail.laidOut {layout : Layout} (hvalid : layout.Valid) :
    Trail.Moving fun m _ m' => m.LaidOut layout → m'.LaidOut layout where
  refl _ h := h
  trans h h' hm := h' (h hm)
  registers _ _ _ hsp h := h.withRegisters hsp
  print _ _ h := h
  read _ _ h := h
  write _ _ _ _ h := { h with }
  miss _ _ _ _ h := h
  push _ _ v hfree _ h := h.pushed hfree v
  pop _ _ _ hused _ h := h.popped hvalid.2 hused
  anyRegisters _ _ hsp h := h.withRegisters hsp
  advance _ h := h.withRegisters rfl

/-- **Whatever is done to a machine, it stays laid out.** -/
theorem Lasting.laidOut {layout : Layout} (hvalid : layout.Valid) :
    Lasting (Machine.LaidOut layout) where
  step m h := (Trail.laidOut hvalid).along_step m h
  reset _ h := h.reset hvalid.2
  registers _ _ hsp h := h.withRegisters hsp
  state _ _ h := { h with }
  memory _ _ h := { h with }

/-! ### Pushes and pops -/

/-- **Traffic on a region**: bytes are pushed to its cells and popped from them, one after
the other, while the pointer goes from one value to another. An access that memory has no
cell for does not move it. -/
inductive Region.Traffic (region : Region) : Int → List Event → Int → Prop
  | none {p : Int} : Traffic region p [] p
  /-- A byte is pushed to the cell that the pointer points to. -/
  | push {p q : Int} {cell : Word} {v : Byte} {es : List Event} :
    (cell.toNat : Int) = p → region.contains cell.toNat = true → Traffic region (p - 1) es q →
    Traffic region p (.write cell v true :: .stackMove (p - 1) :: es) q
  /-- A byte is popped from the cell above. -/
  | pop {p q : Int} {cell : Word} {v : Byte} {es : List Event} :
    (cell.toNat : Int) = p + 1 → region.contains cell.toNat = true → Traffic region (p + 1) es q →
    Traffic region p (.read cell (some v) :: .write cell 0 true :: .stackMove (p + 1) :: es) q
  /-- A byte would be pushed if the cell were there. -/
  | missedPush {p q : Int} {cell : Word} {v : Byte} {es : List Event} :
    (cell.toNat : Int) = p → region.contains cell.toNat = true → Traffic region p es q →
    Traffic region p (.write cell v false :: es) q
  /-- A byte would be popped if the cell were there. -/
  | missedPop {p q : Int} {cell : Word} {es : List Event} :
    (cell.toNat : Int) = p + 1 → region.contains cell.toNat = true → Traffic region p es q →
    Traffic region p (.read cell none :: es) q

theorem Region.Traffic.append {region : Region} {p q r : Int} {es es' : List Event}
    (h : region.Traffic p es q) (h' : region.Traffic q es' r) : region.Traffic p (es ++ es') r := by
  induction h with
  | none => exact h'
  | push hcell hregion _ ih => exact .push hcell hregion (ih h')
  | pop hcell hregion _ ih => exact .pop hcell hregion (ih h')
  | missedPush hcell hregion _ ih => exact .missedPush hcell hregion (ih h')
  | missedPop hcell hregion _ ih => exact .missedPop hcell hregion (ih h')

/-- **What goes on is orderly**: a machine that is laid out stays so, and there is nothing but
traffic on its stack. -/
def Orderly (layout : Layout) (m : Machine) (es : List Event) (m' : Machine) : Prop :=
  m.LaidOut layout →
    m'.LaidOut layout ∧ layout.stack.Traffic m.stack.pointer es m'.stack.pointer

namespace Action

variable {layout : Layout}

theorem Along.orderly_bind {α β : Type} {x : Action α} {f : α → Action β}
    (hx : x.Along (Orderly layout)) (hf : ∀ a, (f a).Along (Orderly layout)) :
    (x >>= f).Along (Orderly layout) := by
  refine hx.bind (fun h h' hm => ?_) hf
  obtain ⟨hm', htraffic⟩ := h hm
  obtain ⟨hm'', htraffic'⟩ := h' hm'
  exact ⟨hm'', htraffic.append htraffic'⟩

theorem orderly_ask {α : Type} (f : Machine → α) : (ask f).Along (Orderly layout) :=
  fun _ h => ⟨h, .none⟩

theorem orderly_updateRegisters {f : Registers → Registers} (hsp : ∀ r, (f r).sp = r.sp) :
    (updateRegisters f).Along (Orderly layout) :=
  fun m h => ⟨h.withRegisters (hsp m.registers), .none⟩

theorem orderly_push (hvalid : layout.stack.Valid) (v : Byte) :
    (push v).Along (Orderly layout) := by
  intro m h
  obtain ⟨f, -, heq⟩ | ⟨cell, hfree, -, heq⟩ | ⟨cell, hfree, -, heq⟩ := push_cases v m
  · rw [heq]
    exact ⟨h, .none⟩
  · obtain ⟨hcell, hregion⟩ := h.free hvalid hfree
    rw [heq]
    exact ⟨h, .missedPush hcell hregion .none⟩
  · obtain ⟨hcell, hregion⟩ := h.free hvalid hfree
    rw [heq]
    exact ⟨h.pushed hfree v, .push hcell hregion .none⟩

theorem orderly_pop (hvalid : layout.stack.Valid) : pop.Along (Orderly layout) := by
  intro m h
  obtain ⟨f, -, heq⟩ | ⟨cell, hused, -, heq⟩ | ⟨cell, v, hused, -, heq⟩ := pop_cases m
  · rw [heq]
    exact ⟨h, .none⟩
  · obtain ⟨hcell, hregion⟩ := h.used hvalid hused
    rw [heq]
    exact ⟨h, .missedPop hcell hregion .none⟩
  · obtain ⟨hcell, hregion⟩ := h.used hvalid hused
    rw [heq]
    exact ⟨h.popped hvalid hused, .pop hcell hregion .none⟩

/-- **An operation that uses the stack does nothing else that can be watched.** -/
theorem orderly_perform (hvalid : layout.stack.Valid) {operation : Operation} {mode : Mode}
    {first second : Byte} {place : Place} (huses : operation.usesStack = true) :
    (perform operation mode first second place).Along (Orderly layout) := by
  cases operation with
  | call =>
    exact (orderly_ask _).orderly_bind fun _ => (orderly_push hvalid _).orderly_bind fun _ =>
      (orderly_push hvalid _).orderly_bind fun _ => orderly_updateRegisters fun _ => rfl
  | comeBack =>
    exact (orderly_pop hvalid).orderly_bind fun _ => (orderly_pop hvalid).orderly_bind fun _ =>
      orderly_updateRegisters fun _ => rfl
  | pushStatus | pushA => exact (orderly_ask _).orderly_bind fun _ => orderly_push hvalid _
  | popStatus | popA =>
    exact (orderly_pop hvalid).orderly_bind fun _ => orderly_updateRegisters fun _ => rfl
  | _ => exact nomatch huses

/-- The stack stays as it is. -/
def KeepsStack (α : Type) (x : Action α) : Prop :=
  x.Along fun m _ m' => m'.stack = m.stack

theorem KeepsStack.bind {α β : Type} {x : Action α} {f : α → Action β} (hx : x.KeepsStack)
    (hf : ∀ a, (f a).KeepsStack) : (x >>= f).KeepsStack :=
  Along.bind hx (fun h h' => h'.trans h) hf

theorem keepsStack_read (address : Word) : (read address).KeepsStack := by
  intro m
  rw [looksOn_read]

/-- Keeping the stack is a plain property. -/
theorem keepsStack_plain : Plain KeepsStack where
  pure _ _ := rfl
  bind hx hf := hx.bind hf
  ask _ _ _ := rfl
  update _ _ _ _ := rfl
  print _ _ := rfl
  read := keepsStack_read
  write address v m := by
    by_cases h : address.toNat < m.memory.size
    · rw [write_ok h]
    · rw [write_error h]

/-- **Every other operation leaves the stack alone.** -/
theorem keepsStack_perform {operation : Operation} {mode : Mode} {first second : Byte}
    {place : Place} (huses : operation.usesStack = false) :
    (perform operation mode first second place).KeepsStack :=
  keepsStack_plain.perform_of_usesStack_eq_false (fun _ _ _ => rfl) huses fun _ =>
    keepsStack_plain.move fun _ _ _ _ => rfl

variable {m : Machine}

/-- **A step that uses the stack** pushes to its region and pops from it, and does nothing
else after its instruction has been fetched. -/
theorem traffic_step (hvalid : layout.stack.Valid) (h : m.LaidOut layout) {operation : Operation}
    (hoperation : m.operation? = some operation) (huses : operation.usesStack = true) :
    layout.stack.Traffic m.stack.pointer m.dataEvents (step m).machine.stack.pointer := by
  obtain ⟨t, form, ht, hform, rfl⟩ := Machine.operation?_eq_some_iff.1 hoperation
  obtain ⟨-, htraffic⟩ := @orderly_perform layout hvalid _ form.mode t.first t.second
    (form.mode.place m.registers t.first t.second) huses m h
  rw [← Machine.dataEvents_eq ht hform] at htraffic
  rw [stack_step_eq ht hform]
  exact htraffic

/-- **A step that does not use the stack** leaves it alone. -/
theorem stack_step (h : ∀ operation, m.operation? = some operation → operation.usesStack = false) :
    (step m).machine.stack = m.stack := by
  cases hoperation : m.operation? with
  | none => rw [machine_step_of_operation?_eq_none hoperation]
  | some operation =>
    obtain ⟨t, form, ht, hform, rfl⟩ := Machine.operation?_eq_some_iff.1 hoperation
    rw [stack_step_eq ht hform]
    exact keepsStack_perform (h _ hoperation) m

end Action

/-! ### All commands -/

/-- **The stack of a machine after any commands**: the machine is laid out as it was built,
the depth of its stack follows from the pointer, all that any step on the way has done to
the stack is traffic on its region, and the run state is that of the ending of a run. -/
theorem stack_after {layout : Layout} {memorySize : Nat} {m : Machine}
    (h : Machine.new layout memorySize = .ok m) (commands : List Command) :
    (m.after commands).LaidOut layout ∧
      ((m.after commands).stack.depth : Int) =
        (layout.stack.stop : Int) - 1 - (m.after commands).stack.pointer ∧
      (m.after commands).stack.depth ≤ layout.stack.size ∧ layout.stack.stop ≤ addressSpace ∧
      (∀ v ∈ m.visitsAlong commands,
        (∀ operation, v.operation? = some operation → operation.usesStack = true →
          layout.stack.Traffic v.stack.pointer v.dataEvents
            (Action.step v).machine.stack.pointer) ∧
        ((∀ operation, v.operation? = some operation → operation.usesStack = false) →
          (Action.step v).machine.stack = v.stack)) ∧
      ∀ suspend budget address,
        ((m.after commands).execute suspend budget address).machine.state =
          ((m.after commands).execute suspend budget address).ending.state := by
  have hvalid := (Machine.new_eq_ok_iff.1 h).1
  obtain ⟨hway, hafter⟩ := (Lasting.laidOut hvalid).along (.of_new h) commands
  have hdepth := hafter.depth_eq hvalid.2
  refine ⟨hafter, hdepth, ?_, hvalid.2.2, fun v hv => ⟨?_, Action.stack_step⟩, ?_⟩
  · have hlower := hafter.lower
    rw [Region.size]
    omega
  · intro operation hoperation huses
    exact Action.traffic_step hvalid.2 (hway v hv) hoperation huses
  · intro suspend budget address
    exact Machine.state_execute suspend budget address _

/-- A machine whose stack is at the very bottom of memory. -/
def Layout.bottom : Layout where
  programMemory := ⟨2, 18⟩
  stack := ⟨0, 2⟩

/-- On a stack of two cells there is room for one call, and a second one fails at once.
The pointer is below the first cell then, and SP shows a byte that is none. -/
theorem stack_after_two_calls :
    ∃ m, Machine.new .bottom 18 = .ok m ∧ ∃ commands : List Command,
      commands = [.changeMemory fun memory => memory.putAll 2 (image [⟨0x1E, 0, 2⟩]),
        .request (.execute .never 5 2)] ∧
      (m.after commands).LaidOut .bottom ∧ (m.after commands).state = .faulted ∧
      (m.after commands).stack.pointer = -1 ∧ (m.after commands).stack.depth = 2 ∧
      (m.after commands).registers.sp = 0xFF :=
  ⟨_, rfl, _, rfl, (@stack_after .bottom 18 _ rfl _).1, by decide +kernel, by decide +kernel,
    by decide +kernel, by decide +kernel⟩

end EightBit
