import EightBit.Proofs.Machine.AllOrNothing
import EightBit.Proofs.Machine.Reset
import EightBit.Proofs.Machine.StackDepth

/-!
# What a fault leaves behind

An instruction that faults leaves the machine as it was, with two exceptions. A call pushes two
bytes, and where there is room for one only, this one has been pushed; a return pops two bytes,
and where there is one only, this one has been popped and its cell is zero. What a fault leaves
behind is therefore a matter of the operation and the depth of the stack alone
(`EightBit.Machine.remains`), and so it is after all requests (`EightBit.step_of_fault`).

For returns this is not true of a machine whose memory ends in the middle of its stack: the
second of its bytes might be missing. But bytes get onto the stack by pushes, which start at
the end of its region, so nothing can have been pushed where memory does not reach that far.
That this is so is kept by all requests (`EightBit.Machine.Backed`).
-/

namespace EightBit

/-- **What a fault leaves behind.** A free cell is of use only if memory has it. -/
def Machine.remains (layout : Layout) (m : Machine) : Machine :=
  if m.operation? = some .call ∧ m.stack.depth + 1 = layout.stack.size ∧
      layout.stack.start < m.memory.size then
    m.pushed (UInt16.ofNat layout.stack.start) m.registers.pc.high
  else if m.operation? = some .comeBack ∧ m.stack.depth = 1 then
    m.popped (UInt16.ofNat (layout.stack.stop - 1))
  else m

/-- Whatever a fault leaves behind, the program counter is where it was. -/
theorem Machine.pc_remains (layout : Layout) (m : Machine) :
    (m.remains layout).registers.pc = m.registers.pc := by
  rw [remains]
  split
  · rfl
  · split <;> rfl

/-- **A failure that leaves a machine**: nothing has been printed, and no completed instruction
has been reported. -/
structure Outcome.Leaves {α : Type} (fault : Fault) (m : Machine) (o : Outcome α) : Prop where
  result : o.result = .error fault
  machine : o.machine = m
  untold : ∀ e ∈ o.events, e.character? = none ∧ e.pc? = none

theorem Silent.untold {es : List Event} (h : Silent es) :
    ∀ e ∈ es, e.character? = none ∧ e.pc? = none :=
  fun e he => ⟨(h e he).1, (h e he).2.1⟩

theorem Outcome.Stopped.leaves {α : Type} {fault : Fault} {m : Machine} {o : Outcome α}
    (h : o.Stopped fault m) : o.Leaves fault m :=
  ⟨h.result, h.machine, h.silent.untold⟩

/-! ### Half a call and half a return -/

namespace Action

variable {layout : Layout} {m : Machine} {fault : Fault} (h : m.LaidOut layout)
  (hvalid : layout.stack.Valid)

include h hvalid

/-- **A call fails with one byte pushed** if there was room for one byte only. -/
theorem leaves_call {target : Word} (hfault : (call target m).result = .error fault) :
    (call target m).Leaves fault
      (if m.stack.depth + 1 = layout.stack.size ∧ layout.stack.start < m.memory.size then
        m.pushed (UInt16.ofNat layout.stack.start) m.registers.pc.high else m) := by
  have hsize : layout.stack.size = layout.stack.stop - layout.stack.start := rfl
  have hlt := hvalid.1
  rw [call, pc, ask_bind] at hfault ⊢
  rcases h.push_cases hvalid m.registers.pc.high with
    ⟨hfull, heq⟩ | ⟨hroom, hmissing, heq⟩ | ⟨hroom, hcell, heq⟩
  · rw [bind_error heq] at hfault ⊢
    rw [if_neg fun hone => absurd hone.1 (by omega)]
    exact ⟨hfault, rfl, Silent.nil.untold⟩
  · have haddress := h.toNat_freeCell hvalid (k := 0) hroom
    rw [bind_error heq] at hfault ⊢
    rw [if_neg fun hone => absurd hone.2 (by omega)]
    exact ⟨hfault, rfl, Silent.untold (by simp)⟩
  · have hdepth := h.depth_pushed hvalid (m.stack.freeCell 0) m.registers.pc.high
    have haddress := h.toNat_freeCell hvalid (k := 0) hroom
    have hpushed := h.pushed_of_room hvalid hroom m.registers.pc.high
    rw [bind_ok heq] at hfault ⊢
    rcases hpushed.push_cases hvalid m.registers.pc.low with
      ⟨hfull, heq₂⟩ | ⟨hroom₂, hmissing, heq₂⟩ | ⟨-, -, heq₂⟩
    · -- The first byte has taken the last cell there was.
      have hlast : m.stack.freeCell 0 = UInt16.ofNat layout.stack.start := by
        have hstop := hvalid.2
        rw [addressSpace] at hstop
        rw [← UInt16.toNat_inj, UInt16.toNat_ofNat']
        omega
      rw [bind_error heq₂] at hfault ⊢
      rw [if_pos (by omega), ← hlast]
      exact ⟨hfault, rfl, by simp [Event.character?, Event.pc?]⟩
    · -- The second byte goes to the cell below the first one, which is there.
      have haddress₂ := hpushed.toNat_freeCell hvalid (k := 0) hroom₂
      rw [Machine.memory_pushed, Memory.size_put] at hmissing
      omega
    · rw [bind_ok heq₂] at hfault
      cases hfault

/-- **A return fails with one byte popped** if there was one byte only. -/
theorem leaves_comeBack (hbacked : 0 < m.stack.depth → layout.stack.stop ≤ m.memory.size)
    (hfault : (comeBack m).result = .error fault) :
    (comeBack m).Leaves fault
      (if m.stack.depth = 1 then m.popped (UInt16.ofNat (layout.stack.stop - 1)) else m) := by
  rw [comeBack] at hfault ⊢
  rcases h.pop_cases hvalid with ⟨hempty, heq⟩ | ⟨hpos, hmissing, -⟩ | ⟨low, hpos, hlow, heq⟩
  · rw [bind_error heq] at hfault ⊢
    rw [if_neg fun hone => absurd hone (by omega)]
    exact ⟨hfault, rfl, Silent.nil.untold⟩
  · have haddress := h.toNat_cellAt hvalid hpos
    have hstop := hbacked hpos
    omega
  · have hdepth := m.depth_popped (m.stack.cellAt 0)
    have haddress := h.toNat_cellAt hvalid hpos
    have hstop := hbacked hpos
    have hpopped := h.popped_of_pos hvalid hpos
    rw [bind_ok heq] at hfault ⊢
    rcases hpopped.pop_cases hvalid with
      ⟨hempty, heq₂⟩ | ⟨hpos₂, hmissing, -⟩ | ⟨high, -, -, heq₂⟩
    · -- The byte was in the last cell of the stack.
      have hlast : m.stack.cellAt 0 = UInt16.ofNat (layout.stack.stop - 1) := by
        have hend := hvalid.2
        rw [addressSpace] at hend
        rw [← UInt16.toNat_inj, UInt16.toNat_ofNat']
        omega
      rw [bind_error heq₂] at hfault ⊢
      rw [if_pos (by omega), ← hlast]
      exact ⟨hfault, rfl, by simp [Event.character?, Event.pc?]⟩
    · have haddress₂ := hpopped.toNat_cellAt hvalid hpos₂
      rw [Machine.memory_popped, Memory.size_put] at hmissing
      omega
    · rw [bind_ok heq₂] at hfault
      cases hfault

/-- **What a failed step leaves behind**, where memory reaches to the end of the stack unless
this is empty. -/
theorem leaves_step (hbacked : 0 < m.stack.depth → layout.stack.stop ≤ m.memory.size)
    (hfault : (step m).result = .error fault) : (step m).Leaves fault (m.remains layout) := by
  rcases hoperation : m.operation? with _ | operation
  · obtain ⟨e, hstop⟩ := stopped_step_of_operation?_eq_none hoperation
    obtain rfl := Except.error.inj (hstop.result.symm.trans hfault)
    rw [Machine.remains, hoperation]
    exact hstop.leaves
  obtain ⟨t, form, ht, hform, rfl⟩ := Machine.operation?_eq_some_iff.1 hoperation
  have hperform : (perform form.mnemonic.operation form.mode t.first t.second
      (form.mode.place m.registers t.first t.second) m).Leaves fault (m.remains layout) := by
    rw [result_step ht hform] at hfault
    rw [Machine.remains, hoperation]
    generalize form.mnemonic.operation = operation at hfault ⊢
    by_cases hcall : operation = .call
    · subst hcall
      simpa [perform] using leaves_call h hvalid hfault
    by_cases hreturn : operation = .comeBack
    · subst hreturn
      simpa [perform] using leaves_comeBack h hvalid hbacked hfault
    · rw [if_neg fun hsome => hcall (Option.some.inj hsome.1),
        if_neg fun hsome => hreturn (Option.some.inj hsome.1)]
      exact (allOrNothing_perform hcall hreturn m fault hfault).leaves
  rcases hperformed : perform form.mnemonic.operation form.mode t.first t.second
    (form.mode.place m.registers t.first t.second) m with ⟨result, m', es⟩
  rw [hperformed] at hperform
  obtain ⟨rfl, rfl, huntold⟩ := hperform
  rw [step_of_perform_error ht hform hperformed]
  exact ⟨rfl, rfl, List.forall_mem_append.2 ⟨(Silent.fetchEvents m t).untold, huntold⟩⟩

end Action

/-! ### Where the stack reaches -/

/-- **The stack of a machine is backed by memory** if it is empty or memory reaches to its
end. -/
structure Machine.Backed (layout : Layout) (memorySize : Nat) (m : Machine) : Prop
    extends m.BuiltBy layout memorySize where
  backed : 0 < m.stack.depth → layout.stack.stop ≤ memorySize

namespace Machine.Backed

variable {layout : Layout} {memorySize : Nat} {m : Machine}

/-- After a reset there is nothing on the stack. -/
theorem not_pos_of_reset (m : Machine) : ¬0 < (Action.reset m).machine.stack.depth := by
  have hreset : (Action.reset m).machine.stack.depth = 0 := Stack.depth_reset m.stack
  exact Nat.not_lt_of_le (Nat.le_of_eq hreset)

theorem of_new (h : new layout memorySize = .ok m) : m.Backed layout memorySize where
  toBuiltBy := .of_new h
  backed hpos := by
    -- A new machine is as it is after a reset.
    rw [← (BuiltBy.of_new h).reset h] at hpos
    exact absurd hpos (not_pos_of_reset m)

/-- **The first byte is pushed to the end of the stack's region**, so memory reaches there. -/
theorem pushed (hvalid : layout.stack.Valid) (h : m.Backed layout memorySize) {cell : Word}
    (hfree : m.stack.free = .ok cell) (hcell : cell.toNat < m.memory.size) (v : Byte) :
    (m.pushed cell v).Backed layout memorySize where
  laidOut := h.laidOut.pushed hfree v
  size := (Memory.size_put ..).trans h.size
  backed _ := by
    by_cases hpos : 0 < m.stack.depth
    · exact h.backed hpos
    · obtain ⟨haddress, -⟩ := h.laidOut.free hvalid hfree
      have hpointer := h.laidOut.pointer_eq hvalid
      rw [h.size] at hcell
      omega

theorem popped (hvalid : layout.stack.Valid) (h : m.Backed layout memorySize) {cell : Word}
    (hused : m.stack.used = .ok cell) : (m.popped cell).Backed layout memorySize where
  laidOut := h.laidOut.popped hvalid hused
  size := (Memory.size_put ..).trans h.size
  backed hpos := by
    rw [depth_popped] at hpos
    exact h.backed (Nat.lt_of_lt_of_le hpos (Nat.sub_le _ _))

end Machine.Backed

/-- Whatever an instruction does, the stack stays backed. -/
theorem Trail.backed {layout : Layout} (hvalid : layout.Valid) (memorySize : Nat) :
    Trail.Moving fun m _ m' => m.Backed layout memorySize → m'.Backed layout memorySize where
  refl _ h := h
  trans h h' hm := h' (h hm)
  registers _ _ _ hsp h := ⟨⟨h.laidOut.withRegisters hsp, h.size⟩, h.backed⟩
  print _ _ h := h
  read _ _ h := h
  write _ _ _ _ h := ⟨⟨{ h.laidOut with }, (Memory.size_put ..).trans h.size⟩, h.backed⟩
  miss _ _ _ _ h := h
  push _ _ v hfree hcell h := h.pushed hvalid.2 hfree hcell v
  pop _ _ _ hused _ h := h.popped hvalid.2 hused
  anyRegisters _ _ hsp h := ⟨⟨h.laidOut.withRegisters hsp, h.size⟩, h.backed⟩
  advance _ h := ⟨⟨h.laidOut.withRegisters rfl, h.size⟩, h.backed⟩

/-- **That the stack is backed persists.** -/
theorem Machine.Backed.persistent {layout : Layout} (hvalid : layout.Valid) (memorySize : Nat) :
    Persistent (Machine.Backed layout memorySize) where
  step m h := (Trail.backed hvalid memorySize).along_step m h
  reset m h := ⟨(BuiltBy.persistent hvalid).reset m h.toBuiltBy,
    fun hpos => absurd hpos (not_pos_of_reset m)⟩
  registers m r hsp h := ⟨(BuiltBy.persistent hvalid).registers m r hsp h.toBuiltBy, h.backed⟩
  state m state h := ⟨(BuiltBy.persistent hvalid).state m state h.toBuiltBy, h.backed⟩
  memory m memory hsize h :=
    ⟨(BuiltBy.persistent hvalid).memory m memory hsize h.toBuiltBy, h.backed⟩

/-! ### All requests -/

/-- **A faulting instruction leaves the machine as it was**, with exactly two exceptions, whatever
has been asked of the machine before: a call with room for one byte only has pushed the high
byte of its address, and a return with one byte only has popped it. The program counter is still
that of the instruction, nothing has been printed and no completed instruction reported. -/
theorem step_of_fault {layout : Layout} {memorySize : Nat} {m₀ m : Machine} {fault : Fault}
    (h : Machine.new layout memorySize = .ok m₀) {requests : List Machine.Request}
    (hm : m₀.handled requests = m) (hfault : (Action.step m).result = .error fault) :
    (Action.step m).machine = m.remains layout ∧
      (Action.step m).machine.registers.pc = m.registers.pc ∧
      ∀ e ∈ (Action.step m).events, e.character? = none ∧ e.pc? = none := by
  have hvalid := (Machine.new_eq_ok_iff.1 h).1
  have hbacked := (Machine.Backed.persistent hvalid memorySize).handled (.of_new h) requests
  rw [hm] at hbacked
  have hleaves := Action.leaves_step hbacked.laidOut hvalid.2
    (fun hpos => hbacked.size.symm ▸ hbacked.backed hpos) hfault
  refine ⟨hleaves.machine, ?_, hleaves.untold⟩
  rw [hleaves.machine, m.pc_remains]

/-- On a stack of two cells with a byte in one of them, a call pushes one byte and faults. -/
theorem step_of_fault_half_called :
    ∃ m₀ m requests, Machine.new .bottom 18 = .ok m₀ ∧
      requests = [.load 5 (image [⟨0x2B, 0, 0⟩, ⟨0x1E, 0, 5⟩]), .execute .never 1 5] ∧
      m₀.handled requests = m ∧ m.registers.pc = 11 ∧ m.stack.depth = 1 ∧
      (Action.step m).result = .error (.stackFault .overflow (-1)) ∧
      (Action.step m).machine = m.pushed 0 0 ∧ (m.pushed 0 0).stack.depth = 2 := by
  refine ⟨_, _, _, rfl, rfl, rfl, by decide +kernel, by decide +kernel, by rfl, ?_,
    by decide +kernel⟩
  exact (@step_of_fault .bottom 18 _ _ _ rfl _ rfl rfl).1.trans (if_pos (by decide +kernel))

end EightBit
