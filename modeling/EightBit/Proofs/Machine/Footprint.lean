import EightBit.Proofs.Machine.Agreement
import EightBit.Proofs.Machine.StackDepth
import EightBit.Proofs.Machine.StatusRegister

/-!
# What instructions change

Whoever writes a program relies on what an instruction does *not* do as much as on what it does:
that a store leaves the flags alone, that a rotation in memory does not touch the one for zero,
that a comparison changes no register. All of this together is the **footprint** of an
instruction: the cells that it may write, those that it leaves at zero, the registers and flags
that it may change, how far it moves the stack pointer, and what it prints
(`EightBit.Form.footprint`).

The footprints are one table, with a row for each mnemonic; the machine knows nothing of it. It
goes by operations instead, which many mnemonics share. So there is one lemma for each kind of
operation that says how far it reaches, and the table is gone through once
(`EightBit.Machine.Within.of_perform`). The main statement, `EightBit.footprint_of_step`, is that
a step which succeeds stays within the footprint of its instruction.
-/

namespace EightBit

/-- **A footprint**: all that may be different afterwards. -/
structure Footprint where
  /-- The cells that may be written. -/
  written : List Word := []
  /-- The cells that are left at zero. -/
  zeroed : List Word := []
  /-- The general registers that may change. -/
  registers : List Register := []
  /-- The flags that may change. -/
  flags : List Flag := []
  /-- How far the stack pointer moves. -/
  move : Int := 0
  /-- The text that is printed, unless there is nothing to be printed where there should be. -/
  output? : Option (List Char) := some []

/-- The footprint of an operand that is changed where it stands. -/
def Place.footprint : Place → Footprint
  | register r => { registers := [r] }
  | value _ => {}
  | cell address => { written := [address] }

/-- **The footprint of an instruction**, on a machine that is about to perform it. -/
def Form.footprint (form : Form) (t : Triple) (m : Machine) : Footprint :=
  let place := form.mode.place m.registers t.first t.second
  match form.mnemonic with
  | .nop | .jmp | .bcc | .bcs | .bne | .beq | .brp | .brn => {}
  | .lda => { registers := [.a], flags := [.zero, .negative] }
  | .ldw => { registers := [.w], flags := [.zero, .negative] }
  | .ldx => { registers := [.x], flags := [.zero, .negative] }
  | .ldy => { registers := [.y], flags := [.zero, .negative] }
  | .ldz => { registers := [.z], flags := [.zero, .negative] }
  | .sta | .stw | .stx | .sty | .stz => place.footprint
  | .jfn => { written := [m.stack.freeCell 0, m.stack.freeCell 1], move := -2 }
  | .ret => { zeroed := [m.stack.cellAt 0, m.stack.cellAt 1], move := 2 }
  | .clc | .sec => { flags := [.carry] }
  | .clo => { flags := [.overflow] }
  | .phs | .pha => { written := [m.stack.freeCell 0], move := -1 }
  | .pos => { zeroed := [m.stack.cellAt 0], flags := Flag.all, move := 1 }
  | .poa => { zeroed := [m.stack.cellAt 0], registers := [.a], flags := [.zero, .negative],
              move := 1 }
  | .cmp | .cpw | .cpx => { flags := [.carry, .zero, .negative] }
  | .and | .ora | .xor => { registers := [.a], flags := [.zero, .negative] }
  | .rol | .ror => { place.footprint with
      flags := if place.isRegister then [.carry, .zero, .negative] else [.carry, .negative] }
  | .bsl | .bsr => { place.footprint with flags := [.carry, .negative] }
  | .add | .sub => { registers := [.a], flags := [.carry, .zero, .overflow, .negative] }
  | .inc | .dec => { place.footprint with flags := [.zero, .negative] }
  | .inw | .dew => { registers := [.w], flags := [.zero, .negative] }
  | .inx | .dex => { registers := [.x], flags := [.zero, .negative] }
  | .mov => { registers := (Register.ofIndex? t.second).toList, flags := [.zero, .negative] }
  | .out => { output? := (place.value? m).map fun v => [Char.ofNat v.toNat] }
  | .onl => { output? := some ['\n'] }

/-- The footprint of two things that are done one after the other. -/
def Footprint.append (f g : Footprint) : Footprint where
  written := f.written ++ g.written
  zeroed := f.zeroed ++ g.zeroed
  registers := f.registers ++ g.registers
  flags := f.flags ++ g.flags
  move := f.move + g.move
  output? := f.output?.bind fun text => g.output?.map (text ++ ·)

/-- **To stay within a footprint**, on the way from one machine to another. -/
structure Machine.Within (f : Footprint) (m : Machine) (es : List Event) (m' : Machine) : Prop where
  cells : ∀ address : Nat, (∀ cell ∈ f.written ++ f.zeroed, cell.toNat ≠ address) →
    m'.memory.cell? address = m.memory.cell? address
  zeroed : ∀ cell ∈ f.zeroed, m'.memory.cell? cell.toNat = some 0
  registers : ∀ register ∉ f.registers, m'.registers.get register = m.registers.get register
  flags : ∀ flag ∉ f.flags, m'.registers.p.get flag = m.registers.p.get flag
  stack : m'.stack = { m.stack with pointer := m.stack.pointer + f.move }
  output : f.output? = some (printed es)

/-! ### What is not printed -/

/-- Silent events print nothing. -/
theorem Silent.printed_eq_nil {es : List Event} (h : Silent es) : printed es = [] :=
  List.filterMap_eq_nil_iff.2 fun e he => (h e he).1

namespace Place

theorem printed_reading (place : Place) (v : Byte) : printed (place.reading v) = [] := by
  cases place <;> rfl

theorem printed_writing (place : Place) (v : Byte) : printed (place.writing v) = [] := by
  cases place <;> rfl

end Place

namespace Registers

variable (r : Registers) (register : Register) (v : Byte)

/-- The flags are beside the general registers. -/
@[simp] theorem get_withResult : (r.withResult v).get register = r.get register := by
  cases register <;> rfl

end Registers

namespace Machine.Within

variable {f : Footprint} {m m' : Machine} {es : List Event} {mode : Mode} {first second : Byte}
  {place : Place} {operation : Operation}

/-- To fetch an instruction and to move on is in every footprint. -/
theorem advanced (h : Within f m es m') (t : Triple) :
    Within f m (m.fetchEvents t ++ es ++ [.advance m'.advanced.registers.pc]) m'.advanced where
  cells := h.cells
  zeroed := h.zeroed
  registers register hregister := by
    rw [← h.registers register hregister]
    cases register <;> rfl
  flags := h.flags
  stack := h.stack
  output := by
    rw [printed_append, printed_append, (Silent.fetchEvents m t).printed_eq_nil, h.output]
    exact congrArg some (List.append_nil _).symm

/-- The flags are those of the table that goes by operations. -/
theorem flags_of_perform
    (h : Action.perform operation mode first second place m = ⟨.ok (), m', es⟩) :
    ∀ flag ∉ operation.flags place, m'.registers.p.get flag = m.registers.p.get flag := by
  intro flag hflag
  have hkept : (Action.perform operation mode first second place m).machine.registers.p.get flag =
      m.registers.p.get flag := Action.keeps_flag hflag m
  rwa [h] at hkept

/-- **One thing after the other** stays within both footprints, if the second does not write where
the first has left a zero. -/
theorem trans {g : Footprint} {m'' : Machine} {es' : List Event} (h : Within f m es m')
    (h' : Within g m' es' m'')
    (hzeroed : ∀ cell ∈ f.zeroed, ∀ other ∈ g.written, other.toNat ≠ cell.toNat) :
    Within (f.append g) m (es ++ es') m'' where
  cells address haddress := by
    simp only [Footprint.append, List.mem_append] at haddress
    rw [h'.cells address, h.cells address]
    · intro cell hcell
      exact haddress cell ((List.mem_append.1 hcell).imp Or.inl Or.inl)
    · intro cell hcell
      exact haddress cell ((List.mem_append.1 hcell).imp Or.inr Or.inr)
  zeroed cell hcell := by
    rcases List.mem_append.1 hcell with hfirst | hsecond
    · -- The second thing leaves it alone or leaves a zero there, too.
      by_cases hagain : ∃ other ∈ g.zeroed, other.toNat = cell.toNat
      · obtain ⟨other, hother, heq⟩ := hagain
        rw [← heq]
        exact h'.zeroed other hother
      · rw [h'.cells cell.toNat, h.zeroed cell hfirst]
        intro other hother
        rcases List.mem_append.1 hother with hwritten | hzero
        · exact hzeroed cell hfirst other hwritten
        · exact fun heq => hagain ⟨other, hzero, heq⟩
    · exact h'.zeroed cell hsecond
  registers register hregister := by
    rw [Footprint.append, List.mem_append, not_or] at hregister
    rw [h'.registers register hregister.2, h.registers register hregister.1]
  flags flag hflag := by
    rw [Footprint.append, List.mem_append, not_or] at hflag
    rw [h'.flags flag hflag.2, h.flags flag hflag.1]
  stack := by
    rw [h'.stack, h.stack, Footprint.append, Int.add_assoc]
  output := by
    rw [Footprint.append, h.output, h'.output, printed_append]
    rfl

/-! ### Operations without a change to memory -/

/-- **Where only registers change**, there is little to be shown. -/
theorem of_registers {r : Registers} {targets : List Register} {flags : List Flag}
    {output? : Option (List Char)}
    (hregisters : ∀ register ∉ targets, r.get register = m.registers.get register)
    (hflags : ∀ flag ∉ flags, r.p.get flag = m.registers.p.get flag)
    (houtput : output? = some (printed es)) :
    Within { registers := targets, flags, output? } m es { m with registers := r } where
  cells _ _ := rfl
  zeroed _ hcell := absurd hcell List.not_mem_nil
  registers := hregisters
  flags := hflags
  stack := by simp
  output := houtput

/-- **An operation that takes its operand in** changes registers only. -/
theorem of_intake {g : Byte → Registers → Registers} {targets : List Register}
    (hg : operation.intake? = some g)
    (hregisters : ∀ v r, ∀ register ∉ targets, (g v r).get register = r.get register)
    (hprinting : ∀ v, printed (operation.printing v) = [])
    (h : Action.perform operation mode first second place m = ⟨.ok (), m', es⟩) :
    Within { registers := targets, flags := operation.flags place } m es m' := by
  have hflags := flags_of_perform h
  obtain ⟨v, -, rfl, rfl⟩ := (Action.perform_eq_ok_iff_of_intake hg).1 h
  refine of_registers (hregisters v m.registers) hflags ?_
  rw [printed_append, place.printed_reading, hprinting]
  rfl

theorem of_load {target : Register}
    (h : Action.perform (.load target) mode first second place m = ⟨.ok (), m', es⟩) :
    Within { registers := [target], flags := [.zero, .negative] } m es m' := by
  refine of_intake rfl (fun v r register hregister => ?_) (fun _ => rfl) h
  rw [Registers.get_withResult]
  exact r.get_set_of_ne v (List.ne_of_not_mem_cons hregister)

theorem of_compare {register : Register}
    (h : Action.perform (.compare register) mode first second place m = ⟨.ok (), m', es⟩) :
    Within { flags := [.carry, .zero, .negative] } m es m' :=
  of_intake rfl (fun _ _ other _ => by cases other <;> rfl) (fun _ => rfl) h

theorem of_combine {gate : Gate}
    (h : Action.perform (.combine gate) mode first second place m = ⟨.ok (), m', es⟩) :
    Within { registers := [.a], flags := [.zero, .negative] } m es m' := by
  refine of_intake rfl (fun v r register hregister => ?_) (fun _ => rfl) h
  rw [Registers.get_withResult]
  exact r.get_set_of_ne _ (List.ne_of_not_mem_cons hregister)

/-- Sums and differences go to A. -/
theorem of_accumulate (hoperation : operation = .add ∨ operation = .subtract)
    (h : Action.perform operation mode first second place m = ⟨.ok (), m', es⟩) :
    Within { registers := [.a], flags := [.carry, .zero, .overflow, .negative] } m es m' := by
  rcases hoperation with rfl | rfl
  · refine of_intake rfl (fun v r register hregister => ?_) (fun _ => rfl) h
    exact r.get_set_of_ne _ (List.ne_of_not_mem_cons hregister)
  · refine of_intake rfl (fun v r register hregister => ?_) (fun _ => rfl) h
    exact r.get_set_of_ne _ (List.ne_of_not_mem_cons hregister)

/-- A character is printed that the operand stands for. -/
theorem of_print (h : Action.perform .print mode first second place m = ⟨.ok (), m', es⟩) :
    Within { output? := (place.value? m).map fun v => [Char.ofNat v.toNat] } m es m' := by
  obtain ⟨v, hv, rfl, rfl⟩ := (Action.perform_eq_ok_iff_of_intake rfl).1 h
  refine of_registers (fun _ _ => rfl) (fun _ _ => rfl) ?_
  rw [hv, printed_append, place.printed_reading]
  rfl

theorem of_assign {flag : Flag} {value : Bool}
    (h : Action.perform (.assign flag value) mode first second place m = ⟨.ok (), m', es⟩) :
    Within { flags := [flag] } m es m' := by
  have hflags := flags_of_perform h
  rw [Action.perform, Action.updateFlags, Action.updateRegisters_eq_ok_iff] at h
  obtain ⟨rfl, rfl⟩ := h
  exact of_registers (fun register _ => by cases register <;> rfl) hflags rfl

/-- A branch changes nothing but the program counter. -/
theorem of_branch {flag : Flag} {value : Bool}
    (h : Action.perform (.branch flag value) mode first second place m = ⟨.ok (), m', es⟩) :
    Within {} m es m' := by
  have hflags := flags_of_perform h
  obtain ⟨rfl, rfl⟩ := Action.updateRegisters_eq_ok_iff.1 h
  refine of_registers (fun register _ => ?_) hflags rfl
  split
  · cases register <;> rfl
  · rfl

/-- Neither does a jump. -/
theorem of_jump (h : Action.perform .jump mode first second place m = ⟨.ok (), m', es⟩) :
    Within {} m es m' := by
  rw [Action.perform] at h
  by_cases hmode : mode = .absoluteIndirect
  · rw [hmode] at h
    obtain ⟨high, low, -, -, rfl, rfl⟩ := Action.jump_indirect_eq_ok_iff.1 h
    exact of_registers (fun register _ => by cases register <;> rfl) (fun _ _ => rfl) rfl
  · obtain ⟨rfl, rfl⟩ := (Action.jump_eq_ok_iff hmode).1 h
    exact of_registers (fun register _ => by cases register <;> rfl) (fun _ _ => rfl) rfl

/-- A copy changes the register that the second operand byte names. -/
theorem of_move (h : Action.perform .move mode first second place m = ⟨.ok (), m', es⟩) :
    Within { registers := (Register.ofIndex? second).toList, flags := [.zero, .negative] }
      m es m' := by
  have hflags := flags_of_perform h
  obtain ⟨source, target, -, htarget, rfl, rfl⟩ := Action.move_eq_ok_iff.1 h
  rw [htarget]
  refine of_registers (fun register hregister => ?_) hflags rfl
  rw [Registers.get_withResult]
  exact m.registers.get_set_of_ne _ (List.ne_of_not_mem_cons hregister)

/-! ### Operations that change their operand -/

/-- **To fill a place** is in its footprint, whatever is recorded in the flags. -/
theorem of_fill (place : Place) (v : Byte) (q : Flags → Flags) {flags : List Flag}
    (hflags : ∀ flag ∉ flags, ((place.fill v m).recorded q).registers.p.get flag =
      m.registers.p.get flag) (hprinted : printed es = []) :
    Within { place.footprint with flags } m es ((place.fill v m).recorded q) where
  cells address haddress := by
    cases place with
    | register | value => rfl
    | cell cell =>
      have hne : cell.toNat ≠ address := haddress cell (List.mem_singleton.2 rfl)
      exact (Memory.cell?_put ..).trans (if_neg fun heq => hne heq.1)
  zeroed cell hcell := by
    cases place <;> exact absurd hcell List.not_mem_nil
  registers register hregister := by
    cases place with
    | register target =>
      have hset := m.registers.get_set_of_ne v (List.ne_of_not_mem_cons hregister)
      rw [← hset]
      cases register <;> rfl
    | value | cell => cases register <;> rfl
  flags := hflags
  stack := by
    cases place <;> simp [Place.footprint, Place.fill, Machine.recorded]
  output := by
    rw [hprinted]
    cases place <;> rfl

theorem of_store {source : Register}
    (h : Action.perform (.store source) mode first second place m = ⟨.ok (), m', es⟩) :
    Within place.footprint m es m' := by
  have hflags := flags_of_perform h
  obtain ⟨-, rfl, rfl⟩ := Action.perform_store_eq_ok_iff.1 h
  have hfill := of_fill place (m.registers.get source) id hflags
    (place.printed_writing (m.registers.get source))
  cases place <;> exact hfill

/-- **An operation that alters its operand** changes it and flags. -/
theorem of_alteration {g : Place → Byte → Bool → Byte × (Flags → Flags)}
    (hg : operation.alteration? = some g)
    (h : Action.perform operation mode first second place m = ⟨.ok (), m', es⟩) :
    Within { place.footprint with flags := operation.flags place } m es m' := by
  have hflags := flags_of_perform h
  obtain ⟨v, v', q, -, -, rfl, rfl⟩ := (Action.perform_eq_ok_iff_of_alteration hg).1 h
  refine of_fill place v' q hflags ?_
  rw [printed_append, place.printed_reading, place.printed_writing]
  rfl

/-- To count a register is to count the operand in that register. -/
theorem of_countRegister {direction : Direction} {register : Register}
    (h : Action.perform (.countRegister direction register) mode first second place m =
      ⟨.ok (), m', es⟩) :
    Within { registers := [register], flags := [.zero, .negative] } m es m' := by
  have hcount : Action.perform (.count direction) mode first second (.register register) m =
      ⟨.ok (), m', es⟩ := h
  exact of_alteration rfl hcount

/-! ### Operations that use the stack -/

/-- A push changes the cell that the pointer points to. -/
theorem of_push {v : Byte} (h : Action.push v m = ⟨.ok (), m', es⟩) :
    Within { written := [m.stack.freeCell 0], move := -1 } m es m' := by
  obtain ⟨fault, -, heq⟩ | ⟨cell, -, -, heq⟩ | ⟨cell, hfree, -, heq⟩ := Action.push_cases v m
  · cases heq.symm.trans h
  · cases heq.symm.trans h
  · cases heq.symm.trans h
    obtain ⟨-, rfl⟩ := Stack.free_eq_ok_iff.1 hfree
    rw [← Stack.freeCell_zero]
    refine ⟨fun address haddress => ?_, fun _ hcell => absurd hcell List.not_mem_nil,
      fun register _ => by cases register <;> rfl, fun _ _ => rfl, rfl, rfl⟩
    have hne := haddress (m.stack.freeCell 0) List.mem_cons_self
    rw [memory_pushed, Memory.cell?_put, if_neg fun heq => hne heq.1]

/-- A pop leaves a zero in the cell above. -/
theorem of_pop {v : Byte} (h : Action.pop m = ⟨.ok v, m', es⟩) :
    Within { zeroed := [m.stack.cellAt 0], move := 1 } m es m' := by
  obtain ⟨fault, -, heq⟩ | ⟨cell, -, -, heq⟩ | ⟨cell, v, hused, hcell, heq⟩ := Action.pop_cases m
  · cases heq.symm.trans h
  · cases heq.symm.trans h
  · cases heq.symm.trans h
    obtain ⟨-, rfl⟩ := Stack.used_eq_ok_iff.1 hused
    rw [← Stack.cellAt_zero] at hcell ⊢
    refine ⟨fun address haddress => ?_, fun cell hzero => ?_,
      fun register _ => by cases register <;> rfl, fun _ _ => rfl, rfl, rfl⟩
    · have hne := haddress (m.stack.cellAt 0) List.mem_cons_self
      rw [memory_popped, Memory.cell?_put, if_neg fun heq => hne heq.1]
    · obtain rfl := List.mem_singleton.1 hzero
      have hlt := Memory.isSome_cell?_iff.1 (Option.isSome_of_eq_some hcell)
      rw [memory_popped, Memory.cell?_put, if_pos ⟨rfl, hlt⟩]

theorem of_pushStatus
    (h : Action.perform .pushStatus mode first second place m = ⟨.ok (), m', es⟩) :
    Within { written := [m.stack.freeCell 0], move := -1 } m es m' := by
  rw [Action.perform, Action.ask_bind] at h
  exact of_push h

theorem of_pushA (h : Action.perform .pushA mode first second place m = ⟨.ok (), m', es⟩) :
    Within { written := [m.stack.freeCell 0], move := -1 } m es m' := by
  rw [Action.perform, Action.ask_bind] at h
  exact of_push h

theorem of_popStatus
    (h : Action.perform .popStatus mode first second place m = ⟨.ok (), m', es⟩) :
    Within { zeroed := [m.stack.cellAt 0], flags := Flag.all, move := 1 } m es m' := by
  obtain ⟨v, m₁, es₁, es₂, hpop, hset, rfl⟩ := Action.bind_eq_ok_iff.1 h
  rw [Action.updateFlags, Action.updateRegisters_eq_ok_iff] at hset
  obtain ⟨rfl, rfl⟩ := hset
  have hstatus : Within { flags := Flag.all } m₁ []
      { m₁ with registers := { m₁.registers with p := .ofByte v } } :=
    of_registers (fun register _ => by cases register <;> rfl)
      (fun flag hflag => absurd flag.mem_all hflag) rfl
  exact (of_pop hpop).trans hstatus fun _ _ _ hother => absurd hother List.not_mem_nil

theorem of_popA (h : Action.perform .popA mode first second place m = ⟨.ok (), m', es⟩) :
    Within { zeroed := [m.stack.cellAt 0], registers := [.a], flags := [.zero, .negative],
             move := 1 } m es m' := by
  obtain ⟨v, m₁, es₁, es₂, hpop, hset, rfl⟩ := Action.bind_eq_ok_iff.1 h
  rw [Action.setRegister, Action.updateRegisters_eq_ok_iff] at hset
  obtain ⟨rfl, rfl⟩ := hset
  have hset : Within { registers := [.a], flags := [.zero, .negative] } m₁ []
      { m₁ with registers := (m₁.registers.set .a v).withResult v } := by
    refine of_registers (fun register hregister => ?_) (fun flag hflag => ?_) rfl
    · rw [Registers.get_withResult]
      exact m₁.registers.get_set_of_ne v (List.ne_of_not_mem_cons hregister)
    · exact m₁.registers.p.get_withResult v hflag
  exact (of_pop hpop).trans hset fun _ _ _ hother => absurd hother List.not_mem_nil

/-- To set the program counter changes nothing else. -/
theorem of_setPC {address : Word} (h : Action.setPC address m = ⟨.ok (), m', es⟩) :
    Within {} m es m' := by
  obtain ⟨rfl, rfl⟩ := Action.updateRegisters_eq_ok_iff.1 h
  exact of_registers (fun register _ => by cases register <;> rfl) (fun _ _ => rfl) rfl

/-- A call changes two cells, one below the other. -/
theorem of_call (h : Action.perform .call mode first second place m = ⟨.ok (), m', es⟩) :
    Within { written := [m.stack.freeCell 0, m.stack.freeCell 1], move := -2 } m es m' := by
  rw [Action.perform, Action.call, Action.pc, Action.ask_bind] at h
  obtain ⟨_, m₁, es₁, es₂, hhigh, hrest, rfl⟩ := Action.bind_eq_ok_iff.1 h
  obtain ⟨_, m₂, es₃, es₄, hlow, hset, rfl⟩ := Action.bind_eq_ok_iff.1 hrest
  have hcell : m₁.stack.freeCell 0 = m.stack.freeCell 1 := by
    rw [(of_push hhigh).stack]
    exact m.stack.freeCell_down 0
  have hsecond := of_push hlow
  rw [hcell] at hsecond
  refine (of_push hhigh).trans (hsecond.trans (of_setPC hset) ?_) ?_
  · exact fun _ hcell => absurd hcell List.not_mem_nil
  · exact fun _ hcell => absurd hcell List.not_mem_nil

/-- A return leaves zeros in two cells, one above the other. -/
theorem of_comeBack (h : Action.perform .comeBack mode first second place m = ⟨.ok (), m', es⟩) :
    Within { zeroed := [m.stack.cellAt 0, m.stack.cellAt 1], move := 2 } m es m' := by
  obtain ⟨low, m₁, es₁, es₂, hlow, hrest, rfl⟩ := Action.bind_eq_ok_iff.1 h
  obtain ⟨high, m₂, es₃, es₄, hhigh, hset, rfl⟩ := Action.bind_eq_ok_iff.1 hrest
  have hcell : m₁.stack.cellAt 0 = m.stack.cellAt 1 := by
    rw [(of_pop hlow).stack]
    exact m.stack.cellAt_up 0
  have hsecond := of_pop hhigh
  rw [hcell] at hsecond
  refine (of_pop hlow).trans (hsecond.trans (of_setPC hset) ?_) ?_
  · exact fun _ _ _ hother => absurd hother List.not_mem_nil
  · exact fun _ _ _ hother => absurd hother List.not_mem_nil

/-! ### All instructions -/

/-- **Every operation that succeeds stays within the footprint** of the instructions it belongs
to. -/
theorem of_perform {form : Form} {t : Triple}
    (h : Action.perform form.mnemonic.operation form.mode t.first t.second
      (form.mode.place m.registers t.first t.second) m = ⟨.ok (), m', es⟩) :
    Within (form.footprint t m) m es m' := by
  obtain ⟨mnemonic, mode⟩ := form
  cases mnemonic with
  | nop =>
    obtain ⟨-, rfl, rfl⟩ := Action.pure_eq_ok_iff.1 h
    exact of_registers (fun _ _ => rfl) (fun _ _ => rfl) rfl
  | lda | ldw | ldx | ldy | ldz => exact of_load h
  | sta | stw | stx | sty | stz => exact of_store h
  | jmp => exact of_jump h
  | jfn => exact of_call h
  | ret => exact of_comeBack h
  | bcc | bcs | bne | beq | brp | brn => exact of_branch h
  | clc | sec | clo => exact of_assign h
  | phs => exact of_pushStatus h
  | pos => exact of_popStatus h
  | pha => exact of_pushA h
  | poa => exact of_popA h
  | cmp | cpw | cpx => exact of_compare h
  | and | ora | xor => exact of_combine h
  | rol | ror | bsl | bsr | inc | dec => exact of_alteration rfl h
  | add => exact of_accumulate (Or.inl rfl) h
  | sub => exact of_accumulate (Or.inr rfl) h
  | inw | dew | inx | dex => exact of_countRegister h
  | mov => exact of_move h
  | out => exact of_print h
  | onl =>
    cases h
    exact of_registers (fun _ _ => rfl) (fun _ _ => rfl) rfl

end Machine.Within

/-- **A step that succeeds stays within the footprint of its instruction.** Outside the cells that
the footprint lists memory is as it was, and popped cells are zero; no general register and no flag
changes that it does not list; the stack pointer moves by just what it says, and just the text that
it says is printed. -/
theorem footprint_of_step {m m' : Machine} {es : List Event}
    (h : Action.step m = ⟨.ok (), m', es⟩) :
    ∃ t form, m.Fetches t ∧ Form.ofOpcode? t.opcode = some form ∧
      m.Within (form.footprint t m) es m' := by
  obtain ⟨t, form, m₁, data, ht, hform, hperform, rfl, rfl⟩ := Action.step_eq_ok_iff.1 h
  exact ⟨t, form, ht, hform, (Machine.Within.of_perform hperform).advanced t⟩

/-- A machine of eight cells that is about to return. The upper four cells are its stack, and two
bytes are on it. -/
def Machine.ofEightCells : Machine where
  registers := { a := 5, sp := 5 }
  stack := ⟨4, 4, 5⟩
  programMemory := ⟨0, 4⟩
  state := .running
  memory := { size := 8, stored := #[0x1F, 0, 0, 0, 0, 0, 0x12, 0x34] }

/-- The return leaves two zeros behind and an empty stack, and everything else as it was. -/
theorem footprint_of_step_return :
    ∃ m' es, Action.step .ofEightCells = ⟨.ok (), m', es⟩ ∧
      m'.memory.cell? 6 = some 0 ∧ m'.memory.cell? 7 = some 0 ∧
      (∀ address < 6, m'.memory.cell? address = Machine.ofEightCells.memory.cell? address) ∧
      (∀ register, m'.registers.get register = Machine.ofEightCells.registers.get register) ∧
      (∀ flag, m'.registers.p.get flag = Machine.ofEightCells.registers.p.get flag) ∧
      m'.stack.pointer = 7 ∧ printed es = [] := by
  have hresult : (Action.step .ofEightCells).result = .ok () := by decide
  rcases hstep : Action.step .ofEightCells with ⟨result, m', es⟩
  rw [hstep] at hresult
  obtain rfl : result = .ok () := hresult
  obtain ⟨t, form, ht, hform, hwithin⟩ := footprint_of_step hstep
  have hreturn : Machine.ofEightCells.Fetches ⟨0x1F, 0, 0⟩ := ⟨by decide, by decide, by decide⟩
  obtain rfl := hreturn.unique ht
  obtain rfl : ⟨.ret, .implicit⟩ = form := Option.some.inj hform
  have hcells : Machine.ofEightCells.stack.cellAt 0 = 6 ∧
      Machine.ofEightCells.stack.cellAt 1 = 7 := by decide
  refine ⟨m', es, rfl, ?_, ?_, fun address haddress => hwithin.cells address ?_,
    fun register => hwithin.registers register List.not_mem_nil,
    fun flag => hwithin.flags flag List.not_mem_nil, ?_, ?_⟩
  · have hlow := hwithin.zeroed (Machine.ofEightCells.stack.cellAt 0) List.mem_cons_self
    rwa [hcells.1] at hlow
  · have hhigh := hwithin.zeroed (Machine.ofEightCells.stack.cellAt 1)
      (List.mem_cons_of_mem _ List.mem_cons_self)
    rwa [hcells.2] at hhigh
  · intro cell hcell
    obtain rfl | rfl : cell = 6 ∨ cell = 7 := by
      simpa [Form.footprint, hcells] using hcell
    · exact Nat.ne_of_gt haddress
    · exact Nat.ne_of_gt (Nat.lt_succ_of_lt haddress)
  · rw [hwithin.stack]
    decide
  · exact (Option.some.inj hwithin.output).symm

end EightBit
