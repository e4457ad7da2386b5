import EightBit.Proofs.Machine.Trail

/-!
# What operations leave alone

An operation changes the register file in few places, and which these are does not
depend on how it ends: even a fault finds everything else as it was. To say so once
for all ways through an operation, a part of the registers is looked at through a
function, and an action **keeps** it (`EightBit.Action.Keeps`) if the function comes out
the same afterwards.

The part that is dealt with here is the single flag. Which flags an operation can
change is a matter of a small table (`EightBit.Operation.flags`), and it changes no other
(`EightBit.Action.keeps_flag`).
-/

namespace EightBit

namespace Action

/-- **An action keeps a part of the registers**, whether it ends in a fault or not. -/
def Keeps {γ : Type} (g : Registers → γ) {α : Type} (x : Action α) : Prop :=
  ∀ m, g (x m).machine.registers = g m.registers

namespace Keeps

variable {α β γ : Type} {g : Registers → γ}

theorem pure (a : α) : Keeps g (pure a : Action α) := fun _ => rfl

theorem ask (f : Machine → α) : Keeps g (Action.ask f) := fun _ => rfl

theorem fault (f : Fault) : Keeps g (Action.fault f : Action α) := fun _ => rfl

theorem report (event : Event) : Keeps g (Action.report event) := fun _ => rfl

theorem bind {x : Action α} {f : α → Action β} (hx : Keeps g x) (hf : ∀ a, Keeps g (f a)) :
    Keeps g (x >>= f) :=
  @Along.bind (fun m _ m' => g m'.registers = g m.registers) α β x f hx (fun h h' => h'.trans h) hf

theorem updateRegisters {f : Registers → Registers} (h : ∀ r, g (f r) = g r) :
    Keeps g (Action.updateRegisters f) := fun m => h m.registers

theorem read (address : Word) : Keeps g (Action.read address) := by
  intro m
  cases h : m.memory.cell? address.toNat with
  | none => rw [read_error h]
  | some v => rw [read_ok h]

theorem write (address : Word) (v : Byte) : Keeps g (Action.write address v) := by
  intro m
  by_cases h : address.toNat < m.memory.size
  · rw [write_ok h]
  · rw [write_error h]

/-- A push keeps what does not depend on SP. -/
theorem push (hsp : ∀ r sp, g { r with sp } = g r) (v : Byte) : Keeps g (Action.push v) := by
  intro m
  obtain ⟨f, -, h⟩ | ⟨cell, -, -, h⟩ | ⟨cell, -, -, h⟩ := push_cases v m
  · rw [h]
  · rw [h]
  · rw [h]
    exact hsp m.registers _

/-- A pop keeps what does not depend on SP. -/
theorem pop (hsp : ∀ r sp, g { r with sp } = g r) : Keeps g Action.pop := by
  intro m
  obtain ⟨f, -, h⟩ | ⟨cell, -, -, h⟩ | ⟨cell, v, -, -, h⟩ := pop_cases m
  · rw [h]
  · rw [h]
  · rw [h]
    exact hsp m.registers _

theorem fetch (place : Place) : Keeps g place.fetch := by
  cases place with
  | register r => exact ask _
  | value v => exact pure v
  | cell address => exact read address

/-- Writing to a place keeps what does not depend on the general registers. -/
theorem put (hset : ∀ r register v, g (r.set register v) = g r) (place : Place) (v : Byte) :
    Keeps g (place.put v) := by
  cases place with
  | register register => exact updateRegisters fun r => hset r register v
  | value w => exact pure ()
  | cell address => exact write address v

/-- Moving on keeps what does not depend on the program counter. -/
theorem advance (hpc : ∀ r pc, g { r with pc } = g r) : Keeps g Action.advance := by
  intro m
  rw [advance_eq]
  exact hpc m.registers _

end Keeps

end Action

/-! ### Flags -/

/-- **The flags that an operation can change**, given the place of its operand. -/
def Operation.flags (place : Place) : Operation → List Flag
  | load _ | popA | combine _ | count _ | countRegister _ _ | move => [.zero, .negative]
  | add | subtract => [.carry, .zero, .overflow, .negative]
  | compare _ => [.carry, .zero, .negative]
  | rotate _ => if place.isRegister then [.carry, .zero, .negative] else [.carry, .negative]
  | shift _ => [.carry, .negative]
  | assign flag _ => [flag]
  | popStatus => Flag.all
  | idle | store _ | jump | call | comeBack | branch _ _ | pushStatus | pushA | print | newLine =>
    []

namespace Registers

theorem flag_set (r : Registers) (register : Register) (v : Byte) (flag : Flag) :
    (r.set register v).p.get flag = r.p.get flag := by
  cases register <;> rfl

end Registers

theorem Flag.mem_all (flag : Flag) : flag ∈ Flag.all := by
  cases flag <;> decide

namespace Flags

/-- A result is recorded in two flags only. -/
theorem get_withResult (p : Flags) (result : Byte) {flag : Flag}
    (h : flag ∉ [Flag.zero, Flag.negative]) : (p.withResult result).get flag = p.get flag := by
  cases flag <;> first | rfl | exact absurd (by decide) h

end Flags

namespace Action

variable {flag : Flag}

/-- Keeping a flag. -/
abbrev KeepsFlag (flag : Flag) {α : Type} (x : Action α) : Prop :=
  Keeps (fun r => r.p.get flag) x

theorem keepsFlag_setPC (address : Word) : KeepsFlag flag (setPC address) :=
  .updateRegisters fun _ => rfl

theorem keepsFlag_jump (mode : Mode) (target : Word) : KeepsFlag flag (jump mode target) := by
  cases mode with
  | absoluteIndirect =>
    exact .bind (.read target) fun _ => .bind (.read (target + 1)) fun _ => keepsFlag_setPC _
  | _ => exact keepsFlag_setPC target

theorem keepsFlag_branch (condition : Flag) (value : Bool) (distance : Byte) :
    KeepsFlag flag (branch condition value distance) :=
  .updateRegisters fun r => by
    split <;> rfl

theorem keepsFlag_assign {other : Flag} (h : flag ≠ other) (value : Bool) :
    KeepsFlag flag (updateFlags fun p => p.set other value) :=
  .updateRegisters fun r => r.p.get_set_of_ne value h

theorem keepsFlag_setResult (h : flag ∉ [Flag.zero, Flag.negative]) (v : Byte) :
    KeepsFlag flag (setResult v) :=
  .updateRegisters fun r => r.p.get_withResult v h

theorem keepsFlag_setRegister (h : flag ∉ [Flag.zero, Flag.negative]) (register : Register)
    (v : Byte) : KeepsFlag flag (setRegister register v) :=
  .updateRegisters fun r =>
    ((r.set register v).p.get_withResult v h).trans (r.flag_set register v flag)

theorem keepsFlag_put (place : Place) (v : Byte) : KeepsFlag flag (place.put v) :=
  .put (fun r register v => r.flag_set register v flag) place v

theorem keepsFlag_count (h : flag ∉ [Flag.zero, Flag.negative]) (direction : Direction)
    (place : Place) : KeepsFlag flag (count direction place) :=
  .bind (.fetch place) fun _ => .bind (keepsFlag_put place _) fun _ => keepsFlag_setResult h _

theorem keepsFlag_accumulate (h : flag ∉ [Flag.carry, .zero, .overflow, .negative])
    (operation : Byte → Byte → Bool → Sum) (v : Byte) : KeepsFlag flag (accumulate operation v) :=
  .updateRegisters fun r => by
    cases flag <;> first | rfl | exact absurd (by decide) h

theorem keepsFlag_compare (h : flag ∉ [Flag.carry, .zero, .negative]) (register : Register)
    (v : Byte) : KeepsFlag flag (compare register v) :=
  .updateRegisters fun r => by
    cases flag <;> first | rfl | exact absurd (by decide) h

/-- A rotation or shift records whether its result is zero only on request. -/
theorem keepsFlag_finishRotation {recordZero : Bool}
    (h : flag ∉ if recordZero then [Flag.carry, .zero, .negative] else [.carry, .negative])
    (place : Place) (rotation : Rotation) :
    KeepsFlag flag (finishRotation place rotation recordZero) := by
  refine .bind (keepsFlag_put place _) fun _ => .updateRegisters fun r => ?_
  cases recordZero <;> cases flag <;> first | rfl | exact absurd (by decide) h

/-- **An operation changes no flags but its own**, however it ends. -/
theorem keeps_flag {operation : Operation} {mode : Mode} {first second : Byte} {place : Place}
    (h : flag ∉ operation.flags place) :
    KeepsFlag flag (perform operation mode first second place) := by
  cases operation with
  | idle => exact .pure ()
  | load target => exact .bind (.fetch place) fun _ => keepsFlag_setRegister h target _
  | store source => exact .bind (.ask _) fun _ => keepsFlag_put place _
  | jump => exact keepsFlag_jump mode _
  | call =>
    exact .bind (.ask _) fun _ => .bind (.push (fun _ _ => rfl) _) fun _ =>
      .bind (.push (fun _ _ => rfl) _) fun _ => keepsFlag_setPC _
  | comeBack =>
    exact .bind (.pop fun _ _ => rfl) fun _ => .bind (.pop fun _ _ => rfl) fun _ =>
      keepsFlag_setPC _
  | branch condition value => exact keepsFlag_branch condition value first
  | assign other value => exact keepsFlag_assign (fun heq => h (List.mem_singleton.2 heq)) value
  | pushStatus => exact .bind (.ask _) fun _ => .push (fun _ _ => rfl) _
  | popStatus => exact absurd (Flag.mem_all flag) h
  | pushA => exact .bind (.ask _) fun _ => .push (fun _ _ => rfl) _
  | popA => exact .bind (.pop fun _ _ => rfl) fun _ => keepsFlag_setRegister h .a _
  | compare register => exact .bind (.fetch place) fun _ => keepsFlag_compare h register _
  | combine gate =>
    exact .bind (.fetch place) fun _ => .bind (.ask _) fun _ => keepsFlag_setRegister h .a _
  | add => exact .bind (.fetch place) fun _ => keepsFlag_accumulate h _ _
  | subtract => exact .bind (.fetch place) fun _ => keepsFlag_accumulate h _ _
  | rotate direction =>
    exact .bind (.fetch place) fun _ => .bind (.ask _) fun _ => keepsFlag_finishRotation h place _
  | shift direction => exact .bind (.fetch place) fun _ => keepsFlag_finishRotation h place _
  | count direction => exact keepsFlag_count h direction place
  | countRegister direction register => exact keepsFlag_count h direction _
  | move =>
    simp only [perform, move]
    split
    · split
      · exact .bind (.ask _) fun _ => keepsFlag_setRegister h _ _
      · exact .fault _
    · exact .fault _
  | print => exact .bind (.fetch place) fun _ => .report _
  | newLine => exact .report _

end Action

end EightBit
