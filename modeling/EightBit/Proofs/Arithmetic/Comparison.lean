import EightBit.Proofs.Arithmetic.Cells

/-!
# Comparisons and branches

A comparison changes nothing but flags, and a branch looks at one flag and goes its way. What the
two do together is to decide between two ways by the order of two bytes, and that is what programs
are written with; the flag in between is of no interest to them. Here it is spoken of once: each of
the six branches asks for an order (`EightBit.Mnemonic.order?`), and the flags that a comparison
leaves behind (`EightBit.Flags.compared`) say whether the register and the operand are in it
(`EightBit.Mnemonic.operation_of_order?`).

The order is that of **unsigned** numbers for all of the six, also for the two that look at the
sign: a comparison does not record the sign of a difference, but which of the two is the smaller
one. The main statement is `EightBit.branch_of_compare`.
-/

namespace EightBit

/-- The register that a comparison is about. -/
def Mnemonic.compared? : Mnemonic → Option Register
  | cmp => some .a
  | cpw => some .w
  | cpx => some .x
  | _ => none

/-- **The order that a branch asks for**, between a register and what it has been compared
with. -/
def Mnemonic.order? : Mnemonic → Option (Byte → Byte → Bool)
  | bcs | brp => some fun r v => decide (v.toNat ≤ r.toNat)
  | bcc | brn => some fun r v => decide (r.toNat < v.toNat)
  | beq => some fun r v => decide (r = v)
  | bne => some fun r v => decide (r ≠ v)
  | _ => none

/-- **The flags after a comparison** of a register with a byte. -/
def Flags.compared (p : Flags) (r v : Byte) : Flags :=
  { p with
    carry := decide (v.toNat ≤ r.toNat)
    zero := decide (v = r)
    negative := decide (r.toNat < v.toNat) }

/-- The machine after a comparison of a register with a byte. -/
def Machine.compared (m : Machine) (register : Register) (v : Byte) : Machine :=
  m.recorded fun p => p.compared (m.registers.get register) v

namespace Mnemonic

/-- A comparison takes its operand in. -/
theorem operation_of_compared? {comparison : Mnemonic} {register : Register}
    (h : comparison.compared? = some register) : comparison.operation = .compare register := by
  cases comparison <;> cases h <;> rfl

/-- **A branch is taken exactly in its order.** It looks at one flag, and after a comparison that
flag says whether the register and the byte are in the order that the branch asks for. -/
theorem operation_of_order? {condition : Mnemonic} {order : Byte → Byte → Bool}
    (h : condition.order? = some order) :
    ∃ flag value, condition.operation = .branch flag value ∧
      ∀ p r v, (Flags.compared p r v).get flag = value ↔ order r v = true := by
  cases condition with
  | bcs | brp | bcc | brn =>
    cases h
    refine ⟨_, _, rfl, fun p r v => ?_⟩
    simp [Flags.get, Flags.compared]
  | beq | bne =>
    cases h
    refine ⟨_, _, rfl, fun p r v => ?_⟩
    simp [Flags.get, Flags.compared, eq_comm (a := r)]
  | _ => cases h

end Mnemonic

namespace Action

variable {m : Machine} {t : Triple} {mnemonic : Mnemonic} {mode : Mode}

/-- **A step on a comparison** records how the register and the operand compare. -/
theorem exists_step_of_compared? {register : Register} {v : Byte} (ht : m.Fetches t)
    (hform : Form.ofOpcode? t.opcode = some ⟨mnemonic, mode⟩)
    (hregister : mnemonic.compared? = some register)
    (hv : (mode.place m.registers t.first t.second).value? m = some v) :
    ∃ es, step m = ⟨.ok (), (m.compared register v).advanced, es⟩ := by
  have hoperation := Mnemonic.operation_of_compared? hregister
  have hintake : (Operation.compare register).intake? =
      some fun v r => { r with p := r.p.compared (r.get register) v } := rfl
  have hoperand : mnemonic.operation.hasOperand = true := hoperation ▸ rfl
  have huses : mnemonic.operation.Uses (mode.place m.registers t.first t.second) m
      (m.compared register v) ((mode.place m.registers t.first t.second).reading v ++ []) := by
    rw [hoperation]
    exact .takes hintake hv
  exact exists_step_of_uses ht hform hoperand huses

/-- **A step on a branch** goes its way or on to the next instruction. -/
theorem exists_step_of_branch {flag : Flag} {value : Bool} (ht : m.Fetches t)
    (hform : Form.ofOpcode? t.opcode = some ⟨mnemonic, mode⟩)
    (hoperation : mnemonic.operation = .branch flag value) :
    ∃ es, step m = ⟨.ok (), m.goto (if m.registers.p.get flag = value then
      m.registers.pc + t.first.extend - 3 + 3 else m.registers.pc + 3), es⟩ := by
  have hperform : ∃ m₁, perform mnemonic.operation mode t.first t.second
      (mode.place m.registers t.first t.second) m = ⟨.ok (), m₁, []⟩ ∧
      m₁.advanced = m.goto (if m.registers.p.get flag = value then
        m.registers.pc + t.first.extend - 3 + 3 else m.registers.pc + 3) := by
    rw [hoperation]
    refine ⟨_, rfl, ?_⟩
    by_cases htaken : m.registers.p.get flag = value
    · simp only [if_pos htaken]
      rfl
    · simp only [if_neg htaken]
      rfl
  obtain ⟨m₁, hperform, hadvanced⟩ := hperform
  rw [← hadvanced]
  exact ⟨_, (step_eq_ok_iff_of_fetches ht).2 ⟨_, m₁, [], hform, hperform, rfl, rfl⟩⟩

end Action

/-- **A comparison and a branch decide by the unsigned order.** Take any comparison, in any mode,
and any branch behind it, in a memory that spans the address space. There is an operand, and the two
steps succeed. The branch is taken exactly if the register and the operand are in the order that the
branch asks for, and then its distance counts from its own address; otherwise the next instruction
follows. Three flags apart, nothing else has changed. -/
theorem branch_of_compare {m : Machine} {t t' : Triple} {comparison condition : Mnemonic}
    {mode mode' : Mode} {register : Register} {order : Byte → Byte → Bool}
    (hsize : addressSpace ≤ m.memory.size) (ht : m.Fetches t)
    (hform : Form.ofOpcode? t.opcode = some ⟨comparison, mode⟩)
    (hregister : comparison.compared? = some register)
    (ht' : (m.goto (m.registers.pc + 3)).Fetches t')
    (hform' : Form.ofOpcode? t'.opcode = some ⟨condition, mode'⟩)
    (horder : condition.order? = some order) :
    ∃ v next es, (mode.place m.registers t.first t.second).value? m = some v ∧
      m.stepTimes 2 = (2, ⟨.ok (), (m.compared register v).goto next, es⟩) ∧
      (next.toNat : Int) =
        if order (m.registers.get register) v = true then
          ((m.registers.pc + 3).toNat + t'.first.signed) % addressSpace
        else ((m.registers.pc + 3).toNat + 3) % addressSpace := by
  obtain ⟨v, hv⟩ := (mode.place m.registers t.first t.second).exists_value? hsize
  obtain ⟨flag, value, hoperation, hflag⟩ := Mnemonic.operation_of_order? horder
  obtain ⟨es, hcompare⟩ := Action.exists_step_of_compared? ht hform hregister hv
  -- The comparison has changed neither memory nor where the branch stands.
  have hthere : (m.compared register v).advanced.Fetches t' := ⟨ht'.opcode, ht'.first, ht'.second⟩
  obtain ⟨es', hbranch⟩ := Action.exists_step_of_branch hthere hform' hoperation
  refine ⟨v, _, _, hv, Machine.stepTimes_eq_ok_iff.2 ⟨_, rfl, rfl,
    .cons hcompare (.cons hbranch .nil)⟩, ?_⟩
  have hiff : (m.compared register v).advanced.registers.p.get flag = value ↔
      order (m.registers.get register) v = true := hflag _ _ _
  by_cases htaken : order (m.registers.get register) v = true
  · rw [if_pos htaken, if_pos (hiff.2 htaken)]
    exact toNat_add_extend (m.registers.pc + 3) t'.first
  · rw [if_neg htaken, if_neg fun h => htaken (hiff.1 h)]
    exact congrArg Nat.cast (UInt16.toNat_add ..)

/-- A machine about to compare 100 in X with 200, and to branch five bytes back if X is lower. -/
def Machine.comparing : Machine where
  registers := { x := 100 }
  stack := .new 0x8000 256
  programMemory := ⟨0, 0x8000⟩
  state := .running
  memory := { size := addressSpace, stored := #[0x34, 200, 0, 0x20, 0xFB, 0] }

/-- It is, though as a signed number 200 is negative, and the branch leads to where the address
space ends. -/
theorem branch_of_compare_comparing :
    ∃ es, Machine.comparing.stepTimes 2 =
      (2, ⟨.ok (), (Machine.comparing.compared .x 200).goto 65534, es⟩) := by
  have ht : Machine.comparing.Fetches ⟨0x34, 200, 0⟩ := ⟨by decide, by decide, by decide⟩
  have ht' : (Machine.comparing.goto 3).Fetches ⟨0x20, 0xFB, 0⟩ :=
    ⟨by decide, by decide, by decide⟩
  have hform : Form.ofOpcode? 0x34 = some ⟨.cpx, .immediate⟩ := rfl
  have hform' : Form.ofOpcode? 0x20 = some ⟨.bcc, .relative⟩ := rfl
  obtain ⟨v, next, es, hv, hsteps, hnext⟩ :=
    branch_of_compare (Nat.le_refl _) ht hform rfl ht' hform' rfl
  obtain rfl : 200 = v := Option.some.inj hv
  obtain rfl : next = 65534 := by
    rw [← UInt16.toNat_inj, ← Int.ofNat_inj]
    exact hnext.trans (by decide)
  exact ⟨es, hsteps⟩

end EightBit
