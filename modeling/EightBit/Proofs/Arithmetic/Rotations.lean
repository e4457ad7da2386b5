import EightBit.Proofs.Arithmetic.Cells
import EightBit.Proofs.Arithmetic.Numbers

/-!
# Shifts and rotations of any length

A rotation moves the bits of one byte, the carry coming in at one end and going out at the other.
Done to the bytes of a number one after the other, it moves the bits of the whole number: the bit
that leaves a byte is the one that enters the next. So one pass over the cells upwards doubles the
number and one pass downwards halves it (`EightBit.Machine.wide_rotationPass_up`,
`EightBit.Machine.number_rotationPass_down`), and a shift in front in place of a rotation is the
same pass with the carry cleared beforehand (`EightBit.Machine.turnedAll_shiftPass`).

That passes can be undone is part of the same equations. That a pass undoes itself in the end is not
so plain. The number with the carry above it has one bit more than the cells have; a pass doubles it
modulo one less than the power of two that it stays below, and to that modulus the power itself is
one. So as many passes as there are bits change nothing (`EightBit.Machine.wide_replicate`).

The instructions of a pass may stand anywhere, and the same one may be executed again and again
(`EightBit.Machine.Executes`). The main statement is `EightBit.rotations_exact`.
-/

namespace EightBit

/-! ### Executing instructions wherever they stand -/

/-- **Executing some instructions**, each at its address: the program counter is taken there, the
instruction is fetched, and the step succeeds. -/
inductive Machine.Executes : List (Word × Triple) → Machine → Machine → Prop
  /-- No instruction at all. -/
  | nil {m : Machine} : Executes [] m m
  /-- An instruction, and those that follow it. -/
  | cons {address : Word} {t : Triple} {code : List (Word × Triple)} {m m₁ m' : Machine}
    {es : List Event} : (m.goto address).Fetches t →
    Action.step (m.goto address) = ⟨.ok (), m₁, es⟩ → Executes code m₁ m' →
    Executes ((address, t) :: code) m m'

/-- Executing instructions has one outcome at most. -/
theorem Machine.Executes.unique {code : List (Word × Triple)} {m m' m'' : Machine}
    (h : Executes code m m') (h' : Executes code m m'') : m' = m'' := by
  induction h with
  | nil =>
    cases h'
    rfl
  | cons _ hstep _ ih =>
    cases h' with
    | cons _ hstep' hrest =>
      cases hstep.symm.trans hstep'
      exact ih hrest

/-- **Instructions stand in memory** clear of some cells, each at its address. -/
def Machine.Stands (m : Machine) (cells : List Word) (code : List (Word × Triple)) : Prop :=
  ∀ place ∈ code, (m.goto place.1).Fetches place.2 ∧
    ∀ cell ∈ cells, cell ≠ place.1 ∧ cell ≠ place.1 + 1 ∧ cell ≠ place.1 + 2

/-! ### Turning one byte -/

/-- **The four ways to move the bits of a byte** by one place: either way, and with the carry coming
in or a zero. -/
structure Turn where
  direction : Direction
  /-- Whether the carry comes in. -/
  through : Bool
deriving DecidableEq, Repr

/-- The mnemonic of the instruction. -/
def Turn.mnemonic : Turn → Mnemonic
  | ⟨.up, true⟩ => .rol
  | ⟨.down, true⟩ => .ror
  | ⟨.up, false⟩ => .bsl
  | ⟨.down, false⟩ => .bsr

/-- What comes of a byte. -/
def Turn.apply (turn : Turn) (v : Byte) (carry : Bool) : Rotation :=
  v.rotate turn.direction (turn.through && carry)

/-- **In memory all four of them go alike**: the carry takes the bit that has left, and none of them
records whether the byte is zero. -/
theorem Turn.exists_alteration (turn : Turn) :
    ∃ g, turn.mnemonic.operation.alteration? = some g ∧ ∀ cell v carry,
      g (.cell cell) v carry = ((turn.apply v carry).value, fun p => { p with
        carry := (turn.apply v carry).ejected
        negative := (turn.apply v carry).value.isNegative }) := by
  obtain ⟨_ | _, _ | _⟩ := turn <;> exact ⟨_, rfl, fun _ _ _ => rfl⟩

/-- The instruction that turns the byte in a cell. -/
def Turn.on (turn : Turn × Word) : Triple :=
  turn.1.mnemonic.on turn.2

namespace Machine

/-- **The machine with the byte in a cell turned.** -/
def turned (m : Machine) (turn : Turn × Word) : Machine :=
  let rotation := turn.1.apply (m.memory.byte turn.2) m.registers.p.carry
  { m with
    memory := m.memory.put turn.2.toNat rotation.value
    registers := { m.registers with p := { m.registers.p with
      carry := rotation.ejected
      negative := rotation.value.isNegative } } }

/-- The machine with one byte turned after the other. -/
def turnedAll (m : Machine) (program : List (Turn × Word)) : Machine :=
  program.foldl turned m

variable {m : Machine}

/-- **A step on an instruction that turns a byte.** -/
theorem exists_step_turn (turn : Turn × Word) (hsize : addressSpace ≤ m.memory.size)
    (ht : m.Fetches (Turn.on turn)) :
    ∃ es, Action.step m = ⟨.ok (), (m.turned turn).advanced, es⟩ := by
  obtain ⟨turn, cell⟩ := turn
  have hmode : turn.mnemonic.hasMode .absolute = true := by
    obtain ⟨_ | _, _ | _⟩ := turn <;> rfl
  have hoperand : turn.mnemonic.operation.hasOperand = true := by
    obtain ⟨_ | _, _ | _⟩ := turn <;> rfl
  obtain ⟨g, hg, hcell⟩ := turn.exists_alteration
  exact Mnemonic.exists_step_on hmode hoperand ht
    (.alters hg (Place.value?_cell hsize cell) (hcell _ _ _))

theorem size_turned (turn : Turn × Word) : (m.turned turn).memory.size = m.memory.size :=
  Memory.size_put ..

theorem byte_turned_self (turn : Turn × Word) (hsize : addressSpace ≤ m.memory.size) :
    (m.turned turn).memory.byte turn.2 =
      (turn.1.apply (m.memory.byte turn.2) m.registers.p.carry).value :=
  Memory.byte_put_self hsize turn.2 _

theorem byte_turned_of_ne {turn : Turn × Word} {cell : Word} (h : turn.2 ≠ cell) :
    (m.turned turn).memory.byte cell = m.memory.byte cell :=
  Memory.byte_put_of_ne h _

/-- Code that is clear of the cell stays where it stands. -/
theorem Stands.turned {cells : List Word} {code : List (Word × Triple)} {turn : Turn × Word}
    (h : m.Stands cells code) (hturn : turn.2 ∈ cells) : (m.turned turn).Stands cells code := by
  intro place hplace
  obtain ⟨⟨hopcode, hfirst, hsecond⟩, hclear⟩ := h place hplace
  obtain ⟨hne, hne_first, hne_second⟩ := hclear turn.2 hturn
  have hcell : ∀ address : Word, turn.2 ≠ address →
      (m.turned turn).memory.cell? address.toNat = m.memory.cell? address.toNat := by
    intro address h
    exact (Memory.cell?_put ..).trans (if_neg fun heq => h (UInt16.toNat_inj.1 heq.1))
  exact ⟨⟨(hcell _ hne).trans hopcode, (hcell _ hne_first).trans hfirst,
    (hcell _ hne_second).trans hsecond⟩, hclear⟩

/-! ### Turning one byte after the other -/

theorem size_turnedAll (program : List (Turn × Word)) :
    (m.turnedAll program).memory.size = m.memory.size := by
  induction program generalizing m with
  | nil => rfl
  | cons turn program ih => exact ih.trans (size_turned turn)

theorem turnedAll_append (program others : List (Turn × Word)) :
    m.turnedAll (program ++ others) = (m.turnedAll program).turnedAll others :=
  List.foldl_append

/-- It makes no difference where the program counter is. -/
theorem turnedAll_goto (program : List (Turn × Word)) (address : Word) :
    (m.goto address).turnedAll program = (m.turnedAll program).goto address := by
  induction program generalizing m with
  | nil => rfl
  | cons turn program ih => exact ih (m := m.turned turn)

/-- Cells that no instruction is on keep their bytes. -/
theorem byte_turnedAll_of_not_mem {program : List (Turn × Word)} {cell : Word}
    (h : cell ∉ program.map Prod.snd) :
    (m.turnedAll program).memory.byte cell = m.memory.byte cell := by
  induction program generalizing m with
  | nil => rfl
  | cons turn program ih =>
    rw [List.map_cons, List.mem_cons, not_or] at h
    exact (ih h.2).trans (byte_turned_of_ne (Ne.symm h.1))

/-- **The instructions can be executed**, and what they do is to turn one byte after the other. -/
theorem exists_executes {cells : List Word} {program : List (Turn × Word)}
    {code : List (Word × Triple)} (hsize : addressSpace ≤ m.memory.size)
    (hcode : code.map Prod.snd = program.map Turn.on)
    (hcells : ∀ turn ∈ program, turn.2 ∈ cells) (hstands : m.Stands cells code) :
    ∃ pc, Executes code m ((m.turnedAll program).goto pc) := by
  induction program generalizing m code with
  | nil =>
    obtain rfl := List.map_eq_nil_iff.1 hcode
    exact ⟨m.registers.pc, .nil⟩
  | cons turn program ih =>
    obtain ⟨⟨address, t⟩, code, rfl, rfl, hcodes⟩ := List.map_eq_cons_iff.1 hcode
    obtain ⟨hturn, hcells⟩ := List.forall_mem_cons.1 hcells
    obtain ⟨⟨hfetches, -⟩, hrest⟩ := List.forall_mem_cons.1 hstands
    obtain ⟨es, hstep⟩ := exists_step_turn turn (m := m.goto address) hsize hfetches
    have hsize' : addressSpace ≤ (m.turned turn).memory.size := (size_turned turn).symm ▸ hsize
    obtain ⟨pc, hexecutes⟩ := ih (m := (m.turned turn).goto (address + 3)) hsize' hcodes hcells
      (Stands.turned hrest hturn)
    rw [turnedAll_goto] at hexecutes
    exact ⟨pc, .cons hfetches hstep hexecutes⟩

end Machine

/-! ### One pass -/

/-- **A pass of rotations** over some cells. -/
def rotationPass (direction : Direction) (cells : List Word) : List (Turn × Word) :=
  cells.map fun cell => (⟨direction, true⟩, cell)

/-- **A pass that shifts**: the first cell gets a zero in place of the carry. -/
def shiftPass (direction : Direction) : List Word → List (Turn × Word)
  | [] => []
  | cell :: cells => (⟨direction, false⟩, cell) :: rotationPass direction cells

theorem mem_of_mem_rotationPass {direction : Direction} {cells : List Word} {turn : Turn × Word}
    (h : turn ∈ rotationPass direction cells) : turn.2 ∈ cells := by
  obtain ⟨cell, hcell, rfl⟩ := List.mem_map.1 h
  exact hcell

theorem mem_of_mem_shiftPass {direction : Direction} {cells : List Word} {turn : Turn × Word}
    (h : turn ∈ shiftPass direction cells) : turn.2 ∈ cells := by
  cases cells with
  | nil => cases h
  | cons cell cells =>
    rcases List.mem_cons.1 h with rfl | hrest
    · exact List.mem_cons_self
    · exact List.mem_cons_of_mem cell (mem_of_mem_rotationPass hrest)

theorem map_snd_rotationPass (direction : Direction) (cells : List Word) :
    (rotationPass direction cells).map Prod.snd = cells := by
  rw [rotationPass, List.map_map]
  exact List.map_id _

namespace Machine

variable {m : Machine}

/-- The machine with the carry clear. -/
def carryCleared (m : Machine) : Machine :=
  m.recorded fun p => { p with carry := false }

/-- **A shift is a rotation with the carry clear.** -/
theorem turnedAll_shiftPass {cells : List Word} (hne : cells ≠ []) (direction : Direction) :
    m.turnedAll (shiftPass direction cells) =
      m.carryCleared.turnedAll (rotationPass direction cells) := by
  obtain ⟨cell, cells, rfl⟩ := List.exists_cons_of_ne_nil hne
  rfl

theorem turnedAll_rotationPass_cons (direction : Direction) (cell : Word) (cells : List Word) :
    m.turnedAll (rotationPass direction (cell :: cells)) =
      (m.turned (⟨direction, true⟩, cell)).turnedAll (rotationPass direction cells) := rfl

theorem turnedAll_rotationPass_concat (direction : Direction) (cells : List Word) (cell : Word) :
    m.turnedAll (rotationPass direction (cells ++ [cell])) =
      (m.turnedAll (rotationPass direction cells)).turned (⟨direction, true⟩, cell) := by
  rw [rotationPass, List.map_append, turnedAll_append]
  rfl

/-- A pass keeps the bytes of other cells. -/
theorem byte_rotationPass_of_not_mem {direction : Direction} {cells : List Word} {cell : Word}
    (h : cell ∉ cells) :
    (m.turnedAll (rotationPass direction cells)).memory.byte cell = m.memory.byte cell := by
  refine byte_turnedAll_of_not_mem ?_
  rwa [map_snd_rotationPass]

/-- So does a single rotation. -/
theorem bytes_turned_of_not_mem {turn : Turn × Word} {cells : List Word} (h : turn.2 ∉ cells) :
    (m.turned turn).memory.bytes cells = m.memory.bytes cells :=
  List.map_congr_left fun cell hcell =>
    byte_turned_of_ne fun heq : turn.2 = cell => h (heq ▸ hcell)

/-- A rotation upwards doubles a byte. -/
theorem value_turned_up (hsize : addressSpace ≤ m.memory.size) (cell : Word) :
    ((m.turned (⟨.up, true⟩, cell)).memory.byte cell).toNat +
        256 * (m.turned (⟨.up, true⟩, cell)).registers.p.carry.toNat =
      2 * (m.memory.byte cell).toNat + m.registers.p.carry.toNat := by
  rw [byte_turned_self (⟨.up, true⟩, cell) hsize]
  exact Byte.value_rotate_up _ _

/-- A rotation downwards halves it. -/
theorem value_turned_down (hsize : addressSpace ≤ m.memory.size) (cell : Word) :
    2 * ((m.turned (⟨.down, true⟩, cell)).memory.byte cell).toNat +
        (m.turned (⟨.down, true⟩, cell)).registers.p.carry.toNat =
      (m.memory.byte cell).toNat + 256 * m.registers.p.carry.toNat := by
  rw [byte_turned_self (⟨.down, true⟩, cell) hsize]
  exact Byte.value_rotate_down _ _

/-- **The number with the carry above it.** -/
def wide (m : Machine) (cells : List Word) : Nat :=
  number (m.memory.bytes cells) + 256 ^ cells.length * m.registers.p.carry.toNat

theorem number_bytes_lt (m : Machine) (cells : List Word) :
    number (m.memory.bytes cells) < 256 ^ cells.length := by
  have hlt := number_lt (m.memory.bytes cells)
  rwa [Memory.bytes, List.length_map] at hlt

/-- The number is what is below. -/
theorem number_eq_wide_mod (m : Machine) (cells : List Word) :
    number (m.memory.bytes cells) = m.wide cells % 256 ^ cells.length := by
  rw [wide, Nat.add_mul_mod_self_left, Nat.mod_eq_of_lt (number_bytes_lt m cells)]

/-- The carry is what is above. -/
theorem carry_eq_decide (m : Machine) (cells : List Word) :
    m.registers.p.carry = decide (256 ^ cells.length ≤ m.wide cells) := by
  have hlt := number_bytes_lt m cells
  rw [wide]
  cases m.registers.p.carry with
  | false => simpa using hlt
  | true => simp

theorem wide_lt (m : Machine) (cells : List Word) : m.wide cells < 2 * 256 ^ cells.length := by
  have hlt := number_bytes_lt m cells
  have hcarry := Nat.mul_le_mul_left (256 ^ cells.length)
    (Nat.le_of_lt_succ m.registers.p.carry.toNat_lt)
  rw [wide]
  omega

/-- **A pass upwards doubles the number**, the carry coming in below it and going out above it. -/
theorem wide_rotationPass_up {cells : List Word} (hnodup : cells.Nodup)
    (hsize : addressSpace ≤ m.memory.size) :
    (m.turnedAll (rotationPass .up cells)).wide cells =
      2 * number (m.memory.bytes cells) + m.registers.p.carry.toNat := by
  induction cells generalizing m with
  | nil => simp [rotationPass, turnedAll, wide, Memory.bytes, number]
  | cons cell cells ih =>
    obtain ⟨hcell, hnodup⟩ := List.nodup_cons.1 hnodup
    have hfirst := value_turned_up hsize cell
    have hsize' := (size_turned (m := m) (⟨.up, true⟩, cell)).symm ▸ hsize
    have hrest := ih hnodup hsize'
    -- The other bytes are as before, and the first one stays as it is from here on.
    rw [wide, bytes_turned_of_not_mem hcell] at hrest
    rw [turnedAll_rotationPass_cons, wide, Memory.bytes_cons, Memory.bytes_cons, number_cons,
      number_cons, byte_rotationPass_of_not_mem hcell, List.length_cons, Nat.pow_succ,
      Nat.mul_right_comm]
    omega

/-- **A pass downwards halves the number**, the carry coming in above it and going out below it. -/
theorem number_rotationPass_down {cells : List Word} (hnodup : cells.Nodup)
    (hsize : addressSpace ≤ m.memory.size) :
    2 * number ((m.turnedAll (rotationPass .down cells.reverse)).memory.bytes cells) +
        (m.turnedAll (rotationPass .down cells.reverse)).registers.p.carry.toNat =
      m.wide cells := by
  induction cells with
  | nil => simp [rotationPass, turnedAll, wide, Memory.bytes, number]
  | cons cell cells ih =>
    obtain ⟨hcell, hnodup⟩ := List.nodup_cons.1 hnodup
    have hrest := ih hnodup
    rw [wide] at hrest
    have hsize' := (size_turnedAll (m := m) (rotationPass .down cells.reverse)).symm ▸ hsize
    have hlast := value_turned_down hsize' cell
    -- The other bytes are done with, and the first one is still as it was.
    rw [byte_rotationPass_of_not_mem (mt List.mem_reverse.1 hcell)] at hlast
    rw [List.reverse_cons, turnedAll_rotationPass_concat, wide, Memory.bytes_cons,
      Memory.bytes_cons, number_cons, number_cons, bytes_turned_of_not_mem hcell, List.length_cons,
      Nat.pow_succ, Nat.mul_right_comm]
    omega

variable {cells : List Word}

/-- **A pass that shifts upwards** doubles the number whatever the carry was. -/
theorem wide_shiftPass_up (hne : cells ≠ []) (hnodup : cells.Nodup)
    (hsize : addressSpace ≤ m.memory.size) :
    (m.turnedAll (shiftPass .up cells)).wide cells = 2 * number (m.memory.bytes cells) := by
  rw [turnedAll_shiftPass hne, wide_rotationPass_up (m := m.carryCleared) hnodup hsize]
  rfl

/-- **One that shifts downwards** halves it. -/
theorem number_shiftPass_down (hne : cells.reverse ≠ []) (hnodup : cells.Nodup)
    (hsize : addressSpace ≤ m.memory.size) :
    2 * number ((m.turnedAll (shiftPass .down cells.reverse)).memory.bytes cells) +
        (m.turnedAll (shiftPass .down cells.reverse)).registers.p.carry.toNat =
      number (m.memory.bytes cells) := by
  rw [turnedAll_shiftPass hne, number_rotationPass_down (m := m.carryCleared) hnodup hsize]
  rfl

/-- **A pass upwards and one downwards** undo each other. -/
theorem number_rotationPass_up_down (hnodup : cells.Nodup) (hsize : addressSpace ≤ m.memory.size) :
    2 * number ((m.turnedAll (rotationPass .up cells ++
        rotationPass .down cells.reverse)).memory.bytes cells) +
      (m.turnedAll (rotationPass .up cells ++
        rotationPass .down cells.reverse)).registers.p.carry.toNat =
      2 * number (m.memory.bytes cells) + m.registers.p.carry.toNat := by
  have hsize' := (size_turnedAll (m := m) (rotationPass .up cells)).symm ▸ hsize
  rw [turnedAll_append, number_rotationPass_down hnodup hsize', wide_rotationPass_up hnodup hsize]

/-! ### As many passes as there are bits -/

/-- **A pass doubles the number with the carry above it**, to a modulus that is one less than the
power of two it stays below; and it makes zero of nothing but zero. -/
theorem modEq_rotationPass (hnodup : cells.Nodup) (hsize : addressSpace ≤ m.memory.size) :
    (m.turnedAll (rotationPass .up cells)).wide cells ≡ 2 * m.wide cells
        [MOD 2 * 256 ^ cells.length - 1] ∧
      ((m.turnedAll (rotationPass .up cells)).wide cells = 0 ↔ m.wide cells = 0) := by
  have hpos : 0 < 256 ^ cells.length := Nat.pow_pos (by decide)
  rw [wide_rotationPass_up hnodup hsize, wide]
  cases m.registers.p.carry with
  | false =>
    simp only [Bool.toNat_false, Nat.mul_zero, Nat.add_zero]
    exact ⟨Nat.ModEq.refl _, by omega⟩
  | true =>
    -- The bit that goes round counts for one instead of for the power.
    have hround : 2 * (number (m.memory.bytes cells) + 256 ^ cells.length * true.toNat) =
        2 * number (m.memory.bytes cells) + true.toNat + (2 * 256 ^ cells.length - 1) := by
      simp only [Bool.toNat_true]
      omega
    rw [hround]
    refine ⟨Nat.add_modulus_modEq_iff.2 rfl |>.symm, ?_⟩
    simp only [Bool.toNat_true]
    omega

theorem modEq_replicate (hnodup : cells.Nodup) (hsize : addressSpace ≤ m.memory.size)
    (count : Nat) :
    (m.turnedAll (List.replicate count (rotationPass .up cells)).flatten).wide cells ≡
        2 ^ count * m.wide cells [MOD 2 * 256 ^ cells.length - 1] ∧
      ((m.turnedAll (List.replicate count (rotationPass .up cells)).flatten).wide cells = 0 ↔
        m.wide cells = 0) := by
  induction count generalizing m with
  | zero =>
    rw [Nat.pow_zero, Nat.one_mul]
    exact ⟨Nat.ModEq.refl _, Iff.rfl⟩
  | succ count ih =>
    have hsize' : addressSpace ≤ (m.turnedAll (rotationPass .up cells)).memory.size :=
      (size_turnedAll _).symm ▸ hsize
    obtain ⟨hpass, hpass_zero⟩ := modEq_rotationPass hnodup hsize
    obtain ⟨hrest, hrest_zero⟩ := ih hsize'
    rw [List.replicate_succ, List.flatten_cons, turnedAll_append, Nat.pow_succ, Nat.mul_assoc]
    exact ⟨hrest.trans (hpass.mul_left _), hrest_zero.trans hpass_zero⟩

/-- **As many passes as there are bits change nothing.** -/
theorem wide_replicate (hnodup : cells.Nodup) (hsize : addressSpace ≤ m.memory.size) :
    (m.turnedAll (List.replicate (8 * cells.length + 1) (rotationPass .up cells)).flatten).wide
      cells = m.wide cells := by
  obtain ⟨hmodEq, hzero⟩ := modEq_replicate hnodup hsize (8 * cells.length + 1)
  have hpower : 2 ^ (8 * cells.length + 1) = 1 + (2 * 256 ^ cells.length - 1) := by
    have hpos : 0 < 256 ^ cells.length := Nat.pow_pos (by decide)
    rw [Nat.pow_succ, Nat.pow_mul, Nat.mul_comm, Nat.add_sub_cancel' (by omega)]
  have hround : 2 ^ (8 * cells.length + 1) ≡ 1 [MOD 2 * 256 ^ cells.length - 1] := by
    rw [hpower]
    exact Nat.add_modulus_modEq_iff.2 rfl
  have hsame := hmodEq.trans (hround.mul_right _)
  rw [Nat.one_mul] at hsame
  have hlt := wide_lt m cells
  have hlt' := wide_lt (m.turnedAll
    (List.replicate (8 * cells.length + 1) (rotationPass .up cells)).flatten) cells
  exact eq_of_modEq hsame (by omega) (by omega) hzero

end Machine

/-! ### What programs come to -/

/-- **What a program comes to** in some cells and in the carry, wherever its instructions stand:
it can be executed, and that comes to a given number and a given carry. -/
def Machine.ComesTo (m : Machine) (program : List (Turn × Word)) (cells : List Word) (n : Nat)
    (carry : Bool) : Prop :=
  ∀ code, code.map Prod.snd = program.map Turn.on → m.Stands cells code →
    (∃ m', Executes code m m') ∧ ∀ m', Executes code m m' →
      number (m'.memory.bytes cells) = n ∧ m'.registers.p.carry = carry

/-- That is a matter of turning one byte after the other. -/
theorem Machine.comesTo_of_turnedAll {m : Machine} {program : List (Turn × Word)}
    {cells : List Word} {n : Nat} {carry : Bool} (hsize : addressSpace ≤ m.memory.size)
    (hcells : ∀ turn ∈ program, turn.2 ∈ cells)
    (hnumber : number ((m.turnedAll program).memory.bytes cells) = n)
    (hcarry : (m.turnedAll program).registers.p.carry = carry) :
    m.ComesTo program cells n carry := by
  intro code hcode hstands
  obtain ⟨pc, hexecutes⟩ := exists_executes hsize hcode hcells hstands
  refine ⟨⟨_, hexecutes⟩, fun m' hexecutes' => ?_⟩
  obtain rfl := hexecutes.unique hexecutes'
  exact ⟨hnumber, hcarry⟩

/-- **Shifts and rotations of any length are exact.** Take any number of different cells, with a
number in them. A pass that shifts upwards doubles the number and puts its top bit into the carry;
one that shifts downwards halves it and puts its last bit there. A pass of rotations upwards and one
downwards undo each other, and so do as many passes upwards as there are bits, the carry among
them. -/
theorem rotations_exact {m : Machine} {cells : List Word} (hne : cells ≠ []) (hnodup : cells.Nodup)
    (hsize : addressSpace ≤ m.memory.size) :
    let n := number (m.memory.bytes cells)
    let carry := m.registers.p.carry
    let room := 256 ^ cells.length
    m.ComesTo (shiftPass .up cells) cells (2 * n % room) (decide (room ≤ 2 * n)) ∧
      m.ComesTo (shiftPass .down cells.reverse) cells (n / 2) (decide (n % 2 = 1)) ∧
      m.ComesTo (rotationPass .up cells ++ rotationPass .down cells.reverse) cells n carry ∧
      m.ComesTo (List.replicate (8 * cells.length + 1) (rotationPass .up cells)).flatten cells
        n carry := by
  intro n carry room
  have hreverse : cells.reverse ≠ [] := mt List.reverse_eq_nil_iff.1 hne
  have hback := Machine.number_rotationPass_up_down hnodup hsize
  refine ⟨Machine.comesTo_of_turnedAll hsize (fun _ => mem_of_mem_shiftPass) ?_ ?_,
    Machine.comesTo_of_turnedAll hsize
      (fun _ hturn => List.mem_reverse.1 (mem_of_mem_shiftPass hturn)) ?_ ?_,
    Machine.comesTo_of_turnedAll hsize (fun _ hturn => ?_) ?_ ?_,
    Machine.comesTo_of_turnedAll hsize (fun _ hturn => ?_) ?_ ?_⟩
  · rw [Machine.number_eq_wide_mod, Machine.wide_shiftPass_up hne hnodup hsize]
  · rw [Machine.carry_eq_decide _ cells, Machine.wide_shiftPass_up hne hnodup hsize]
  · exact (eq_of_two_mul_add (Machine.number_shiftPass_down hreverse hnodup hsize)).1
  · exact (eq_of_two_mul_add (Machine.number_shiftPass_down hreverse hnodup hsize)).2
  · rcases List.mem_append.1 hturn with hup | hdown
    · exact mem_of_mem_rotationPass hup
    · exact List.mem_reverse.1 (mem_of_mem_rotationPass hdown)
  · exact (eq_of_two_mul_add hback).1.trans (eq_of_two_mul_add rfl).1.symm
  · exact (eq_of_two_mul_add hback).2.trans (eq_of_two_mul_add rfl).2.symm
  · obtain ⟨pass, hpass, hturn⟩ := List.mem_flatten.1 hturn
    rw [List.eq_of_mem_replicate hpass] at hturn
    exact mem_of_mem_rotationPass hturn
  · rw [Machine.number_eq_wide_mod, Machine.wide_replicate hnodup hsize,
      ← Machine.number_eq_wide_mod]
  · rw [Machine.carry_eq_decide _ cells, Machine.wide_replicate hnodup hsize,
      ← Machine.carry_eq_decide]

/-- A machine with the carry set and with a pass of two rotations, over the number in cells 8 and
9. -/
def Machine.rotating : Machine where
  registers := { p := { carry := true } }
  stack := .new 0x8000 256
  programMemory := ⟨0, 0x8000⟩
  state := .running
  memory := { size := addressSpace, stored := #[0x3E, 0, 8, 0x3E, 0, 9, 0, 0, 0x34, 0x92] }

/-- The pass, executed seventeen times, leaves the number and the carry as they were. -/
theorem rotations_exact_rotating :
    ∃ m', Machine.Executes (List.replicate 17 [(0, ⟨0x3E, 0, 8⟩), (3, ⟨0x3E, 0, 9⟩)]).flatten
        .rotating m' ∧ number (m'.memory.bytes [8, 9]) = 0x9234 ∧ m'.registers.p.carry = true := by
  have hstands : Machine.rotating.Stands [8, 9]
      (List.replicate 17 [(0, ⟨0x3E, 0, 8⟩), (3, ⟨0x3E, 0, 9⟩)]).flatten := by
    intro place hplace
    obtain ⟨pass, hpass, hplace⟩ := List.mem_flatten.1 hplace
    rw [List.eq_of_mem_replicate hpass] at hplace
    rcases List.mem_pair.1 hplace with rfl | rfl
    · refine ⟨⟨by decide, by decide, by decide⟩, fun cell hcell => ?_⟩
      rcases List.mem_pair.1 hcell with rfl | rfl <;> decide
    · refine ⟨⟨by decide, by decide, by decide⟩, fun cell hcell => ?_⟩
      rcases List.mem_pair.1 hcell with rfl | rfl <;> decide
  obtain ⟨-, -, -, hpasses⟩ := rotations_exact (m := .rotating) (List.cons_ne_nil 8 [9]) (by decide)
    (Nat.le_refl addressSpace)
  obtain ⟨⟨m', hexecutes⟩, hcomes⟩ := hpasses _ (by decide) hstands
  obtain ⟨hnumber, hcarry⟩ := hcomes m' hexecutes
  exact ⟨m', hexecutes, hnumber, hcarry⟩

end EightBit
