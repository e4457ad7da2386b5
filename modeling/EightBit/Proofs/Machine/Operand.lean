import EightBit.Machine.Step
import EightBit.Proofs.Arithmetic.Bits
import EightBit.Proofs.Machine.Success

/-!
# What operations do with their operand

Most operations have an operand, a byte that stands in some place, and there are just
three things that they do with it. Some **take** it **in**, and all that comes of it
is in the registers (`EightBit.Operation.intake?`); the stores put a register in its
place; and some **alter** it where it stands (`EightBit.Operation.alteration?`). For
each of the three there is one lemma that says when the operation succeeds and what
it leaves behind; the mode and the operand bytes make no difference to it but through
the place. `EightBit.Operation.Uses` is what the three have in common.

Which operations have an operand, and which do something else with their operand
bytes, is a matter of the instruction table (`EightBit.suits_of_mem_table`).
-/

namespace EightBit

/-! ### Bytes in places -/

namespace Place

/-- The byte that stands in a place, if the place exists. -/
def value? (place : Place) (m : Machine) : Option Byte :=
  match place with
  | register r => some (m.registers.get r)
  | value v => some v
  | cell address => m.memory.cell? address.toNat

/-- The machine with a byte in a place. A value that an instruction holds stays as it
is. -/
def fill (place : Place) (v : Byte) (m : Machine) : Machine :=
  match place with
  | register r => { m with registers := m.registers.set r v }
  | value _ => m
  | cell address => { m with memory := m.memory.put address.toNat v }

/-- What can be watched while a byte is read in a place. -/
def reading : Place → Byte → List Event
  | register _, _ | value _, _ => []
  | cell address, v => [.read address (some v)]

/-- What can be watched while a byte is written to a place. -/
def writing : Place → Byte → List Event
  | register _, _ | value _, _ => []
  | cell address, v => [.write address v true]

variable {m m' : Machine} {es : List Event} {v : Byte}

/-- Reading in a place succeeds exactly if the place exists. -/
theorem fetch_eq_ok_iff {place : Place} :
    place.fetch m = ⟨.ok v, m', es⟩ ↔ place.value? m = some v ∧ m = m' ∧ es = place.reading v := by
  cases place with
  | register r => rw [fetch, Action.ask_eq_ok_iff, value?, Option.some.injEq, reading]
  | value w => rw [fetch, Action.pure_eq_ok_iff, value?, Option.some.injEq, reading]
  | cell address => rw [fetch, Action.read_eq_ok_iff, value?, reading]

/-- Writing in a place succeeds exactly if the place exists. -/
theorem put_eq_ok_iff {place : Place} :
    place.put v m = ⟨.ok (), m', es⟩ ↔
      (place.value? m).isSome = true ∧ place.fill v m = m' ∧ es = place.writing v := by
  cases place with
  | register r =>
    rw [put, Action.updateRegisters_eq_ok_iff, value?, Option.isSome_some, eq_self, true_and, fill,
      writing]
  | value w =>
    rw [put, Action.pure_eq_ok_iff, value?, Option.isSome_some, eq_self, true_and, eq_self,
      true_and, fill, writing]
  | cell address => rw [put, Action.write_eq_ok_iff, value?, Memory.isSome_cell?_iff, fill, writing]

end Place

/-- The machine with something recorded in the flags. -/
def Machine.recorded (m : Machine) (q : Flags → Flags) : Machine :=
  { m with registers := { m.registers with p := q m.registers.p } }

/-! ### Three kinds of operations -/

namespace Operation

/-- **Taking in**: the operations that do no more with their operand than to read it,
and what they make of the registers with it. A register is compared with the operand
as an unsigned number. -/
def intake? : Operation → Option (Byte → Registers → Registers)
  | load target => some fun v r => (r.set target v).withResult v
  | compare register => some fun v r =>
    { r with p := { r.p with
        carry := decide (v.toNat ≤ (r.get register).toNat)
        zero := decide (v = r.get register)
        negative := decide ((r.get register).toNat < v.toNat) } }
  | combine gate => some fun v r => { r with a := gate.apply r.a v }.withResult (gate.apply r.a v)
  | add => some fun v r =>
    let sum := r.a.add v r.p.carry
    { r with
      a := sum.value
      p := { r.p.withResult sum.value with carry := sum.carry, overflow := sum.overflow } }
  | subtract => some fun v r =>
    let sum := r.a.subtract v r.p.carry
    { r with
      a := sum.value
      p := { r.p.withResult sum.value with carry := sum.carry, overflow := sum.overflow } }
  | print => some fun _ r => r
  | _ => none

/-- What can be watched of an operand that is taken in. -/
def printing : Operation → Byte → List Event
  | print, v => [.print (Char.ofNat v.toNat)]
  | _, _ => []

/-- **Altering**: the operations that change their operand where it stands, what they
make of it with the carry as it is, and what they record in the flags. -/
def alteration? : Operation → Option (Place → Byte → (carry : Bool) → Byte × (Flags → Flags))
  | rotate direction => some fun place v carry =>
    let rotation := v.rotate direction carry
    (rotation.value, fun p => { p with
      carry := rotation.ejected
      negative := rotation.value.isNegative
      zero := if place.isRegister then rotation.value.isZero else p.zero })
  | shift direction => some fun _ v _ =>
    let rotation := v.shift direction
    (rotation.value, fun p => { p with
      carry := rotation.ejected
      negative := rotation.value.isNegative })
  | count direction => some fun _ v _ =>
    (Byte.count direction v, fun p => p.withResult (Byte.count direction v))
  | _ => none

/-- Whether an operation has an operand in some place. -/
def hasOperand : Operation → Bool
  | load _ | store _ | compare _ | combine _ | add | subtract | rotate _ | shift _ | count _ |
    print => true
  | _ => false

/-- **What an operation does with the byte in a place**, from one machine to another,
and what can be watched of that. -/
inductive Uses (operation : Operation) (place : Place) (m : Machine) : Machine → List Event → Prop
  /-- The byte is taken in. -/
  | takes {f : Byte → Registers → Registers} {v : Byte} : operation.intake? = some f →
    place.value? m = some v →
    Uses operation place m { m with registers := f v m.registers }
      (place.reading v ++ operation.printing v)
  /-- A register is put in its place. -/
  | stores {source : Register} : operation = .store source → (place.value? m).isSome = true →
    Uses operation place m (place.fill (m.registers.get source) m)
      (place.writing (m.registers.get source))
  /-- The byte is altered. -/
  | alters {g : Place → Byte → Bool → Byte × (Flags → Flags)} {v v' : Byte} {q : Flags → Flags} :
    operation.alteration? = some g → place.value? m = some v →
    g place v m.registers.p.carry = (v', q) →
    Uses operation place m ((place.fill v' m).recorded q) (place.reading v ++ place.writing v')

variable {operation : Operation} {place : Place} {m m' : Machine} {es : List Event}

/-- An operation that takes its operand in uses it in that way only. -/
theorem uses_iff_of_intake {f : Byte → Registers → Registers} (hf : operation.intake? = some f)
    (hg : operation.alteration? = none) (hstore : ∀ source, operation ≠ .store source) :
    operation.Uses place m m' es ↔
      ∃ v, place.value? m = some v ∧ m' = { m with registers := f v m.registers } ∧
        es = place.reading v ++ operation.printing v := by
  constructor
  · intro huses
    cases huses with
    | takes hf' hv =>
      obtain rfl := Option.some.inj (hf.symm.trans hf')
      exact ⟨_, hv, rfl, rfl⟩
    | stores hsource => exact absurd hsource (hstore _)
    | alters hg' => exact nomatch hg.symm.trans hg'
  · rintro ⟨v, hv, rfl, rfl⟩
    exact .takes hf hv

/-- A store uses its operand by putting its register there. -/
theorem uses_store_iff {source : Register} :
    (store source).Uses place m m' es ↔
      (place.value? m).isSome = true ∧ place.fill (m.registers.get source) m = m' ∧
        es = place.writing (m.registers.get source) := by
  constructor
  · intro huses
    cases huses with
    | takes hf => exact nomatch hf
    | stores hsource hv =>
      obtain rfl := Operation.store.inj hsource
      exact ⟨hv, rfl, rfl⟩
    | alters hg => exact nomatch hg
  · rintro ⟨hv, rfl, rfl⟩
    exact .stores rfl hv

/-- An operation that alters its operand uses it in that way only. -/
theorem uses_iff_of_alteration {g : Place → Byte → Bool → Byte × (Flags → Flags)}
    (hg : operation.alteration? = some g) (hf : operation.intake? = none)
    (hstore : ∀ source, operation ≠ .store source) :
    operation.Uses place m m' es ↔
      ∃ v v' q, place.value? m = some v ∧ g place v m.registers.p.carry = (v', q) ∧
        m' = (place.fill v' m).recorded q ∧ es = place.reading v ++ place.writing v' := by
  constructor
  · intro huses
    cases huses with
    | takes hf' => exact nomatch hf.symm.trans hf'
    | stores hsource => exact absurd hsource (hstore _)
    | alters hg' hv heq =>
      obtain rfl := Option.some.inj (hg.symm.trans hg')
      exact ⟨_, _, _, hv, heq, rfl, rfl⟩
  · rintro ⟨v, v', q, hv, heq, rfl, rfl⟩
    exact .alters hg hv heq

end Operation

namespace Action

variable {m m' : Machine} {es : List Event} {mode : Mode} {first second : Byte} {place : Place}
  {operation : Operation}

/-- A byte that is taken in changes the registers, if there is one at all. -/
theorem fetch_bind_updateRegisters_eq_ok_iff {f : Byte → Registers → Registers} :
    (place.fetch >>= fun v => updateRegisters (f v)) m = ⟨.ok (), m', es⟩ ↔
      ∃ v, place.value? m = some v ∧ m' = { m with registers := f v m.registers } ∧
        es = place.reading v := by
  rw [bind_eq_ok_iff]
  constructor
  · rintro ⟨v, m₁, es₁, es₂, hfetch, hupdate, rfl⟩
    obtain ⟨hv, rfl, rfl⟩ := Place.fetch_eq_ok_iff.1 hfetch
    obtain ⟨rfl, rfl⟩ := updateRegisters_eq_ok_iff.1 hupdate
    exact ⟨v, hv, rfl, List.append_nil _⟩
  · rintro ⟨v, hv, rfl, rfl⟩
    exact ⟨v, m, _, [], Place.fetch_eq_ok_iff.2 ⟨hv, rfl, rfl⟩,
      updateRegisters_eq_ok_iff.2 ⟨rfl, rfl⟩, (List.append_nil _).symm⟩

/-- A difference is zero exactly if there is none. -/
theorem isZero_subtract (a b : Byte) : (a.subtract b true).value.isZero = decide (b = a) := by
  have hvalue := a.value_subtract b true
  have hborrow := (!(a.subtract b true).carry).toNat_le
  have hlt := (a.subtract b true).value.toNat_lt
  have ha := a.toNat_lt
  have hb := b.toNat_lt
  rw [Byte.isZero, decide_eq_decide, ← UInt8.toNat_inj]
  simp only [Bool.not_true, Bool.toNat_false] at hvalue
  omega

/-- A difference needs a borrow exactly if the second number is the greater one. -/
theorem carry_subtract (a b : Byte) : (a.subtract b true).carry = decide (b.toNat ≤ a.toNat) := by
  have hvalue := a.value_subtract b true
  have hlt := (a.subtract b true).value.toNat_lt
  have hb := b.toNat_lt
  rw [Bool.eq_iff_iff, decide_eq_true_iff]
  cases hcarry : (a.subtract b true).carry <;>
    simp only [hcarry, Bool.not_true, Bool.not_false, Bool.toNat_false, Bool.toNat_true] at hvalue
  · simp only [Bool.false_eq_true, false_iff]
    omega
  · simp only [true_iff]
    omega

/-- **An operation that takes its operand in** succeeds if there is one. -/
theorem perform_eq_ok_iff_of_intake {f : Byte → Registers → Registers}
    (h : operation.intake? = some f) :
    perform operation mode first second place m = ⟨.ok (), m', es⟩ ↔
      ∃ v, place.value? m = some v ∧ m' = { m with registers := f v m.registers } ∧
        es = place.reading v ++ operation.printing v := by
  cases operation with
  | load target =>
    cases h
    simp only [perform, setRegister, Operation.printing, List.append_nil]
    exact fetch_bind_updateRegisters_eq_ok_iff
  | compare register =>
    cases h
    simp only [perform, compare, isZero_subtract, carry_subtract, Operation.printing,
      List.append_nil, ← decide_not, Nat.not_le]
    exact fetch_bind_updateRegisters_eq_ok_iff
  | combine gate =>
    cases h
    simp only [perform, Operation.printing, List.append_nil]
    -- The accumulator is looked at before it is set, which unification does not see.
    exact fetch_bind_updateRegisters_eq_ok_iff (f := fun v r =>
      { r with a := gate.apply r.a v }.withResult (gate.apply r.a v))
  | add =>
    cases h
    simp only [perform, accumulate, Operation.printing, List.append_nil]
    exact fetch_bind_updateRegisters_eq_ok_iff
  | subtract =>
    cases h
    simp only [perform, accumulate, Operation.printing, List.append_nil]
    exact fetch_bind_updateRegisters_eq_ok_iff
  | print =>
    cases h
    rw [perform, bind_eq_ok_iff]
    constructor
    · rintro ⟨v, m₁, es₁, es₂, hfetch, hreport, rfl⟩
      obtain ⟨hv, rfl, rfl⟩ := Place.fetch_eq_ok_iff.1 hfetch
      cases hreport
      exact ⟨v, hv, rfl, rfl⟩
    · rintro ⟨v, hv, rfl, rfl⟩
      exact ⟨v, m, _, _, Place.fetch_eq_ok_iff.2 ⟨hv, rfl, rfl⟩, rfl, rfl⟩
  | _ => exact nomatch h

/-- **A store** succeeds if its place exists. -/
theorem perform_store_eq_ok_iff {source : Register} :
    perform (.store source) mode first second place m = ⟨.ok (), m', es⟩ ↔
      (place.value? m).isSome = true ∧ place.fill (m.registers.get source) m = m' ∧
        es = place.writing (m.registers.get source) := by
  rw [perform, ask_bind, Place.put_eq_ok_iff]

/-- A byte is read, put back, and recorded in the flags. -/
theorem fetch_bind_put_eq_ok_iff {x : Byte → Action Unit}
    {g : Place → Byte → Bool → Byte × (Flags → Flags)}
    (hx : ∀ v, x v m = (place.put (g place v m.registers.p.carry).1 >>= fun _ =>
      updateFlags (g place v m.registers.p.carry).2) m) :
    (place.fetch >>= x) m = ⟨.ok (), m', es⟩ ↔
      ∃ v v' q, place.value? m = some v ∧ g place v m.registers.p.carry = (v', q) ∧
        m' = (place.fill v' m).recorded q ∧ es = place.reading v ++ place.writing v' := by
  rw [bind_eq_ok_iff]
  constructor
  · rintro ⟨v, m₁, es₁, es₂, hfetch, hput, rfl⟩
    obtain ⟨hv, rfl, rfl⟩ := Place.fetch_eq_ok_iff.1 hfetch
    -- Putting the byte back cannot fail any more: it was read in the same place.
    rw [hx, bind_eq_ok_iff] at hput
    obtain ⟨_, m₂, es₃, es₄, hput, hupdate, rfl⟩ := hput
    obtain ⟨-, rfl, rfl⟩ := Place.put_eq_ok_iff.1 hput
    obtain ⟨rfl, rfl⟩ := updateRegisters_eq_ok_iff.1 hupdate
    exact ⟨v, _, _, hv, rfl, rfl, by rw [List.append_nil]⟩
  · rintro ⟨v, v', q, hv, hg, rfl, rfl⟩
    refine ⟨v, m, _, _, Place.fetch_eq_ok_iff.2 ⟨hv, rfl, rfl⟩, ?_, rfl⟩
    rw [hx, hg, bind_eq_ok_iff]
    exact ⟨(), _, _, [], Place.put_eq_ok_iff.2 ⟨by rw [hv, Option.isSome_some], rfl, rfl⟩,
      updateRegisters_eq_ok_iff.2 ⟨rfl, rfl⟩, (List.append_nil _).symm⟩

/-- **An operation that alters its operand** succeeds if there is one. -/
theorem perform_eq_ok_iff_of_alteration {g : Place → Byte → Bool → Byte × (Flags → Flags)}
    (h : operation.alteration? = some g) :
    perform operation mode first second place m = ⟨.ok (), m', es⟩ ↔
      ∃ v v' q, place.value? m = some v ∧ g place v m.registers.p.carry = (v', q) ∧
        m' = (place.fill v' m).recorded q ∧ es = place.reading v ++ place.writing v' := by
  cases operation with
  | rotate direction =>
    rw [perform, rotate]
    -- Until here `g` is a variable, which is what the lemma needs to find it.
    refine fetch_bind_put_eq_ok_iff fun v => ?_
    cases h
    rw [ask_bind]
    rfl
  | shift direction =>
    rw [perform, shift]
    refine fetch_bind_put_eq_ok_iff fun v => ?_
    cases h
    rfl
  | count direction =>
    rw [perform, count]
    refine fetch_bind_put_eq_ok_iff fun v => ?_
    cases h
    rfl
  | _ => exact nomatch h

/-- **An operation that has an operand uses it**, and in no other way. -/
theorem perform_eq_ok_iff_of_hasOperand (h : operation.hasOperand = true) :
    perform operation mode first second place m = ⟨.ok (), m', es⟩ ↔
      operation.Uses place m m' es := by
  have htakes : ∀ {f}, operation.intake? = some f → operation.alteration? = none →
      (∀ source, operation ≠ .store source) →
      (perform operation mode first second place m = ⟨.ok (), m', es⟩ ↔
        operation.Uses place m m' es) := fun hf hg hstore =>
    (perform_eq_ok_iff_of_intake hf).trans (Operation.uses_iff_of_intake hf hg hstore).symm
  have halters : ∀ {g}, operation.alteration? = some g → operation.intake? = none →
      (∀ source, operation ≠ .store source) →
      (perform operation mode first second place m = ⟨.ok (), m', es⟩ ↔
        operation.Uses place m m' es) := fun hg hf hstore =>
    (perform_eq_ok_iff_of_alteration hg).trans
      (Operation.uses_iff_of_alteration hg hf hstore).symm
  cases operation with
  | load target => exact htakes rfl rfl fun _ => Operation.noConfusion
  | store source => exact perform_store_eq_ok_iff.trans Operation.uses_store_iff.symm
  | compare register => exact htakes rfl rfl fun _ => Operation.noConfusion
  | combine gate => exact htakes rfl rfl fun _ => Operation.noConfusion
  | add => exact htakes rfl rfl fun _ => Operation.noConfusion
  | subtract => exact htakes rfl rfl fun _ => Operation.noConfusion
  | rotate direction => exact halters rfl rfl fun _ => Operation.noConfusion
  | shift direction => exact halters rfl rfl fun _ => Operation.noConfusion
  | count direction => exact halters rfl rfl fun _ => Operation.noConfusion
  | print => exact htakes rfl rfl fun _ => Operation.noConfusion
  | _ => exact nomatch h

end Action

/-! ### Which operation comes in which mode -/

/-- **Whether an operation suits a mode**: whether it has the kind of operand that
the mode is for. -/
def Mode.suits : Mode → Operation → Bool
  | implicit, .jump | implicit, .call | implicit, .branch _ _ | implicit, .move => false
  | implicit, operation => !operation.hasOperand
  | accumulator, .store _ | immediate, .store _ => false
  | immediate, operation => operation.intake?.isSome
  | absolute, .jump | absolute, .call => true
  | accumulator, operation | absolute, operation | indexedW, operation | indexedX, operation =>
    operation.hasOperand
  | absoluteIndirect, operation => operation == .jump
  | relative, .branch _ _ => true
  | relative, _ => false
  | registerCoded, operation => operation == .move

/-- **In every form that the machine knows, the operation suits the mode.** -/
theorem suits_of_mem_table :
    ∀ form ∈ Form.table, form.mode.suits form.mnemonic.operation = true := by
  decide

theorem suits_of_ofOpcode? {opcode : Byte} {form : Form} (h : Form.ofOpcode? opcode = some form) :
    form.mode.suits form.mnemonic.operation = true :=
  suits_of_mem_table form (List.mem_of_getElem? h)

namespace Mode

variable {mode : Mode} {operation : Operation}

/-- An operation that suits the mode without an operand has none. -/
theorem hasOperand_of_suits_implicit (h : implicit.suits operation = true) :
    operation.hasOperand = false := by
  cases operation <;> first | rfl | exact nomatch h

/-- An operation that suits a mode for bytes has an operand. -/
theorem hasOperand_of_suits
    (hmode : mode = .accumulator ∨ mode = .immediate ∨ mode = .indexedW ∨ mode = .indexedX)
    (h : mode.suits operation = true) : operation.hasOperand = true := by
  rcases hmode with rfl | rfl | rfl | rfl <;>
    cases operation <;> first | rfl | exact nomatch h

/-- An operation that suits the mode for addresses has an operand there, or goes on
there. -/
theorem jump_or_call_of_suits_absolute (h : absolute.suits operation = true) :
    operation.hasOperand = true ∨ operation = .jump ∨ operation = .call := by
  cases operation with
  | jump => exact Or.inr (Or.inl rfl)
  | call => exact Or.inr (Or.inr rfl)
  | _ => first | exact Or.inl rfl | exact nomatch h

/-- Only a jump suits the mode for addresses of addresses. -/
theorem eq_jump_of_suits_absoluteIndirect (h : absoluteIndirect.suits operation = true) :
    operation = .jump :=
  beq_iff_eq.1 h

/-- Only copying suits the mode for two registers. -/
theorem eq_move_of_suits_registerCoded (h : registerCoded.suits operation = true) :
    operation = .move :=
  beq_iff_eq.1 h

/-- Only a branch suits the mode for distances. -/
theorem branch_of_suits_relative (h : relative.suits operation = true) :
    ∃ flag value, operation = .branch flag value := by
  cases operation with
  | branch flag value => exact ⟨flag, value, rfl⟩
  | _ => exact nomatch h

end Mode

end EightBit
