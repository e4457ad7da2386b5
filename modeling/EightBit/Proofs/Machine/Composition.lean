import EightBit.Machine.Step
import EightBit.Proofs.Machine.Success

/-!
# What operations are made of

There are two dozen operations, but they are all put together from the same few
actions: looking at the registers or changing them, printing, reading a cell or
writing one, pushing a byte or popping one. So a property of actions that holds of
these, and of one action after another if it does of both, holds of all operations;
such a property is **compositional** (`EightBit.Compositional`). That no operation
makes an exception is proved here, once for all properties
(`EightBit.Compositional.perform`).

Few operations use the stack, and one alone stops with a fault of its own: a copy between
registers that do not exist. A property that pushes, pops or faults do not have may still
hold of all others. It is **plain** (`EightBit.Plain`), and what it holds of is the matter of
`EightBit.Plain.perform` and `EightBit.Plain.perform_of_usesStack_eq_false`.

Transfers of control are a case of their own. Only they look at the program counter
or set it, and many a property does not bear with that. One that does is
compositional *with transfers* (`EightBit.CompositionalWithTransfers`), and then it
holds of every step (`EightBit.CompositionalWithTransfers.step`).
-/

namespace EightBit

/-- **A plain property**: one that holds of all that operations are made of, transfers of
control, the use of the stack and faults apart. -/
structure Plain (P : (α : Type) → Action α → Prop) : Prop where
  pure : ∀ {α : Type} (a : α), P α (pure a)
  bind : ∀ {α β : Type} {x : Action α} {f : α → Action β}, P α x → (∀ a, P β (f a)) → P β (x >>= f)
  /-- The registers are looked at, but for the program counter. -/
  ask : ∀ {α : Type} (g : Registers → α), (∀ r pc, g { r with pc } = g r) →
    P α (Action.ask fun m => g m.registers)
  /-- The registers are changed, but for the program counter and SP. -/
  update : ∀ f : Registers → Registers, (∀ r pc, f { r with pc } = { f r with pc }) →
    (∀ r, (f r).sp = r.sp) → P Unit (Action.updateRegisters f)
  print : ∀ c, P Unit (Action.report (.print c))
  read : ∀ address, P Byte (Action.read address)
  write : ∀ address v, P Unit (Action.write address v)

/-- **A compositional property**: one that holds of all that operations are made of,
transfers of control apart. -/
structure Compositional (P : (α : Type) → Action α → Prop) : Prop extends Plain P where
  fault : ∀ {α : Type} (f : Fault), P α (Action.fault f)
  push : ∀ v, P Unit (Action.push v)
  pop : P Byte Action.pop

/-- **Whether an operation transfers control**, that is, sets the program counter
itself. -/
def Operation.transfers : Operation → Bool
  | jump | call | comeBack | branch _ _ => true
  | _ => false

/-- **Whether an operation uses the stack.** -/
def Operation.usesStack : Operation → Bool
  | call | comeBack | pushStatus | popStatus | pushA | popA => true
  | _ => false

namespace Plain

variable {P : (α : Type) → Action α → Prop} (h : Plain P)

include h

/-! ### Operands -/

theorem fetch (place : Place) : P Byte place.fetch := by
  cases place with
  | register r => exact h.ask (fun rs => rs.get r) fun _ _ => by cases r <;> rfl
  | value v => exact h.pure v
  | cell address => exact h.read address

theorem put (place : Place) (v : Byte) : P Unit (place.put v) := by
  cases place with
  | register r =>
    exact h.update (fun rs => rs.set r v) (fun _ _ => by cases r <;> rfl) fun _ => by
      cases r <;> rfl
  | value w => exact h.pure ()
  | cell address => exact h.write address v

theorem setRegister (r : Register) (v : Byte) : P Unit (Action.setRegister r v) :=
  h.update (fun rs => (rs.set r v).withResult v) (fun _ _ => by cases r <;> rfl) fun _ => by
    cases r <;> rfl

theorem updateFlags (f : Flags → Flags) : P Unit (Action.updateFlags f) :=
  h.update (fun r => { r with p := f r.p }) (fun _ _ => rfl) fun _ => rfl

theorem setResult (v : Byte) : P Unit (Action.setResult v) :=
  h.updateFlags fun p => p.withResult v

theorem compare (register : Register) (v : Byte) : P Unit (Action.compare register v) :=
  h.update _ (fun _ _ => by cases register <;> rfl) fun _ => rfl

theorem accumulate (operation : Byte → Byte → Bool → Sum) (v : Byte) :
    P Unit (Action.accumulate operation v) :=
  h.update _ (fun _ _ => rfl) fun _ => rfl

theorem count (direction : Direction) (place : Place) : P Unit (Action.count direction place) :=
  h.bind (h.fetch place) fun _ => h.bind (h.put place _) fun _ => h.setResult _

theorem finishRotation (place : Place) (rotation : Rotation) (recordZero : Bool) :
    P Unit (Action.finishRotation place rotation recordZero) :=
  h.bind (h.put place rotation.value) fun _ => h.updateFlags _

theorem rotate (direction : Direction) (place : Place) : P Unit (Action.rotate direction place) :=
  h.bind (h.fetch place) fun _ => h.bind (h.ask (fun r => r.p.carry) fun _ _ => rfl) fun _ =>
    h.finishRotation place _ _

theorem shift (direction : Direction) (place : Place) : P Unit (Action.shift direction place) :=
  h.bind (h.fetch place) fun _ => h.finishRotation place _ _

/-- A copy between registers stops with a fault if one of them does not exist. -/
theorem move {first second : Byte} (hf : ∀ index ∈ [first, second],
      Register.ofIndex? index = none → P Unit (Action.fault (.invalidRegister index))) :
    P Unit (Action.move first second) := by
  unfold Action.move
  cases hfirst : Register.ofIndex? first with
  | none => exact hf first List.mem_cons_self hfirst
  | some source =>
    cases hsecond : Register.ofIndex? second with
    | none => exact hf second (List.mem_cons_of_mem _ List.mem_cons_self) hsecond
    | some target =>
      refine h.bind (h.ask (fun rs => rs.get source) fun _ _ => ?_) fun _ => h.setRegister target _
      cases source <;> rfl

/-! ### All operations -/

/-- **A plain property holds of every operation**, whatever its operand, if it holds of the
transfers of control, of the operations that use the stack, and of copies between
registers. -/
theorem perform {operation : Operation} {mode : Mode} {first second : Byte} {place : Place}
    (ht : operation.transfers = true → P Unit (Action.perform operation mode first second place))
    (hs : operation.usesStack = true → P Unit (Action.perform operation mode first second place))
    (hm : operation = .move → P Unit (Action.move first second)) :
    P Unit (Action.perform operation mode first second place) := by
  cases operation with
  | idle => exact h.pure ()
  | load target => exact h.bind (h.fetch place) fun _ => h.setRegister target _
  | store source =>
    refine h.bind (h.ask (fun rs => rs.get source) fun _ _ => ?_) fun _ => h.put place _
    cases source <;> rfl
  -- Nothing is known of the property here but what is assumed.
  | jump | call | comeBack | branch flag value => exact ht rfl
  | pushStatus | popStatus | pushA | popA => exact hs rfl
  | assign flag value => exact h.updateFlags fun p => p.set flag value
  | compare register => exact h.bind (h.fetch place) fun _ => h.compare register _
  | combine gate =>
    exact h.bind (h.fetch place) fun _ => h.bind (h.ask (fun r => r.a) fun _ _ => rfl) fun _ =>
      h.setRegister .a _
  | add => exact h.bind (h.fetch place) fun _ => h.accumulate _ _
  | subtract => exact h.bind (h.fetch place) fun _ => h.accumulate _ _
  | rotate direction => exact h.rotate direction place
  | shift direction => exact h.shift direction place
  | count direction => exact h.count direction place
  | countRegister direction register => exact h.count direction (.register register)
  | move => exact hm rfl
  | print => exact h.bind (h.fetch place) fun _ => h.print _
  | newLine => exact h.print '\n'

/-! ### A program counter that moves -/

section

variable (hupdate : ∀ f : Registers → Registers, (∀ r, (f r).sp = r.sp) →
  P Unit (Action.updateRegisters f))

include hupdate

omit h in
theorem setPC (address : Word) : P Unit (Action.setPC address) :=
  hupdate (fun r => { r with pc := address }) fun _ => rfl

theorem jump (mode : Mode) (target : Word) : P Unit (Action.jump mode target) := by
  cases mode with
  | absoluteIndirect =>
    exact h.bind (h.read target) fun _ => h.bind (h.read (target + 1)) fun _ => setPC hupdate _
  | _ => exact setPC hupdate target

omit h in
theorem branch (flag : Flag) (value : Bool) (distance : Byte) :
    P Unit (Action.branch flag value distance) :=
  hupdate _ fun r => by
    split <;> rfl

/-- **It holds of every operation that does not use the stack** if it bears with changes of the
program counter, and holds of copies between registers. -/
theorem perform_of_usesStack_eq_false {operation : Operation} {mode : Mode} {first second : Byte}
    {place : Place} (huses : operation.usesStack = false)
    (hm : operation = .move → P Unit (Action.move first second)) :
    P Unit (Action.perform operation mode first second place) := by
  refine h.perform (fun htransfers => ?_) (fun hs => absurd hs (by rw [huses]; decide)) hm
  cases operation with
  | jump => exact h.jump hupdate mode _
  | branch flag value => exact branch hupdate flag value first
  | call | comeBack => exact nomatch huses
  | _ => exact nomatch htransfers

end

end Plain

/-- **A compositional property holds of every operation**, whatever its operand, if it
holds of the transfers of control. -/
theorem Compositional.perform {P : (α : Type) → Action α → Prop} (h : Compositional P)
    {operation : Operation} {mode : Mode} {first second : Byte} {place : Place}
    (ht : operation.transfers = true → P Unit (Action.perform operation mode first second place)) :
    P Unit (Action.perform operation mode first second place) := by
  refine h.toPlain.perform ht (fun huses => ?_) fun _ => h.move fun _ _ _ => h.fault _
  cases operation with
  | call | comeBack => exact ht rfl
  | pushStatus => exact h.bind (h.ask (fun r => r.p.toByte) fun _ _ => rfl) fun _ => h.push _
  | popStatus => exact h.bind h.pop fun _ => h.updateFlags _
  | pushA => exact h.bind (h.ask (fun r => r.a) fun _ _ => rfl) fun _ => h.push _
  | popA => exact h.bind h.pop fun _ => h.setRegister .a _
  | _ => exact nomatch huses

/-! ### Transfers of control -/

/-- **A property that is compositional with transfers**: it also holds of what moves
the program counter. -/
structure CompositionalWithTransfers (P : (α : Type) → Action α → Prop) : Prop
    extends Compositional P where
  /-- The registers are looked at, the program counter included. -/
  askAll : ∀ {α : Type} (g : Registers → α), P α (Action.ask fun m => g m.registers)
  /-- The registers are changed, the program counter included. -/
  updateAll : ∀ f : Registers → Registers, (∀ r, (f r).sp = r.sp) →
    P Unit (Action.updateRegisters f)
  /-- The program counter moves on, and this is watched. -/
  advance : P Unit Action.advance

namespace CompositionalWithTransfers

variable {P : (α : Type) → Action α → Prop} (h : CompositionalWithTransfers P)

include h

theorem call (target : Word) : P Unit (Action.call target) :=
  h.bind (h.askAll fun r => r.pc) fun _ => h.bind (h.push _) fun _ => h.bind (h.push _) fun _ =>
    Plain.setPC h.updateAll target

theorem comeBack : P Unit Action.comeBack :=
  h.bind h.pop fun _ => h.bind h.pop fun _ => Plain.setPC h.updateAll _

/-- **It holds of every operation.** -/
theorem performAny (operation : Operation) (mode : Mode) (first second : Byte) (place : Place) :
    P Unit (Action.perform operation mode first second place) := by
  refine h.perform fun htransfers => ?_
  cases operation with
  | jump => exact h.toPlain.jump h.updateAll mode _
  | call => exact h.call _
  | comeBack => exact h.comeBack
  | branch flag value => exact Plain.branch h.updateAll flag value first
  | _ => exact nomatch htransfers

/-- It holds of every form, whether or not it is performed. -/
theorem dispatch (form : Form) (opcode first second : Byte) (address : Word) :
    P Unit (Action.dispatch form opcode first second address) := by
  unfold Action.dispatch
  split
  · exact h.bind (h.askAll fun r => form.mode.place r first second) fun place =>
      h.performAny _ _ _ _ place
  · exact h.fault _

/-- **It holds of every step.** -/
theorem step : P Unit Action.step := by
  unfold Action.step
  refine h.bind (h.askAll fun r => r.pc) fun address => h.bind (h.read address) fun opcode =>
    h.bind (h.read (address + 1)) fun first => h.bind (h.read (address + 2)) fun second => ?_
  cases Form.ofOpcode? opcode with
  | none => exact h.fault _
  | some form =>
    exact h.bind (h.dispatch form opcode first second address) fun _ => h.advance

end CompositionalWithTransfers

end EightBit
