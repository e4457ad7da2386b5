import EightBit.Proofs.Machine.Faults
import EightBit.Proofs.Machine.Operand

/-!
# All or nothing

An instruction may read a cell, alter the byte and write it back, and set flags by the
result. Each access can fail, and yet no instruction is ever left half done, but for the two
that push and pop two bytes: what fails is stopped before anything is changed, and nobody is
told of it (`EightBit.Outcome.Stopped`). An action of which this is true is **all or nothing**
(`EightBit.Action.AllOrNothing`).

This is not compositional, since something may be done before something else fails. What is
true is that an operation only looks around as long as it can fail. Beside the stack and copies
between registers it fails only for want of a cell, so all there is to know is which cells it
needs (`EightBit.Action.Requires`, `EightBit.Action.requires_perform`).
-/

namespace EightBit

/-- **The cells that an operation gets to**, those of the stack apart. -/
inductive Operation.Reaches (operation : Operation) (mode : Mode) (first second : Byte)
    (place : Place) : Word → Prop
  /-- The cell that the operand is in. -/
  | operand {address : Word} : operation.hasOperand = true → place = .cell address →
    Reaches operation mode first second place address
  /-- The two cells that hold the address to go on at. -/
  | pointer {k : Word} : operation = .jump → mode = .absoluteIndirect → k ∈ ([0, 1] : List Word) →
    Reaches operation mode first second place (Word.ofBytes first second + k)

namespace Action

variable {α β : Type} {cells : Word → Prop} {x : Action α} {f : α → Action β}

/-- **An action is all or nothing** if it is stopped whenever it fails. -/
def AllOrNothing (α : Type) (x : Action α) : Prop :=
  ∀ m fault, (x m).result = .error fault → (x m).Stopped fault m

/-- **An action is sure** if it never fails. -/
def Sure (α : Type) (x : Action α) : Prop :=
  ∀ m, ∃ a, (x m).result = .ok a

/-- **An action only looks around** if it changes nothing and nobody is told of it. -/
def LooksAround (α : Type) (x : Action α) : Prop :=
  ∀ m, (x m).machine = m ∧ Silent (x m).events

/-- **An action requires some cells** if it succeeds unless one of them is missing. Then it is
stopped. -/
def Requires (cells : Word → Prop) (α : Type) (x : Action α) : Prop :=
  ∀ m, (∃ a, (x m).result = .ok a) ∨ ∃ address, cells address ∧ m.memory.size ≤ address.toNat ∧
    (x m).Stopped (.outOfBounds address.toNat m.memory.size) m

/-! ### One action after another -/

/-- Nothing is done after a stop. -/
theorem stopped_bind {m : Machine} {fault : Fault} (h : (x m).Stopped fault m) :
    ((x >>= f) m).Stopped fault m := by
  rcases hxm : x m with ⟨result, m₁, es⟩
  rw [hxm] at h
  obtain ⟨rfl, rfl, hsilent⟩ := h
  rw [bind_error hxm]
  exact ⟨rfl, rfl, hsilent⟩

theorem Sure.requires (hx : Sure α x) : Requires cells α x :=
  fun m => Or.inl (hx m)

theorem Sure.bind (hx : Sure α x) (hf : ∀ a, Sure β (f a)) : Sure β (x >>= f) := by
  intro m
  rcases hxm : x m with ⟨fault | a, m₁, es⟩
  · obtain ⟨a, ha⟩ := hx m
    rw [hxm] at ha
    exact nomatch ha
  · rw [bind_ok hxm]
    exact hf a m₁

/-- **Whatever is sure may come last.** -/
theorem Requires.bind_sure (hx : Requires cells α x) (hf : ∀ a, Sure β (f a)) :
    Requires cells β (x >>= f) := by
  intro m
  rcases hx m with ⟨a, ha⟩ | ⟨address, hcell, hsize, hstop⟩
  · rcases hxm : x m with ⟨fault | b, m₁, es⟩
    · rw [hxm] at ha
      exact nomatch ha
    · rw [bind_ok hxm]
      exact Or.inl (hf b m₁)
  · exact Or.inr ⟨address, hcell, hsize, stopped_bind hstop⟩

/-- **Looking around may come first.** -/
theorem Requires.bind (hx : Requires cells α x) (hlooks : LooksAround α x)
    (hf : ∀ a, Requires cells β (f a)) : Requires cells β (x >>= f) := by
  intro m
  rcases hx m with ⟨a, ha⟩ | ⟨address, hcell, hsize, hstop⟩
  · obtain ⟨hmachine, hsilent⟩ := hlooks m
    rcases hxm : x m with ⟨fault | b, m₁, es⟩
    · rw [hxm] at ha
      exact nomatch ha
    · rw [hxm] at hmachine hsilent
      obtain rfl : m₁ = m := hmachine
      rw [bind_ok hxm]
      -- What comes now is done to the machine as it was.
      rcases hf b m₁ with hok | ⟨address, hcell, hsize, hresult, hsame, hquiet⟩
      · exact Or.inl hok
      · exact Or.inr ⟨address, hcell, hsize, hresult, hsame,
          Silent.append_iff.2 ⟨hsilent, hquiet⟩⟩
  · exact Or.inr ⟨address, hcell, hsize, stopped_bind hstop⟩

theorem Requires.allOrNothing (hx : Requires cells α x) : AllOrNothing α x := by
  intro m fault hfault
  rcases hx m with ⟨a, ha⟩ | ⟨address, -, -, hstop⟩
  · exact nomatch ha.symm.trans hfault
  · obtain rfl := Except.error.inj (hstop.result.symm.trans hfault)
    exact hstop

theorem AllOrNothing.bind_sure (hx : AllOrNothing α x) (hf : ∀ a, Sure β (f a)) :
    AllOrNothing β (x >>= f) := by
  intro m fault hfault
  rcases hxm : x m with ⟨e | a, m₁, es⟩
  · have hstop := hx m e (by rw [hxm])
    rw [bind_error hxm] at hfault
    obtain rfl := Except.error.inj hfault
    exact stopped_bind hstop
  · rw [bind_ok hxm] at hfault
    obtain ⟨b, hb⟩ := hf a m₁
    exact nomatch hb.symm.trans hfault

/-- Looking at the machine leaves no trace. -/
theorem allOrNothing_ask_bind (g : Machine → α) (hf : ∀ a, AllOrNothing β (f a)) :
    AllOrNothing β (ask g >>= f) := by
  intro m
  rw [ask_bind]
  exact hf (g m) m

/-! ### Single accesses -/

theorem sure_pure (a : α) : Sure α (pure a) :=
  fun _ => ⟨a, rfl⟩

theorem sure_ask (g : Machine → α) : Sure α (ask g) :=
  fun m => ⟨g m, rfl⟩

theorem sure_updateRegisters (g : Registers → Registers) : Sure Unit (updateRegisters g) :=
  fun _ => ⟨(), rfl⟩

theorem sure_report (e : Event) : Sure Unit (report e) :=
  fun _ => ⟨(), rfl⟩

theorem requires_read {address : Word} (h : cells address) :
    Requires cells Byte (read address) := by
  intro m
  rcases hcell : m.memory.cell? address.toNat with _ | v
  · rw [read_error hcell]
    exact Or.inr ⟨address, h, Memory.size_le_of_cell?_eq_none hcell, rfl, rfl, by simp⟩
  · rw [read_ok hcell]
    exact Or.inl ⟨v, rfl⟩

theorem requires_write {address : Word} (h : cells address) (v : Byte) :
    Requires cells Unit (write address v) := by
  intro m
  by_cases hcell : address.toNat < m.memory.size
  · rw [write_ok hcell]
    exact Or.inl ⟨(), rfl⟩
  · rw [write_error hcell]
    exact Or.inr ⟨address, h, Nat.le_of_not_lt hcell, rfl, rfl, by simp⟩

theorem looksAround_read (address : Word) : LooksAround Byte (read address) := by
  intro m
  rcases hcell : m.memory.cell? address.toNat with _ | v
  · rw [read_error hcell]
    exact ⟨rfl, by simp⟩
  · rw [read_ok hcell]
    exact ⟨rfl, by simp⟩

theorem allOrNothing_push (v : Byte) : AllOrNothing Unit (push v) := by
  intro m fault hfault
  rcases push_cases v m with ⟨f, -, heq⟩ | ⟨cell, -, -, heq⟩ | ⟨cell, -, -, heq⟩
  · rw [heq] at hfault ⊢
    exact ⟨hfault, rfl, by simp⟩
  · rw [heq] at hfault ⊢
    exact ⟨hfault, rfl, by simp⟩
  · rw [heq] at hfault
    exact nomatch hfault

theorem allOrNothing_pop : AllOrNothing Byte pop := by
  intro m fault hfault
  rcases pop_cases m with ⟨f, -, heq⟩ | ⟨cell, -, -, heq⟩ | ⟨cell, v, -, -, heq⟩
  · rw [heq] at hfault ⊢
    exact ⟨hfault, rfl, by simp⟩
  · rw [heq] at hfault ⊢
    exact ⟨hfault, rfl, by simp⟩
  · rw [heq] at hfault
    exact nomatch hfault

/-! ### Operands -/

section

variable {place : Place} (h : ∀ address, place = .cell address → cells address)

include h

theorem requires_fetch : Requires cells Byte place.fetch := by
  cases place with
  | register r => exact (sure_ask _).requires
  | value v => exact (sure_pure v).requires
  | cell address => exact requires_read (h address rfl)

theorem requires_put (v : Byte) : Requires cells Unit (place.put v) := by
  cases place with
  | register r => exact (sure_updateRegisters _).requires
  | value w => exact (sure_pure ()).requires
  | cell address => exact requires_write (h address rfl) v

omit h in
theorem looksAround_fetch (place : Place) : LooksAround Byte place.fetch := by
  cases place with
  | register r => exact fun _ => ⟨rfl, Silent.nil⟩
  | value v => exact fun _ => ⟨rfl, Silent.nil⟩
  | cell address => exact looksAround_read address

/-- A byte that is altered is read and written where it stands. -/
theorem requires_fetch_bind {g : Byte → Action Unit} (hg : ∀ v, Requires cells Unit (g v)) :
    Requires cells Unit (place.fetch >>= g) :=
  (requires_fetch h).bind (looksAround_fetch place) hg

theorem requires_finishRotation (rotation : Rotation) (recordZero : Bool) :
    Requires cells Unit (finishRotation place rotation recordZero) :=
  (requires_put h _).bind_sure fun _ => sure_updateRegisters _

/-- **An operation with an operand** requires the cell that the operand is in, if it is in
one. -/
theorem requires_perform_of_hasOperand {operation : Operation} {mode : Mode} {first second : Byte}
    (hoperand : operation.hasOperand = true) :
    Requires cells Unit (perform operation mode first second place) := by
  have hfetch := requires_fetch h
  cases operation with
  | load | compare | add | subtract =>
    exact hfetch.bind_sure fun _ => sure_updateRegisters _
  | store source =>
    exact (sure_ask _).requires.bind (fun _ => ⟨rfl, Silent.nil⟩) fun _ => requires_put h _
  | combine gate =>
    exact hfetch.bind_sure fun _ => (sure_ask _).bind fun _ => sure_updateRegisters _
  | rotate direction =>
    exact requires_fetch_bind h fun _ => (sure_ask _).requires.bind (fun _ => ⟨rfl, Silent.nil⟩)
      fun _ => requires_finishRotation h _ _
  | shift direction => exact requires_fetch_bind h fun _ => requires_finishRotation h _ _
  | count direction =>
    exact requires_fetch_bind h fun _ => (requires_put h _).bind_sure fun _ =>
      sure_updateRegisters _
  | print => exact hfetch.bind_sure fun _ => sure_report _
  | _ => exact nomatch hoperand

end

/-! ### All operations -/

variable {operation : Operation} {mode : Mode} {first second : Byte} {place : Place}

theorem requires_jump {target : Word}
    (h : mode = .absoluteIndirect → ∀ k ∈ ([0, 1] : List Word), cells (target + k)) :
    Requires cells Unit (jump mode target) := by
  cases mode with
  | absoluteIndirect =>
    have hhigh := h rfl 0 (by decide)
    rw [UInt16.add_zero] at hhigh
    refine (requires_read hhigh).bind (looksAround_read _) fun _ => ?_
    exact (requires_read (h rfl 1 (by decide))).bind_sure fun _ => sure_updateRegisters _
  | _ => exact (sure_updateRegisters _).requires

/-- **An operation requires the cells that it gets to**, the stack and copies between registers
apart. -/
theorem requires_perform (hstack : operation.usesStack = false) (hmove : operation ≠ .move) :
    Requires (operation.Reaches mode first second place) Unit
      (perform operation mode first second place) := by
  by_cases hoperand : operation.hasOperand = true
  · exact requires_perform_of_hasOperand (fun _ hplace => .operand hoperand hplace) hoperand
  cases operation with
  | jump => exact requires_jump fun hmode _ hk => .pointer rfl hmode hk
  | idle => exact (sure_pure ()).requires
  | assign flag value => exact (sure_updateRegisters _).requires
  | branch flag value => exact (sure_updateRegisters _).requires
  | newLine => exact (sure_report _).requires
  | countRegister direction register =>
    -- A register is never missing.
    exact Sure.requires fun m => ⟨(), rfl⟩
  | move => exact absurd rfl hmove
  | call | comeBack | pushStatus | popStatus | pushA | popA => exact nomatch hstack
  | _ => exact absurd rfl hoperand

/-- **A copy between registers** succeeds if both of them exist, and is stopped at the first index
of none. -/
theorem move_cases (first second : Byte) (m : Machine) :
    ([first, second].find? (fun i => (Register.ofIndex? i).isNone) = none ∧
      (move first second m).result = .ok ()) ∨
    ∃ index, [first, second].find? (fun i => (Register.ofIndex? i).isNone) = some index ∧
      (move first second m).Stopped (.invalidRegister index) m := by
  rw [move]
  rcases hsource : Register.ofIndex? first with _ | source
  · exact Or.inr ⟨first, by simp [hsource], rfl, rfl, Silent.nil⟩
  rcases htarget : Register.ofIndex? second with _ | target
  · exact Or.inr ⟨second, by simp [hsource, htarget], rfl, rfl, Silent.nil⟩
  · exact Or.inl ⟨by simp [hsource, htarget], rfl⟩

/-- **Every operation is all or nothing**, but for calls and returns. -/
theorem allOrNothing_perform (hcall : operation ≠ .call) (hreturn : operation ≠ .comeBack) :
    AllOrNothing Unit (perform operation mode first second place) := by
  by_cases hmove : operation = .move
  · subst hmove
    intro m fault hfault
    rcases move_cases first second m with ⟨-, hok⟩ | ⟨index, -, hstop⟩
    · exact nomatch hok.symm.trans hfault
    · obtain rfl := Except.error.inj (hstop.result.symm.trans hfault)
      exact hstop
  by_cases hstack : operation.usesStack = true
  · cases operation with
    | pushStatus | pushA => exact allOrNothing_ask_bind _ fun _ => allOrNothing_push _
    | popStatus | popA => exact allOrNothing_pop.bind_sure fun _ => sure_updateRegisters _
    | call => exact absurd rfl hcall
    | comeBack => exact absurd rfl hreturn
    | _ => exact nomatch hstack
  · exact (requires_perform (eq_false_of_ne_true hstack) hmove).allOrNothing

end Action

end EightBit
