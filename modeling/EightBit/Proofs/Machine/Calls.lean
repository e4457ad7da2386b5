import EightBit.Proofs.Machine.StackDepth

/-!
# Calls and returns

A call pushes the address that it is made from, and a return goes on where the two topmost bytes
say. So a return gets back to the call if nothing has happened to these two bytes in between,
and that is the question: between the two there may be a run of any length, with calls and
returns of its own, and with pushes and pops.

The stack keeps what is on it. An instruction that pushes leaves everything that was on the
stack before it, an instruction that pops leaves everything that is on the stack after it
(`EightBit.Machine.Extends`), and no operation does both. So as long as the stack does not get
less deep than it was right after the call, the two bytes can only be changed by a write that
does not belong to the stack (`EightBit.Machine.Overwrites`,
`EightBit.Machine.Passes.cell?_eq`). If there is none, the return is a return to the instruction
after the call (`EightBit.return_of_call`).
-/

namespace EightBit

/-! ### What stays on the stack -/

/-- **One stack extends another** if it is at least as deep, and whatever is on the other is on
it, too. The address where the stack ends is the same for both. -/
structure Machine.Extends (stop : Nat) (m m' : Machine) : Prop where
  depth : m.stack.depth ≤ m'.stack.depth
  cells : ∀ address, stop ≤ address + m.stack.depth →
    m'.memory.cell? address = m.memory.cell? address

/-- **A step overwrites a cell** if it does not use the stack and writes to the cell. -/
def Machine.Overwrites (m : Machine) (address : Nat) : Prop :=
  (∀ operation, m.operation? = some operation → operation.usesStack = false) ∧
    ¬Unwritten address (Action.step m).events

/-- An operation that uses the stack is none that overwrites. -/
theorem Machine.not_overwrites {m : Machine} {operation : Operation}
    (hoperation : m.operation? = some operation) (huses : operation.usesStack = true)
    (address : Nat) : ¬m.Overwrites address :=
  fun h => absurd huses (Bool.eq_false_iff.1 (h.1 operation hoperation))

namespace Machine.Extends

variable {layout : Layout} {stop : Nat} {m m' m'' : Machine}

theorem refl (stop : Nat) (m : Machine) : m.Extends stop m :=
  ⟨Nat.le_refl _, fun _ _ => rfl⟩

theorem trans (h : m.Extends stop m') (h' : m'.Extends stop m'') : m.Extends stop m'' where
  depth := Nat.le_trans h.depth h'.depth
  cells address haddress := by
    have hdepth := h.depth
    rw [h'.cells address (by omega), h.cells address haddress]

section

variable (h : m.LaidOut layout) (hvalid : layout.stack.Valid)

include h hvalid

/-- **A push leaves what is on the stack.** The byte goes below it. -/
theorem pushed (hroom : m.stack.depth < layout.stack.size) (v : Byte) :
    m.Extends layout.stack.stop (m.pushed (m.stack.freeCell 0) v) where
  depth := by
    rw [h.depth_pushed hvalid]
    exact Nat.le_succ _
  cells address haddress := by
    have hcell := h.toNat_freeCell hvalid (k := 0) hroom
    rw [memory_pushed, Memory.cell?_put, if_neg (by omega)]

/-- **A pop leaves what is still on the stack.** The byte was below it. -/
theorem popped (hpos : 0 < m.stack.depth) :
    (m.popped (m.stack.cellAt 0)).Extends layout.stack.stop m where
  depth := by
    rw [m.depth_popped]
    exact Nat.sub_le _ _
  cells address haddress := by
    have hcell := h.toNat_cellAt hvalid hpos
    rw [m.depth_popped] at haddress
    rw [memory_popped, Memory.cell?_put, if_neg (by omega)]

end

end Machine.Extends

/-! ### Instructions that use the stack -/

namespace Action

variable {α : Type} {layout : Layout}

/-- An action **grows** the stack. -/
def Grows (layout : Layout) (α : Type) (x : Action α) : Prop :=
  Along (fun m _ m' => m.LaidOut layout →
    m'.LaidOut layout ∧ m.Extends layout.stack.stop m') α x

/-- An action **shrinks** the stack. -/
def Shrinks (layout : Layout) (α : Type) (x : Action α) : Prop :=
  Along (fun m _ m' => m.LaidOut layout →
    m'.LaidOut layout ∧ m'.Extends layout.stack.stop m) α x

theorem Grows.bind {β : Type} {x : Action α} {f : α → Action β} (hx : Grows layout α x)
    (hf : ∀ a, Grows layout β (f a)) : Grows layout β (x >>= f) := by
  refine Along.bind hx (fun h h' hm => ?_) hf
  obtain ⟨hm', hextends⟩ := h hm
  obtain ⟨hm'', hextends'⟩ := h' hm'
  exact ⟨hm'', hextends.trans hextends'⟩

theorem Shrinks.bind {β : Type} {x : Action α} {f : α → Action β} (hx : Shrinks layout α x)
    (hf : ∀ a, Shrinks layout β (f a)) : Shrinks layout β (x >>= f) := by
  refine Along.bind hx (fun h h' hm => ?_) hf
  obtain ⟨hm', hextends⟩ := h hm
  obtain ⟨hm'', hextends'⟩ := h' hm'
  exact ⟨hm'', hextends'.trans hextends⟩

theorem grows_ask (g : Machine → α) : Grows layout α (ask g) :=
  fun m hm => ⟨hm, .refl _ m⟩

theorem grows_setPC (address : Word) : Grows layout Unit (setPC address) :=
  fun _ hm => ⟨hm.withRegisters rfl, Nat.le_refl _, fun _ _ => rfl⟩

theorem shrinks_updateRegisters {f : Registers → Registers} (hf : ∀ r, (f r).sp = r.sp) :
    Shrinks layout Unit (updateRegisters f) :=
  fun _ hm => ⟨hm.withRegisters (hf _), Nat.le_refl _, fun _ _ => rfl⟩

section

variable (hvalid : layout.stack.Valid)

include hvalid

theorem grows_push (v : Byte) : Grows layout Unit (push v) := by
  intro m hm
  rcases hm.push_cases hvalid v with ⟨-, heq⟩ | ⟨-, -, heq⟩ | ⟨hroom, -, heq⟩
  · rw [heq]
    exact ⟨hm, .refl _ m⟩
  · rw [heq]
    exact ⟨hm, .refl _ m⟩
  · rw [heq]
    exact ⟨hm.pushed_of_room hvalid hroom v, .pushed hm hvalid hroom v⟩

theorem shrinks_pop : Shrinks layout Byte pop := by
  intro m hm
  rcases hm.pop_cases hvalid with ⟨-, heq⟩ | ⟨-, -, heq⟩ | ⟨v, hpos, -, heq⟩
  · rw [heq]
    exact ⟨hm, .refl _ m⟩
  · rw [heq]
    exact ⟨hm, .refl _ m⟩
  · rw [heq]
    exact ⟨hm.popped_of_pos hvalid hpos, .popped hm hvalid hpos⟩

/-- **An operation that uses the stack** grows it or shrinks it, and does not do both. -/
theorem grows_or_shrinks_perform {operation : Operation} {mode : Mode} {first second : Byte}
    {place : Place} (huses : operation.usesStack = true) :
    Grows layout Unit (perform operation mode first second place) ∨
      Shrinks layout Unit (perform operation mode first second place) := by
  have hpush := grows_push hvalid
  have hpop := shrinks_pop hvalid
  cases operation with
  | call =>
    exact Or.inl ((grows_ask _).bind fun _ => (hpush _).bind fun _ => (hpush _).bind fun _ =>
      grows_setPC _)
  | comeBack =>
    exact Or.inr (hpop.bind fun _ => hpop.bind fun _ => shrinks_updateRegisters fun _ => rfl)
  | pushStatus | pushA => exact Or.inl ((grows_ask _).bind fun _ => hpush _)
  | popStatus | popA => exact Or.inr (hpop.bind fun _ => shrinks_updateRegisters fun _ => rfl)
  | _ => exact nomatch huses

/-! ### Steps -/

/-- **A cell keeps its byte** in a step if it is on the stack before it and after it, and is not
overwritten. -/
theorem cell?_step_of_on_stack {m : Machine} (hm : m.LaidOut layout) {address : Nat}
    (hbefore : layout.stack.stop ≤ address + m.stack.depth)
    (hafter : layout.stack.stop ≤ address + (step m).machine.stack.depth)
    (hkept : ¬m.Overwrites address) :
    (step m).machine.memory.cell? address = m.memory.cell? address := by
  rcases hoperation : m.operation? with _ | operation
  · rw [machine_step_of_operation?_eq_none hoperation]
  by_cases huses : operation.usesStack = true
  · obtain ⟨t, form, ht, hform, rfl⟩ := Machine.operation?_eq_some_iff.1 hoperation
    rw [stack_step_eq ht hform] at hafter
    rw [memory_step_eq ht hform]
    rcases grows_or_shrinks_perform hvalid huses with hgrows | hshrinks
    · exact (hgrows m hm).2.cells address hbefore
    · exact ((hshrinks m hm).2.cells address hafter).symm
  · refine cell?_step_of_unwritten (not_not.1 fun hwritten => hkept ⟨?_, hwritten⟩)
    intro other hother
    obtain rfl := Option.some.inj (hoperation.symm.trans hother)
    exact eq_false_of_ne_true huses

end

/-! ### One call and one return -/

end Action

/-- **The address that a machine returns to** stands in the two topmost bytes on its stack. -/
structure Machine.ReturnsTo (address : Word) (m : Machine) : Prop where
  low : m.memory.cell? (m.stack.cellAt 0).toNat = some address.low
  high : m.memory.cell? (m.stack.cellAt 1).toNat = some address.high

namespace Machine.LaidOut

variable {layout : Layout} {m : Machine} (h : m.LaidOut layout) (hvalid : layout.stack.Valid)

include h hvalid

/-- **What a push comes to** if there is room for it and memory reaches to the end of the stack. -/
theorem exists_push_eq (hroom : m.stack.depth < layout.stack.size)
    (hsize : layout.stack.stop ≤ m.memory.size) (v : Byte) :
    ∃ m' es, Action.push v m = ⟨.ok (), m', es⟩ ∧ m'.LaidOut layout ∧
      m.Extends layout.stack.stop m' ∧ m'.stack = m.stack.down ∧
      m'.stack.depth = m.stack.depth + 1 ∧ m'.memory.size = m.memory.size ∧
      m'.memory.cell? (m'.stack.cellAt 0).toNat = some v := by
  have hcell := h.toNat_freeCell hvalid (k := 0) hroom
  refine ⟨_, _, h.push_eq hvalid hroom hsize v, h.pushed_of_room hvalid hroom v,
    .pushed h hvalid hroom v, rfl, h.depth_pushed hvalid _ v, Memory.size_put .., ?_⟩
  rw [stack_pushed, Stack.cellAt_zero_down, memory_pushed, Memory.cell?_put,
    if_pos ⟨rfl, by omega⟩]

/-- **A call for which there is room** succeeds, and the machine returns to it. -/
theorem exists_call_eq (hroom : m.stack.depth + 2 ≤ layout.stack.size)
    (hsize : layout.stack.stop ≤ m.memory.size) (target : Word) :
    ∃ m' es, Action.call target m = ⟨.ok (), m', es⟩ ∧ m'.registers.pc = target ∧
      m'.LaidOut layout ∧ m'.stack.depth = m.stack.depth + 2 ∧ m'.ReturnsTo m.registers.pc := by
  obtain ⟨m₁, es₁, hpush₁, h₁, -, -, hdepth₁, hsize₁, hhigh⟩ :=
    h.exists_push_eq hvalid (by omega) hsize m.registers.pc.high
  obtain ⟨m₂, es₂, hpush₂, h₂, hkept, hstack₂, hdepth₂, -, hlow⟩ :=
    h₁.exists_push_eq hvalid (by omega) (by omega) m.registers.pc.low
  have hcell := h₁.toNat_cellAt hvalid (k := 0) (by omega)
  refine ⟨{ m₂ with registers := { m₂.registers with pc := target } }, es₁ ++ (es₂ ++ []), ?_, rfl,
    h₂.withRegisters rfl, hdepth₂.trans (by omega), hlow, ?_⟩
  · rw [Action.call, Action.pc, Action.ask_bind, Action.bind_ok hpush₁, Action.bind_ok hpush₂]
    rfl
  · -- The high byte is still there, one further from the top.
    change m₂.memory.cell? (m₂.stack.cellAt 1).toNat = _
    rw [hstack₂, Stack.cellAt_down, hkept.cells _ (by omega)]
    exact hhigh

/-- **What a pop comes to** if there is a byte in memory for it. -/
theorem exists_pop_eq (hpos : 0 < m.stack.depth) {v : Byte}
    (hv : m.memory.cell? (m.stack.cellAt 0).toNat = some v) :
    ∃ m' es, Action.pop m = ⟨.ok v, m', es⟩ ∧ m'.LaidOut layout ∧ m'.stack = m.stack.up ∧
      m'.stack.depth = m.stack.depth - 1 ∧
      m'.memory = m.memory.put (m.stack.cellAt 0).toNat 0 :=
  ⟨_, _, h.pop_eq hvalid hpos hv, h.popped_of_pos hvalid hpos, rfl, m.depth_popped _, rfl⟩

/-- **A return** goes on where the two topmost bytes say, and leaves zeros behind. -/
theorem exists_comeBack_eq (hdeep : 2 ≤ m.stack.depth) {address : Word}
    (hreturns : m.ReturnsTo address) :
    ∃ m' es, Action.comeBack m = ⟨.ok (), m', es⟩ ∧ m'.registers.pc = address ∧
      m'.stack.depth = m.stack.depth - 2 ∧
      ∀ k < 2, m'.memory.cell? (m.stack.cellAt k).toNat = some 0 := by
  have hne : (m.stack.cellAt 0).toNat ≠ (m.stack.cellAt 1).toNat :=
    Stack.cellAt_ne (by decide) (by decide)
  have hlow : (m.stack.cellAt 0).toNat < m.memory.size :=
    Memory.isSome_cell?_iff.1 (by rw [hreturns.low, Option.isSome_some])
  have hhigh : (m.stack.cellAt 1).toNat < m.memory.size :=
    Memory.isSome_cell?_iff.1 (by rw [hreturns.high, Option.isSome_some])
  obtain ⟨m₁, es₁, hpop₁, h₁, hstack₁, hdepth₁, hmemory₁⟩ :=
    h.exists_pop_eq hvalid (by omega) hreturns.low
  have hcell : m₁.memory.cell? (m₁.stack.cellAt 0).toNat = some address.high := by
    rw [hmemory₁, hstack₁, Stack.cellAt_up, Memory.cell?_put, if_neg fun heq => hne heq.1]
    exact hreturns.high
  obtain ⟨m₂, es₂, hpop₂, -, -, hdepth₂, hmemory₂⟩ := h₁.exists_pop_eq hvalid (by omega) hcell
  rw [hstack₁, Stack.cellAt_up] at hmemory₂
  refine ⟨{ m₂ with registers := { m₂.registers with pc := address } }, es₁ ++ (es₂ ++ []), ?_, rfl,
    hdepth₂.trans (by omega), fun k hk => ?_⟩
  · rw [Action.comeBack, Action.bind_ok hpop₁, Action.bind_ok hpop₂, Word.ofBytes_high_low]
    rfl
  · change m₂.memory.cell? _ = _
    rw [hmemory₂, hmemory₁, Memory.cell?_put, Memory.cell?_put, Memory.size_put]
    match k, hk with
    | 0, _ => rw [if_neg fun heq => hne heq.1.symm, if_pos ⟨rfl, hlow⟩]
    | 1, _ => rw [if_pos ⟨rfl, hhigh⟩]

end Machine.LaidOut

/-! ### All that can happen in between -/

namespace Machine.Passes

variable {m m' : Machine} {ms : List Machine}

/-- What holds of all machines that are passed through, and of the last one, holds of the first
one. -/
theorem head {P : Machine → Prop} (h : Passes m ms m') (hms : ∀ v ∈ ms, P v) (hm' : P m') :
    P m := by
  cases h with
  | nil => exact hm'
  | cons => exact hms m List.mem_cons_self

/-- **A cell keeps its byte all the way** if it is always on the stack and never overwritten. -/
theorem cell?_eq {layout : Layout} (hvalid : layout.Valid) (h : Passes m ms m')
    (hm : m.LaidOut layout) {address : Nat}
    (hms : ∀ v ∈ ms, layout.stack.stop ≤ address + v.stack.depth)
    (hm' : layout.stack.stop ≤ address + m'.stack.depth) (hkept : ∀ v ∈ ms, ¬v.Overwrites address) :
    m'.memory.cell? address = m.memory.cell? address := by
  induction h with
  | nil => rfl
  | @cons m m' ms hrest _ ih =>
    obtain ⟨hfirst, hothers⟩ := List.forall_mem_cons.1 hms
    obtain ⟨hkeeps, hkept⟩ := List.forall_mem_cons.1 hkept
    have hnext : layout.stack.stop ≤ address + (Action.step m).machine.stack.depth :=
      hrest.head (P := fun v => layout.stack.stop ≤ address + v.stack.depth) hothers hm'
    rw [ih ((Lasting.laidOut hvalid).step m hm) hothers hm' hkept,
      Action.cell?_step_of_on_stack hvalid.2 hm hfirst hnext hkeeps]

end Machine.Passes

/-! ### Calls return -/

namespace Action

variable {m m' : Machine} {es : List Event}

/-- A call that succeeds is a step that succeeds. -/
theorem step_of_call {t : Triple} (ht : m.Fetches t) (hoperation : m.operation? = some .call)
    (hcall : call (Word.ofBytes t.first t.second) m = ⟨.ok (), m', es⟩) :
    ∃ es', step m = ⟨.ok (), m'.advanced, es'⟩ := by
  obtain ⟨t', form, ht', hform, heq⟩ := Machine.operation?_eq_some_iff.1 hoperation
  obtain rfl := ht.unique ht'
  refine ⟨_, (step_eq_ok_iff_of_fetches ht).2 ⟨form, m', es, hform, ?_, rfl, rfl⟩⟩
  rw [heq]
  exact hcall

/-- A return that succeeds is one, too. -/
theorem step_of_comeBack (hoperation : m.operation? = some .comeBack)
    (hreturn : comeBack m = ⟨.ok (), m', es⟩) : ∃ es', step m = ⟨.ok (), m'.advanced, es'⟩ := by
  obtain ⟨t, form, ht, hform, heq⟩ := Machine.operation?_eq_some_iff.1 hoperation
  refine ⟨_, (step_eq_ok_iff_of_fetches ht).2 ⟨form, m', es, hform, ?_, rfl, rfl⟩⟩
  rw [heq]
  exact hreturn

end Action

/-- **Calls return to the instruction after the call**, through any nesting. On a machine that has
memory for its stack, a call for which there is room goes on three bytes past its target, with
its own address on the stack. Whatever happens then, with calls and returns, pushes and pops of
any number: if the stack does not get less deep on the way and no other write touches the two
bytes of the address, a return at the same depth goes on three bytes past the call, with as much
on the stack as before the call, and zeros where the address stood. -/
theorem return_of_call {layout : Layout} {memorySize : Nat} {m₀ m : Machine} {t : Triple}
    (h : Machine.new layout memorySize = .ok m₀) {commands : List Command}
    (hm : m₀.after commands = m) (hsize : layout.stack.stop ≤ m.memory.size) (ht : m.Fetches t)
    (hcall : m.operation? = some .call) (hroom : m.stack.depth + 2 ≤ layout.stack.size) :
    ∃ m₁ es₁, Action.step m = ⟨.ok (), m₁, es₁⟩ ∧
      m₁.registers.pc = Word.ofBytes t.first t.second + 3 ∧
      m₁.stack.depth = m.stack.depth + 2 ∧ m₁.ReturnsTo m.registers.pc ∧
      ∀ ms m', m₁.Passes ms m' → (∀ v ∈ ms, m.stack.depth + 2 ≤ v.stack.depth) →
        (∀ v ∈ ms, ∀ k < 2, ¬v.Overwrites (m₁.stack.cellAt k).toNat) →
        m'.operation? = some .comeBack → m'.stack.depth = m.stack.depth + 2 →
        ∃ m'' es, Action.step m' = ⟨.ok (), m'', es⟩ ∧ m''.registers.pc = m.registers.pc + 3 ∧
          m''.stack.depth = m.stack.depth ∧
          ∀ k < 2, m''.memory.cell? (m₁.stack.cellAt k).toNat = some 0 := by
  have hvalid := (Machine.new_eq_ok_iff.1 h).1
  have hlaidOut := ((Lasting.laidOut hvalid).along (.of_new h) commands).2
  rw [hm] at hlaidOut
  obtain ⟨m₁, es, hcalled, hpc, h₁, hdepth₁, hreturns⟩ :=
    hlaidOut.exists_call_eq hvalid.2 hroom hsize (Word.ofBytes t.first t.second)
  obtain ⟨es₁, hstep⟩ := Action.step_of_call ht hcall hcalled
  refine ⟨m₁.advanced, es₁, hstep, by rw [Machine.pc_advanced, hpc], hdepth₁,
    ⟨hreturns.low, hreturns.high⟩, fun ms m' hpasses hdeep hkept hreturn hdepth' => ?_⟩
  have hadvanced : m₁.advanced.LaidOut layout := h₁.withRegisters rfl
  have h' : m'.LaidOut layout :=
    (hpasses.invariant (Lasting.laidOut hvalid).step hadvanced).2
  -- As deep as after the call, the same cells are the topmost ones.
  have hcells : ∀ k < 2, (m'.stack.cellAt k).toNat = (m₁.stack.cellAt k).toNat := by
    intro k hk
    have hcell := h₁.toNat_cellAt hvalid.2 (k := k) (by omega)
    have hcell' := h'.toNat_cellAt hvalid.2 (k := k) (by omega)
    omega
  have hbytes : ∀ k < 2, m'.memory.cell? (m'.stack.cellAt k).toNat =
      m₁.memory.cell? (m₁.stack.cellAt k).toNat := by
    intro k hk
    have hcell := h₁.toNat_cellAt hvalid.2 (k := k) (by omega)
    rw [hcells k hk]
    refine hpasses.cell?_eq hvalid hadvanced (fun v hv => ?_) (by omega) fun v hv => hkept v hv k hk
    have hv := hdeep v hv
    omega
  have hreturns' : m'.ReturnsTo m.registers.pc :=
    ⟨(hbytes 0 (by decide)).trans hreturns.low, (hbytes 1 (by decide)).trans hreturns.high⟩
  obtain ⟨m₂, es₂, hreturned, hpc₂, hdepth₂, hzeros⟩ :=
    h'.exists_comeBack_eq hvalid.2 (by omega) hreturns'
  obtain ⟨es', hstep'⟩ := Action.step_of_comeBack hreturn hreturned
  refine ⟨m₂.advanced, es', hstep', by rw [Machine.pc_advanced, hpc₂], hdepth₂.trans (by omega),
    fun k hk => ?_⟩
  change m₂.memory.cell? (m₁.stack.cellAt k).toNat = some 0
  rw [← hcells k hk]
  exact hzeros k hk

/-- A machine with room for two calls. -/
def Layout.twoCalls : Layout where
  programMemory := ⟨0, 18⟩
  stack := ⟨18, 22⟩

/-- A program that calls a part of itself, which calls another part. It is loaded, and started up
to its first instruction. -/
def Command.nestedCalls : List Command :=
  [.changeMemory fun memory => memory.putAll 0 (image [⟨0x1E, 0, 6⟩, ⟨0, 0, 0⟩, ⟨0x1E, 0, 12⟩,
    ⟨0x1F, 0, 0⟩, ⟨0x1F, 0, 0⟩]), .request (.execute .never 0 0)]

/-- The outer call, from address 3, returns to address 6 after the inner one has returned. -/
theorem return_of_call_nested :
    ∃ m₀ m m₁ m₂ m', Machine.new .twoCalls 22 = .ok m₀ ∧ m₀.after Command.nestedCalls = m ∧
      m.registers.pc = 3 ∧ (Action.step m).machine = m₁ ∧ (Action.step m₁).machine = m₂ ∧
      m₂.stack.depth = 4 ∧ (Action.step m₂).machine = m' ∧
      ∃ m'' es, Action.step m' = ⟨.ok (), m'', es⟩ ∧ m''.registers.pc = 6 ∧
        m''.stack.depth = 0 := by
  have hreturns : ∀ m₀ m m₁ m₂ m', Machine.new .twoCalls 22 = .ok m₀ →
      m₀.after Command.nestedCalls = m → 22 ≤ m.memory.size → m.Fetches ⟨0x1E, 0, 6⟩ →
      m.operation? = some .call → m.stack.depth = 0 → (Action.step m).machine = m₁ →
      m₁.operation? = some .call → m₁.stack.depth = 2 → (Action.step m₁).result = .ok () →
      (Action.step m₁).machine = m₂ → m₂.operation? = some .comeBack → m₂.stack.depth = 4 →
      (Action.step m₂).machine = m' → m'.operation? = some .comeBack → m'.stack.depth = 2 →
      ∃ m'' es, Action.step m' = ⟨.ok (), m'', es⟩ ∧
        m''.registers.pc = m.registers.pc + 3 ∧ m''.stack.depth = 0 := by
    intro m₀ m m₁ m₂ m' h hm hsize ht hcall hdepth h₁ hcall₁ hdepth₁ hok h₂ hreturn₂ hdepth₂ h'
      hreturn hdepth'
    obtain ⟨m₁', es₁, hstep, -, -, -, hreturns⟩ :=
      return_of_call h hm hsize ht hcall (by rw [hdepth]; decide)
    obtain rfl : m₁' = m₁ := by rw [← h₁, hstep]
    have hpasses : m₁'.Passes [m₁', m₂] m' := by
      refine .cons ?_ fun fault hfault => nomatch hok.symm.trans hfault
      rw [h₂]
      refine .cons ?_ fun _ _ => rfl
      rw [h']
      exact .nil
    obtain ⟨m'', es, hback, hpc, hend, -⟩ := hreturns _ _ hpasses
      (by simp [hdepth, hdepth₁, hdepth₂])
      (by simp [Machine.not_overwrites hcall₁ rfl, Machine.not_overwrites hreturn₂ rfl])
      hreturn (by rw [hdepth', hdepth])
    exact ⟨m'', es, hback, hpc, hend.trans hdepth⟩
  refine ⟨_, _, _, _, _, rfl, rfl, by decide +kernel, rfl, rfl, by decide +kernel, rfl, ?_⟩
  obtain ⟨m'', es, hback, hpc, hend⟩ := hreturns _ _ _ _ _ rfl rfl (by decide +kernel)
    ⟨by decide +kernel, by decide +kernel, by decide +kernel⟩ (by decide +kernel)
    (by decide +kernel) rfl (by decide +kernel) (by decide +kernel) (by decide +kernel) rfl
    (by decide +kernel) (by decide +kernel) rfl (by decide +kernel) (by decide +kernel)
  exact ⟨m'', es, hback, hpc.trans (by decide +kernel), hend⟩

end EightBit
