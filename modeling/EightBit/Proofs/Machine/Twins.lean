import EightBit.Proofs.Machine.Trail
import EightBit.Proofs.Machine.Visits

/-!
# Twins

Two machines are twins (`EightBit.Machine.Twin`) if they are the same in all but what
stands in some cells of memory, the gaps. As long as one of them does not get to a gap,
they go on alike: the same results, the same events, and twins again. An action of which
this is true is blind to the gaps (`EightBit.Action.Blind`).

Being blind is compositional (`EightBit.Action.blind_compositional`), so all operations
are, whatever their operands. A start only looks at the header, and is the same for twins
if there is no gap in it (`EightBit.Action.start_twin`).
-/

namespace EightBit

/-! ### Events and gaps -/

namespace Event

/-- The address of a cell that is read or written. -/
def address? : Event → Option Word
  | read address _ | write address _ _ => some address
  | print _ | advance _ | stackMove _ => none

/-- An event without the byte that is read. -/
def shape : Event → Event
  | read address value => read address (value.map fun _ => 0)
  | event => event

theorem character?_shape (e : Event) : e.shape.character? = e.character? := by
  cases e <;> rfl

theorem pc?_shape (e : Event) : e.shape.pc? = e.pc? := by
  cases e <;> rfl

theorem pointer?_shape (e : Event) : e.shape.pointer? = e.pointer? := by
  cases e <;> rfl

end Event

/-- Whatever can be told from the shape of an event is the same for events of the same
shape. -/
theorem filterMap_eq_of_shape {α : Type} {f : Event → Option α} (hf : ∀ e : Event, f e.shape = f e)
    {es es' : List Event} (h : es'.map Event.shape = es.map Event.shape) :
    es'.filterMap f = es.filterMap f := by
  have hmap : ∀ es : List Event, es.filterMap f = (es.map Event.shape).filterMap f := fun es => by
    rw [List.filterMap_map]
    exact (List.filterMap_congr fun e _ => hf e).symm
  rw [hmap es', h, ← hmap]

/-- **Some events spare the gaps** if none of them is an access to one. -/
def Spares (gaps : Nat → Prop) (es : List Event) : Prop :=
  ∀ e ∈ es, ∀ address, e.address? = some address → ¬gaps address.toNat

variable {gaps others : Nat → Prop}

theorem spares_append {es es' : List Event} :
    Spares gaps (es ++ es') ↔ Spares gaps es ∧ Spares gaps es' :=
  List.forall_mem_append

theorem Spares.mono {es : List Event} (h : Spares gaps es)
    (hgaps : ∀ address, others address → gaps address) : Spares others es :=
  fun e he address haddress hother => h e he address haddress (hgaps _ hother)

/-- Nothing is written to a gap that is spared. -/
theorem Spares.unwritten {es : List Event} (h : Spares gaps es) {address : Nat}
    (hgap : gaps address) : Unwritten address es := by
  intro e he hwrites
  cases e with
  | write a v done =>
    obtain ⟨rfl, -⟩ := hwrites
    exact h _ he a rfl hgap
  | read | print | advance | stackMove => exact hwrites

/-- **A step changes no cell that its operation spares.** -/
theorem Action.cell?_step_of_spares {m : Machine} (h : Spares gaps m.dataEvents) {address : Nat}
    (hgap : gaps address) : (step m).machine.memory.cell? address = m.memory.cell? address := by
  cases hoperation : m.operation? with
  | none => rw [machine_step_of_operation?_eq_none hoperation]
  | some operation =>
    obtain ⟨t, form, ht, hform, rfl⟩ := Machine.operation?_eq_some_iff.1 hoperation
    rw [Machine.dataEvents_eq ht hform] at h
    rw [memory_step_eq ht hform]
    exact (Trail.unwritten address).compositional.performAny form.mnemonic.operation form.mode
      t.first t.second (form.mode.place m.registers t.first t.second) m (h.unwritten hgap)

/-! ### Twins -/

/-- **Twins**: two machines that are the same but for the gaps in their memories. -/
structure Machine.Twin (gaps : Nat → Prop) (m m' : Machine) : Prop where
  registers : m'.registers = m.registers
  stack : m'.stack = m.stack
  programMemory : m'.programMemory = m.programMemory
  state : m'.state = m.state
  size : m'.memory.size = m.memory.size
  cells : ∀ address, ¬gaps address → m'.memory.cell? address = m.memory.cell? address

/-- The same outcome, but for the gaps. -/
structure Outcome.Twin {α : Type} (gaps : Nat → Prop) (o o' : Outcome α) : Prop where
  result : o'.result = o.result
  events : o'.events = o.events
  machine : o.machine.Twin gaps o'.machine

namespace Machine.Twin

variable {m m' : Machine} (h : m.Twin gaps m')

include h

/-- Twins have the same cells, whatever stands in them. -/
theorem cell?_eq_none_iff (address : Nat) :
    m'.memory.cell? address = none ↔ m.memory.cell? address = none := by
  rw [← Option.not_isSome_iff_eq_none, ← Option.not_isSome_iff_eq_none,
    Memory.isSome_cell?_iff, Memory.isSome_cell?_iff, h.size]

/-- The gaps can be taken to be more than they are. -/
theorem mono (hgaps : ∀ address, gaps address → others address) : m.Twin others m' where
  __ := h
  cells address hother := h.cells address fun hgap => hother (hgaps address hgap)

theorem withRegisters (f : Registers → Registers) :
    Twin gaps { m with registers := f m.registers } { m' with registers := f m'.registers } where
  __ := h
  registers := congrArg f h.registers

theorem inState (state : RunState) : (m.inState state).Twin gaps (m'.inState state) where
  __ := h
  state := rfl

/-- A byte is put in the same cell of both. -/
theorem put (address : Nat) (v : Byte) :
    Twin gaps { m with memory := m.memory.put address v }
      { m' with memory := m'.memory.put address v } where
  registers := h.registers
  stack := h.stack
  programMemory := h.programMemory
  state := h.state
  size := by
    rw [Memory.size_put, Memory.size_put]
    exact h.size
  cells a ha := by
    rw [Memory.cell?_put, Memory.cell?_put, h.size, h.cells a ha]

theorem moveStack (f : Stack → Stack) :
    Twin gaps (showStack { m with stack := f m.stack })
      (showStack { m' with stack := f m'.stack }) where
  registers := by
    rw [showStack, showStack, h.registers, h.stack]
  stack := congrArg f h.stack
  programMemory := h.programMemory
  state := h.state
  size := h.size
  cells := h.cells

end Machine.Twin

/-! ### Actions that do not see the gaps -/

namespace Outcome.Twin

open EightBit.Action

variable {α β : Type} {m m' : Machine}

/-- **One action after another** has the same outcome for twins if both have. -/
theorem bind {x : Action α} {f : α → Action β} (hx : (x m).Twin gaps (x m'))
    (hf : ∀ a m₁ es, x m = ⟨.ok a, m₁, es⟩ → ∀ m₁' : Machine, m₁.Twin gaps m₁' →
      (f a m₁).Twin gaps (f a m₁')) : ((x >>= f) m).Twin gaps ((x >>= f) m') := by
  obtain ⟨hresult, hevents, hmachine⟩ := hx
  rcases hxm : x m with ⟨result, m₁, es⟩
  rcases hxm' : x m' with ⟨result', m₁', es'⟩
  rw [hxm, hxm'] at hresult hevents hmachine
  obtain rfl : result' = result := hresult
  obtain rfl : es' = es := hevents
  cases result' with
  | error fault =>
    rw [bind_error hxm, bind_error hxm']
    exact ⟨rfl, rfl, hmachine⟩
  | ok a =>
    rw [bind_ok hxm, bind_ok hxm']
    obtain ⟨hresult, hevents, hmachine⟩ := hf a m₁ _ hxm m₁' hmachine
    exact ⟨hresult, congrArg (es' ++ ·) hevents, hmachine⟩

theorem fault (h : m.Twin gaps m') (f : Fault) :
    ((Action.fault f : Action α) m).Twin gaps (Action.fault f m') :=
  ⟨rfl, rfl, h⟩

theorem ofExcept (h : m.Twin gaps m') (x : Except Fault α) :
    (Action.ofExcept x m).Twin gaps (Action.ofExcept x m') := by
  cases x with
  | ok a => exact ⟨rfl, rfl, h⟩
  | error f => exact ⟨rfl, rfl, h⟩

/-- What does not depend on memory can be looked at. -/
theorem ask (h : m.Twin gaps m') {f : Machine → α} (hf : f m' = f m) :
    (Action.ask f m).Twin gaps (Action.ask f m') :=
  ⟨congrArg Except.ok hf, rfl, h⟩

theorem update (h : m.Twin gaps m') (f : Registers → Registers) :
    (updateRegisters f m).Twin gaps (updateRegisters f m') :=
  ⟨rfl, rfl, h.withRegisters f⟩

/-- A cell that is no gap can be read. -/
theorem read (h : m.Twin gaps m') {address : Word} (hcell : ¬gaps address.toNat) :
    (Action.read address m).Twin gaps (Action.read address m') := by
  have hsame := h.cells _ hcell
  cases hm : m.memory.cell? address.toNat with
  | none =>
    rw [read_error hm, read_error (hsame.trans hm), h.size]
    exact ⟨rfl, rfl, h⟩
  | some v =>
    rw [read_ok hm, read_ok (hsame.trans hm)]
    exact ⟨rfl, rfl, h⟩

/-- Any cell can be written. -/
theorem write (h : m.Twin gaps m') (address : Word) (v : Byte) :
    (Action.write address v m).Twin gaps (Action.write address v m') := by
  by_cases hm : address.toNat < m.memory.size
  · have hm' : address.toNat < m'.memory.size := h.size.symm ▸ hm
    rw [write_ok hm, write_ok hm']
    exact ⟨rfl, rfl, h.put address.toNat v⟩
  · have hm' : ¬address.toNat < m'.memory.size := h.size.symm ▸ hm
    rw [write_error hm, write_error hm', h.size]
    exact ⟨rfl, rfl, h⟩

theorem moveStack (h : m.Twin gaps m') (f : Stack → Stack) :
    (Action.moveStack f m).Twin gaps (Action.moveStack f m') := by
  refine ⟨rfl, ?_, h.moveStack f⟩
  change [Event.stackMove (f m'.stack).pointer] = [Event.stackMove (f m.stack).pointer]
  rw [h.stack]

theorem push (h : m.Twin gaps m') (v : Byte) :
    (Action.push v m).Twin gaps (Action.push v m') :=
  bind (ask h (congrArg Stack.free h.stack)) fun _ _ _ _ _ h₁ =>
    bind (ofExcept h₁ _) fun cell _ _ _ _ h₂ =>
      bind (write h₂ cell v) fun _ _ _ _ _ h₃ => moveStack h₃ _

end Outcome.Twin

namespace Action

variable {α β : Type}

/-- **An action is blind** to gaps if it has the same outcome for twins as long as it spares
the gaps. -/
def Blind (gaps : Nat → Prop) (α : Type) (x : Action α) : Prop :=
  ∀ m m' : Machine, m.Twin gaps m' → Spares gaps (x m).events → (x m).Twin gaps (x m')

theorem Blind.bind {x : Action α} {f : α → Action β} (hx : Blind gaps α x)
    (hf : ∀ a, Blind gaps β (f a)) : Blind gaps β (x >>= f) := by
  intro m m' h hspares
  -- If the first action fails there is nothing else to be spared.
  have hfirst : Spares gaps (x m).events ∧
      ∀ a m₁ es, x m = ⟨.ok a, m₁, es⟩ → Spares gaps (f a m₁).events := by
    rcases hxm : x m with ⟨fault | a, m₁, es⟩
    · rw [bind_error hxm] at hspares
      exact ⟨hspares, fun _ _ _ heq => nomatch heq⟩
    · rw [bind_ok hxm] at hspares
      obtain ⟨hes, hmore⟩ := spares_append.1 hspares
      refine ⟨hes, fun _ _ _ heq => ?_⟩
      cases heq
      exact hmore
  exact .bind (hx m m' h hfirst.1) fun a m₁ es heq m₁' h₁ =>
    hf a m₁ m₁' h₁ (hfirst.2 a m₁ es heq)

theorem blind_read (address : Word) : Blind gaps Byte (read address) := by
  intro m m' h hspares
  refine .read h ?_
  -- There is an event with the address, whether the cell is there or not.
  cases hm : m.memory.cell? address.toNat with
  | none =>
    rw [read_error hm] at hspares
    exact hspares _ List.mem_cons_self address rfl
  | some v =>
    rw [read_ok hm] at hspares
    exact hspares _ List.mem_cons_self address rfl

theorem blind_pop : Blind gaps Byte pop :=
  Blind.bind (fun _ _ h _ => .ask h (congrArg Stack.used h.stack)) fun x =>
    Blind.bind (fun _ _ h _ => .ofExcept h x) fun cell =>
      (blind_read cell).bind fun _ => Blind.bind (fun _ _ h _ => .write h cell 0) fun _ =>
        Blind.bind (fun _ _ h _ => .moveStack h _) fun _ _ _ h _ => ⟨rfl, rfl, h⟩

/-- **Being blind to gaps is compositional.** -/
theorem blind_compositional : CompositionalWithTransfers (Blind gaps) where
  pure _ _ _ h _ := ⟨rfl, rfl, h⟩
  bind := Blind.bind
  fault f _ _ h _ := .fault h f
  ask g _ _ _ h _ := .ask h (congrArg g h.registers)
  update f _ _ _ _ h _ := .update h f
  print _ _ _ h _ := ⟨rfl, rfl, h⟩
  read := blind_read
  write address v _ _ h _ := .write h address v
  push v _ _ h _ := .push h v
  pop := blind_pop
  askAll g _ _ h _ := .ask h (congrArg g h.registers)
  updateAll f _ _ _ h _ := .update h f
  advance m m' h _ := by
    rw [advance_eq, advance_eq, h.registers]
    exact ⟨rfl, rfl, h.withRegisters fun r => { r with pc := r.pc + 3 }⟩

/-- **A start does not see the gaps** if there is none in the header. -/
theorem start_twin {m m' : Machine} (h : m.Twin gaps m') {address : Word}
    (hheader : ∀ k < 3, ¬gaps (address.toNat + k)) :
    (start address m).Twin gaps (start address m') := by
  have hwithin : ∀ (k : Nat) (m m' : Machine), m.Twin gaps m' →
      (within address k m).Twin gaps (within address k m') := by
    intro k m m' h
    rw [within]
    refine .bind (.ask h h.size) fun size _ _ _ _ h => ?_
    split
    · exact ⟨rfl, rfl, h⟩
    · exact .fault h _
  -- A byte of the header is read at an address that did not wrap around.
  have hread : ∀ k < 3, ∀ (α : Type) (f : Byte → Action α) (m m' : Machine), m.Twin gaps m' →
      (∀ v m m', m.Twin gaps m' → (f v m).Twin gaps (f v m')) →
      ((within address k >>= fun there => read there >>= f) m).Twin gaps
        ((within address k >>= fun there => read there >>= f) m') := by
    intro k hk α f m m' h hf
    refine .bind (hwithin k m m' h) fun there m₁ es heq m₁' h₁ => ?_
    obtain ⟨hlt, rfl, -, -⟩ := within_eq_ok_iff.1 heq
    refine .bind (.read h₁ ?_) fun v _ _ _ _ h₂ => hf v _ _ h₂
    rw [toNat_ofNat_of_lt_min hlt]
    exact hheader k hk
  rw [start]
  refine .bind (.ask h h.programMemory) fun region _ _ _ _ h => ?_
  dsimp only
  split
  case isFalse => exact .bind (.fault h _) fun _ _ _ heq => absurd heq fault_ne_ok
  refine hread 0 (by decide) _ _ _ _ h fun marker _ _ h => hread 1 (by decide) _ _ _ _ h
    fun high _ _ h => hread 2 (by decide) _ _ _ _ h fun low _ _ h => ?_
  split
  case isFalse => exact .bind (.fault h _) fun _ _ _ heq => absurd heq fault_ne_ok
  refine .bind (hwithin 3 _ _ h) fun first _ _ _ _ h => ?_
  refine .bind (x := update _) ⟨rfl, rfl, ?_⟩ fun _ _ _ _ _ h => ⟨rfl, rfl, h⟩
  exact (h.withRegisters fun r => { r with pc := first }).inState .running

end Action

end EightBit
