import EightBit.Machine.Run
import EightBit.Proofs.Machine.Composition
import EightBit.Proofs.Machine.Step

/-!
# Steps in a row

What happens between two points of a run is some steps in a row, each of which
succeeds: `EightBit.Machine.Steps` says so as a relation, and keeps the addresses of the
instructions. The two functions that make a machine go come down to it. Stepping a
number of times without a fault *is* so many steps in a row
(`EightBit.Machine.stepTimes_eq_ok_iff`), and a run that is not over yet takes them all
at once (`EightBit.Machine.Steps.runFrom_eq`).

No step looks at what the machine has been told about its run, so steps in a row can
be taken from one run to another (`EightBit.Machine.Steps.inState`). The run state is a
change to the machine that makes no difference to what is done, and there are others; that a
change makes none to any operation has to be shown for looks at the registers and changes of
them only (`EightBit.Action.ignores_compositional`).
-/

namespace EightBit

namespace Machine

/-- **Steps in a row**, for the instructions at some addresses, with what can be
watched of them. -/
inductive Steps : List Word → Machine → List Event → Machine → Prop
  /-- No step at all. -/
  | nil {m : Machine} : Steps [] m [] m
  /-- A step, and those that follow it. -/
  | cons {pcs : List Word} {m m₁ m' : Machine} {es es' : List Event} :
    Action.step m = ⟨.ok (), m₁, es⟩ → Steps pcs m₁ es' m' →
    Steps (m.registers.pc :: pcs) m (es ++ es') m'

/-- Steps in a row, and then others. -/
theorem Steps.append {pcs pcs' : List Word} {m m' m'' : Machine} {es es' : List Event}
    (h : Steps pcs m es m') (h' : Steps pcs' m' es' m'') :
    Steps (pcs ++ pcs') m (es ++ es') m'' := by
  induction h with
  | nil => exact h'
  | cons hstep _ ih =>
    rw [List.cons_append, List.append_assoc]
    exact .cons hstep (ih h')

/-! ### Stepping a number of times -/

/-- Steps are added to those already taken. -/
theorem stepTimes_go_eq_ok_iff {done taken n : Nat} {journal es : List Event} {m m' : Machine} :
    stepTimes.go done journal n m = (taken, ⟨.ok (), m', es⟩) ↔
      ∃ pcs es', pcs.length = n ∧ taken = done + n ∧ es = journal.reverse ++ es' ∧
        Steps pcs m es' m' := by
  induction n generalizing done journal m with
  | zero =>
    rw [stepTimes.go]
    constructor
    · intro h
      cases h
      exact ⟨[], [], rfl, rfl, (List.append_nil _).symm, .nil⟩
    · rintro ⟨pcs, es', hlength, rfl, rfl, hsteps⟩
      obtain rfl := List.eq_nil_of_length_eq_zero hlength
      cases hsteps
      rw [List.append_nil]
  | succ n ih =>
    rw [stepTimes.go]
    rcases hstep : Action.step m with ⟨fault | _, m₁, es₁⟩
    · constructor
      · exact fun h => nomatch h
      · rintro ⟨pcs, es', hlength, -, -, hsteps⟩
        cases hsteps with
        | nil => exact nomatch hlength
        | cons hfirst => exact nomatch hstep.symm.trans hfirst
    · -- The journal is kept backwards, so what it gains comes after what it had.
      simp only [ih, List.reverse_append, List.reverse_reverse]
      constructor
      · rintro ⟨pcs, es', hlength, rfl, rfl, hsteps⟩
        exact ⟨m.registers.pc :: pcs, es₁ ++ es', congrArg Nat.succ hlength, by omega,
          List.append_assoc .., .cons hstep hsteps⟩
      · rintro ⟨pcs, es', hlength, rfl, rfl, hsteps⟩
        cases hsteps with
        | nil => exact nomatch hlength
        | cons hfirst hrest =>
          cases hstep.symm.trans hfirst
          exact ⟨_, _, Nat.succ.inj hlength, by omega, (List.append_assoc ..).symm, hrest⟩

/-- **Stepping a number of times without a fault** is so many steps in a row. -/
theorem stepTimes_eq_ok_iff {taken n : Nat} {es : List Event} {m m' : Machine} :
    m.stepTimes n = (taken, ⟨.ok (), m', es⟩) ↔
      ∃ pcs, pcs.length = n ∧ taken = n ∧ Steps pcs m es m' := by
  rw [stepTimes, stepTimes_go_eq_ok_iff]
  constructor
  · rintro ⟨pcs, es', hlength, rfl, rfl, hsteps⟩
    exact ⟨pcs, hlength, Nat.zero_add n, hsteps⟩
  · rintro ⟨pcs, hlength, rfl, hsteps⟩
    exact ⟨pcs, es, hlength, (Nat.zero_add _).symm, rfl, hsteps⟩

/-! ### Running -/

/-- **A run takes steps in a row** as long as none of their instructions is past its
end. -/
theorem Steps.runFrom_eq {pcs : List Word} {m m' : Machine} {es : List Event}
    (h : Steps pcs m es m') {stop : Nat} (hstop : ∀ pc ∈ pcs, pc.toNat < stop) (budget : Nat)
    (polls : List Word) (journal : List Event) :
    runFrom .never stop (pcs.length + budget) polls journal m =
      runFrom .never stop budget (pcs.reverse ++ polls) (es.reverse ++ journal) m' := by
  induction h generalizing polls journal with
  | nil => rw [List.length_nil, Nat.zero_add]; rfl
  | @cons pcs m m₁ m' es es' hstep _ ih =>
    obtain ⟨hpc, hrest⟩ := List.forall_mem_cons.1 hstop
    -- Not at the end yet, and not held up: the run performs the instruction.
    rw [List.length_cons, Nat.add_right_comm, runFrom, if_neg (by omega), Suspension.never,
      if_neg (by decide), hstep]
    refine (ih hrest _ _).trans ?_
    simp

/-- A run is over as soon as the program counter has reached its end. -/
theorem runFrom_eq_of_le {suspend : Suspension} {stop : Nat} {m : Machine}
    (h : stop ≤ m.registers.pc.toNat) (budget : Nat) (polls : List Word) (journal : List Event) :
    runFrom suspend stop budget polls journal m =
      ⟨.halted, { m with state := .halted }, polls.reverse, journal.reverse⟩ := by
  cases budget with
  | zero => rw [runFrom, if_pos h]
  | succ budget => rw [runFrom, if_pos h]

/-- **A run that ends past the address space never ends.** The program counter does not
get there. -/
theorem ending_runFrom_ne_halted {suspend : Suspension} {stop : Nat} (h : addressSpace ≤ stop)
    (budget : Nat) (polls : List Word) (journal : List Event) (m : Machine) :
    (runFrom suspend stop budget polls journal m).ending ≠ .halted := by
  -- The program counter is a word, however often it has wrapped around.
  have hpc : ∀ m : Machine, ¬stop ≤ m.registers.pc.toNat := fun m =>
    Nat.not_le_of_lt (Nat.lt_of_lt_of_le m.registers.pc.toNat_lt h)
  induction budget generalizing polls journal m with
  | zero =>
    rw [runFrom, if_neg (hpc m)]
    exact Ending.noConfusion
  | succ budget ih =>
    rw [runFrom, if_neg (hpc m)]
    by_cases hsuspend : suspend m.registers.pc polls = true
    · rw [if_pos hsuspend]
      exact ih _ _ _
    · rw [if_neg hsuspend]
      rcases Action.step m with ⟨fault | _, m₁, es₁⟩
      · exact Ending.noConfusion
      · exact ih _ _ _

end Machine

/-! ### Changes that make no difference -/

/-- **A change to the machine makes no difference to an action** if the action does the same
after it, and leaves the machine behind with the same change. -/
def Action.Ignores (change : Machine → Machine) (α : Type) (x : Action α) : Prop :=
  ∀ m : Machine, x (change m) = ⟨(x m).result, change (x m).machine, (x m).events⟩

/-- **A change beside memory and the stack**: it concerns neither of them, nor SP. -/
structure Machine.Beside (change : Machine → Machine) : Prop where
  memory : ∀ m, (change m).memory = m.memory
  stack : ∀ m, (change m).stack = m.stack
  withMemory : ∀ m memory, { change m with memory } = change { m with memory }
  withStack : ∀ m stack, showStack { change m with stack } = change (showStack { m with stack })

namespace Action

variable {α β : Type} {change : Machine → Machine}

theorem Ignores.bind {x : Action α} {f : α → Action β} (hx : x.Ignores change)
    (hf : ∀ a, (f a).Ignores change) : (x >>= f).Ignores change := by
  intro m
  have hm := hx m
  rcases hxm : x m with ⟨e | a, m₁, es₁⟩
  · rw [hxm] at hm
    rw [bind_error hm, bind_error hxm]
  · rw [hxm] at hm
    rw [bind_ok hm, bind_ok hxm, hf a]

theorem ignores_ofExcept (x : Except Fault α) : (ofExcept x).Ignores change := by
  intro m
  cases x <;> rfl

section

variable (h : Machine.Beside change)

include h

theorem ignores_read (address : Word) : (read address).Ignores change := by
  intro m
  cases hcell : m.memory.cell? address.toNat with
  | none =>
    have hchanged : (change m).memory.cell? address.toNat = none := by rwa [h.memory]
    rw [read_error hcell, read_error hchanged, h.memory]
  | some v =>
    have hchanged : (change m).memory.cell? address.toNat = some v := by rwa [h.memory]
    rw [read_ok hcell, read_ok hchanged]

theorem ignores_write (address : Word) (v : Byte) : (write address v).Ignores change := by
  intro m
  by_cases hcell : address.toNat < m.memory.size
  · have hchanged : address.toNat < (change m).memory.size := by rwa [h.memory]
    rw [write_ok hcell, write_ok hchanged, h.memory, h.withMemory]
  · have hchanged : ¬address.toNat < (change m).memory.size := by rwa [h.memory]
    rw [write_error hcell, write_error hchanged, h.memory]

theorem ignores_moveStack (f : Stack → Stack) : (moveStack f).Ignores change := by
  intro m
  have heq : ∀ m, moveStack f m = ⟨.ok (), Machine.showStack { m with stack := f m.stack },
      [.stackMove (f m.stack).pointer]⟩ := fun _ => rfl
  rw [heq, heq, h.stack, h.withStack]

theorem ignores_askStack (g : Stack → α) : (ask fun m => g m.stack).Ignores change := by
  intro m
  have heq : ∀ m, ask (fun m => g m.stack) m = ⟨.ok (g m.stack), m, []⟩ := fun _ => rfl
  rw [heq, heq, h.stack]

/-- **To make no difference is compositional**, for a change beside memory and the stack that
makes none to the registers as far as operations without transfers are concerned. -/
theorem ignores_compositional
    (hask : ∀ {α : Type} (g : Registers → α), (∀ r pc, g { r with pc } = g r) →
      (ask fun m => g m.registers).Ignores change)
    (hupdate : ∀ f : Registers → Registers, (∀ r pc, f { r with pc } = { f r with pc }) →
      (updateRegisters f).Ignores change) : Compositional (Ignores change) where
  pure _ _ := rfl
  bind := Ignores.bind
  fault _ _ := rfl
  ask := hask
  update f hpc _ := hupdate f hpc
  print _ _ := rfl
  read := ignores_read h
  write := ignores_write h
  push v := (ignores_askStack h _).bind fun _ => (ignores_ofExcept _).bind fun cell =>
    (ignores_write h cell v).bind fun _ => ignores_moveStack h _
  pop := (ignores_askStack h _).bind fun _ => (ignores_ofExcept _).bind fun cell =>
    (ignores_read h cell).bind fun _ => (ignores_write h cell 0).bind fun _ =>
      (ignores_moveStack h _).bind fun _ _ => rfl

end

end Action

/-! ### The run state -/

/-- The machine as it is, but in a given run state. -/
def Machine.inState (m : Machine) (state : RunState) : Machine :=
  { m with state }

/-- **The run state makes no difference** to anything that is done. -/
theorem Action.ignores_inState (state : RunState) :
    CompositionalWithTransfers (Ignores fun m => m.inState state) where
  toCompositional := ignores_compositional
    ⟨fun _ => rfl, fun _ => rfl, fun _ _ => rfl, fun _ _ => rfl⟩ (fun _ _ _ => rfl) fun _ _ _ => rfl
  askAll _ _ := rfl
  updateAll _ _ _ := rfl
  advance _ := rfl

/-- **Steps in a row are the same in every run state.** -/
theorem Machine.Steps.inState {pcs : List Word} {m m' : Machine} {es : List Event}
    (h : Steps pcs m es m') (state : RunState) :
    Steps pcs (m.inState state) es (m'.inState state) := by
  induction h with
  | nil => exact .nil
  | @cons pcs m m₁ m' es es' hstep _ ih =>
    have hstate : Action.step (m.inState state) = ⟨.ok (), m₁.inState state, es⟩ := by
      rw [(Action.ignores_inState state).step m, hstep]
    exact .cons hstate ih

end EightBit
