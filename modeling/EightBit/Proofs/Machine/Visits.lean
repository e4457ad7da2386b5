import EightBit.Proofs.Machine.Starting
import EightBit.Proofs.Machine.Steps

/-!
# The way of a run

A run leaves a machine behind, but what it does is decided by the machines on its way:
those that it takes its steps from. `EightBit.Machine.visits` lists them in order, the
last of them being the one that faults if the run ends with a fault.

Everything about a run can be read off them. Each one is what the step before it has
left behind (`EightBit.Machine.Passes`); what is left of the last one, up to the run
state, is what the run leaves behind (`EightBit.Machine.exists_passes_runFrom`); and
what can be watched of the run is what can be watched of these steps
(`EightBit.Machine.events_execute`). The run state in the end says how the run has ended
(`EightBit.Machine.state_execute`).
-/

namespace EightBit

namespace Machine

/-- **The machines that a run takes its steps from**, in order. -/
def visits (suspend : Suspension) (stop : Nat) :
    (budget : Nat) → (polls : List Word) → Machine → List Machine
  | 0, _, _ => []
  | budget + 1, polls, m =>
    let pc := m.registers.pc
    if stop ≤ pc.toNat then []
    else if suspend pc polls then visits suspend stop budget (pc :: polls) m
    else m :: match Action.step m with
      | ⟨.ok (), m', _⟩ => visits suspend stop budget (pc :: polls) m'
      | ⟨.error _, _, _⟩ => []

/-- The same for the run of a program, which takes no step if it does not get
started. -/
def executeVisits (suspend : Suspension) (budget : Nat) (address : Word) (m : Machine) :
    List Machine :=
  match Action.start address m with
  | ⟨.ok stop, m', _⟩ => visits suspend stop budget [] m'
  | ⟨.error _, _, _⟩ => []

/-- **Passing through machines**: each is what the step before it has left behind, and
only the last step can be one that faults. -/
inductive Passes : Machine → List Machine → Machine → Prop
  /-- No step is taken. -/
  | nil {m : Machine} : Passes m [] m
  /-- One step is taken, and then those that follow it. -/
  | cons {m m' : Machine} {ms : List Machine} :
    Passes (Action.step m).machine ms m' →
    (∀ fault, (Action.step m).result = .error fault → ms = []) →
    Passes m (m :: ms) m'

/-- **What steps keep, passing keeps**, and it holds all the way. -/
theorem Passes.invariant {I : Machine → Prop} (hstep : ∀ m, I m → I (Action.step m).machine)
    {m m' : Machine} {ms : List Machine} (h : Passes m ms m') (hm : I m) :
    (∀ v ∈ ms, I v) ∧ I m' := by
  induction h with
  | nil => exact ⟨List.forall_mem_nil _, hm⟩
  | cons _ _ ih =>
    obtain ⟨hway, hend⟩ := ih (hstep _ hm)
    exact ⟨List.forall_mem_cons.2 ⟨hm, hway⟩, hend⟩

/-! ### Runs -/

/-- **A run passes through the machines that it visits**, and what it leaves behind is
what it gets to, but for the run state. -/
theorem exists_passes_runFrom (suspend : Suspension) (stop budget : Nat) (polls : List Word)
    (journal : List Event) (m : Machine) :
    ∃ m' state, Passes m (visits suspend stop budget polls m) m' ∧
      (runFrom suspend stop budget polls journal m).machine = m'.inState state := by
  induction budget generalizing polls journal m with
  | zero =>
    rw [runFrom, visits]
    split
    · exact ⟨m, .halted, .nil, rfl⟩
    · exact ⟨m, m.state, .nil, rfl⟩
  | succ budget ih =>
    rw [runFrom, visits]
    by_cases hstop : stop ≤ m.registers.pc.toNat
    · rw [if_pos hstop, if_pos hstop]
      exact ⟨m, .halted, .nil, rfl⟩
    · rw [if_neg hstop, if_neg hstop]
      by_cases hsuspend : suspend m.registers.pc polls = true
      · rw [if_pos hsuspend, if_pos hsuspend]
        exact ih _ _ m
      · rw [if_neg hsuspend, if_neg hsuspend]
        rcases hstep : Action.step m with ⟨fault | _, m₁, es⟩
        · refine ⟨m₁, .faulted, .cons ?_ fun _ _ => rfl, rfl⟩
          rw [hstep]
          exact .nil
        · obtain ⟨m', state, hpasses, hmachine⟩ := ih (m.registers.pc :: polls)
            (es.reverse ++ journal) m₁
          refine ⟨m', state, .cons ?_ fun fault h => ?_, hmachine⟩
          · rw [hstep]
            exact hpasses
          · rw [hstep] at h
            cases h

/-- **What can be watched of a run** is what can be watched of its steps. -/
theorem events_runFrom (suspend : Suspension) (stop budget : Nat) (polls : List Word)
    (journal : List Event) (m : Machine) :
    (runFrom suspend stop budget polls journal m).events = journal.reverse ++
      (visits suspend stop budget polls m).flatMap fun v => (Action.step v).events := by
  induction budget generalizing polls journal m with
  | zero =>
    rw [runFrom, visits]
    split <;> exact (List.append_nil _).symm
  | succ budget ih =>
    rw [runFrom, visits]
    by_cases hstop : stop ≤ m.registers.pc.toNat
    · rw [if_pos hstop, if_pos hstop]
      exact (List.append_nil _).symm
    · rw [if_neg hstop, if_neg hstop]
      by_cases hsuspend : suspend m.registers.pc polls = true
      · rw [if_pos hsuspend, if_pos hsuspend]
        exact ih _ _ m
      · rw [if_neg hsuspend, if_neg hsuspend]
        rcases hstep : Action.step m with ⟨fault | _, m₁, es⟩
        · simp [hstep]
        · simp [hstep, ih]

/-- **What can be watched of the run of a program** is what can be watched of its start and
of its steps. -/
theorem events_execute (suspend : Suspension) (budget : Nat) (address : Word) (m : Machine) :
    (m.execute suspend budget address).events = (Action.start address m).events ++
      (m.executeVisits suspend budget address).flatMap fun v => (Action.step v).events := by
  rw [execute, executeVisits]
  rcases hstart : Action.start address m with ⟨fault | stop, m₀, es⟩
  · exact (List.append_nil es).symm
  · rw [events_runFrom, List.reverse_reverse]

/-- **The run of a program** passes through the machines that it visits, from the one
that its start leaves behind. -/
theorem exists_passes_execute (suspend : Suspension) (budget : Nat) (address : Word)
    (m : Machine) :
    ∃ m' state,
      Passes (Action.start address m).machine (executeVisits suspend budget address m) m' ∧
      (m.execute suspend budget address).machine = m'.inState state := by
  rw [execute, executeVisits]
  rcases hstart : Action.start address m with ⟨fault | stop, m₀, es⟩
  · exact ⟨m₀, .faulted, .nil, rfl⟩
  · exact exists_passes_runFrom suspend stop budget [] es.reverse m₀

end Machine

/-! ### How a run ends -/

/-- The run state that goes with an ending. -/
def Ending.state : Ending → RunState
  | halted => .halted
  | faulted _ => .faulted
  | paused _ => .running

/-- A step stays in the run state. -/
theorem Action.state_step (m : Machine) : (step m).machine.state = m.state :=
  -- A machine is the same as itself in its own run state.
  congrArg (fun o => o.machine.state) ((ignores_inState m.state).step m)

namespace Machine

theorem state_runFrom (suspend : Suspension) (stop budget : Nat) (polls : List Word)
    (journal : List Event) {m : Machine} (hm : m.state = .running) :
    (runFrom suspend stop budget polls journal m).machine.state =
      (runFrom suspend stop budget polls journal m).ending.state := by
  induction budget generalizing polls journal m with
  | zero =>
    rw [runFrom]
    split
    · rfl
    · exact hm
  | succ budget ih =>
    rw [runFrom]
    by_cases hstop : stop ≤ m.registers.pc.toNat
    · rw [if_pos hstop]
      rfl
    · rw [if_neg hstop]
      by_cases hsuspend : suspend m.registers.pc polls = true
      · rw [if_pos hsuspend]
        exact ih _ _ hm
      · rw [if_neg hsuspend]
        have hstate := Action.state_step m
        rcases hstep : Action.step m with ⟨fault | _, m₁, es⟩
        · rfl
        · rw [hstep] at hstate
          exact ih _ _ (hstate.trans hm)

/-- **The run state says how the run of a program has ended.** -/
theorem state_execute (suspend : Suspension) (budget : Nat) (address : Word) (m : Machine) :
    (m.execute suspend budget address).machine.state =
      (m.execute suspend budget address).ending.state := by
  rw [execute]
  rcases hstart : Action.start address m with ⟨fault | stop, m₀, es⟩
  · rfl
  · obtain ⟨-, -, high, low, -, -, hm₀, -⟩ := Action.start_eq_ok_iff.1 hstart
    refine state_runFrom suspend stop budget [] es.reverse ?_
    rw [← hm₀]

end Machine

end EightBit
