import EightBit.Proofs.Machine.StraightLine
import EightBit.Proofs.Machine.Visits
import Mathlib.Data.Nat.Find

/-!
# Suspended runs

A suspension can hold a run up before each of its instructions, and whether it does may depend
on all that was polled before. That makes a difference to when things happen, but to nothing
else: whatever a suspended run has done so far, some run that nothing suspends does as well
(`EightBit.Machine.exists_runFrom_never`).

The other way round, a run that nothing suspends can only be followed by a suspended one if this
is let go, time and again. So much is said by `EightBit.Suspension.LetsGo`, about the instructions
of the run in question and not about all histories of polls that one can think of. The polls are
then the addresses of the instructions in order, each of them repeated as often as the machine
was held up there, and once more when it was not (`EightBit.Suspension.Polls`,
`EightBit.execute_suspended`).
-/

namespace EightBit

namespace Suspension

/-- **A machine is held up** a number of times at an address: as often the answer is that it is to
stay, and then it is not. The polls before come with the latest first. -/
structure HoldsUp (suspend : Suspension) (before : List Word) (pc : Word) (times : Nat) :
    Prop where
  stays : ∀ i < times, suspend pc (List.replicate i pc ++ before) = true
  goes : suspend pc (List.replicate times pc ++ before) = false

/-- **The polls at some instructions**, in order: the address of each one is polled once more than
the machine is held up there. -/
inductive Polls (suspend : Suspension) : (before pcs polls : List Word) → Prop
  /-- No instruction is attempted. -/
  | nil {before : List Word} : Polls suspend before [] []
  /-- The machine is held up at an instruction, and goes on after it. -/
  | cons {before pcs polls : List Word} {pc : Word} {times : Nat} :
    suspend.HoldsUp before pc times →
    Polls suspend (List.replicate (times + 1) pc ++ before) pcs polls →
    Polls suspend before (pc :: pcs) (List.replicate (times + 1) pc ++ polls)

/-- **A run is let go** at each of its instructions: after the steps before it, and the polls at
these, the suspension cannot go on to answer that the machine is to stay. -/
def LetsGoFrom (suspend : Suspension) (stop : Nat) (before : List Word) (m : Machine) : Prop :=
  ∀ pcs es m' polls, Machine.Steps pcs m es m' → (∀ pc ∈ pcs, pc.toNat < stop) →
    m'.registers.pc.toNat < stop → suspend.Polls before pcs polls →
    ∃ times, suspend m'.registers.pc
      (List.replicate times m'.registers.pc ++ (polls.reverse ++ before)) = false

/-- The same for the run of a program, which attempts no instruction if it does not get
started. -/
def LetsGo (suspend : Suspension) (address : Word) (m : Machine) : Prop :=
  ∀ stop m₀ es, Action.start address m = ⟨.ok stop, m₀, es⟩ → suspend.LetsGoFrom stop [] m₀

variable {suspend : Suspension} {stop : Nat} {before : List Word} {m m' : Machine}

/-- Being let go once is enough to know how often the machine is held up before. -/
theorem LetsGoFrom.exists_holdsUp (h : suspend.LetsGoFrom stop before m)
    (hpc : m.registers.pc.toNat < stop) : ∃ times, suspend.HoldsUp before m.registers.pc times := by
  have hgoes := h [] [] m [] .nil (List.forall_mem_nil _) hpc .nil
  refine ⟨Nat.find hgoes, fun i hi => ?_, Nat.find_spec hgoes⟩
  exact Bool.of_not_eq_false (Nat.find_min hgoes hi)

/-- A run that is let go at all its instructions is let go at all but the first. -/
theorem LetsGoFrom.of_step (h : suspend.LetsGoFrom stop before m) {es : List Event} {times : Nat}
    (hpc : m.registers.pc.toNat < stop) (hstep : Action.step m = ⟨.ok (), m', es⟩)
    (hholds : suspend.HoldsUp before m.registers.pc times) :
    suspend.LetsGoFrom stop (List.replicate (times + 1) m.registers.pc ++ before) m' := by
  intro pcs es' m'' polls hsteps hpcs hend hpolls
  obtain ⟨more, hmore⟩ := h _ _ m'' _ (.cons hstep hsteps) (List.forall_mem_cons.2 ⟨hpc, hpcs⟩) hend
    (.cons hholds hpolls)
  refine ⟨more, ?_⟩
  rw [← hmore, List.reverse_append, List.reverse_replicate, List.append_assoc]

end Suspension

/-- The same run, but for its polls. -/
def Run.withPolls (run : Run) (polls : List Word) : Run :=
  { run with polls }

namespace Machine

variable {suspend : Suspension} {stop : Nat} {m m₁ : Machine} {es : List Event}

/-! ### One poll -/

section

variable (budget : Nat) (polls : List Word) (journal : List Event)

/-- No step is taken at the end of a program. -/
theorem visits_eq_nil_of_le (h : stop ≤ m.registers.pc.toNat) :
    visits suspend stop budget polls m = [] := by
  cases budget with
  | zero => rfl
  | succ budget => rw [visits, if_pos h]

variable (hpc : m.registers.pc.toNat < stop)

include hpc

/-- A run that runs out of polls is paused. -/
theorem runFrom_zero : runFrom suspend stop 0 polls journal m =
    ⟨.paused stop, m, polls.reverse, journal.reverse⟩ := by
  rw [runFrom, if_neg (Nat.not_le_of_lt hpc)]

/-- A run that is held up has polled and done nothing else. -/
theorem run_of_suspended (h : suspend m.registers.pc polls = true) :
    runFrom suspend stop (budget + 1) polls journal m =
        runFrom suspend stop budget (m.registers.pc :: polls) journal m ∧
      visits suspend stop (budget + 1) polls m =
        visits suspend stop budget (m.registers.pc :: polls) m := by
  rw [runFrom, visits, if_neg (Nat.not_le_of_lt hpc), if_neg (Nat.not_le_of_lt hpc), if_pos h,
    if_pos h]
  exact ⟨rfl, rfl⟩

/-- A run that is not held up takes a step. -/
theorem run_of_step (h : suspend m.registers.pc polls = false)
    (hstep : Action.step m = ⟨.ok (), m₁, es⟩) :
    runFrom suspend stop (budget + 1) polls journal m =
        runFrom suspend stop budget (m.registers.pc :: polls) (es.reverse ++ journal) m₁ ∧
      visits suspend stop (budget + 1) polls m =
        m :: visits suspend stop budget (m.registers.pc :: polls) m₁ := by
  rw [runFrom, visits, if_neg (Nat.not_le_of_lt hpc), if_neg (Nat.not_le_of_lt hpc), h,
    if_neg Bool.false_ne_true, if_neg Bool.false_ne_true, hstep]
  exact ⟨rfl, rfl⟩

/-- A run that is not held up is over if its step faults. -/
theorem run_of_fault {fault : Fault} (h : suspend m.registers.pc polls = false)
    (hstep : Action.step m = ⟨.error fault, m₁, es⟩) :
    runFrom suspend stop (budget + 1) polls journal m =
        ⟨.faulted fault, m₁.inState .faulted, (m.registers.pc :: polls).reverse,
          (es.reverse ++ journal).reverse⟩ ∧
      visits suspend stop (budget + 1) polls m = [m] := by
  rw [runFrom, visits, if_neg (Nat.not_le_of_lt hpc), if_neg (Nat.not_le_of_lt hpc), h,
    if_neg Bool.false_ne_true, if_neg Bool.false_ne_true, hstep]
  exact ⟨rfl, rfl⟩

end

/-- **A machine that is held up** gets to the last poll at its instruction with nothing done. -/
theorem run_of_holdsUp {before : List Word} {times : Nat} (hpc : m.registers.pc.toNat < stop)
    (h : ∀ i < times, suspend m.registers.pc (List.replicate i m.registers.pc ++ before) = true)
    (budget : Nat) (journal : List Event) :
    runFrom suspend stop (times + budget) before journal m =
        runFrom suspend stop budget (List.replicate times m.registers.pc ++ before) journal m ∧
      visits suspend stop (times + budget) before m =
        visits suspend stop budget (List.replicate times m.registers.pc ++ before) m := by
  induction times generalizing budget with
  | zero =>
    rw [Nat.zero_add]
    exact ⟨rfl, rfl⟩
  | succ times ih =>
    obtain ⟨hrun, hvisits⟩ := ih (fun i hi => h i (Nat.lt_succ_of_lt hi)) (budget + 1)
    obtain ⟨hrun', hvisits'⟩ :=
      run_of_suspended budget _ journal hpc (h times (Nat.lt_succ_self times))
    rw [Nat.add_assoc, Nat.add_comm 1, hrun, hvisits, hrun', hvisits']
    exact ⟨rfl, rfl⟩

/-! ### Runs with a suspension and without -/

/-- **A run that is over stays as it is**, however many polls it is given. -/
theorem runFrom_add_of_over {budget : Nat} {polls : List Word} {journal : List Event}
    (h : ∀ stop', (runFrom suspend stop budget polls journal m).ending ≠ .paused stop')
    (more : Nat) : runFrom suspend stop (budget + more) polls journal m =
      runFrom suspend stop budget polls journal m := by
  induction budget generalizing polls journal m with
  | zero =>
    rcases Nat.lt_or_ge m.registers.pc.toNat stop with hpc | hpc
    · rw [runFrom_zero polls journal hpc] at h
      exact absurd rfl (h stop)
    · rw [runFrom_eq_of_le hpc, runFrom_eq_of_le hpc]
  | succ budget ih =>
    rw [Nat.add_right_comm]
    rcases Nat.lt_or_ge m.registers.pc.toNat stop with hpc | hpc
    · cases hsuspend : suspend m.registers.pc polls with
      | true =>
        have hrun := fun budget => (run_of_suspended budget polls journal hpc hsuspend).1
        rw [hrun] at h ⊢
        rw [hrun]
        exact ih h
      | false =>
        rcases hstep : Action.step m with ⟨fault | _, m₁, es⟩
        · have hrun := fun budget => (run_of_fault budget polls journal hpc hsuspend hstep).1
          rw [hrun, hrun]
        · have hrun := fun budget => (run_of_step budget polls journal hpc hsuspend hstep).1
          rw [hrun] at h ⊢
          rw [hrun]
          exact ih h
    · rw [runFrom_eq_of_le hpc, runFrom_eq_of_le hpc]

/-- **What a suspended run does, a run that nothing suspends does as well**, with no more
polls. -/
theorem exists_runFrom_never (suspend : Suspension) (stop budget : Nat) (before before' : List Word)
    (journal : List Event) (m : Machine) :
    ∃ k ≤ budget, ∃ polls,
      visits suspend stop budget before m = visits .never stop k before' m ∧
      runFrom suspend stop budget before journal m =
        (runFrom .never stop k before' journal m).withPolls polls := by
  have hnever : ∀ pc polls, Suspension.never pc polls = false := fun _ _ => rfl
  induction budget generalizing before before' journal m with
  | zero =>
    refine ⟨0, Nat.le_refl 0, before.reverse, rfl, ?_⟩
    rcases Nat.lt_or_ge m.registers.pc.toNat stop with hpc | hpc
    · rw [runFrom_zero _ _ hpc, runFrom_zero _ _ hpc]
      rfl
    · rw [runFrom_eq_of_le hpc, runFrom_eq_of_le hpc]
      rfl
  | succ budget ih =>
    rcases Nat.lt_or_ge m.registers.pc.toNat stop with hpc | hpc
    · cases hsuspend : suspend m.registers.pc before with
      | true =>
        obtain ⟨k, hk, polls, hvisits, hrun⟩ := ih (m.registers.pc :: before) before' journal m
        obtain ⟨hrun', hvisits'⟩ := run_of_suspended budget before journal hpc hsuspend
        exact ⟨k, Nat.le_succ_of_le hk, polls, hvisits'.trans hvisits, hrun'.trans hrun⟩
      | false =>
        rcases hstep : Action.step m with ⟨fault | _, m₁, es⟩
        · obtain ⟨hrun, hvisits⟩ := run_of_fault budget before journal hpc hsuspend hstep
          obtain ⟨hrun', hvisits'⟩ := run_of_fault 0 before' journal hpc (hnever _ _) hstep
          refine ⟨1, by omega, (m.registers.pc :: before).reverse, hvisits.trans hvisits'.symm, ?_⟩
          rw [hrun, hrun']
          rfl
        · obtain ⟨hrun, hvisits⟩ := run_of_step budget before journal hpc hsuspend hstep
          obtain ⟨k, hk, polls, hvisits₁, hrun₁⟩ := ih (m.registers.pc :: before)
            (m.registers.pc :: before') (es.reverse ++ journal) m₁
          obtain ⟨hrun', hvisits'⟩ := run_of_step k before' journal hpc (hnever _ _) hstep
          refine ⟨k + 1, Nat.succ_le_succ hk, polls, ?_, ?_⟩
          · rw [hvisits, hvisits', hvisits₁]
          · rw [hrun, hrun', hrun₁]
    · refine ⟨0, Nat.zero_le _, before.reverse, ?_, ?_⟩
      · rw [visits_eq_nil_of_le _ _ hpc, visits_eq_nil_of_le _ _ hpc]
      · rw [runFrom_eq_of_le hpc, runFrom_eq_of_le hpc]
        rfl

/-- **What a run that nothing suspends does, a suspended run does as well**, if it is let go. -/
theorem exists_runFrom_suspended {before : List Word} (h : suspend.LetsGoFrom stop before m)
    (k : Nat) (before' : List Word) (journal : List Event) :
    ∃ polls, suspend.Polls before ((visits .never stop k before' m).map fun v => v.registers.pc)
        polls ∧
      visits suspend stop polls.length before m = visits .never stop k before' m ∧
      runFrom suspend stop polls.length before journal m =
        (runFrom .never stop k before' journal m).withPolls (before.reverse ++ polls) := by
  have hnever : ∀ pc polls, Suspension.never pc polls = false := fun _ _ => rfl
  induction k generalizing before before' journal m with
  | zero =>
    refine ⟨[], .nil, rfl, ?_⟩
    rw [List.append_nil, List.length_nil]
    rcases Nat.lt_or_ge m.registers.pc.toNat stop with hpc | hpc
    · rw [runFrom_zero _ _ hpc, runFrom_zero _ _ hpc]
      rfl
    · rw [runFrom_eq_of_le hpc, runFrom_eq_of_le hpc]
      rfl
  | succ k ih =>
    rcases Nat.lt_or_ge m.registers.pc.toNat stop with hpc | hpc
    · obtain ⟨times, hholds⟩ := h.exists_holdsUp hpc
      have hup := run_of_holdsUp hpc hholds.stays
      -- The polls at this instruction come before all others, in either order.
      have hfirst : (m.registers.pc :: (List.replicate times m.registers.pc ++ before)).reverse =
          before.reverse ++ List.replicate (times + 1) m.registers.pc := by
        rw [← List.cons_append, ← List.replicate_succ, List.reverse_append, List.reverse_replicate]
      rcases hstep : Action.step m with ⟨fault | _, m₁, es⟩
      · obtain ⟨hrun, hvisits⟩ := run_of_fault 0 _ journal hpc hholds.goes hstep
        obtain ⟨hrun', hvisits'⟩ := run_of_fault k before' journal hpc (hnever _ _) hstep
        refine ⟨List.replicate (times + 1) m.registers.pc ++ [], ?_, ?_, ?_⟩
        · rw [hvisits']
          exact .cons hholds .nil
        · rw [List.append_nil, List.length_replicate, (hup 1 journal).2, hvisits, hvisits']
        · rw [List.append_nil, List.length_replicate, (hup 1 journal).1, hrun, hrun', hfirst]
          rfl
      · obtain ⟨polls, hpolls, hvisits₁, hrun₁⟩ := ih (h.of_step hpc hstep hholds)
          (m.registers.pc :: before') (es.reverse ++ journal)
        obtain ⟨hrun, hvisits⟩ := run_of_step polls.length _ journal hpc hholds.goes hstep
        obtain ⟨hrun', hvisits'⟩ := run_of_step k before' journal hpc (hnever _ _) hstep
        have hlength : (List.replicate (times + 1) m.registers.pc ++ polls).length =
            times + (polls.length + 1) := by
          rw [List.length_append, List.length_replicate]
          omega
        rw [List.replicate_succ, List.cons_append] at hvisits₁ hrun₁
        refine ⟨List.replicate (times + 1) m.registers.pc ++ polls, ?_, ?_, ?_⟩
        · rw [hvisits']
          exact .cons hholds hpolls
        · rw [hlength, (hup _ journal).2, hvisits, hvisits', hvisits₁]
        · rw [hlength, (hup _ journal).1, hrun, hrun', hrun₁, hfirst, List.append_assoc]
    · refine ⟨[], ?_, ?_, ?_⟩
      · rw [visits_eq_nil_of_le _ _ hpc]
        exact .nil
      · rw [visits_eq_nil_of_le _ _ hpc, visits_eq_nil_of_le _ _ hpc]
      · rw [runFrom_eq_of_le hpc, runFrom_eq_of_le hpc, List.append_nil]
        rfl

end Machine

/-! ### Whole programs -/

/-- **Suspension never changes what a program does.** Whatever a suspended run has done after any
number of polls, the run that nothing suspends has done after no more of them, that is, after as
many instructions. And if the suspended run is let go before each of its instructions, then for
any number of instructions it takes its steps from the same machines, and has the same ending, the
same machine left behind and the same events, once it has polled the address of each instruction
it attempts – one that faults included – as often as it was held up there and once more. If it is
over then it polls no more. -/
theorem execute_suspended (suspend : Suspension) (address : Word) (m : Machine) :
    (∀ budget, ∃ k ≤ budget, ∃ polls,
      m.executeVisits suspend budget address = m.executeVisits .never k address ∧
      m.execute suspend budget address = (m.execute .never k address).withPolls polls) ∧
    (suspend.LetsGo address m → ∀ k, ∃ polls,
      suspend.Polls [] ((m.executeVisits .never k address).map fun v => v.registers.pc) polls ∧
      m.executeVisits suspend polls.length address = m.executeVisits .never k address ∧
      m.execute suspend polls.length address = (m.execute .never k address).withPolls polls ∧
      ((∀ stop, (m.execute .never k address).ending ≠ .paused stop) → ∀ more,
        m.execute suspend (polls.length + more) address =
          (m.execute .never k address).withPolls polls)) := by
  rcases hstart : Action.start address m with ⟨fault | stop, m₀, es⟩
  · -- A start that is rejected has polled nothing.
    have hrejected : ∀ suspend budget, m.executeVisits suspend budget address = [] ∧
        m.execute suspend budget address =
          ⟨.faulted fault, { m₀ with state := .faulted }, [], es⟩ := fun suspend budget => by
      rw [Machine.executeVisits, Machine.execute, hstart]
      exact ⟨rfl, rfl⟩
    simp only [hrejected, List.map_nil]
    exact ⟨fun budget => ⟨budget, Nat.le_refl _, [], trivial, rfl⟩,
      fun _ k => ⟨[], .nil, trivial, rfl, fun _ _ => rfl⟩⟩
  · have hstarted : ∀ suspend budget, m.executeVisits suspend budget address =
        Machine.visits suspend stop budget [] m₀ ∧ m.execute suspend budget address =
          Machine.runFrom suspend stop budget [] es.reverse m₀ := fun suspend budget => by
      rw [Machine.executeVisits, Machine.execute, hstart]
      exact ⟨rfl, rfl⟩
    simp only [hstarted]
    refine ⟨fun budget => Machine.exists_runFrom_never suspend stop budget [] [] _ m₀,
      fun hgoes k => ?_⟩
    obtain ⟨polls, hpolls, hvisits, hrun⟩ :=
      Machine.exists_runFrom_suspended (hgoes stop m₀ es hstart) k [] es.reverse
    exact ⟨polls, hpolls, hvisits, hrun, fun hover more =>
      (Machine.runFrom_add_of_over (by rwa [hrun]) more).trans hrun⟩

/-- The suspension that holds a machine up for the first polls of a run. -/
def Suspension.forPolls (count : Nat) : Suspension := fun _ before =>
  decide (before.length < count)

/-- It lets every run go. -/
theorem Suspension.letsGo_forPolls (count : Nat) (address : Word) (m : Machine) :
    (forPolls count).LetsGo address m := by
  intro stop m₀ es _ pcs es' m' polls _ _ _ _
  refine ⟨count, decide_eq_false (Nat.not_lt_of_le ?_)⟩
  rw [List.length_append, List.length_replicate]
  exact Nat.le_add_right _ _

/-- A program of two instructions that is held up twice halts after four polls, with the last cell
written. -/
theorem execute_suspended_twice :
    (Suspension.forPolls 2).LetsGo 0 .ofSixteenCells ∧ ∃ polls,
      (Suspension.forPolls 2).Polls [] [3, 6] polls ∧
      (Machine.ofSixteenCells.execute (.forPolls 2) polls.length 0).ending = .halted ∧
      (Machine.ofSixteenCells.execute (.forPolls 2) polls.length 0).machine.memory.cell? 15 =
        some 5 := by
  have hgoes := Suspension.letsGo_forPolls 2 0 .ofSixteenCells
  have hpcs : ((Machine.ofSixteenCells.executeVisits .never 2 0).map fun v => v.registers.pc) =
      [3, 6] := by decide
  have hending : (Machine.ofSixteenCells.execute .never 2 0).ending = .halted := by decide
  have hcell : (Machine.ofSixteenCells.execute .never 2 0).machine.memory.cell? 15 = some 5 := by
    decide
  obtain ⟨polls, hpolls, -, hrun, -⟩ :=
    (execute_suspended (.forPolls 2) 0 .ofSixteenCells).2 hgoes 2
  rw [hpcs] at hpolls
  refine ⟨hgoes, polls, hpolls, ?_, ?_⟩
  · rw [hrun]
    exact hending
  · rw [hrun]
    exact hcell

/-- Its polls are at the first instruction, but for the last one. -/
example : (Machine.ofSixteenCells.execute (.forPolls 2) 4 0).polls = [3, 3, 3, 6] := by
  decide

end EightBit
