import EightBit.Proofs.Machine.Agreement
import EightBit.Proofs.Machine.StraightLine
import EightBit.Proofs.Machine.Suspension

/-!
# Programs that only go forward

A program without jumps, calls and returns, whose branches all lead forward by whole
instructions, is over after as many steps as it has instructions, if not before. For with each
step the program counter gets from one instruction to a later one, or to where one would stand
past the end (`EightBit.Machine.On.step`); so there is an instruction less to come each time, and
none that has been attempted comes again (`EightBit.Machine.On.runFrom`).

Three things could go wrong. A branch might land inside an instruction, so distances have to be
multiples of the width of one. The program counter might wrap around, so there has to be room past
the program for the longest of branches. And the program might write to itself, so it must not.
-/

namespace EightBit

/-- **An instruction goes forward** if it is no jump, call or return, and if the distance is a
positive number of whole instructions should it be a branch. -/
def Triple.Forward (t : Triple) : Prop :=
  ∀ form ∈ Form.ofOpcode? t.opcode, form.mnemonic ∉ [Mnemonic.jmp, .jfn, .ret] ∧
    (form.mode = .relative → 0 < t.first.signed ∧ 3 ∣ t.first.signed)

instance : DecidablePred Triple.Forward := fun t =>
  inferInstanceAs (Decidable (∀ form ∈ Form.ofOpcode? t.opcode, _))

namespace Mnemonic

variable {mnemonic : Mnemonic}

/-- There is one mnemonic for each operation that goes anywhere but forward. -/
theorem mem_of_operation
    (h : mnemonic.operation = .jump ∨ mnemonic.operation = .call ∨ mnemonic.operation = .comeBack) :
    mnemonic ∈ [jmp, jfn, ret] := by
  revert h
  cases mnemonic <;> decide

end Mnemonic

/-- Branches have a mode of their own. -/
theorem Form.mode_of_operation_eq_branch {opcode : Byte} {form : Form}
    (h : Form.ofOpcode? opcode = some form) {flag : Flag} {value : Bool}
    (hbranch : form.mnemonic.operation = .branch flag value) : form.mode = .relative := by
  have hsuits := suits_of_ofOpcode? h
  rw [hbranch] at hsuits
  cases hmode : form.mode with
  | relative => rfl
  | _ =>
    rw [hmode] at hsuits
    exact nomatch hsuits

namespace Machine

/-- **A machine is on a program** that stands in memory, at one of its instructions or at where one
would stand past its end. -/
structure On (start : Nat) (program : List Triple) (j : Nat) (m : Machine) : Prop where
  holds : m.memory.Holds start (program.flatMap Triple.bytes)
  pc : m.registers.pc.toNat = start + 3 * j

/-- **A run goes through a program in order**, from some instruction on: it is over in the end, and
the machines it takes steps from are at instructions of the program, none of them twice and each
of them after those before. -/
structure InOrder (start : Nat) (program : List Triple) (j : Nat) (run : Run)
    (vs : List Machine) : Prop where
  ends : ∀ stop, run.ending ≠ .paused stop
  length_le : vs.length ≤ program.length - j
  fetch : ∀ v ∈ vs, ∃ k t, j ≤ k ∧ program[k]? = some t ∧ v.registers.pc.toNat = start + 3 * k ∧
    v.Fetches t
  increasing : vs.Pairwise fun v w => v.registers.pc < w.registers.pc

namespace On

variable {start : Nat} {program : List Triple} {j : Nat} {t : Triple} {m m' : Machine}
  {es : List Event}

/-- Its instruction is fetched. -/
theorem fetches (h : m.On start program j) (ht : program[j]? = some t)
    (hfits : start + 3 * program.length + 126 < addressSpace) : m.Fetches t := by
  obtain ⟨hj, -⟩ := List.getElem?_eq_some_iff.1 ht
  have hpc := h.pc
  refine fetches_of_holds ?_ (by omega)
  rw [hpc]
  exact Memory.holds_program_iff.1 h.holds j t ht

/-- **A step forward** gets to a later instruction. -/
theorem step (h : m.On start program j) (ht : program[j]? = some t) (hforward : t.Forward)
    (hfits : start + 3 * program.length + 126 < addressSpace)
    (hstep : Action.step m = ⟨.ok (), m', es⟩)
    (hunwritten : ∀ i, start ≤ i → i < start + 3 * program.length → Unwritten i es) :
    ∃ k, j < k ∧ m'.On start program k := by
  have hfetches := h.fetches ht hfits
  have hpc := h.pc
  obtain ⟨hj, -⟩ := List.getElem?_eq_some_iff.1 ht
  obtain ⟨form, -, -, hform, -⟩ := (Action.step_eq_ok_iff_of_fetches hfetches).1 hstep
  obtain ⟨hmnemonic, hdistance⟩ := hforward form hform
  have hholds : m'.memory.Holds start (program.flatMap Triple.bytes) := by
    refine h.holds.of_cells fun i hle hlt => ?_
    rw [length_flatMap_bytes] at hlt
    have hcell : (Action.step m).machine.memory.cell? i = m.memory.cell? i :=
      Action.cell?_step_of_unwritten (by rw [hstep]; exact hunwritten i hle hlt)
    rwa [hstep] at hcell
  rcases Action.pc_of_step_cases hfetches hform
    (fun hop => hmnemonic (Mnemonic.mem_of_operation (Or.inl hop)))
    (fun hop => hmnemonic (Mnemonic.mem_of_operation (Or.inr (Or.inl hop))))
    (fun hop => hmnemonic (Mnemonic.mem_of_operation (Or.inr (Or.inr hop)))) hstep with
    hnext | ⟨⟨flag, value, hbranch⟩, hthere⟩
  · refine ⟨j + 1, Nat.lt_succ_self j, hholds, ?_⟩
    have hwidth : m.registers.pc.toNat + 3 < addressSpace := by omega
    rw [hnext, toNat_add_of_lt_addressSpace hwidth, hpc]
    rfl
  · -- The distance is that of so many instructions, and there is room for all of them.
    obtain ⟨hpos, d, hd⟩ := hdistance (Form.mode_of_operation_eq_branch hform hbranch)
    have hsum := toNat_add_extend m.registers.pc t.first
    obtain ⟨-, hhigh⟩ := t.first.signed_bounds
    rw [← hthere, addressSpace] at hsum
    rw [addressSpace] at hfits
    exact ⟨j + d.toNat, by omega, hholds, by omega⟩

/-- **A run forward** goes through the program in order, and is over after as many polls as there
are instructions to come. -/
theorem runFrom (h : m.On start program j) (hforward : ∀ t ∈ program, t.Forward)
    (hfits : start + 3 * program.length + 126 < addressSpace) {budget : Nat}
    (hbudget : program.length ≤ j + budget) (polls : List Word) (journal : List Event)
    (hunwritten : ∀ i, start ≤ i → i < start + 3 * program.length →
      Unwritten i ((visits .never (start + 3 * program.length) budget polls m).flatMap fun v =>
        (Action.step v).events)) :
    InOrder start program j
      (Machine.runFrom .never (start + 3 * program.length) budget polls journal m)
      (visits .never (start + 3 * program.length) budget polls m) := by
  have hnever : ∀ pc polls, Suspension.never pc polls = false := fun _ _ => rfl
  induction budget generalizing j m polls journal with
  | zero =>
    have hend : start + 3 * program.length ≤ m.registers.pc.toNat := by
      have hpc := h.pc
      omega
    rw [visits_eq_nil_of_le 0 polls hend, runFrom_eq_of_le hend]
    exact ⟨fun _ => Ending.noConfusion, Nat.zero_le _, List.forall_mem_nil _, .nil⟩
  | succ budget ih =>
    have hpc := h.pc
    rcases Nat.lt_or_ge j program.length with hj | hj
    case inr =>
      have hend : start + 3 * program.length ≤ m.registers.pc.toNat := by omega
      rw [visits_eq_nil_of_le _ polls hend, runFrom_eq_of_le hend]
      exact ⟨fun _ => Ending.noConfusion, Nat.zero_le _, List.forall_mem_nil _, .nil⟩
    have ht := List.getElem?_eq_getElem hj
    have hfetches := h.fetches ht hfits
    have hbelow : m.registers.pc.toNat < start + 3 * program.length := by omega
    rcases hstep : Action.step m with ⟨fault | _, m₁, es⟩
    · obtain ⟨hrun, hvisits⟩ := run_of_fault budget polls journal hbelow (hnever _ _) hstep
      rw [hrun, hvisits]
      refine ⟨fun _ => Ending.noConfusion, by rw [List.length_singleton]; omega, ?_,
        List.pairwise_singleton _ _⟩
      exact List.forall_mem_singleton.2 ⟨j, _, Nat.le_refl j, ht, hpc, hfetches⟩
    · obtain ⟨hrun, hvisits⟩ := run_of_step budget polls journal hbelow (hnever _ _) hstep
      rw [hrun, hvisits]
      rw [hvisits] at hunwritten
      simp only [List.flatMap_cons, unwritten_append, hstep] at hunwritten
      obtain ⟨k, hk, hon⟩ := h.step ht (hforward _ (List.getElem_mem hj)) hfits hstep
        fun i hle hlt => (hunwritten i hle hlt).1
      obtain ⟨hover, hlength, hfetch, hincreasing⟩ := ih hon (by omega) _ _
        fun i hle hlt => (hunwritten i hle hlt).2
      refine ⟨hover, ?_, ?_, List.pairwise_cons.2 ⟨fun v hv => ?_, hincreasing⟩⟩
      · rw [List.length_cons]
        omega
      · refine List.forall_mem_cons.2 ⟨⟨j, _, Nat.le_refl j, ht, hpc, hfetches⟩, fun v hv => ?_⟩
        obtain ⟨l, t, hl, hrest⟩ := hfetch v hv
        exact ⟨l, t, by omega, hrest⟩
      · -- Whatever comes is at a later instruction.
        obtain ⟨l, -, hl, -, hlpc, -⟩ := hfetch v hv
        rw [UInt16.lt_iff_toNat_lt]
        omega

end On

end Machine

/-- **Programs that only go forward terminate.** Take a program that stands anywhere in memory,
whose instructions all go forward, with room for a branch past its end. If its run writes nothing to
where the image stands then it is over after as many polls as there are instructions, whatever is
in the registers, on the stack and elsewhere in memory, and more polls make no difference. It has
attempted each instruction at most once, and in the order of their addresses. -/
theorem execute_forward {program : List Triple} {m : Machine} {address : Word}
    (hforward : ∀ t ∈ program, t.Forward)
    (hholds : m.memory.Holds address.toNat (image program))
    (hfits : address.toNat + 3 + 3 * program.length + 126 < addressSpace)
    (hunwritten : ∀ i, address.toNat ≤ i → i < address.toNat + (image program).length →
      Unwritten i (m.execute .never program.length address).events) :
    Machine.InOrder (address.toNat + 3) program 0 (m.execute .never program.length address)
        (m.executeVisits .never program.length address) ∧
      ∀ more, m.execute .never (program.length + more) address =
        m.execute .never program.length address := by
  rcases hstart : Action.start address m with ⟨fault | stop, m₀, es⟩
  · -- A start that is rejected is over at once.
    have hrejected : ∀ budget, m.executeVisits .never budget address = [] ∧
        m.execute .never budget address =
          ⟨.faulted fault, { m₀ with state := .faulted }, [], es⟩ := fun budget => by
      rw [Machine.executeVisits, Machine.execute, hstart]
      exact ⟨rfl, rfl⟩
    simp only [hrejected]
    exact ⟨⟨fun _ => Ending.noConfusion, Nat.zero_le _, List.forall_mem_nil _, .nil⟩,
      fun _ => trivial⟩
  · have hmax : 3 * program.length ≤ maxBodyLength := by
      rw [addressSpace] at hfits
      rw [maxBodyLength]
      omega
    obtain ⟨hregion, hfirst, -⟩ := Action.start_eq_ok_iff.1 hstart
    obtain ⟨high, low, -, hstart'⟩ := Action.start_image hmax hregion hholds hfirst
    rw [hstart, length_image, ← Nat.add_assoc] at hstart'
    obtain ⟨rfl, rfl, rfl⟩ : stop = address.toNat + 3 + 3 * program.length ∧
        m₀ = (m.goto (address + 3)).inState .running ∧
        es = Action.headerEvents address high low := by
      cases hstart'
      exact ⟨rfl, rfl, rfl⟩
    have hstarted : ∀ budget, m.executeVisits .never budget address =
          Machine.visits .never (address.toNat + 3 + 3 * program.length) budget []
            ((m.goto (address + 3)).inState .running) ∧
        m.execute .never budget address =
          Machine.runFrom .never (address.toNat + 3 + 3 * program.length) budget []
            (Action.headerEvents address high low).reverse
            ((m.goto (address + 3)).inState .running) := fun budget => by
      rw [Machine.executeVisits, Machine.execute, hstart]
      exact ⟨rfl, rfl⟩
    have hroom : address.toNat + 3 < addressSpace := by omega
    have hon : ((m.goto (address + 3)).inState .running).On (address.toNat + 3) program 0 :=
      ⟨(Memory.holds_append.1 hholds).2, toNat_add_of_lt_addressSpace hroom⟩
    rw [length_image, Machine.events_execute] at hunwritten
    simp only [unwritten_append, hstarted] at hunwritten
    simp only [hstarted]
    have horder := hon.runFrom hforward hfits (Nat.le_add_left _ _) []
      (Action.headerEvents address high low).reverse fun i hle hlt =>
        (hunwritten i (by omega) (by omega)).2
    exact ⟨horder, fun more => Machine.runFrom_add_of_over horder.ends more⟩

/-- A machine with a program that branches over its second instruction as long as the carry is
clear. -/
def Machine.ofForwardBranch : Machine :=
  { Machine.ofSixteenCells with
    memory := (Memory.zeros 16).putAll 0 (image [⟨0x20, 6, 0⟩, ⟨0x04, 5, 0⟩, ⟨0x5A, 0, 0⟩]) }

/-- Of its three instructions only two are attempted, and then the program is over for good. -/
theorem execute_forward_ofForwardBranch :
    (∀ t ∈ ([⟨0x20, 6, 0⟩, ⟨0x04, 5, 0⟩, ⟨0x5A, 0, 0⟩] : List Triple), t.Forward) ∧
      ((Machine.ofForwardBranch.executeVisits .never 3 0).map fun v => v.registers.pc) = [3, 9] ∧
      ∀ more, (Machine.ofForwardBranch.execute .never (3 + more) 0).ending = .halted := by
  have hforward : ∀ t ∈ ([⟨0x20, 6, 0⟩, ⟨0x04, 5, 0⟩, ⟨0x5A, 0, 0⟩] : List Triple), t.Forward := by
    decide
  have hholds : Machine.ofForwardBranch.memory.Holds 0
      (image [⟨0x20, 6, 0⟩, ⟨0x04, 5, 0⟩, ⟨0x5A, 0, 0⟩]) := by
    unfold Memory.Holds
    decide +kernel
  have hunwritten : ∀ i < 12,
      Unwritten i (Machine.ofForwardBranch.execute .never 3 0).events := by
    decide +kernel
  have hending : (Machine.ofForwardBranch.execute .never 3 0).ending = .halted := by
    decide +kernel
  obtain ⟨-, hsame⟩ := @execute_forward _ Machine.ofForwardBranch 0 hforward hholds (by decide)
    fun i _ hi => hunwritten i hi
  exact ⟨hforward, by decide +kernel, fun more => (congrArg Run.ending (hsame more)).trans hending⟩

end EightBit
