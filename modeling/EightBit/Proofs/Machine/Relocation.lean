import EightBit.Proofs.Machine.Agreement
import EightBit.Proofs.Machine.Faults
import EightBit.Proofs.Machine.StraightLine
import EightBit.Proofs.Machine.Twins

/-!
# Relocation

An instruction that neither jumps nor calls nor returns takes notice of where it stands in one
way only: the program counter goes up by its width, or by a distance. So a program of such
instructions does the same wherever it stands, and may stand anywhere in program memory
(`EightBit.execute_relocated`).

Two things are put together here. To move the program counter by an offset is a change that
makes no difference to such an operation (`EightBit.Action.ignores_perform`), and what stands
in the two places of the program makes none, as long as no operation gets to it
(`EightBit.Action.blind_compositional`). Hence single steps of the one run and the other are
the same but for the offset (`EightBit.Machine.Relocated.step`).

The run as a whole also compares the program counter with the end of the program, as plain
numbers. Under way the program counter never leaves the image by more than a branch can
span, so if there is as much room on both sides of the image it does not wrap around, and
both runs are over at the same time (`EightBit.Machine.runFrom_relocated`).
-/

namespace EightBit

/-! ### Moving the program counter -/

/-- The machine as it is, but with its program counter moved by an offset. -/
def Machine.movedBy (m : Machine) (offset : Word) : Machine :=
  m.goto (m.registers.pc + offset)

/-- To be moved and to move on can be done in either order. -/
theorem Machine.advanced_movedBy (m : Machine) (offset : Word) :
    m.advanced.movedBy offset = (m.movedBy offset).advanced := by
  have hpc : m.registers.pc + 3 + offset = m.registers.pc + offset + 3 := by ac_rfl
  exact congrArg m.goto hpc

/-- The fault as it is, but with the address of the instruction moved by an offset. -/
def Fault.movedBy (fault : Fault) (offset : Word) : Fault :=
  match fault with
  | illegalInstruction opcode address => illegalInstruction opcode (address + offset)
  | fault => fault

/-- The faults that are open to an operation do not tell where it stands. -/
theorem Operation.CanFail.movedBy_eq {operation : Operation} {first second : Byte} {size : Nat}
    {fault : Fault} (h : operation.CanFail first second size fault) (offset : Word) :
    fault.movedBy offset = fault := by
  cases h <;> rfl

/-- **The distance between two places** takes one address to the other. -/
theorem toNat_add_sub {pc a b : Word} {there : Nat} (h : pc.toNat + b.toNat = a.toNat + there)
    (hthere : there < addressSpace) : (pc + (b - a)).toNat = there := by
  have ha := a.toNat_lt
  have hb := b.toNat_lt
  rw [addressSpace] at hthere
  rw [UInt16.toNat_add, UInt16.toNat_sub]
  omega

namespace Action

theorem ignores_updateRegisters {offset : Word} {f : Registers → Registers}
    (hf : ∀ r : Registers, f { r with pc := r.pc + offset } =
      { f r with pc := (f r).pc + offset }) :
    (updateRegisters f).Ignores fun m => m.movedBy offset := fun m =>
  congrArg (fun r => (⟨.ok (), { m with registers := r }, []⟩ : Outcome Unit)) (hf m.registers)

/-- **The program counter makes no difference** to anything but transfers of control. -/
theorem ignores_movedBy (offset : Word) :
    Compositional (Ignores fun m => m.movedBy offset) := by
  refine ignores_compositional ⟨fun _ => rfl, fun _ => rfl, fun _ _ => rfl, fun _ _ => rfl⟩
    (fun g hg m => ?_) fun f hf => ignores_updateRegisters fun r => ?_
  · exact congrArg (fun a => (⟨.ok a, m.movedBy offset, []⟩ : Outcome _)) (hg m.registers _)
  · have hkept := congrArg Registers.pc (hf r r.pc)
    have hpc : (f r).pc = r.pc := hkept
    rw [hf, hpc]

/-- A branch counts from where it stands. -/
theorem ignores_branch (offset : Word) (flag : Flag) (value : Bool) (distance : Byte) :
    (branch flag value distance).Ignores fun m => m.movedBy offset := by
  refine ignores_updateRegisters fun r => ?_
  have hpc : r.pc + offset + distance.extend - 3 = r.pc + distance.extend - 3 + offset := by
    rw [UInt16.sub_eq_add_neg, UInt16.sub_eq_add_neg]
    ac_rfl
  dsimp only
  split
  · rw [hpc]
  · rfl

variable {operation : Operation} {mode : Mode} {first second : Byte} {place : Place}

/-- **An operation that does not jump, call or return** does the same wherever it stands. -/
theorem ignores_perform (offset : Word) (hjump : operation ≠ .jump) (hcall : operation ≠ .call)
    (hback : operation ≠ .comeBack) :
    (perform operation mode first second place).Ignores fun m => m.movedBy offset := by
  refine (ignores_movedBy offset).perform fun htransfers => ?_
  cases operation with
  | branch flag value => exact ignores_branch offset flag value first
  | jump => exact absurd rfl hjump
  | call => exact absurd rfl hcall
  | comeBack => exact absurd rfl hback
  | _ => exact nomatch htransfers

end Action

/-! ### The same image in two places -/

/-- The cells of an image of some length that stands at one address or the other. -/
def Places (a b length : Nat) (i : Nat) : Prop :=
  (a ≤ i ∧ i < a + length) ∨ (b ≤ i ∧ i < b + length)

/-- **The same machine, with an image in another place**: the same but for the program counter,
which is as far from the image, and for what stands in the two places. -/
structure Machine.Relocated (a b : Word) (values : List Byte) (m m' : Machine) : Prop where
  twin : (m.movedBy (b - a)).Twin (Places a.toNat b.toNat values.length) m'
  here : m.memory.Holds a.toNat values
  there : m'.memory.Holds b.toNat values

/-- **The same outcome of a step** in another place: the same but for the program counter, for
the address of an illegal instruction, and for what stands in some cells. -/
structure Outcome.Relocated (a b : Word) (cells : Nat → Prop) (o o' : Outcome Unit) : Prop where
  result : o'.result = o.result.mapError fun fault => fault.movedBy (b - a)
  printed : printed o'.events = printed o.events
  machine : (o.machine.movedBy (b - a)).Twin cells o'.machine

/-- **A machine keeps within an image** that stands at an address: all three bytes of its
instruction are part of the image, the instruction neither jumps nor calls nor returns, and
its operation gets to none of some cells. -/
structure Machine.KeepsWithin (start length : Nat) (cells : Nat → Prop) (m : Machine) : Prop where
  fetch : ∃ j, j + 3 ≤ length ∧ m.registers.pc.toNat = start + j
  relative : ∀ operation, m.operation? = some operation →
    operation ≠ .jump ∧ operation ≠ .call ∧ operation ≠ .comeBack
  data : Spares cells m.dataEvents

/-- Any three bytes in a row could be an instruction. -/
theorem Memory.exists_holds_bytes {values : List Byte} {j : Nat} (hj : j + 3 ≤ values.length) :
    ∃ t : Triple, ∀ (m : Memory) (start : Nat), m.Holds start values →
      m.Holds (start + j) t.bytes := by
  refine ⟨⟨values[j], values[j + 1], values[j + 2]⟩, fun m start h i hi => ?_⟩
  have hlt : i < 3 := hi
  rw [Nat.add_assoc, h (j + i) (by omega)]
  obtain rfl | rfl | rfl : i = 0 ∨ i = 1 ∨ i = 2 := by omega
  all_goals rfl

namespace Machine

variable {a b : Word} {values : List Byte} {m m' : Machine}

namespace Relocated

/-- The same instruction stands in both places. -/
theorem fetches (h : m.Relocated a b values m') {j : Nat} (hj : j + 3 ≤ values.length)
    (hpc : m.registers.pc.toNat = a.toNat + j) (ha : a.toNat + values.length ≤ addressSpace)
    (hb : b.toNat + values.length ≤ addressSpace) : ∃ t, m.Fetches t ∧ m'.Fetches t := by
  obtain ⟨t, ht⟩ := Memory.exists_holds_bytes hj
  have hpc' : m'.registers.pc.toNat = b.toNat + j := by
    rw [h.twin.registers]
    exact toNat_add_sub (by omega) (by omega)
  refine ⟨t, fetches_of_holds ?_ (by omega), fetches_of_holds ?_ (by omega)⟩
  · exact hpc ▸ ht _ _ h.here
  · exact hpc' ▸ ht _ _ h.there

/-- **An action that the program counter makes no difference to** does the same to both
machines, if it gets to neither place. -/
theorem exists_eq {α : Type} {x : Action α} (h : m.Relocated a b values m')
    (hignores : x.Ignores fun m => m.movedBy (b - a))
    (hblind : x.Blind (Places a.toNat b.toNat values.length))
    (hspares : Spares (Places a.toNat b.toNat values.length) (x m).events) :
    ∃ result m₁ m₁' data, x m = ⟨result, m₁, data⟩ ∧ x m' = ⟨result, m₁', data⟩ ∧
      (m₁.movedBy (b - a)).Twin (Places a.toNat b.toNat values.length) m₁' := by
  have hmoved := hignores m
  rcases hx : x m with ⟨result, m₁, data⟩
  rw [hx] at hmoved hspares
  obtain ⟨hresult, hevents, hmachine⟩ := hblind (m.movedBy (b - a)) m' h.twin (by rwa [hmoved])
  rw [hmoved] at hresult hevents hmachine
  rcases hx' : x m' with ⟨result', m₁', data'⟩
  rw [hx'] at hresult hevents hmachine
  obtain rfl : result' = result := hresult
  obtain rfl : data' = data := hevents
  exact ⟨result', m₁, m₁', data', rfl, rfl, hmachine⟩

/-- **An instruction without a form** is illegal in both places. -/
theorem step_of_illegal (h : m.Relocated a b values m') {t : Triple} (ht : m.Fetches t)
    (ht' : m'.Fetches t) (hform : Form.ofOpcode? t.opcode = none) :
    (Action.step m).Relocated a b (Places a.toNat b.toNat values.length) (Action.step m') ∧
      m'.dataEvents = m.dataEvents := by
  rw [dataEvents_of_illegal ht hform, dataEvents_of_illegal ht' hform,
    Action.step_of_illegal ht hform, Action.step_of_illegal ht' hform, h.twin.registers]
  exact ⟨⟨rfl, rfl, h.twin⟩, rfl⟩

/-- **An instruction that does not jump, call or return** does the same in both places. -/
theorem step_of_form (h : m.Relocated a b values m') {t : Triple} (ht : m.Fetches t)
    (ht' : m'.Fetches t) {form : Form} (hform : Form.ofOpcode? t.opcode = some form)
    (hjump : form.mnemonic.operation ≠ .jump) (hcall : form.mnemonic.operation ≠ .call)
    (hback : form.mnemonic.operation ≠ .comeBack)
    (hspares : Spares (Places a.toNat b.toNat values.length) m.dataEvents) :
    (Action.step m).Relocated a b (Places a.toNat b.toNat values.length) (Action.step m') ∧
      m'.dataEvents = m.dataEvents := by
  have hplace : form.mode.place m'.registers t.first t.second =
      form.mode.place m.registers t.first t.second := by
    rw [h.twin.registers]
    cases form.mode <;> rfl
  have hdata := dataEvents_eq ht hform
  have hdata' := dataEvents_eq ht' hform
  rw [hdata] at hspares
  obtain ⟨result, m₁, m₁', data, hperform, hperform', htwin⟩ :=
    h.exists_eq (Action.ignores_perform (b - a) hjump hcall hback)
      (Action.blind_compositional.performAny _ _ _ _ _) hspares
  rw [hdata, hdata', Action.step_eq ht hform, Action.step_eq ht' hform, hplace]
  cases result with
  | error fault =>
    have hfails := Action.failsOnly_perform m.memory.size form.mnemonic.operation form.mode
      t.first t.second (form.mode.place m.registers t.first t.second) m rfl
    have hfault := (hfails.fails fault (by rw [hperform])).movedBy_eq (b - a)
    -- None of the faults of an operation tells where the instruction stands.
    rw [Action.bind_error hperform, Action.bind_error hperform', hperform, hperform']
    exact ⟨⟨congrArg Except.error hfault.symm, rfl, htwin⟩, rfl⟩
  | ok _ =>
    rw [Action.bind_ok hperform, Action.bind_ok hperform', hperform, hperform',
      Action.advance_eq, Action.advance_eq]
    refine ⟨⟨rfl, ?_, ?_⟩, rfl⟩
    · simp only [printed_append]
      rfl
    · rw [advanced_movedBy]
      exact htwin.withRegisters fun r => { r with pc := r.pc + 3 }

/-- **A step within the image** is the same in both places, and leaves both images as they
are. -/
theorem step (h : m.Relocated a b values m')
    (hkeeps : m.KeepsWithin a.toNat values.length (Places a.toNat b.toNat values.length))
    (ha : a.toNat + values.length ≤ addressSpace) (hb : b.toNat + values.length ≤ addressSpace) :
    (Action.step m).Relocated a b (Places a.toNat b.toNat values.length) (Action.step m') ∧
      (Action.step m).machine.Relocated a b values (Action.step m').machine := by
  obtain ⟨⟨j, hj, hpc⟩, hrelative, hspares⟩ := hkeeps
  obtain ⟨t, ht, ht'⟩ := h.fetches hj hpc ha hb
  have hsame : (Action.step m).Relocated a b (Places a.toNat b.toNat values.length)
      (Action.step m') ∧ m'.dataEvents = m.dataEvents := by
    cases hform : Form.ofOpcode? t.opcode with
    | none => exact h.step_of_illegal ht ht' hform
    | some form =>
      obtain ⟨hjump, hcall, hback⟩ :=
        hrelative _ (operation?_eq_some_iff.2 ⟨t, form, ht, hform, rfl⟩)
      exact h.step_of_form ht ht' hform hjump hcall hback hspares
  obtain ⟨houtcome, hdata⟩ := hsame
  -- The second machine gets to the same cells, so it leaves its image as it is, too.
  have hspares' := hspares
  rw [← hdata] at hspares'
  refine ⟨houtcome, houtcome.machine, ?_, ?_⟩
  · exact h.here.of_cells fun i hle hlt =>
      Action.cell?_step_of_spares hspares (Or.inl ⟨hle, hlt⟩)
  · exact h.there.of_cells fun i hle hlt =>
      Action.cell?_step_of_spares hspares' (Or.inr ⟨hle, hlt⟩)

end Relocated

end Machine

/-! ### Runs -/

/-- **Near an image**: no farther away from it than a branch can span. -/
def Near (start length : Nat) (pc : Word) : Prop :=
  start ≤ pc.toNat + 128 ∧ pc.toNat < start + length + 128

/-- **The program counter stays near the image**, if there is room on both sides of it. -/
theorem Machine.KeepsWithin.near {start length : Nat} {cells : Nat → Prop} {m m' : Machine}
    {es : List Event} (h : m.KeepsWithin start length cells) (hbefore : 128 ≤ start)
    (hafter : start + length + 128 ≤ addressSpace) (hstep : Action.step m = ⟨.ok (), m', es⟩) :
    Near start length m'.registers.pc := by
  obtain ⟨⟨j, hj, hpc⟩, hrelative, -⟩ := h
  obtain ⟨t, form, -, -, ht, hform, -⟩ := Action.step_eq_ok_iff.1 hstep
  obtain ⟨hjump, hcall, hback⟩ :=
    hrelative _ (Machine.operation?_eq_some_iff.2 ⟨t, form, ht, hform, rfl⟩)
  rw [Near]
  rcases Action.pc_of_step_cases ht hform hjump hcall hback hstep with hnext | ⟨-, hthere⟩
  · have hwidth : m.registers.pc.toNat + 3 < addressSpace := by omega
    rw [hnext, toNat_add_of_lt_addressSpace hwidth]
    change _ ≤ m.registers.pc.toNat + 3 + 128 ∧ m.registers.pc.toNat + 3 < _
    omega
  · have hsum := toNat_add_extend m.registers.pc t.first
    obtain ⟨hlow, hhigh⟩ := t.first.signed_bounds
    rw [← hthere, addressSpace] at hsum
    rw [addressSpace] at hafter
    omega

/-- **Both runs are over at the same time.** -/
theorem Near.stop_iff {a b pc : Word} {length : Nat} (h : Near a.toNat length pc)
    (hbefore : 128 ≤ b.toNat) (hafter : b.toNat + length + 128 ≤ addressSpace) :
    b.toNat + length ≤ (pc + (b - a)).toNat ↔ a.toNat + length ≤ pc.toNat := by
  obtain ⟨hlow, hhigh⟩ := h
  have hthere : (pc + (b - a)).toNat = pc.toNat + b.toNat - a.toNat :=
    toNat_add_sub (by omega) (by omega)
  rw [hthere]
  omega

/-- The same ending, of a run in another place. -/
def Ending.relocated (a b : Word) : Ending → Ending
  | halted => halted
  | faulted fault => faulted (fault.movedBy (b - a))
  | paused stop => paused (stop - a.toNat + b.toNat)

/-- **The same run in another place**: the same but for the program counter, for where the
program ends, and for what stands in some cells. -/
structure Run.Relocated (a b : Word) (cells : Nat → Prop) (r r' : Run) : Prop where
  ending : r'.ending = r.ending.relocated a b
  polls : r'.polls = r.polls.map (· + (b - a))
  printed : printed r'.events = printed r.events
  machine : (r.machine.movedBy (b - a)).Twin cells r'.machine

namespace Machine

variable {a b : Word} {values : List Byte} {m m' : Machine}

/-- **Runs in both places are the same**, as long as the one of them keeps within the image. -/
theorem runFrom_relocated {budget : Nat} {polls : List Word} {journal journal' : List Event}
    (hjournal : printed journal'.reverse = printed journal.reverse)
    (hkeeps : ∀ v ∈ m.visits .never (a.toNat + values.length) budget polls,
      v.KeepsWithin a.toNat values.length (Places a.toNat b.toNat values.length))
    (hnear : Near a.toNat values.length m.registers.pc)
    (ha : 128 ≤ a.toNat) (ha' : a.toNat + values.length + 128 ≤ addressSpace)
    (hb : 128 ≤ b.toNat) (hb' : b.toNat + values.length + 128 ≤ addressSpace)
    (h : m.Relocated a b values m') :
    (m.runFrom .never (a.toNat + values.length) budget polls journal).Relocated a b
      (Places a.toNat b.toNat values.length)
      (m'.runFrom .never (b.toNat + values.length) budget (polls.map (· + (b - a))) journal') := by
  induction budget generalizing polls journal journal' m m' with
  | zero =>
    have hpc : m'.registers.pc = m.registers.pc + (b - a) := congrArg Registers.pc h.twin.registers
    have hstop := hnear.stop_iff hb hb'
    rw [runFrom, runFrom, hpc]
    by_cases hover : a.toNat + values.length ≤ m.registers.pc.toNat
    · rw [if_pos hover, if_pos (hstop.2 hover)]
      exact ⟨rfl, (List.map_reverse ..).symm, hjournal, h.twin.inState .halted⟩
    · rw [if_neg hover, if_neg fun h => hover (hstop.1 h)]
      refine ⟨congrArg Ending.paused ?_, (List.map_reverse ..).symm, hjournal, h.twin⟩
      omega
  | succ budget ih =>
    have hpc : m'.registers.pc = m.registers.pc + (b - a) := congrArg Registers.pc h.twin.registers
    have hstop := hnear.stop_iff hb hb'
    rw [visits] at hkeeps
    rw [runFrom, runFrom, hpc]
    by_cases hover : a.toNat + values.length ≤ m.registers.pc.toNat
    · rw [if_pos hover, if_pos (hstop.2 hover)]
      exact ⟨rfl, (List.map_reverse ..).symm, hjournal, h.twin.inState .halted⟩
    · rw [if_neg hover, Suspension.never, if_neg (by decide)] at hkeeps
      rw [if_neg hover, if_neg fun h => hover (hstop.1 h), Suspension.never, if_neg (by decide),
        Suspension.never, if_neg (by decide)]
      obtain ⟨hfirst, hrest⟩ := List.forall_mem_cons.1 hkeeps
      obtain ⟨⟨hresult, hprinted, -⟩, hrelocated⟩ := h.step hfirst (by omega) (by omega)
      rcases hm : Action.step m with ⟨result, m₁, es⟩
      rcases hm' : Action.step m' with ⟨result', m₁', es'⟩
      rw [hm, hm'] at hresult hprinted hrelocated
      rw [hm] at hrest
      obtain rfl : result' = result.mapError fun f => f.movedBy (b - a) := hresult
      have hlonger : printed (es'.reverse ++ journal').reverse =
          printed (es.reverse ++ journal).reverse := by
        simp only [List.reverse_append, List.reverse_reverse, printed_append, hjournal]
        rw [hprinted]
      cases result with
      | error fault =>
        have hpolls : ((m.registers.pc :: polls).map (· + (b - a))).reverse =
            (m.registers.pc :: polls).reverse.map (· + (b - a)) := (List.map_reverse ..).symm
        exact ⟨rfl, hpolls, hlonger, hrelocated.twin.inState .faulted⟩
      | ok _ => exact ih hlonger hrest (hfirst.near ha ha' hm) hrelocated

end Machine

/-- **A program may stand anywhere in program memory, if it only branches.** Take any image
that has just the length that it announces, in one place of a machine and in another place of
a machine that is the same but for these two places. Program memory starts past the reach of a
branch, as it does in the customary layout, and both places end as far from the end of the
address space. As long as the first machine keeps within the image and gets to neither place
otherwise, a run of the one is a run of the other, after any number of instructions: with the
same ending, but for the address of an illegal instruction, with the same output, and with the
same machine left behind, but for the program counter, which has been moved from the one place
to the other, and for the two places themselves. -/
theorem execute_relocated {high low : Byte} {body : List Byte} {a b : Word} {m m' : Machine}
    {budget : Nat} (hlength : body.length = (Word.ofBytes high low).toNat)
    (hbefore : 128 ≤ m.programMemory.start)
    (ha : m.programMemory.contains a.toNat = true) (hb : m.programMemory.contains b.toNat = true)
    (ha' : a.toNat + (body.length + 3) + 128 ≤ addressSpace)
    (hb' : b.toNat + (body.length + 3) + 128 ≤ addressSpace)
    (hsize : addressSpace ≤ m.memory.size)
    (hsame : m.Twin (Places a.toNat b.toNat (body.length + 3)) m')
    (hhere : m.memory.Holds a.toNat (headerMarker :: high :: low :: body))
    (hthere : m'.memory.Holds b.toNat (headerMarker :: high :: low :: body))
    (hkeeps : ∀ v ∈ m.executeVisits .never budget a,
      v.KeepsWithin a.toNat (body.length + 3) (Places a.toNat b.toNat (body.length + 3))) :
    (m.execute .never budget a).Relocated a b (Places a.toNat b.toNat (body.length + 3))
      (m'.execute .never budget b) := by
  have hstart := Action.start_of_holds hlength ha hhere (by
    rw [Nat.lt_min]
    omega)
  have hstart' := Action.start_of_holds hlength (hsame.programMemory ▸ hb) hthere (by
    rw [hsame.size, Nat.lt_min]
    omega)
  rw [Region.contains, decide_eq_true_iff] at ha hb
  rw [Machine.executeVisits, hstart] at hkeeps
  rw [Machine.execute, Machine.execute, hstart, hstart']
  have hwidth : a.toNat + 3 < addressSpace := by omega
  have hpc : (a + 3).toNat = a.toNat + 3 := toNat_add_of_lt_addressSpace hwidth
  have hnear : Near a.toNat (body.length + 3) (a + 3) := by
    rw [Near, hpc]
    omega
  have htwin : (((m.goto (a + 3)).inState .running).movedBy (b - a)).Twin
      (Places a.toNat b.toNat (body.length + 3)) ((m'.goto (b + 3)).inState .running) := by
    have hmoved : a + 3 + (b - a) = b + 3 := by grind
    change ((m.goto (a + 3 + (b - a))).inState .running).Twin _ _
    rw [hmoved]
    exact (hsame.withRegisters fun r => { r with pc := b + 3 }).inState .running
  have hrelocated : ((m.goto (a + 3)).inState .running).Relocated a b
      (headerMarker :: high :: low :: body) ((m'.goto (b + 3)).inState .running) :=
    ⟨htwin, hhere, hthere⟩
  -- Only the two headers have been read so far.
  have hjournal : printed (Action.headerEvents b high low).reverse.reverse =
      printed (Action.headerEvents a high low).reverse.reverse := rfl
  exact Machine.runFrom_relocated hjournal hkeeps hnear (by omega) ha' (by omega) hb' hrelocated

/-- The image of a program that counts X down from two to zero. -/
def countdown : List Byte :=
  [headerMarker, 0, 9, 0x0A, 2, 0, 0x53, 0, 0, 0x22, 0xFD, 0]

/-- A machine with this image at an address. -/
def Machine.ofCountdown (start : Nat) : Machine where
  registers := {}
  stack := .new 16 2
  programMemory := ⟨128, 256⟩
  state := .ready
  memory := (Memory.zeros addressSpace).putAll start countdown

/-- The loop of the countdown is left after five instructions, in one place and in another. -/
theorem execute_relocated_countdown :
    ((Machine.ofCountdown 128).execute .never 5 128).ending = .halted ∧
      ((Machine.ofCountdown 128).execute .never 5 128).Relocated 128 160 (Places 128 160 12)
        ((Machine.ofCountdown 160).execute .never 5 160) := by
  have hload : (Memory.zeros addressSpace).load 128 countdown =
      .ok (Machine.ofCountdown 128).memory := rfl
  have hload' : (Memory.zeros addressSpace).load 160 countdown =
      .ok (Machine.ofCountdown 160).memory := rfl
  have hsize : (Machine.ofCountdown 128).memory.size = addressSpace := Memory.size_putAll ..
  have hsame : (Machine.ofCountdown 128).Twin (Places 128 160 12) (Machine.ofCountdown 160) := by
    refine ⟨rfl, rfl, rfl, rfl, (Memory.size_putAll ..).trans hsize.symm, fun i hi => ?_⟩
    rw [(Memory.cell?_of_load_eq_ok hload).2 i fun h => hi (Or.inl h),
      (Memory.cell?_of_load_eq_ok hload').2 i fun h => hi (Or.inr h)]
  have hvisits : ((Machine.ofCountdown 128).executeVisits .never 5 128).map
      (fun v => (v.registers.pc.toNat, v.operation?, v.dataEvents)) =
        [(131, some (.load .x), []), (134, some (.countRegister .down .x), []),
          (137, some (.branch .zero false), []), (134, some (.countRegister .down .x), []),
          (137, some (.branch .zero false), [])] := by
    decide +kernel
  have hkeeps : ∀ v ∈ (Machine.ofCountdown 128).executeVisits .never 5 128,
      v.KeepsWithin 128 12 (Places 128 160 12) := by
    intro v hv
    have hmem := List.mem_map_of_mem
      (f := fun v : Machine => (v.registers.pc.toNat, v.operation?, v.dataEvents)) hv
    rw [hvisits] at hmem
    simp only [List.mem_cons, List.not_mem_nil, or_false, Prod.mk.injEq] at hmem
    have hwithin : ∀ j operation, j + 3 ≤ 12 → v.registers.pc.toNat = 128 + j →
        v.operation? = some operation →
        operation ≠ .jump ∧ operation ≠ .call ∧ operation ≠ .comeBack → v.dataEvents = [] →
          v.KeepsWithin 128 12 (Places 128 160 12) := by
      intro j operation hj hpc hoperation hrelative hdata
      refine ⟨⟨j, hj, hpc⟩, fun other hother => ?_, ?_⟩
      · obtain rfl := Option.some.inj (hoperation.symm.trans hother)
        exact hrelative
      · rw [hdata]
        exact List.forall_mem_nil _
    rcases hmem with ⟨hpc, hop, hdata⟩ | ⟨hpc, hop, hdata⟩ | ⟨hpc, hop, hdata⟩ |
      ⟨hpc, hop, hdata⟩ | ⟨hpc, hop, hdata⟩
    · exact hwithin 3 _ (by decide) hpc hop (by decide) hdata
    · exact hwithin 6 _ (by decide) hpc hop (by decide) hdata
    · exact hwithin 9 _ (by decide) hpc hop (by decide) hdata
    · exact hwithin 6 _ (by decide) hpc hop (by decide) hdata
    · exact hwithin 9 _ (by decide) hpc hop (by decide) hdata
  have hlength : ([0x0A, 2, 0, 0x53, 0, 0, 0x22, 0xFD, 0] : List Byte).length =
      (Word.ofBytes 0 9).toNat := rfl
  exact ⟨by decide +kernel, execute_relocated (a := 128) (b := 160) (m := .ofCountdown 128) hlength
    (Nat.le_refl _) (by decide) (by decide) (by decide) (by decide) (Nat.le_of_eq hsize.symm) hsame
    (Memory.holds_of_load_eq_ok hload) (Memory.holds_of_load_eq_ok hload') hkeeps⟩

end EightBit
