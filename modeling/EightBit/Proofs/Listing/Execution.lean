import EightBit.Proofs.Listing.RoundTrip
import EightBit.Proofs.Machine.Operand
import EightBit.Proofs.Machine.Twins

/-!
# Running what has been listed

An image that is assembled from a listing has zeros in place of the operand bytes that no
listing shows. These bytes make no difference to a run: what an operation does depends on
an operand byte only if the mode has a use for it (`EightBit.Action.perform_eq_of_uses`).

So the listed image and the one assembled from the listing make twins of the machines
that they are loaded into, with the gaps where an operand byte has no use
(`EightBit.Gap`). Steps of twins are alike up to the bytes that are fetched, for as long as
instructions are fetched from where instructions stand and nothing else gets to the image
(`EightBit.Machine.Twin.step`); and so are runs (`EightBit.execute_listed`).
-/

namespace EightBit

namespace Action

/-- **An operation does not depend on operand bytes that its mode has no use for.** -/
theorem perform_eq_of_uses {operation : Operation} {mode : Mode}
    {first second first' second' : Byte} (hsuits : mode.suits operation = true)
    (hfirst : mode.usesFirst = true → first' = first)
    (hsecond : mode.usesSecond = true → second' = second) (r : Registers) :
    perform operation mode first' second' (mode.place r first' second') =
      perform operation mode first second (mode.place r first second) := by
  cases mode with
  | absolute | absoluteIndirect | registerCoded | indexedW | indexedX =>
    rw [hfirst rfl, hsecond rfl]
  -- Operations that look at the second operand byte do not have these modes.
  | immediate | relative =>
    rw [hfirst rfl]
    cases operation <;> first | rfl | exact absurd hsuits Bool.false_ne_true
  -- Operations that look at any operand byte do not have these.
  | implicit | accumulator =>
    cases operation <;> first | rfl | exact absurd hsuits Bool.false_ne_true

end Action

/-! ### Steps of twins -/

/-- The same outcome, but for the gaps and the bytes that are read. -/
structure Outcome.Alike {α : Type} (gaps : Nat → Prop) (o o' : Outcome α) : Prop where
  result : o'.result = o.result
  events : o'.events.map Event.shape = o.events.map Event.shape
  machine : o.machine.Twin gaps o'.machine

namespace Machine.Twin

open EightBit.Action

variable {gaps : Nat → Prop} {m m' : Machine} (h : m.Twin gaps m')

include h

/-- Any cell is read alike, up to the byte if it is a gap. -/
theorem read_cases (address : Word) :
    (∃ fault, read address m = ⟨.error fault, m, [.read address none]⟩ ∧
      read address m' = ⟨.error fault, m', [.read address none]⟩) ∨
    ∃ v v', m.memory.cell? address.toNat = some v ∧ m'.memory.cell? address.toNat = some v' ∧
      (¬gaps address.toNat → v' = v) := by
  cases hm : m.memory.cell? address.toNat with
  | none =>
    have hm' := (h.cell?_eq_none_iff _).2 hm
    refine Or.inl ⟨_, read_error hm, ?_⟩
    rw [read_error hm', h.size]
  | some v =>
    cases hm' : m'.memory.cell? address.toNat with
    | none => exact nomatch hm.symm.trans ((h.cell?_eq_none_iff _).1 hm')
    | some v' =>
      refine Or.inr ⟨v, v', rfl, rfl, fun hgap => ?_⟩
      exact Option.some.inj (hm'.symm.trans ((h.cells _ hgap).trans hm))

/-- **An operation with its move past the instruction** is performed alike, if the operand
bytes differ only where they have no use. -/
theorem perform {form : Form} {opcode first second first' second' : Byte}
    (hform : Form.ofOpcode? opcode = some form)
    (hfirst : form.mode.usesFirst = true → first' = first)
    (hsecond : form.mode.usesSecond = true → second' = second)
    (hspares : Spares gaps (Action.perform form.mnemonic.operation form.mode first second
      (form.mode.place m.registers first second) m).events) :
    ((Action.perform form.mnemonic.operation form.mode first second
        (form.mode.place m.registers first second) >>= fun _ => advance) m).Twin gaps
      ((Action.perform form.mnemonic.operation form.mode first' second'
        (form.mode.place m'.registers first' second') >>= fun _ => advance) m') := by
  rw [h.registers, perform_eq_of_uses (suits_of_ofOpcode? hform) hfirst hsecond]
  refine .bind (blind_compositional.performAny _ _ _ _ _ m m' h hspares) fun _ m₁ _ _ m₁' h₁ => ?_
  refine blind_compositional.advance m₁ m₁' h₁ ?_
  rw [advance_eq]
  exact List.forall_mem_singleton.2 fun address haddress => nomatch haddress

/-- **Steps of twins are alike** if the opcode is no gap, the operand bytes that its mode
uses are none, and the operation spares the gaps. -/
theorem step (hopcode : ¬gaps m.registers.pc.toNat)
    (hoperands : ∀ opcode form, m.memory.cell? m.registers.pc.toNat = some opcode →
      Form.ofOpcode? opcode = some form →
        (form.mode.usesFirst = true → ¬gaps (m.registers.pc + 1).toNat) ∧
        (form.mode.usesSecond = true → ¬gaps (m.registers.pc + 2).toNat))
    (hspares : Spares gaps m.dataEvents) : (Action.step m).Alike gaps (Action.step m') := by
  have hpc : m'.registers.pc = m.registers.pc := congrArg Registers.pc h.registers
  obtain ⟨fault, hm, hm'⟩ | ⟨opcode, opcode', hm₀, hm₀', hsame₀⟩ := h.read_cases m.registers.pc
  · rw [step_of_opcode_missing hm, step_of_opcode_missing (by rw [hpc]; exact hm')]
    exact ⟨rfl, rfl, h⟩
  obtain rfl := hsame₀ hopcode
  rw [← hpc] at hm₀'
  obtain ⟨fault, hm, hm'⟩ | ⟨first, first', hm₁, hm₁', hsame₁⟩ :=
    h.read_cases (m.registers.pc + 1)
  · rw [step_of_first_missing hm₀ hm, step_of_first_missing hm₀' (by rw [hpc]; exact hm'), hpc]
    exact ⟨rfl, rfl, h⟩
  rw [← hpc] at hm₁'
  obtain ⟨fault, hm, hm'⟩ | ⟨second, second', hm₂, hm₂', hsame₂⟩ :=
    h.read_cases (m.registers.pc + 2)
  · rw [step_of_second_missing hm₀ hm₁ hm,
      step_of_second_missing hm₀' hm₁' (by rw [hpc]; exact hm'), hpc]
    exact ⟨rfl, rfl, h⟩
  rw [← hpc] at hm₂'
  have ht : m.Fetches ⟨opcode', first, second⟩ := ⟨hm₀, hm₁, hm₂⟩
  have ht' : m'.Fetches ⟨opcode', first', second'⟩ := ⟨hm₀', hm₁', hm₂'⟩
  -- The two instructions are fetched at the same addresses.
  have hfetch : (m'.fetchEvents ⟨opcode', first', second'⟩).map Event.shape =
      (m.fetchEvents ⟨opcode', first, second⟩).map Event.shape := by
    rw [fetchEvents, fetchEvents, hpc]
    rfl
  cases hform : Form.ofOpcode? opcode' with
  | none =>
    rw [step_of_illegal ht hform, step_of_illegal ht' hform, hpc]
    exact ⟨rfl, hfetch, h⟩
  | some form =>
    obtain ⟨hfirst, hsecond⟩ := hoperands _ form hm₀ hform
    rw [dataEvents_eq ht hform] at hspares
    obtain ⟨hresult, hevents, hmachine⟩ := h.perform hform (fun huse => hsame₁ (hfirst huse))
      (fun huse => hsame₂ (hsecond huse)) hspares
    rw [step_eq ht hform, step_eq ht' hform]
    refine ⟨hresult, ?_, hmachine⟩
    dsimp only
    rw [List.map_append, List.map_append, hfetch, hevents]

end Machine.Twin

/-! ### Programs and their gaps -/

/-- Whether an instruction in a mode has a use for one of its three bytes. -/
def Mode.uses (mode : Mode) : Nat → Bool
  | 1 => mode.usesFirst
  | 2 => mode.usesSecond
  | _ => true

/-- **Where a program has gaps**, if its first instruction stands at an address: the
operand bytes that nothing uses. -/
def Gap (start : Nat) (program : List Triple) (address : Nat) : Prop :=
  ∃ j k t form, k < 3 ∧ program[j]? = some t ∧ Form.ofOpcode? t.opcode = some form ∧
    form.mode.uses k = false ∧ address = start + 3 * j + k

section

variable {start address : Nat} {program : List Triple}

/-- A gap is one of the two operand bytes of an instruction. -/
theorem Gap.exists_eq (h : Gap start program address) :
    ∃ j < program.length, address = start + 3 * j + 1 ∨ address = start + 3 * j + 2 := by
  obtain ⟨j, k, t, form, hk, ht, -, hno, rfl⟩ := h
  refine ⟨j, (List.getElem?_eq_some_iff.1 ht).1, ?_⟩
  have hpos : k ≠ 0 := by
    rintro rfl
    exact Bool.false_ne_true hno.symm
  omega

/-- **A byte that is used is no gap.** -/
theorem not_gap {j k : Nat} {t : Triple} (hk : k < 3) (ht : program[j]? = some t)
    (huse : ∀ form, Form.ofOpcode? t.opcode = some form → form.mode.uses k = true) :
    ¬Gap start program (start + 3 * j + k) := by
  rintro ⟨i, l, t', form, hl, ht', hform, hno, heq⟩
  -- Instructions do not overlap, so it is the same byte of the same instruction.
  obtain rfl : j = i := by omega
  obtain rfl : k = l := by omega
  obtain rfl := Option.some.inj (ht.symm.trans ht')
  exact Bool.false_ne_true (hno.symm.trans (huse form hform))

end

/-- **The canonical form keeps every byte that is used.** -/
theorem Triple.getElem?_bytes_canonical {t : Triple} {k : Nat}
    (huse : ∀ form, Form.ofOpcode? t.opcode = some form → form.mode.uses k = true) :
    t.canonical.bytes[k]? = t.bytes[k]? := by
  cases hform : Form.ofOpcode? t.opcode with
  | none => rw [canonical, hform]
  | some form =>
    have hk := huse form hform
    rw [canonical_eq hform]
    rcases k with _ | _ | _ | k
    · rfl
    · exact congrArg some (if_pos hk)
    · exact congrArg some (if_pos hk)
    · rfl

/-! ### Loading -/

/-- **Two images that differ in the gaps make twins**, loaded at the same address. -/
theorem Machine.twin_of_load {header : List Byte} {program : List Triple} {address : Nat}
    {m₀ m m' : Machine} (h : m₀.load address (header ++ program.flatMap Triple.bytes) = .ok m)
    (h' : m₀.load address (header ++ (program.map Triple.canonical).flatMap Triple.bytes) =
      .ok m') : m.Twin (Gap (address + header.length) program) m' := by
  obtain ⟨memory, hmemory, rfl⟩ := load_eq_ok_iff.1 h
  obtain ⟨memory', hmemory', rfl⟩ := load_eq_ok_iff.1 h'
  obtain ⟨hsize, hcells⟩ := Memory.cell?_of_load_eq_ok hmemory
  obtain ⟨hsize', hcells'⟩ := Memory.cell?_of_load_eq_ok hmemory'
  obtain ⟨hheader, hbody⟩ := Memory.holds_append.1 (Memory.holds_of_load_eq_ok hmemory)
  obtain ⟨hheader', hbody'⟩ := Memory.holds_append.1 (Memory.holds_of_load_eq_ok hmemory')
  rw [Memory.holds_program_iff] at hbody hbody'
  rw [List.length_append, length_flatMap_bytes] at hcells hcells'
  rw [List.length_map] at hcells'
  refine ⟨rfl, rfl, rfl, rfl, hsize'.trans hsize.symm, fun i hgap => ?_⟩
  by_cases hin : address ≤ i ∧ i < address + (header.length + 3 * program.length)
  · by_cases hlt : i < address + header.length
    · obtain ⟨k, rfl⟩ := Nat.exists_eq_add_of_le hin.1
      have hk : k < header.length := Nat.lt_of_add_lt_add_left hlt
      exact (hheader' k hk).trans (hheader k hk).symm
    · -- The cell is that of a byte of an instruction.
      obtain ⟨n, rfl⟩ := Nat.exists_eq_add_of_le (Nat.le_of_not_lt hlt)
      have hj : n / 3 < program.length := by omega
      have hk : n % 3 < 3 := Nat.mod_lt n (by decide)
      have ht := List.getElem?_eq_getElem hj
      have ht' : (program.map Triple.canonical)[n / 3]? = some program[n / 3].canonical := by
        rw [List.getElem?_map, ht]
        rfl
      have hn : address + header.length + n = address + header.length + 3 * (n / 3) + n % 3 := by
        omega
      rw [hn] at hgap ⊢
      dsimp only
      rw [(hbody' _ _ ht').cell?_eq hk, (hbody _ _ ht).cell?_eq hk]
      refine Triple.getElem?_bytes_canonical fun form hform => ?_
      rw [← Bool.not_eq_false]
      exact fun hno => hgap ⟨_, _, _, form, hk, ht, hform, hno, rfl⟩
  · exact (hcells' i hin).trans (hcells i hin).symm

/-! ### Running -/

/-- **A machine keeps to a program** whose body has a given length and whose header stands
at an address: its instruction is fetched from where an instruction of the program
stands, and nothing that its operation reads or writes is part of the image. -/
structure Machine.KeepsTo (address length : Nat) (m : Machine) : Prop where
  fetch : ∃ j, 3 * j < length ∧ m.registers.pc.toNat = address + 3 + 3 * j
  data : Spares (fun i => address ≤ i ∧ i < address + 3 + length) m.dataEvents

/-- The same run, but for the gaps and the bytes that are read. -/
structure Run.Alike (gaps : Nat → Prop) (r r' : Run) : Prop where
  ending : r'.ending = r.ending
  polls : r'.polls = r.polls
  events : r'.events.map Event.shape = r.events.map Event.shape
  machine : r.machine.Twin gaps r'.machine

section

variable {address : Nat} {program : List Triple} {m m' : Machine}

/-- **A step within a program** is alike for twins, and leaves the program as it is. -/
theorem Machine.KeepsTo.step (hkeeps : m.KeepsTo address (3 * program.length))
    (hholds : m.memory.Holds (address + 3) (program.flatMap Triple.bytes))
    (h : m.Twin (Gap (address + 3) program) m') :
    (Action.step m).Alike (Gap (address + 3) program) (Action.step m') ∧
      (Action.step m).machine.memory.Holds (address + 3) (program.flatMap Triple.bytes) := by
  obtain ⟨⟨j, hj, hpc⟩, hspares⟩ := hkeeps
  have hlt : j < program.length := by omega
  have ht := List.getElem?_eq_getElem hlt
  have hword := m.registers.pc.toNat_lt
  have hone : (m.registers.pc + 1).toNat = (m.registers.pc.toNat + 1) % 65536 :=
    UInt16.toNat_add ..
  have htwo : (m.registers.pc + 2).toNat = (m.registers.pc.toNat + 2) % 65536 :=
    UInt16.toNat_add ..
  have hopcode : m.memory.cell? m.registers.pc.toNat = some program[j].opcode := by
    rw [hpc]
    exact (Memory.holds_program_iff.1 hholds j _ ht) 0 (Nat.zero_lt_succ _)
  -- Where the addresses wrap around there is no instruction of the program.
  have hbyte : ∀ k, 0 < k → k < 3 → ∀ form, Form.ofOpcode? program[j].opcode = some form →
      form.mode.uses k = true →
        ¬Gap (address + 3) program ((m.registers.pc.toNat + k) % 65536) := by
    intro k hpos hk form hform huse hgap
    by_cases hwrap : m.registers.pc.toNat + k < 65536
    · rw [Nat.mod_eq_of_lt hwrap, hpc] at hgap
      refine not_gap hk ht (fun form' hform' => ?_) hgap
      obtain rfl := Option.some.inj (hform.symm.trans hform')
      exact huse
    · obtain ⟨i, -, hi⟩ := hgap.exists_eq
      omega
  constructor
  · refine h.step ?_ (fun opcode form hcell hform => ?_) (hspares.mono fun i hgap => ?_)
    · rw [hpc]
      change ¬Gap _ _ (address + 3 + 3 * j + 0)
      exact not_gap (by decide) ht fun _ _ => rfl
    · obtain rfl := Option.some.inj (hopcode.symm.trans hcell)
      rw [hone, htwo]
      exact ⟨hbyte 1 (by decide) (by decide) form hform, hbyte 2 (by decide) (by decide) form hform⟩
    · obtain ⟨i, hi, hgap⟩ := hgap.exists_eq
      omega
  · refine hholds.of_cells fun i hle hi => Action.cell?_step_of_spares hspares ?_
    rw [length_flatMap_bytes] at hi
    omega

/-- **Runs of twins are alike** for as long as they keep to the program. -/
theorem Machine.runFrom_alike {suspend : Suspension} {stop budget : Nat} {polls : List Word}
    {journal journal' : List Event}
    (hjournal : journal'.map Event.shape = journal.map Event.shape)
    (hkeeps : ∀ v ∈ m.visits suspend stop budget polls, v.KeepsTo address (3 * program.length))
    (hholds : m.memory.Holds (address + 3) (program.flatMap Triple.bytes))
    (h : m.Twin (Gap (address + 3) program) m') :
    (m.runFrom suspend stop budget polls journal).Alike (Gap (address + 3) program)
      (m'.runFrom suspend stop budget polls journal') := by
  have hreverse : ∀ {es es' : List Event}, es'.map Event.shape = es.map Event.shape →
      es'.reverse.map Event.shape = es.reverse.map Event.shape := fun heq => by
    rw [List.map_reverse, List.map_reverse, heq]
  induction budget generalizing polls journal journal' m m' with
  | zero =>
    have hpc : m'.registers.pc = m.registers.pc := congrArg Registers.pc h.registers
    rw [runFrom, runFrom, hpc]
    split
    · exact ⟨rfl, rfl, hreverse hjournal, h.inState .halted⟩
    · exact ⟨rfl, rfl, hreverse hjournal, h⟩
  | succ budget ih =>
    have hpc : m'.registers.pc = m.registers.pc := congrArg Registers.pc h.registers
    rw [visits] at hkeeps
    rw [runFrom, runFrom, hpc]
    by_cases hstop : stop ≤ m.registers.pc.toNat
    · rw [if_pos hstop, if_pos hstop]
      exact ⟨rfl, rfl, hreverse hjournal, h.inState .halted⟩
    · rw [if_neg hstop] at hkeeps
      rw [if_neg hstop, if_neg hstop]
      by_cases hsuspend : suspend m.registers.pc polls = true
      · rw [if_pos hsuspend] at hkeeps
        rw [if_pos hsuspend, if_pos hsuspend]
        exact ih hjournal hkeeps hholds h
      · rw [if_neg hsuspend] at hkeeps
        rw [if_neg hsuspend, if_neg hsuspend]
        obtain ⟨hfirst, hrest⟩ := List.forall_mem_cons.1 hkeeps
        obtain ⟨⟨hresult, hevents, hmachine⟩, hthere⟩ := hfirst.step hholds h
        rcases hm : Action.step m with ⟨result, m₁, es⟩
        rcases hm' : Action.step m' with ⟨result', m₁', es'⟩
        rw [hm, hm'] at hresult hevents hmachine
        rw [hm] at hthere hrest
        obtain rfl : result' = result := hresult
        have hlonger : (es'.reverse ++ journal').map Event.shape =
            (es.reverse ++ journal).map Event.shape := by
          rw [List.map_append, List.map_append, hreverse hevents, hjournal]
        cases result' with
        | error fault => exact ⟨rfl, rfl, hreverse hlonger, hmachine.inState .faulted⟩
        | ok _ => exact ih hlonger hrest hthere hmachine

/-- **Runs from the header are alike** for as long as they keep to the program. -/
theorem Machine.execute_alike {suspend : Suspension} {budget : Nat} {start : Word}
    (hkeeps : ∀ v ∈ m.executeVisits suspend budget start,
      v.KeepsTo start.toNat (3 * program.length))
    (hholds : m.memory.Holds (start.toNat + 3) (program.flatMap Triple.bytes))
    (h : m.Twin (Gap (start.toNat + 3) program) m') :
    (m.execute suspend budget start).Alike (Gap (start.toNat + 3) program)
      (m'.execute suspend budget start) := by
  have hheader : ∀ k < 3, ¬Gap (start.toNat + 3) program (start.toNat + k) := by
    intro k hk hgap
    obtain ⟨j, -, hj⟩ := hgap.exists_eq
    omega
  obtain ⟨hresult, hevents, hmachine⟩ := Action.start_twin h hheader
  -- A start does not write to memory.
  have hmemory : (Action.start start m).machine.memory = m.memory := by
    obtain heq | ⟨first, heq⟩ := Action.machine_start start m <;> rw [heq]
  rw [executeVisits] at hkeeps
  rw [execute, execute]
  rcases hm : Action.start start m with ⟨result, m₁, es⟩
  rcases hm' : Action.start start m' with ⟨result', m₁', es'⟩
  rw [hm, hm'] at hresult hevents hmachine
  rw [hm] at hmemory hkeeps
  obtain rfl : result' = result := hresult
  obtain rfl : es' = es := hevents
  cases result' with
  | error fault => exact ⟨rfl, rfl, rfl, hmachine.inState .faulted⟩
  | ok stop => exact runFrom_alike rfl hkeeps (hmemory ▸ hholds) hmachine

end

/-- **A listing runs like what it has been listed from.** Take an image that can be listed
and has just the length that it announces, and load it and the image assembled from its
listing at the same place of the same machine. As long as the first of the two keeps to
its program, both go through the same polls, have the same events up to the bytes that
are read, and come to the same end, and what they leave behind differs in operand bytes
of the image at most. -/
theorem execute_listed {marker high low : Byte} {body : List Byte} {listing : List Text}
    (h : disassemble (marker :: high :: low :: body) = .ok listing)
    (hlength : body.length = (Word.ofBytes high low).toNat) :
    ∃ values, assemble .standard (['\n'].intercalate listing) = .ok values ∧
      ∀ (m₀ m : Machine) (address : Word),
        m₀.load address.toNat (marker :: high :: low :: body) = .ok m →
        ∃ m', m₀.load address.toNat values = .ok m' ∧
          ∀ (suspend : Suspension) (budget : Nat),
            (∀ v ∈ m.executeVisits suspend budget address,
              v.KeepsTo address.toNat body.length) →
            let run := m.execute suspend budget address
            let run' := m'.execute suspend budget address
            run'.ending = run.ending ∧ run'.polls = run.polls ∧
              run'.events.map Event.shape = run.events.map Event.shape ∧
              printed run'.events = printed run.events ∧
              run'.events.filterMap Event.pc? = run.events.filterMap Event.pc? ∧
              run'.events.filterMap Event.pointer? = run.events.filterMap Event.pointer? ∧
              run.machine.Twin (fun i => ∃ j, 3 * j < body.length ∧
                (i = address.toNat + 3 + 3 * j + 1 ∨ i = address.toNat + 3 + 3 * j + 2))
                run'.machine := by
  obtain ⟨high', low', program, rest, heq, hprogram, hlisting⟩ := disassemble_eq_ok_iff.1 h
  obtain ⟨rfl, rfl, rfl, rfl⟩ : marker = headerMarker ∧ high = high' ∧ low = low' ∧
      body = program.flatMap Triple.bytes ++ rest := by
    simpa only [List.cons.injEq] using heq
  -- There is nothing after the program.
  rw [List.length_append, length_flatMap_bytes] at hlength
  obtain rfl : rest = [] := List.eq_nil_of_length_eq_zero (by omega)
  have hmax : 3 * program.length ≤ maxBodyLength := by
    have hlt := (Word.ofBytes high low).toNat_lt
    rw [maxBodyLength]
    omega
  rw [List.append_nil]
  change ∃ values, _ ∧ ∀ m₀ m address,
    Machine.load m₀ _ ([headerMarker, high, low] ++ program.flatMap Triple.bytes) = _ → _
  have hsame : ([headerMarker, high, low] ++
      (program.map Triple.canonical).flatMap Triple.bytes).length =
        ([headerMarker, high, low] ++ program.flatMap Triple.bytes).length := by
    rw [List.length_append, List.length_append, length_flatMap_bytes, length_flatMap_bytes,
      List.length_map]
  refine ⟨[headerMarker, high, low] ++ (program.map Triple.canonical).flatMap Triple.bytes, ?_,
    fun m₀ m address hload => ?_⟩
  · rw [assemble_listing_eq_image hlisting hmax, image_eq (by rw [List.length_map, hprogram])]
    rfl
  obtain ⟨memory, hmemory, hm⟩ := Machine.load_eq_ok_iff.1 hload
  obtain ⟨memory', hmemory'⟩ := Memory.exists_load_eq_ok hmemory hsame
  have hload' := Machine.load_eq_ok_iff.2 ⟨memory', hmemory', rfl⟩
  have htwin := Machine.twin_of_load hload hload'
  have hholds : m.memory.Holds (address.toNat + 3) (program.flatMap Triple.bytes) := by
    rw [← hm]
    exact (Memory.holds_append.1 (Memory.holds_of_load_eq_ok hmemory)).2
  refine ⟨_, hload', fun suspend budget hkeeps => ?_⟩
  rw [length_flatMap_bytes] at hkeeps ⊢
  obtain ⟨hending, hpolls, hevents, hmachine⟩ := Machine.execute_alike hkeeps hholds htwin
  refine ⟨hending, hpolls, hevents, filterMap_eq_of_shape Event.character?_shape hevents,
    filterMap_eq_of_shape Event.pc?_shape hevents,
    filterMap_eq_of_shape Event.pointer?_shape hevents, hmachine.mono fun i hgap => ?_⟩
  obtain ⟨j, hj, hi⟩ := hgap.exists_eq
  exact ⟨j, by omega, hi⟩

/-- A machine of eighteen cells, the last two of which are its stack. -/
def Machine.ofEighteenCells : Machine where
  registers := {}
  stack := .new 16 2
  programMemory := ⟨0, 16⟩
  state := .ready
  memory := .zeros 18

/-- Two instructions with three operand bytes that nothing uses. Once these are zero, the
program still pushes the byte that it has loaded. -/
theorem execute_listed_load_and_push :
    disassemble [0x7F, 0, 6, 0x04, 0x12, 0x99, 0x2B, 0x77, 0x66] =
        .ok ["LDA #$12".toList, "PHA".toList] ∧
      [0x04, 0x12, 0x99, 0x2B, 0x77, 0x66].length = (Word.ofBytes 0 6).toNat ∧
      ∃ m, Machine.ofEighteenCells.load 0 [0x7F, 0, 6, 0x04, 0x12, 0x99, 0x2B, 0x77, 0x66] = .ok m ∧
        (∀ v ∈ m.executeVisits .never 2 0, v.KeepsTo 0 6) ∧
        ∃ m', Machine.ofEighteenCells.load 0 [0x7F, 0, 6, 0x04, 0x12, 0, 0x2B, 0, 0] = .ok m' ∧
          (m'.execute .never 2 0).ending = .halted ∧
          (m'.execute .never 2 0).machine.memory.cell? 17 = some 0x12 := by
  have hlisting : disassemble [0x7F, 0, 6, 0x04, 0x12, 0x99, 0x2B, 0x77, 0x66] =
      .ok ["LDA #$12".toList, "PHA".toList] := by decide
  have hassemble : assemble .standard (['\n'].intercalate ["LDA #$12".toList, "PHA".toList]) =
      .ok [0x7F, 0, 6, 0x04, 0x12, 0, 0x2B, 0, 0] := by decide
  obtain ⟨m, hm⟩ : ∃ m, Machine.ofEighteenCells.load 0
    [0x7F, 0, 6, 0x04, 0x12, 0x99, 0x2B, 0x77, 0x66] = .ok m := ⟨_, rfl⟩
  have hkeeps : ∀ v ∈ m.executeVisits .never 2 0, v.KeepsTo 0 6 := by
    have hpcs : (m.executeVisits .never 2 0).map (fun v => v.registers.pc.toNat) = [3, 6] := by
      cases hm
      decide +kernel
    have hdata : (m.executeVisits .never 2 0).flatMap Machine.dataEvents =
        [.write 17 0x12 true, .stackMove 16] := by
      cases hm
      decide +kernel
    intro v hv
    have hpc := List.mem_map_of_mem (f := fun v : Machine => v.registers.pc.toNat) hv
    rw [hpcs] at hpc
    refine ⟨⟨(v.registers.pc.toNat - 3) / 3, ?_⟩, fun e he address haddress => ?_⟩
    · simp only [List.mem_cons, List.not_mem_nil, or_false] at hpc
      omega
    · -- There is one access to memory, and it is to the stack.
      have he := List.mem_flatMap.2 ⟨v, hv, he⟩
      rw [hdata] at he
      simp only [List.mem_cons, List.not_mem_nil, or_false] at he
      obtain rfl | rfl := he
      · cases haddress
        decide
      · exact nomatch haddress
  obtain ⟨values, hvalues, hruns⟩ := execute_listed hlisting rfl
  obtain rfl := Except.ok.inj (hassemble.symm.trans hvalues)
  obtain ⟨m', hm', halike⟩ := hruns Machine.ofEighteenCells m 0 hm
  obtain ⟨hending, -, -, -, -, -, htwin⟩ := halike .never 2 hkeeps
  refine ⟨hlisting, rfl, m, hm, hkeeps, m', hm', hending.trans ?_, ?_⟩
  · cases hm
    decide +kernel
  · have hstack : ¬∃ j, 3 * j < 6 ∧ (17 = 0 + 3 + 3 * j + 1 ∨ 17 = 0 + 3 + 3 * j + 2) := by
      rintro ⟨j, hj, hi⟩
      omega
    rw [htwin.cells 17 hstack]
    cases hm
    decide +kernel

end EightBit
