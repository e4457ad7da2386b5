import EightBit.Machine.Run
import EightBit.Proofs.Machine.Loading
import EightBit.Proofs.Machine.Success

/-!
# Starting a program

A program is started at its header, from which the machine learns where the program
ends. Both the header and the byte after it have to be in memory and in the address
space; then the start succeeds, and the program counter stands at the first
instruction (`EightBit.Action.start_eq_ok_iff`). A start that fails has only looked at
memory and changes nothing (`EightBit.Action.atomic_start`).
-/

namespace EightBit

namespace Action

variable {m m' : Machine} {es : List Event} {address : Word}

/-- An address past the start of a program is there if memory and the address space
both reach that far. -/
theorem within_ok {offset : Nat}
    (h : address.toNat + offset < min m.memory.size addressSpace) :
    within address offset m = ⟨.ok (UInt16.ofNat (address.toNat + offset)), m, []⟩ := by
  rw [within, ask_bind, if_pos h]
  rfl

theorem within_error {offset : Nat}
    (h : ¬address.toNat + offset < min m.memory.size addressSpace) :
    within address offset m =
      ⟨.error (.outOfBounds (address.toNat + offset) m.memory.size), m, []⟩ := by
  rw [within, ask_bind, if_neg h]
  rfl

theorem within_eq_ok_iff {offset : Nat} {there : Word} :
    within address offset m = ⟨.ok there, m', es⟩ ↔
      address.toNat + offset < min m.memory.size addressSpace ∧
        UInt16.ofNat (address.toNat + offset) = there ∧ m = m' ∧ es = [] := by
  by_cases h : address.toNat + offset < min m.memory.size addressSpace
  · rw [within_ok h]
    constructor
    · intro heq
      cases heq
      exact ⟨h, rfl, rfl, rfl⟩
    · rintro ⟨-, rfl, rfl, rfl⟩
      rfl
  · rw [within_error h]
    constructor
    · exact fun heq => nomatch heq
    · exact fun heq => absurd heq.1 h

/-- An address within the address space is found again. -/
theorem toNat_ofNat_of_lt_min {address size : Nat} (h : address < min size addressSpace) :
    (UInt16.ofNat address).toNat = address := by
  rw [UInt16.toNat_ofNat', Nat.mod_eq_of_lt]
  exact Nat.lt_of_lt_of_le h (Nat.min_le_right ..)

/-- Reading at an address within the start of a program. -/
theorem within_bind_read_eq_ok_iff {α : Type} {offset : Nat} {f : Byte → Action α} {a : α} :
    (within address offset >>= fun there => read there >>= f) m = ⟨.ok a, m', es⟩ ↔
      address.toNat + offset < min m.memory.size addressSpace ∧
        ∃ v es', m.memory.cell? (address.toNat + offset) = some v ∧
          f v m = ⟨.ok a, m', es'⟩ ∧
          es = .read (address + UInt16.ofNat offset) (some v) :: es' := by
  have hword : UInt16.ofNat (address.toNat + offset) = address + UInt16.ofNat offset := by
    rw [UInt16.ofNat_add, UInt16.ofNat_toNat]
  constructor
  · intro h
    obtain ⟨there, _, _, es₁, hwithin, h₁, hes⟩ := bind_eq_ok_iff.1 h
    obtain ⟨hlt, rfl, rfl, rfl⟩ := within_eq_ok_iff.1 hwithin
    obtain ⟨v, _, _, es₂, hread, h₂, hes₁⟩ := bind_eq_ok_iff.1 h₁
    obtain ⟨hv, rfl, rfl⟩ := read_eq_ok_iff.1 hread
    rw [toNat_ofNat_of_lt_min hlt] at hv
    exact ⟨hlt, v, es₂, hv, h₂, by rw [hes, hes₁, hword]; rfl⟩
  · rintro ⟨hlt, v, es', hv, hf, rfl⟩
    rw [← toNat_ofNat_of_lt_min hlt] at hv
    rw [bind_ok (within_ok hlt), bind_ok (read_ok hv), hf, hword]
    rfl

/-- What is watched while a header is read. -/
def headerEvents (address : Word) (high low : Byte) : List Event :=
  [.read address (some headerMarker), .read (address + 1) (some high),
    .read (address + 2) (some low)]

/-- **A program is started** exactly if its header stands in program memory, is the
header of a program, and something follows it. The machine then goes to what follows,
and the program ends as many bytes after that as the header says. -/
theorem start_eq_ok_iff {stop : Nat} :
    start address m = ⟨.ok stop, m', es⟩ ↔
      m.programMemory.contains address.toNat = true ∧
        address.toNat + 3 < min m.memory.size addressSpace ∧
        ∃ high low, m.memory.Holds address.toNat [headerMarker, high, low] ∧
          stop = address.toNat + 3 + (Word.ofBytes high low).toNat ∧
          { m with
            registers := { m.registers with pc := address + 3 }
            state := .running } = m' ∧
          es = headerEvents address high low := by
  have hword : ∀ k, UInt16.ofNat (address.toNat + k) = address + UInt16.ofNat k := fun k => by
    rw [UInt16.ofNat_add, UInt16.ofNat_toNat]
  have hzero : address + UInt16.ofNat 0 = address := UInt16.add_zero address
  rw [start, ask_bind]
  dsimp only
  by_cases hregion : m.programMemory.contains address.toNat = true
  · rw [if_pos hregion]
    simp only [within_bind_read_eq_ok_iff, hregion, true_and]
    constructor
    · -- Three bytes are read, the first is the marker, and there is a fourth.
      rintro ⟨-, marker, _, hmarker, ⟨-, high, _, hhigh, ⟨-, low, _, hlow, h, rfl⟩, rfl⟩, rfl⟩
      by_cases hm : (marker == headerMarker) = true
      · rw [if_pos hm] at h
        obtain ⟨first, _, _, es₁, hwithin, h₁, hes⟩ := bind_eq_ok_iff.1 h
        obtain ⟨hfirst, rfl, rfl, rfl⟩ := within_eq_ok_iff.1 hwithin
        cases h₁
        obtain rfl := beq_iff_eq.1 hm
        refine ⟨hfirst, high, low, ?_, ?_, ?_, ?_⟩
        · simp only [Memory.holds_cons]
          exact ⟨hmarker, hhigh, hlow, fun i hi => absurd hi (Nat.not_lt_zero i)⟩
        · rw [toNat_ofNat_of_lt_min hfirst]
        · rw [hword]
          rfl
        · rw [hes, hzero]
          rfl
      · rw [if_neg hm] at h
        exact nomatch h
    · rintro ⟨hfirst, high, low, hholds, rfl, rfl, rfl⟩
      simp only [Memory.holds_cons] at hholds
      obtain ⟨hmarker, hhigh, hlow, -⟩ := hholds
      refine ⟨by omega, headerMarker,
        [.read (address + UInt16.ofNat 1) (some high), .read (address + UInt16.ofNat 2) (some low)],
        hmarker, ⟨by omega, high, [.read (address + UInt16.ofNat 2) (some low)], hhigh,
          ⟨by omega, low, [], hlow, ?_, rfl⟩, rfl⟩, ?_⟩
      · have hstop := toNat_ofNat_of_lt_min hfirst
        rw [hword] at hstop
        rw [if_pos (beq_self_eq_true _), bind_ok (within_ok hfirst), hword, ← hstop]
        rfl
      · rw [hzero]
        rfl
  · rw [if_neg hregion]
    constructor
    · exact fun h => nomatch h
    · exact fun h => absurd h.1 hregion

variable {α β : Type}

/-! ### Actions that change nothing -/

/-- **An action looks on** if it changes nothing. -/
def LooksOn (x : Action α) : Prop :=
  ∀ m, (x m).machine = m

/-- **An action is atomic** if it changes nothing when it fails. -/
def Atomic (x : Action α) : Prop :=
  ∀ m fault, (x m).result = .error fault → (x m).machine = m

theorem looksOn_read (address : Word) : LooksOn (read address) := by
  intro m
  cases h : m.memory.cell? address.toNat with
  | none => rw [read_error h]
  | some v => rw [read_ok h]

theorem looksOn_within (start : Word) (offset : Nat) : LooksOn (within start offset) := by
  intro m
  rw [within, ask_bind]
  split <;> rfl

/-- What comes after looking on is atomic together with it. -/
theorem LooksOn.bind_atomic {x : Action α} {f : α → Action β} (hx : LooksOn x)
    (hf : ∀ a, Atomic (f a)) : Atomic (x >>= f) := by
  intro m fault h
  have hm := hx m
  rcases hxm : x m with ⟨e | a, m₁, es⟩
  · rw [hxm] at hm
    rw [bind_error hxm]
    exact hm
  · rw [hxm] at hm
    obtain rfl : m₁ = m := hm
    rw [bind_ok hxm] at h ⊢
    exact hf a m₁ fault h

/-- Nothing is done after a fault. -/
theorem atomic_fault_bind (f : Fault) (g : α → Action β) : Atomic (fault f >>= g) :=
  fun _ _ _ => rfl

/-- **A start that fails changes nothing.** -/
theorem atomic_start (address : Word) : Atomic (start address) := by
  rw [start]
  refine LooksOn.bind_atomic (fun _ => rfl) fun region => ?_
  dsimp only
  split
  case isFalse => exact atomic_fault_bind _ _
  refine (looksOn_within address 0).bind_atomic fun _ => (looksOn_read _).bind_atomic fun marker =>
    (looksOn_within address 1).bind_atomic fun _ => (looksOn_read _).bind_atomic fun high =>
    (looksOn_within address 2).bind_atomic fun _ => (looksOn_read _).bind_atomic fun low => ?_
  split
  case isFalse => exact atomic_fault_bind _ _
  -- Once the address of the first instruction is there, nothing can fail.
  exact (looksOn_within address 3).bind_atomic fun first m fault h => nomatch h

/-- **What a start leaves behind** is the machine as it was, or the one about to perform
the first instruction. -/
theorem machine_start (address : Word) (m : Machine) :
    (start address m).machine = m ∨ ∃ first, (start address m).machine =
      { m with registers := { m.registers with pc := first }, state := .running } := by
  rcases hstart : start address m with ⟨fault | stop, m', es⟩
  · refine Or.inl ?_
    have hm := atomic_start address m fault (by rw [hstart])
    rwa [hstart] at hm
  · obtain ⟨-, -, high, low, -, -, rfl, -⟩ := start_eq_ok_iff.1 hstart
    exact Or.inr ⟨address + 3, rfl⟩

/-- **What a reset leaves behind** is a new machine, but for the number of cells and the
regions. -/
theorem machine_reset (m : Machine) :
    (reset m).machine = Machine.showStack { m with
      stack := m.stack.reset
      memory := m.memory.clear
      registers := {}
      state := .ready } :=
  rfl

end Action

end EightBit
