import EightBit.Image
import EightBit.Machine.Basic
import EightBit.Proofs.Fallible

/-!
# Bytes in memory

A run of bytes that stands in memory from some address on, one byte to a cell
(`EightBit.Memory.Holds`). That is what loading establishes
(`EightBit.Memory.holds_of_load_eq_ok`), and it lasts for as long as none of the cells
changes. A run of bytes is taken apart from the front, as programs are run.
-/

namespace EightBit

namespace Memory

/-- **A run of bytes stands in memory** from an address on. -/
def Holds (m : Memory) (start : Nat) (values : List Byte) : Prop :=
  ∀ i (h : i < values.length), m.cell? (start + i) = some values[i]

variable {m m' : Memory} {start : Nat} {v : Byte} {values others : List Byte}

/-- The first byte stands at the address, and the others from the next one on. -/
theorem holds_cons :
    m.Holds start (v :: values) ↔ m.cell? start = some v ∧ m.Holds (start + 1) values := by
  constructor
  · intro h
    refine ⟨h 0 (Nat.zero_lt_succ _), fun i hi => ?_⟩
    have hnext := h (i + 1) (Nat.succ_lt_succ hi)
    rw [List.getElem_cons_succ] at hnext
    rw [← hnext]
    exact congrArg m.cell? (by omega)
  · rintro ⟨hv, h⟩ i hi
    cases i with
    | zero => exact hv
    | succ i =>
      rw [List.getElem_cons_succ, ← h i (Nat.lt_of_succ_lt_succ hi)]
      exact congrArg m.cell? (by omega)

theorem holds_append :
    m.Holds start (values ++ others) ↔
      m.Holds start values ∧ m.Holds (start + values.length) others := by
  induction values generalizing start with
  | nil =>
    refine ⟨fun h => ⟨fun i hi => absurd hi (Nat.not_lt_zero i), h⟩, fun h => h.2⟩
  | cons v values ih =>
    rw [List.cons_append, holds_cons, ih, holds_cons, List.length_cons, and_assoc,
      Nat.add_assoc, Nat.add_comm 1]

/-- A program stands in memory if each of its instructions does. -/
theorem holds_program_iff {program : List Triple} :
    m.Holds start (program.flatMap Triple.bytes) ↔
      ∀ j t, program[j]? = some t → m.Holds (start + 3 * j) t.bytes := by
  induction program generalizing start with
  | nil => exact ⟨(fun _ j t ht => nomatch ht), fun _ i hi => absurd hi (Nat.not_lt_zero i)⟩
  | cons head program ih =>
    have hnext : ∀ j, start + head.bytes.length + 3 * j = start + 3 * (j + 1) := fun j => by
      change start + 3 + 3 * j = _
      omega
    rw [List.flatMap_cons, holds_append, ih]
    constructor
    · rintro ⟨hhead, hrest⟩ j t ht
      cases j with
      | zero =>
        obtain rfl := Option.some.inj ht
        exact hhead
      | succ j => exact hnext j ▸ hrest j t ht
    · intro h
      exact ⟨h 0 head rfl, fun j t ht => (hnext j).symm ▸ h (j + 1) t ht⟩

/-- What stands in memory stays there as long as none of its cells changes. -/
theorem Holds.of_cells (h : m.Holds start values)
    (hcells : ∀ i, start ≤ i → i < start + values.length → m'.cell? i = m.cell? i) :
    m'.Holds start values := fun i hi => by
  rw [hcells (start + i) (Nat.le_add_right start i) (Nat.add_lt_add_left hi start), h i hi]

theorem Holds.cell?_eq (h : m.Holds start values) {i : Nat} (hi : i < values.length) :
    m.cell? (start + i) = values[i]? := by
  rw [h i hi, List.getElem?_eq_getElem hi]

/-- What stands in memory has to fit. -/
theorem Holds.le_size (h : m.Holds start values) (hne : values ≠ []) :
    start + values.length ≤ m.size := by
  have hpos := List.length_pos_iff.2 hne
  have hlast := h (values.length - 1) (by omega)
  have hlt := isSome_cell?_iff.1 (Option.isSome_of_eq_some hlast)
  omega

/-- **A run of bytes that has been loaded stands in memory.** -/
theorem holds_of_load_eq_ok (h : m.load start values = .ok m') : m'.Holds start values := by
  rw [load] at h
  split at h
  · rename_i hfits
    obtain rfl := Except.ok.inj h
    intro i hi
    rcases hfits with rfl | hfits
    · exact absurd hi (Nat.not_lt_zero i)
    · rw [cell?_putAll, if_pos (by omega), Nat.add_sub_cancel_left, List.getElem?_eq_getElem hi]
  · exact nomatch h

/-- **Loading leaves everything else alone.** -/
theorem cell?_of_load_eq_ok (h : m.load start values = .ok m') :
    m'.size = m.size ∧
      ∀ i, ¬(start ≤ i ∧ i < start + values.length) → m'.cell? i = m.cell? i := by
  rw [load] at h
  split at h
  · obtain rfl := Except.ok.inj h
    refine ⟨size_putAll m start values, fun i hi => ?_⟩
    rw [cell?_putAll, if_neg fun hin => hi ⟨hin.1, hin.2.1⟩]
  · exact nomatch h

/-- Whether a run of bytes can be loaded is a matter of its length. -/
theorem exists_load_eq_ok (h : m.load start values = .ok m')
    (hlength : others.length = values.length) : ∃ m'', m.load start others = .ok m'' := by
  rw [load] at h
  split at h
  · rename_i hfits
    refine ⟨_, if_pos ?_⟩
    rw [hlength]
    exact hfits.imp_left fun hnil => List.eq_nil_of_length_eq_zero (by rw [hlength, hnil]; rfl)
  · exact nomatch h

end Memory

/-- Loading a run of bytes into a machine changes its memory and nothing else. -/
theorem Machine.load_eq_ok_iff {m m' : Machine} {start : Nat} {values : List Byte} :
    m.load start values = .ok m' ↔
      ∃ memory, m.memory.load start values = .ok memory ∧ { m with memory } = m' := by
  rw [load, Fallible.bind_eq_ok_iff]
  simp only [Fallible.pure_eq_ok_iff]

end EightBit
