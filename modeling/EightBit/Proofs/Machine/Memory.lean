import EightBit.Proofs.Machine.Loading

/-!
# Memory as an array

There are three ways to get at the bytes of a memory: a run of them is loaded, a run of them is
looked at, or a single one is read or written at a word. Each has its own idea of where memory
ends. A load goes by the address of its last byte, a look by the address after the last one, and a
run without any byte can be loaded anywhere. This file shows that they all get at the same array
of bytes (`EightBit.Memory.acts_like_array`).

The array is a plain list. It starts with zeros and is subject to the same changes as the memory
(`EightBit.Memory.Change.apply`), and no change lets the two get apart
(`EightBit.Memory.Represents.perform`). How many bytes are stored for a memory, and how many of its
zeros are not, makes no difference to any of this.
-/

namespace EightBit

namespace Memory

/-! ### Changes -/

/-- **A change** to memory from outside. -/
inductive Change where
  /-- A run of bytes is put down from an address on. -/
  | load (start : Nat) (values : List Byte)
  /-- A byte is written at an address. -/
  | write (address : Word) (value : Byte)
  /-- All cells are set to zero. -/
  | clear

/-- What comes of an attempt to change a memory: where it fails, the memory stays as it was. -/
def settle (m : Memory) : Except Fault Memory → Except Fault Unit × Memory
  | .ok m' => (.ok (), m')
  | .error fault => (.error fault, m)

namespace Change

/-- What a change comes to, and the memory afterwards. -/
def perform : Change → Memory → Except Fault Unit × Memory
  | load start values, m => m.settle (m.load start values)
  | write address value, m => m.settle (m.write address value)
  | clear, m => m.settle (.ok m.clear)

/-- **What a change does to an array of bytes.** One that reaches past the end does nothing. -/
def apply : Change → List Byte → List Byte
  | load start values, cells =>
    if start + values.length ≤ cells.length then
      cells.take start ++ values ++ cells.drop (start + values.length)
    else cells
  | write address value, cells => cells.set address.toNat value
  | clear, cells => List.replicate cells.length 0

end Change

/-- **A memory in use**: there have been changes to a memory of zeros. The array has been subject
to the same changes. -/
inductive InUse (size : Nat) : List Byte → Memory → Prop
  | new : InUse size (List.replicate size 0) (zeros size)
  | change {cells : List Byte} {m : Memory} (change : Change) : InUse size cells m →
    InUse size (change.apply cells) (change.perform m).2

/-! ### The array in memory -/

/-- **A memory represents an array of bytes** if it has the same bytes in the same places. -/
structure Represents (cells : List Byte) (m : Memory) : Prop where
  size_eq : m.size = cells.length
  cell?_eq : ∀ i, m.cell? i = cells[i]?

theorem represents_zeros (size : Nat) : Represents (List.replicate size 0) (zeros size) where
  size_eq := by rw [size_zeros, List.length_replicate]
  cell?_eq i := by rw [cell?_zeros, List.getElem?_replicate]

/-- A run of bytes in the middle of an array. -/
theorem getElem?_overwritten {cells values : List Byte} {start : Nat}
    (h : start + values.length ≤ cells.length) (i : Nat) :
    (cells.take start ++ values ++ cells.drop (start + values.length))[i]? =
      if start ≤ i ∧ i < start + values.length then values[i - start]? else cells[i]? := by
  have hfront : (cells.take start).length = start := by
    rw [List.length_take]
    omega
  rcases Nat.lt_or_ge i start with hbefore | hstart
  · rw [if_neg (by omega), List.append_assoc, List.getElem?_append_left (by omega),
      List.getElem?_take_of_lt hbefore]
  · rcases Nat.lt_or_ge i (start + values.length) with hin | hafter
    · rw [if_pos ⟨hstart, hin⟩, List.append_assoc, List.getElem?_append_right (by omega), hfront,
        List.getElem?_append_left (by omega)]
    · have hboth : (cells.take start ++ values).length = start + values.length := by
        rw [List.length_append, hfront]
      rw [if_neg (by omega), List.getElem?_append_right (by omega), hboth, List.getElem?_drop,
        Nat.add_sub_cancel' hafter]

/-- The bytes in a range of places, one by one. -/
theorem filterMap_range' (cells : List Byte) (start count : Nat) :
    (List.range' start count).filterMap (fun i => cells[i]?) = (cells.drop start).take count := by
  induction count generalizing start with
  | zero => simp
  | succ count ih =>
    rw [List.range'_succ, List.filterMap_cons, ih]
    rcases Nat.lt_or_ge start cells.length with hlt | hge
    · rw [List.getElem?_eq_getElem hlt, List.drop_eq_getElem_cons hlt, List.take_succ_cons]
    · rw [List.getElem?_eq_none hge, List.drop_eq_nil_of_le hge,
        List.drop_eq_nil_of_le (Nat.le_succ_of_le hge), List.take_nil, List.take_nil]

namespace Represents

variable {cells : List Byte} {m : Memory} (h : Represents cells m)

include h

/-- A byte that is put down in a cell takes its place in the array. -/
theorem put (address : Nat) (v : Byte) : Represents (cells.set address v) (m.put address v) where
  size_eq := by rw [size_put, List.length_set, h.size_eq]
  cell?_eq i := by
    have hsize := h.size_eq
    rw [cell?_put, List.getElem?_set, h.cell?_eq]
    by_cases heq : address = i
    · by_cases hlt : i < m.size
      · rw [if_pos ⟨heq, hlt⟩, if_pos heq, if_pos (by omega)]
      · rw [if_neg fun hand => hlt hand.2, if_pos heq, if_neg (by omega),
          List.getElem?_eq_none (by omega)]
    · rw [if_neg fun hand => heq hand.1, if_neg heq]

/-- So does a run of bytes that fits. -/
theorem putAll {start : Nat} {values : List Byte} (hfits : start + values.length ≤ cells.length) :
    Represents (cells.take start ++ values ++ cells.drop (start + values.length))
      (m.putAll start values) where
  size_eq := by
    rw [size_putAll, List.length_append, List.length_append, List.length_take, List.length_drop,
      h.size_eq]
    omega
  cell?_eq i := by
    have hsize := h.size_eq
    rw [cell?_putAll, getElem?_overwritten hfits, h.cell?_eq]
    exact ite_congr (propext (by omega)) (fun _ => rfl) (fun _ => rfl)

/-- **A load fails exactly if it has a last byte for which there is no cell.** -/
theorem load_eq (start : Nat) (values : List Byte) :
    m.load start values =
      if values ≠ [] ∧ cells.length ≤ start + values.length - 1 then
        .error (.outOfBounds (start + values.length - 1) cells.length)
      else .ok (m.putAll start values) := by
  have hsize := h.size_eq
  have hlength := @List.length_eq_zero_iff _ values
  by_cases hfits : values = [] ∨ start + values.length ≤ m.size
  · rw [load, if_pos hfits, if_neg]
    rintro ⟨hne, hpast⟩
    have hpos := List.length_pos_iff.2 hne
    rcases hfits with hnil | hfits
    · exact hne hnil
    · omega
  · obtain ⟨hne, hpast⟩ := not_or.1 hfits
    have hpos := List.length_pos_iff.2 hne
    rw [load, if_neg hfits, if_pos ⟨hne, by omega⟩, hsize]

/-- **A change to the memory changes the array in the same way.** -/
theorem perform (change : Change) : Represents (change.apply cells) (change.perform m).2 := by
  cases change with
  | load start values =>
    rw [Change.perform, Change.apply, h.load_eq]
    by_cases hfits : start + values.length ≤ cells.length
    · rw [if_pos hfits, if_neg]
      · exact h.putAll hfits
      · rintro ⟨hne, hpast⟩
        have hpos := List.length_pos_iff.2 hne
        omega
    · rw [if_neg hfits]
      by_cases hnil : values = []
      · subst hnil
        rw [if_neg fun hand => hand.1 rfl]
        exact h
      · rw [if_pos ⟨hnil, by omega⟩]
        exact h
  | write address value =>
    rw [Change.perform, Change.apply, write]
    by_cases hlt : address.toNat < m.size
    · rw [if_pos hlt]
      exact h.put address.toNat value
    · have hsize := h.size_eq
      rw [if_neg hlt, List.set_eq_of_length_le (by omega)]
      exact h
  | clear =>
    rw [Change.apply, ← h.size_eq]
    exact represents_zeros m.size

/-- **A look at a range of addresses** shows that part of the array. -/
theorem slice_eq (start stop : Nat) :
    m.slice start stop =
      if start ≤ stop ∧ stop ≤ cells.length then .ok ((cells.drop start).take (stop - start))
      else
        .error (.outOfBounds (if cells.length < stop then stop - 1 else start) cells.length) := by
  rw [slice, h.size_eq, funext h.cell?_eq, filterMap_range']
  by_cases hpast : cells.length < stop
  · rw [if_pos hpast, if_neg (by omega), if_pos hpast]
  · rw [if_neg hpast, if_neg hpast]
    by_cases horder : stop < start
    · rw [if_pos horder, if_neg (by omega)]
    · rw [if_neg horder, if_pos (by omega)]

/-- A look at a run of bytes that has been put down shows that run. -/
theorem slice_putAll {start : Nat} {values : List Byte}
    (hfits : start + values.length ≤ cells.length) :
    (m.putAll start values).slice start (start + values.length) = .ok values := by
  have hafter := h.putAll hfits
  have hfront : (cells.take start).length = start := by
    rw [List.length_take]
    omega
  rw [hafter.slice_eq, if_pos, Nat.add_sub_cancel_left, List.append_assoc,
    List.drop_left' hfront, List.take_left]
  rw [← hafter.size_eq, size_putAll, h.size_eq]
  exact ⟨Nat.le_add_right _ _, hfits⟩

/-- **A read fails exactly if there is no place** for its address in the array. -/
theorem read_eq (address : Word) :
    m.read address =
      cells[address.toNat]?.elim (.error (.outOfBounds address.toNat cells.length)) .ok := by
  rw [read, h.cell?_eq, h.size_eq]
  cases cells[address.toNat]? <;> rfl

end Represents

/-- **A memory in use represents its array**, which is as long as it was at the beginning. -/
theorem InUse.represents {size : Nat} {cells : List Byte} {m : Memory} (h : InUse size cells m) :
    Represents cells m ∧ cells.length = size := by
  induction h with
  | new => exact ⟨represents_zeros size, List.length_replicate⟩
  | @change cells m change _ ih =>
    obtain ⟨hrep, hlength⟩ := ih
    have hafter := hrep.perform change
    refine ⟨hafter, ?_⟩
    rw [← hlength]
    cases change with
    | load start values =>
      rw [Change.apply]
      split
      · rw [List.length_append, List.length_append, List.length_take, List.length_drop]
        omega
      · rfl
    | write => exact List.length_set
    | clear => exact List.length_replicate

/-- **A memory in use acts like its array**, however it is got at. A load is refused exactly if
there is no cell for its last byte, and then nothing changes; otherwise the bytes are in their
cells, a look at these shows them, and no other cell has changed. A look at a range of addresses
is refused exactly if the range is the wrong way round or goes past the end, and shows the bytes of
the array otherwise. A single byte is read and written exactly at the addresses before the end, and
a write changes no other cell. The size never changes. -/
theorem acts_like_array {size : Nat} {cells : List Byte} {m : Memory} (h : InUse size cells m) :
    m.size = size ∧ cells.length = size ∧ (∀ i, m.cell? i = cells[i]?) ∧
      (∀ start values, if values ≠ [] ∧ size ≤ start + values.length - 1 then
          (Change.load start values).perform m =
            (.error (.outOfBounds (start + values.length - 1) size), m)
        else ∃ m' : Memory, (Change.load start values).perform m = (.ok (), m') ∧
          m'.size = size ∧ m'.Holds start values ∧
            (∀ i, ¬(start ≤ i ∧ i < start + values.length) → m'.cell? i = m.cell? i) ∧
              (start + values.length ≤ size →
                m'.slice start (start + values.length) = .ok values)) ∧
      (∀ start stop, m.slice start stop =
        if start ≤ stop ∧ stop ≤ size then .ok ((cells.drop start).take (stop - start))
        else .error (.outOfBounds (if size < stop then stop - 1 else start) size)) ∧
      (∀ address : Word, m.read address =
        cells[address.toNat]?.elim (.error (.outOfBounds address.toNat size)) .ok) ∧
      (∀ (address : Word) (v : Byte), if address.toNat < size then
          ∃ m' : Memory, (Change.write address v).perform m = (.ok (), m') ∧ m'.size = size ∧
            ∀ i, m'.cell? i = if i = address.toNat then some v else m.cell? i
        else (Change.write address v).perform m =
          (.error (.outOfBounds address.toNat size), m)) := by
  obtain ⟨hrep, rfl⟩ := h.represents
  refine ⟨hrep.size_eq, rfl, hrep.cell?_eq, fun start values => ?_, hrep.slice_eq, hrep.read_eq,
    fun address v => ?_⟩
  · have hload := hrep.load_eq start values
    rw [Change.perform, hload]
    by_cases hpast : values ≠ [] ∧ cells.length ≤ start + values.length - 1
    · rw [if_pos hpast, if_pos hpast]
      rfl
    · rw [if_neg hpast] at hload
      rw [if_neg hpast, if_neg hpast]
      obtain ⟨hsize, hothers⟩ := cell?_of_load_eq_ok hload
      exact ⟨_, rfl, hsize.trans hrep.size_eq, holds_of_load_eq_ok hload, hothers,
        hrep.slice_putAll⟩
  · by_cases hlt : address.toNat < cells.length
    · rw [if_pos hlt, Change.perform, write, if_pos (hrep.size_eq ▸ hlt)]
      refine ⟨_, rfl, (size_put _ _ _).trans hrep.size_eq, fun i => ?_⟩
      rw [cell?_put]
      by_cases heq : i = address.toNat
      · rw [if_pos heq, if_pos ⟨heq.symm, by rw [heq, hrep.size_eq]; exact hlt⟩]
      · rw [if_neg heq, if_neg fun hand => heq hand.1.symm]
    · rw [if_neg hlt, Change.perform, write, if_neg (hrep.size_eq ▸ hlt), hrep.size_eq]
      rfl

/-- A memory of sixteen cells, in which a run of bytes ends with the last one. One more byte does
not fit, but no byte at all can be loaded anywhere. -/
theorem acts_like_array_at_the_end :
    ∃ m, InUse 16 (List.replicate 13 0 ++ [7, 8, 9]) m ∧
      (Change.load 14 [1, 2, 3]).perform m = (.error (.outOfBounds 16 16), m) ∧
      (∃ m' : Memory, (Change.load 99 []).perform m = (.ok (), m') ∧
        ∀ i, m'.cell? i = m.cell? i) ∧
      m.slice 14 16 = .ok [8, 9] ∧ m.slice 5 4 = .error (.outOfBounds 5 16) := by
  have huse : InUse 16 (List.replicate 13 0 ++ [7, 8, 9]) _ :=
    .change (.write 13 7) (.change (.load 13 [6, 8, 9]) .new)
  obtain ⟨-, -, -, hload, hslice, -⟩ := acts_like_array huse
  obtain ⟨m', hempty, -, -, hothers, -⟩ := hload 99 []
  refine ⟨_, huse, hload 14 [1, 2, 3], ⟨m', hempty, fun i => hothers i ?_⟩, hslice 14 16,
    hslice 5 4⟩
  rintro ⟨hstart, hend⟩
  exact absurd hend (Nat.not_lt_of_le hstart)

end Memory

end EightBit
