import EightBit.Fault

/-!
# Memory

A flat run of bytes, zero to begin with. Single cells are read and written at a
word; whole runs of bytes are loaded and looked at by plain numbers, since a
memory may be larger than the sixteen bits of a word. Whatever reaches past the
end is a fault and changes nothing.

A memory can be told to be larger than anything that will ever be stored in it, so
only the cells up to the last one that has been put are stored, and those after
them are zero. Nothing but this module knows: to everybody else a memory is its
`EightBit.Memory.size` and its cells, `EightBit.Memory.cell?`, and for each
operation one small lemma says what it does to these.
-/

namespace EightBit

/-- **A memory**: the number of its cells, and the first of them, in order of
address. The rest are zero. -/
structure Memory where
  size : Nat
  stored : Array Byte := #[]
deriving DecidableEq, Repr

namespace Memory

/-- A memory of the given size with zero in every cell. -/
def zeros (size : Nat) : Memory :=
  { size }

/-- **The byte at an address**, if there is a cell. -/
def cell? (m : Memory) (address : Nat) : Option Byte :=
  if address < m.size then some (m.stored.getD address 0) else none

/-- An address from which on every cell is zero. -/
def extent (m : Memory) : Nat :=
  m.stored.size

/-- The stored cells, with zeros after them up to a count. -/
def padded (stored : Array Byte) (count : Nat) : Array Byte :=
  if stored.size < count then stored ++ Array.replicate (count - stored.size) 0 else stored

/-- The memory with the byte at one address replaced, if it has that address. -/
def put (m : Memory) (address : Nat) (value : Byte) : Memory :=
  if address < m.size then
    { m with stored := (padded m.stored (address + 1)).setIfInBounds address value }
  else m

/-- The byte at an address. -/
def read (m : Memory) (address : Word) : Except Fault Byte :=
  match m.cell? address.toNat with
  | some value => .ok value
  | none => .error (.outOfBounds address.toNat m.size)

/-- The memory after a write of a byte at an address. -/
def write (m : Memory) (address : Word) (value : Byte) : Except Fault Memory :=
  if address.toNat < m.size then .ok (m.put address.toNat value)
  else .error (.outOfBounds address.toNat m.size)

/-- The memory with a run of bytes put down from an address on; what does not fit
is dropped. -/
def putAll (m : Memory) : (start : Nat) → List Byte → Memory
  | _, [] => m
  | start, value :: values => (m.put start value).putAll (start + 1) values

/-- **Loading** a run of bytes at an address. The last of them decides whether
they fit, so a run of none fits anywhere. -/
def load (m : Memory) (start : Nat) (values : List Byte) : Except Fault Memory :=
  if values = [] ∨ start + values.length ≤ m.size then .ok (m.putAll start values)
  else .error (.outOfBounds (start + values.length - 1) m.size)

/-- The bytes from an address up to, but not with, another one. -/
def slice (m : Memory) (start stop : Nat) : Except Fault (List Byte) :=
  if m.size < stop then .error (.outOfBounds (stop - 1) m.size)
  else if stop < start then .error (.outOfBounds start m.size)
  else .ok ((List.range' start (stop - start)).filterMap m.cell?)

/-- The memory of the same size with zero in every cell. -/
def clear (m : Memory) : Memory :=
  zeros m.size

/-! ### What the operations do to size and cells -/

@[simp] theorem size_zeros (n : Nat) : (zeros n).size = n := rfl

@[simp] theorem size_put (m : Memory) (a : Nat) (v : Byte) : (m.put a v).size = m.size := by
  unfold put
  split <;> rfl

@[simp] theorem size_putAll (m : Memory) (a : Nat) (vs : List Byte) :
    (m.putAll a vs).size = m.size := by
  induction vs generalizing m a with
  | nil => rfl
  | cons v vs ih => simp [putAll, ih]

@[simp] theorem size_clear (m : Memory) : m.clear.size = m.size := rfl

/-- There is a cell at exactly the addresses below the size. -/
theorem isSome_cell?_iff {m : Memory} {a : Nat} : (m.cell? a).isSome ↔ a < m.size := by
  unfold cell?
  split <;> simp_all

theorem cell?_zeros (n i : Nat) : (zeros n).cell? i = if i < n then some 0 else none := by
  simp [zeros, cell?]

theorem size_padded (stored : Array Byte) (n : Nat) :
    (padded stored n).size = max stored.size n := by
  unfold padded
  split
  · simp only [Array.size_append, Array.size_replicate]
    omega
  · omega

/-- Padding with zeros changes nothing that can be seen. -/
theorem getD_padded (stored : Array Byte) (n i : Nat) :
    (padded stored n).getD i 0 = stored.getD i 0 := by
  unfold padded
  split
  · rw [Array.getD_eq_getD_getElem?, Array.getD_eq_getD_getElem?, Array.getElem?_append]
    split
    · rfl
    · rename_i h
      rw [Array.getElem?_replicate, Array.getElem?_eq_none (by omega)]
      split <;> rfl
  · rfl

/-- A put changes the cell it names and no other. -/
theorem cell?_put (m : Memory) (a i : Nat) (v : Byte) :
    (m.put a v).cell? i = if a = i ∧ i < m.size then some v else m.cell? i := by
  unfold put
  by_cases ha : a < m.size
  · rw [if_pos ha]
    by_cases hi : a = i
    · subst hi
      have hlt : a < (padded m.stored (a + 1)).size := by
        rw [size_padded]
        omega
      rw [if_pos ⟨rfl, ha⟩, cell?, if_pos ha, Array.getD_eq_getD_getElem?,
        Array.getElem?_setIfInBounds_self_of_lt hlt, Option.getD_some]
    · rw [if_neg (by simp [hi]), cell?, cell?, Array.getD_eq_getD_getElem?,
        Array.getElem?_setIfInBounds_ne hi, ← Array.getD_eq_getD_getElem?, getD_padded]
  · rw [if_neg ha, if_neg]
    omega

/-- A run of bytes lands in consecutive cells and leaves all others alone. -/
theorem cell?_putAll (m : Memory) (a i : Nat) (vs : List Byte) :
    (m.putAll a vs).cell? i =
      if a ≤ i ∧ i < a + vs.length ∧ i < m.size then vs[i - a]? else m.cell? i := by
  induction vs generalizing m a with
  | nil =>
    rw [putAll, if_neg]
    simp only [List.length_nil]
    omega
  | cons v vs ih =>
    rw [putAll, ih, cell?_put, size_put, List.length_cons]
    rcases Nat.lt_trichotomy a i with h | rfl | h
    · rw [if_neg (by omega : ¬(a = i ∧ i < m.size)), show i - a = i - (a + 1) + 1 by omega,
        List.getElem?_cons_succ]
      exact ite_congr (propext (by omega)) (fun _ => rfl) (fun _ => rfl)
    · rw [if_neg (by omega), Nat.sub_self, List.getElem?_cons_zero]
      exact ite_congr (propext (by omega)) (fun _ => rfl) (fun _ => rfl)
    · rw [if_neg (by omega), if_neg (by omega), if_neg (by omega)]

end Memory

end EightBit
