import EightBit.Proofs.Machine.Faults
import EightBit.Proofs.Machine.LastInFirstOut
import EightBit.Proofs.Machine.StackBounds

/-!
# Room on the stack

How far an instruction gets with its pushes and pops is decided by the number of bytes on
the stack. A push finds room as long as there are fewer bytes than cells, a pop finds a
byte as long as there is one, and each of them leaves the stack one byte deeper or less
deep. With that the pointer and the bounds of the region need not be looked at any more:
on a machine that is laid out, `EightBit.Machine.LaidOut.push_cases` and
`EightBit.Machine.LaidOut.pop_cases` say all that a push and a pop can come to.

Where a stack has no room its pointer is below its region, and where it has no bytes its
pointer is at the last cell. So the pointer that a misuse reports does not depend on what
has gone before.
-/

namespace EightBit

/-- The number of bytes that an operation pushes. -/
def Operation.pushes : Operation → Nat
  | pushStatus | pushA => 1
  | call => 2
  | _ => 0

/-- The number of bytes that an operation pops. -/
def Operation.pops : Operation → Nat
  | popStatus | popA => 1
  | comeBack => 2
  | _ => 0

namespace Stack

/-- The cells that the next pushes go to, counted from the pointer downwards. -/
def freeCell (s : Stack) (k : Nat) : Word :=
  UInt16.ofInt (s.pointer - k)

theorem freeCell_zero (s : Stack) : s.freeCell 0 = UInt16.ofInt s.pointer := by
  have h : s.pointer - ((0 : Nat) : Int) = s.pointer := by omega
  rw [freeCell, h]

/-- A push leaves the other cells to the pushes after it. -/
theorem freeCell_down (s : Stack) (k : Nat) : s.down.freeCell k = s.freeCell (k + 1) := by
  have h : s.pointer - 1 - (k : Int) = s.pointer - ((k + 1 : Nat) : Int) := by omega
  rw [freeCell, freeCell, down, h]

/-- A pushed byte is the first one from the top. -/
theorem cellAt_zero_down (s : Stack) : s.down.cellAt 0 = s.freeCell 0 := by
  rw [cellAt_down_zero, freeCell_zero]

theorem cellAt_zero (s : Stack) : s.cellAt 0 = UInt16.ofInt (s.pointer + 1) := by
  have h : s.pointer + 1 + ((0 : Nat) : Int) = s.pointer + 1 := by omega
  rw [cellAt, h]

/-- A push makes a stack one byte deeper. -/
theorem depth_down {s : Stack} (h : s.pointer ≤ s.top) : s.down.depth = s.depth + 1 := by
  change (s.top - (s.pointer - 1)).toNat = (s.top - s.pointer).toNat + 1
  omega

/-- A pop makes it one byte less deep. -/
theorem depth_up (s : Stack) : s.up.depth = s.depth - 1 := by
  change (s.top - (s.pointer + 1)).toNat = (s.top - s.pointer).toNat - 1
  omega

/-- A reset makes it empty. -/
theorem depth_reset (s : Stack) : s.reset.depth = 0 := by
  change (s.top - s.top).toNat = 0
  omega

end Stack

namespace Machine.LaidOut

variable {layout : Layout} {m : Machine} (h : m.LaidOut layout) (hvalid : layout.stack.Valid)

include h hvalid

/-- The pointer is as far below the end of the region as there are bytes on the stack. -/
theorem pointer_eq : m.stack.pointer = (layout.stack.stop : Int) - 1 - m.stack.depth := by
  have hdepth := h.depth_eq hvalid
  omega

/-- There are no more bytes than cells. -/
theorem depth_le : m.stack.depth ≤ layout.stack.size := by
  have hdepth := h.depth_eq hvalid
  have hlower := h.lower
  have hlt := hvalid.1
  rw [Region.size]
  omega

/-- The address of a free cell, counted from the end of the region. -/
theorem toNat_freeCell {k : Nat} (hk : m.stack.depth + k < layout.stack.size) :
    (m.stack.freeCell k).toNat + m.stack.depth + k + 1 = layout.stack.stop := by
  have hpointer := h.pointer_eq hvalid
  have hcell := Word.toNat_ofInt (m.stack.pointer - k)
  have hstop := hvalid.2
  rw [Region.size] at hk
  rw [addressSpace] at hstop
  rw [Stack.freeCell]
  omega

/-- The address of a pushed byte, counted from the end of the region. -/
theorem toNat_cellAt {k : Nat} (hk : k < m.stack.depth) :
    (m.stack.cellAt k).toNat + m.stack.depth = layout.stack.stop + k := by
  have hpointer := h.pointer_eq hvalid
  have hdepth := h.depth_le hvalid
  have hcell := Word.toNat_ofInt (m.stack.pointer + 1 + k)
  have hlt := hvalid.1
  have hstop := hvalid.2
  rw [Region.size] at hdepth
  rw [addressSpace] at hstop
  rw [Stack.cellAt]
  omega

/-- **There is room for a push** as long as there are fewer bytes than cells. -/
theorem free_eq : m.stack.free =
    if m.stack.depth < layout.stack.size then .ok (m.stack.freeCell 0)
    else .error (.stackFault .overflow ((layout.stack.start : Int) - 1)) := by
  have hpointer := h.pointer_eq hvalid
  have hdepth := h.depth_le hvalid
  have hlt := hvalid.1
  rw [Region.size] at hdepth ⊢
  rw [Stack.free, Stack.freeCell_zero, Stack.fault]
  have hcontains : m.stack.contains m.stack.pointer = true ↔
      m.stack.depth < layout.stack.stop - layout.stack.start := by
    rw [Stack.contains_iff, h.start, h.top_eq hvalid]
    omega
  by_cases hroom : m.stack.depth < layout.stack.stop - layout.stack.start
  · rw [if_pos hroom, if_pos (hcontains.2 hroom)]
  · have hfull : m.stack.pointer = (layout.stack.start : Int) - 1 := by omega
    rw [if_neg hroom, if_neg fun hin => hroom (hcontains.1 hin), hfull]

/-- **There is a byte for a pop** as long as there is any. -/
theorem used_eq : m.stack.used =
    if 0 < m.stack.depth then .ok (m.stack.cellAt 0)
    else .error (.stackFault .underflow ((layout.stack.stop : Int) - 1)) := by
  have hpointer := h.pointer_eq hvalid
  rw [Stack.used, Stack.cellAt_zero, Stack.fault, h.top_eq hvalid]
  by_cases hsome : 0 < m.stack.depth
  · rw [if_pos hsome, if_pos (by omega)]
  · have hempty : m.stack.pointer = (layout.stack.stop : Int) - 1 := by omega
    rw [if_neg hsome, if_neg (by omega), hempty]

/-- **All that a push can come to**, by the number of bytes on the stack. -/
theorem push_cases (v : Byte) :
    (m.stack.depth = layout.stack.size ∧ Action.push v m =
      ⟨.error (.stackFault .overflow ((layout.stack.start : Int) - 1)), m, []⟩) ∨
    (m.stack.depth < layout.stack.size ∧ m.memory.size ≤ (m.stack.freeCell 0).toNat ∧
      Action.push v m = ⟨.error (.outOfBounds (m.stack.freeCell 0).toNat m.memory.size), m,
        [.write (m.stack.freeCell 0) v false]⟩) ∨
    (m.stack.depth < layout.stack.size ∧ (m.stack.freeCell 0).toNat < m.memory.size ∧
      Action.push v m = ⟨.ok (), m.pushed (m.stack.freeCell 0) v,
        [.write (m.stack.freeCell 0) v true, .stackMove m.stack.down.pointer]⟩) := by
  have hfree := h.free_eq hvalid
  by_cases hroom : m.stack.depth < layout.stack.size
  · rw [if_pos hroom] at hfree
    rcases Action.push_cases v m with
      ⟨f, hnone, -⟩ | ⟨cell, hcell, hlt, heq⟩ | ⟨cell, hcell, hlt, heq⟩
    · exact nomatch hfree.symm.trans hnone
    · obtain rfl := Except.ok.inj (hfree.symm.trans hcell)
      exact Or.inr (Or.inl ⟨hroom, Nat.le_of_not_lt hlt, heq⟩)
    · obtain rfl := Except.ok.inj (hfree.symm.trans hcell)
      exact Or.inr (Or.inr ⟨hroom, hlt, heq⟩)
  · have hfull : m.stack.depth = layout.stack.size :=
      Nat.le_antisymm (h.depth_le hvalid) (Nat.le_of_not_lt hroom)
    rw [if_neg hroom] at hfree
    rcases Action.push_cases v m with ⟨f, hnone, heq⟩ | ⟨cell, hcell, -⟩ | ⟨cell, hcell, -⟩
    · obtain rfl := Except.error.inj (hfree.symm.trans hnone)
      exact Or.inl ⟨hfull, heq⟩
    · exact nomatch hfree.symm.trans hcell
    · exact nomatch hfree.symm.trans hcell

/-- **All that a pop can come to**, by the number of bytes on the stack. -/
theorem pop_cases :
    (m.stack.depth = 0 ∧ Action.pop m =
      ⟨.error (.stackFault .underflow ((layout.stack.stop : Int) - 1)), m, []⟩) ∨
    (0 < m.stack.depth ∧ m.memory.size ≤ (m.stack.cellAt 0).toNat ∧ Action.pop m =
      ⟨.error (.outOfBounds (m.stack.cellAt 0).toNat m.memory.size), m,
        [.read (m.stack.cellAt 0) none]⟩) ∨
    (∃ v, 0 < m.stack.depth ∧ m.memory.cell? (m.stack.cellAt 0).toNat = some v ∧
      Action.pop m = ⟨.ok v, m.popped (m.stack.cellAt 0), [.read (m.stack.cellAt 0) (some v),
        .write (m.stack.cellAt 0) 0 true, .stackMove m.stack.up.pointer]⟩) := by
  have hused := h.used_eq hvalid
  by_cases hsome : 0 < m.stack.depth
  · rw [if_pos hsome] at hused
    rcases Action.pop_cases m with
      ⟨f, hnone, -⟩ | ⟨cell, hcell, hmissing, heq⟩ | ⟨cell, v, hcell, hv, heq⟩
    · exact nomatch hused.symm.trans hnone
    · obtain rfl := Except.ok.inj (hused.symm.trans hcell)
      exact Or.inr (Or.inl ⟨hsome, Memory.size_le_of_cell?_eq_none hmissing, heq⟩)
    · obtain rfl := Except.ok.inj (hused.symm.trans hcell)
      exact Or.inr (Or.inr ⟨v, hsome, hv, heq⟩)
  · rw [if_neg hsome] at hused
    rcases Action.pop_cases m with ⟨f, hnone, heq⟩ | ⟨cell, hcell, -⟩ | ⟨cell, v, hcell, -⟩
    · obtain rfl := Except.error.inj (hused.symm.trans hnone)
      exact Or.inl ⟨Nat.eq_zero_of_not_pos hsome, heq⟩
    · exact nomatch hused.symm.trans hcell
    · exact nomatch hused.symm.trans hcell

/-- A push succeeds if there is room and memory reaches to the end of the stack. -/
theorem push_eq (hroom : m.stack.depth < layout.stack.size)
    (hsize : layout.stack.stop ≤ m.memory.size) (v : Byte) :
    Action.push v m = ⟨.ok (), m.pushed (m.stack.freeCell 0) v,
      [.write (m.stack.freeCell 0) v true, .stackMove m.stack.down.pointer]⟩ := by
  have hcell := h.toNat_freeCell hvalid (k := 0) hroom
  rcases h.push_cases hvalid v with ⟨hfull, -⟩ | ⟨-, hmissing, -⟩ | ⟨-, -, heq⟩
  · omega
  · omega
  · exact heq

/-- A pop succeeds if there is a byte in memory for it. -/
theorem pop_eq (hpos : 0 < m.stack.depth) {v : Byte}
    (hv : m.memory.cell? (m.stack.cellAt 0).toNat = some v) :
    Action.pop m = ⟨.ok v, m.popped (m.stack.cellAt 0), [.read (m.stack.cellAt 0) (some v),
      .write (m.stack.cellAt 0) 0 true, .stackMove m.stack.up.pointer]⟩ := by
  have hlt : (m.stack.cellAt 0).toNat < m.memory.size :=
    Memory.isSome_cell?_iff.1 (by rw [hv, Option.isSome_some])
  rcases h.pop_cases hvalid with ⟨hempty, -⟩ | ⟨-, hmissing, -⟩ | ⟨v', -, hv', heq⟩
  · omega
  · omega
  · obtain rfl := Option.some.inj (hv'.symm.trans hv)
    exact heq

/-- Once the byte has been pushed, the machine is laid out for the next one. -/
theorem pushed_of_room (hroom : m.stack.depth < layout.stack.size) (v : Byte) :
    (m.pushed (m.stack.freeCell 0) v).LaidOut layout := by
  refine h.pushed ?_ v
  rw [h.free_eq hvalid, if_pos hroom]

theorem popped_of_pos (hpos : 0 < m.stack.depth) :
    (m.popped (m.stack.cellAt 0)).LaidOut layout := by
  refine h.popped hvalid ?_
  rw [h.used_eq hvalid, if_pos hpos]

/-- A machine that has found room for a byte is one byte deeper. -/
theorem depth_pushed (cell : Word) (v : Byte) :
    (m.pushed cell v).stack.depth = m.stack.depth + 1 := by
  refine Stack.depth_down ?_
  rw [h.top_eq hvalid]
  exact h.upper

end Machine.LaidOut

/-- A machine that has handed over a byte is one byte less deep. -/
theorem Machine.depth_popped (m : Machine) (cell : Word) :
    (m.popped cell).stack.depth = m.stack.depth - 1 :=
  m.stack.depth_up

end EightBit
