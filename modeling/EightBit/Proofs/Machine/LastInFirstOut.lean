import EightBit.Proofs.Machine.Success

/-!
# Last in, first out

A stack is a pointer and some cells of memory, and everybody can write to these cells.
Still it works like a list of bytes, of which there can be as many as the stack has
cells: a push puts a byte in front of it, a pop takes the front byte off, and that is
so after any calls (`EightBit.Stack.Call`) on a new stack, as long as nobody else has
written to a cell with a pushed byte in it (`EightBit.Stack.Serves`).

The cells of a stack are addressed by their low sixteen bits, so a stack may reach
beyond the address space and go on at its beginning. It holds no more bytes than there
are addresses, which is why no two of them meet (`EightBit.Stack.cellAt_ne`).

What the list has to do with pointer and cells is `EightBit.Stack.Represents`. Every call
keeps to it, and `EightBit.Stack.answers_like_list` says what every call comes to. A machine
at work does with its stack what these calls do (`EightBit.Action.push_eq`,
`EightBit.Action.pop_eq`).
-/

namespace EightBit

namespace Stack

/-- The cell of a pushed byte, counted from the top of the stack. -/
def cellAt (s : Stack) (i : Nat) : Word :=
  UInt16.ofInt (s.pointer + 1 + i)

/-- Whether there is a pushed byte in the cell at an address. -/
def Occupies (s : Stack) (address : Nat) : Prop :=
  ∃ i < s.depth, (s.cellAt i).toNat = address

/-- A push has all bytes one further from the top. -/
theorem cellAt_down (s : Stack) (i : Nat) : s.down.cellAt (i + 1) = s.cellAt i := by
  have h : s.pointer - 1 + 1 + ((i + 1 : Nat) : Int) = s.pointer + 1 + i := by omega
  rw [cellAt, cellAt, down, h]

theorem cellAt_down_zero (s : Stack) : s.down.cellAt 0 = UInt16.ofInt s.pointer := by
  have h : s.pointer - 1 + 1 + ((0 : Nat) : Int) = s.pointer := by omega
  rw [cellAt, down, h]

/-- A pop has all bytes one nearer to the top. -/
theorem cellAt_up (s : Stack) (i : Nat) : s.up.cellAt i = s.cellAt (i + 1) := by
  have h : s.pointer + 1 + 1 + (i : Int) = s.pointer + 1 + ((i + 1 : Nat) : Int) := by omega
  rw [cellAt, cellAt, up, h]

/-- **No two bytes meet** if there are no more than there are addresses. -/
theorem cellAt_ne {s : Stack} {i j : Nat} (hij : i < j) (hj : j < i + 65536) :
    (s.cellAt i).toNat ≠ (s.cellAt j).toNat := by
  have hi := Word.toNat_ofInt (s.pointer + 1 + i)
  have hj := Word.toNat_ofInt (s.pointer + 1 + j)
  rw [cellAt, cellAt]
  omega

/-! ### Push and pop -/

section

variable {s : Stack} {m : Memory} {cell : Word} {fault : Fault}

theorem push_of_free_error (hfree : s.free = .error fault) (v : Byte) :
    s.push m v = .error fault := by
  rw [push, hfree]
  rfl

/-- There is room on the stack, and no such cell in memory. -/
theorem push_of_missing (hfree : s.free = .ok cell) (hcell : ¬cell.toNat < m.size) (v : Byte) :
    s.push m v = .error (.outOfBounds cell.toNat m.size) := by
  rw [push, hfree]
  change (m.write cell v >>= _) = _
  rw [Memory.write, if_neg hcell]
  rfl

theorem push_of_free_ok (hfree : s.free = .ok cell) (hcell : cell.toNat < m.size) (v : Byte) :
    s.push m v = .ok (s.down, m.put cell.toNat v) := by
  rw [push, hfree]
  change (m.write cell v >>= _) = _
  rw [Memory.write, if_pos hcell]
  rfl

theorem pop_of_used_error (hused : s.used = .error fault) : s.pop m = .error fault := by
  rw [pop, hused]
  rfl

/-- There is a byte on the stack, and no such cell in memory. -/
theorem pop_of_missing (hused : s.used = .ok cell) (hcell : m.cell? cell.toNat = none) :
    s.pop m = .error (.outOfBounds cell.toNat m.size) := by
  rw [pop, hused]
  change (m.read cell >>= _) = _
  rw [Memory.read, hcell]
  rfl

theorem pop_of_used_ok {v : Byte} (hused : s.used = .ok cell)
    (hcell : m.cell? cell.toNat = some v) : s.pop m = .ok (v, s.up, m.put cell.toNat 0) := by
  have hlt : cell.toNat < m.size :=
    Memory.isSome_cell?_iff.1 (by rw [hcell, Option.isSome_some])
  rw [pop, hused]
  change (m.read cell >>= _) = _
  rw [Memory.read, hcell]
  change (m.write cell 0 >>= _) = _
  rw [Memory.write, if_pos hlt]
  rfl

end

/-! ### Calls -/

/-- **A call** on a stack. -/
inductive Call where
  | push (value : Byte)
  | pop
  | peek (address : Word)
  | reset

namespace Call

/-- What a call comes to: the answer, with a byte if it is asked for one, and the stack
and the memory afterwards. -/
def perform : Call → Stack → Memory → Except Fault (Option Byte) × Stack × Memory
  | push value, s, m =>
    match s.push m value with
    | .ok (s, m) => (.ok none, s, m)
    | .error fault => (.error fault, s, m)
  | pop, s, m =>
    match s.pop m with
    | .ok (value, s, m) => (.ok (some value), s, m)
    | .error fault => (.error fault, s, m)
  | peek address, s, m => ((s.peek m address).map some, s, m)
  | reset, s, m => (.ok none, s.reset, m)

/-- **What a call does to a list** that holds so many bytes at most. -/
def apply (size : Nat) : Call → List Byte → List Byte
  | push value, bytes => if bytes.length < size then value :: bytes else bytes
  | pop, bytes => bytes.tail
  | peek _, bytes => bytes
  | reset, _ => []

end Call

/-- **A stack at work**: there have been calls on a new stack, and writes to memory that
spared the cells with pushed bytes. The list has been subject to the same calls. -/
inductive Serves (start size : Nat) : List Byte → Stack → Memory → Prop
  | new {m : Memory} : addressSpace ≤ m.size → Serves start size [] (Stack.new start size) m
  | call {bytes : List Byte} {s : Stack} {m : Memory} (call : Call) :
    Serves start size bytes s m →
    Serves start size (call.apply size bytes) (call.perform s m).2.1 (call.perform s m).2.2
  | write {bytes : List Byte} {s : Stack} {m m' : Memory} :
    Serves start size bytes s m → m'.size = m.size →
    (∀ address, s.Occupies address → m'.cell? address = m.cell? address) →
    Serves start size bytes s m'

/-! ### The list in memory -/

/-- **Pointer and cells represent a list.** -/
structure Represents (start size : Nat) (bytes : List Byte) (s : Stack) (m : Memory) : Prop where
  /-- The pointer says how many bytes there are. -/
  stack : s = ⟨start, size, (start : Int) + size - 1 - bytes.length⟩
  length : bytes.length ≤ size
  memory : addressSpace ≤ m.size
  cells : ∀ i < bytes.length, m.cell? (s.cellAt i).toNat = bytes[i]?

namespace Represents

variable {start size : Nat} {bytes : List Byte} {s : Stack} {m : Memory}
  (h : Represents start size bytes s m)

include h

theorem start_eq : s.start = start := by
  rw [h.stack]

theorem pointer_eq : s.pointer = (start : Int) + size - 1 - bytes.length := by
  rw [h.stack]

theorem top_eq : s.top = (start : Int) + size - 1 := by
  rw [top, h.stack]

theorem depth_eq : s.depth = bytes.length := by
  rw [depth, h.top_eq, h.pointer_eq]
  omega

/-- Every address is that of a cell. -/
theorem lt_size (cell : Word) : cell.toNat < m.size :=
  Nat.lt_of_lt_of_le cell.toNat_lt h.memory

theorem free_of_lt (hlt : bytes.length < size) : s.free = .ok (s.down.cellAt 0) := by
  rw [cellAt_down_zero]
  refine free_eq_ok_iff.2 ⟨?_, rfl⟩
  rw [h.start_eq, h.top_eq, h.pointer_eq]
  omega

/-- The next cell is not taken. -/
theorem not_occupies (hsize : size ≤ 65536) (hlt : bytes.length < size) :
    ¬s.Occupies (s.down.cellAt 0).toNat := by
  rintro ⟨i, hi, heq⟩
  rw [h.depth_eq] at hi
  rw [← cellAt_down] at heq
  exact cellAt_ne (by omega) (by omega) heq.symm

/-- **A push puts a byte in front.** -/
theorem pushed (hsize : size ≤ 65536) (hlt : bytes.length < size) (v : Byte) :
    Represents start size (v :: bytes) s.down (m.put (s.down.cellAt 0).toNat v) where
  stack := by
    rw [down, h.stack, mk.injEq, List.length_cons]
    refine ⟨rfl, rfl, ?_⟩
    dsimp only
    omega
  length := hlt
  memory := by
    rw [Memory.size_put]
    exact h.memory
  cells i hi := by
    rw [Memory.cell?_put]
    cases i with
    | zero => exact if_pos ⟨rfl, h.lt_size _⟩
    | succ i =>
      have hne : (s.down.cellAt 0).toNat ≠ (s.down.cellAt (i + 1)).toNat :=
        cellAt_ne (by omega) (by rw [List.length_cons] at hi; omega)
      rw [if_neg fun heq => hne heq.1, cellAt_down, List.getElem?_cons_succ]
      exact h.cells i (Nat.lt_of_succ_lt_succ hi)

/-- **Taking the front byte off** leaves the others where they are. -/
theorem tail (hsize : size ≤ 65536) (hne : bytes ≠ []) (v : Byte) :
    Represents start size bytes.tail s.up (m.put (s.cellAt 0).toNat v) where
  stack := by
    have hpos := List.length_pos_iff.2 hne
    rw [up, h.stack, mk.injEq, List.length_tail]
    refine ⟨rfl, rfl, ?_⟩
    dsimp only
    omega
  length := by
    have hlength := h.length
    rw [List.length_tail]
    omega
  memory := by
    rw [Memory.size_put]
    exact h.memory
  cells i hi := by
    have hlength := h.length
    rw [List.length_tail] at hi
    have hne : (s.cellAt 0).toNat ≠ (s.cellAt (i + 1)).toNat := cellAt_ne (by omega) (by omega)
    rw [Memory.cell?_put, cellAt_up, if_neg fun heq => hne heq.1, h.cells (i + 1) (by omega),
      List.getElem?_tail]

theorem reset : Represents start size [] s.reset m where
  stack := by
    rw [Stack.reset, h.top_eq, h.stack, mk.injEq, List.length_nil]
    refine ⟨rfl, rfl, ?_⟩
    omega
  length := Nat.zero_le _
  memory := h.memory
  cells i hi := absurd hi (Nat.not_lt_zero i)

/-- Who spares the cells with pushed bytes leaves the list alone. -/
theorem write {m' : Memory} (hm' : m'.size = m.size)
    (hcells : ∀ address, s.Occupies address → m'.cell? address = m.cell? address) :
    Represents start size bytes s m' where
  stack := h.stack
  length := h.length
  memory := hm' ▸ h.memory
  cells i hi := by
    rw [hcells _ ⟨i, h.depth_eq.symm ▸ hi, rfl⟩]
    exact h.cells i hi

/-! ### What a call comes to -/

theorem perform_push_of_lt (hlt : bytes.length < size) (v : Byte) :
    (Call.push v).perform s m = (.ok none, s.down, m.put (s.down.cellAt 0).toNat v) := by
  rw [Call.perform, push_of_free_ok (h.free_of_lt hlt) (h.lt_size _)]

theorem perform_push_of_not_lt (hlt : ¬bytes.length < size) (v : Byte) :
    (Call.push v).perform s m = (.error (.stackFault .overflow s.pointer), s, m) := by
  have hfree : s.free = .error (s.fault .overflow) := by
    refine if_neg fun hcontains => ?_
    obtain ⟨hstart, -⟩ := contains_iff.1 hcontains
    rw [h.start_eq, h.pointer_eq] at hstart
    omega
  rw [Call.perform, push_of_free_error hfree]
  rfl

theorem perform_pop_nil (hnil : bytes = []) :
    Call.pop.perform s m = (.error (.stackFault .underflow s.pointer), s, m) := by
  have hused : s.used = .error (s.fault .underflow) := by
    refine if_neg fun htop => ?_
    rw [h.top_eq, h.pointer_eq, hnil, List.length_nil] at htop
    omega
  rw [Call.perform, pop_of_used_error hused]
  rfl

theorem perform_pop_cons {v : Byte} {rest : List Byte} (hcons : bytes = v :: rest) :
    Call.pop.perform s m = (.ok (some v), s.up, m.put (s.cellAt 0).toNat 0) := by
  have hused : s.used = .ok (s.cellAt 0) := by
    refine used_eq_ok_iff.2 ⟨?_, ?_⟩
    · rw [h.top_eq, h.pointer_eq, hcons, List.length_cons]
      omega
    · rw [cellAt]
      simp
  have hcell : m.cell? (s.cellAt 0).toNat = some v := by
    rw [h.cells 0 (by rw [hcons, List.length_cons]; omega), hcons]
    rfl
  rw [Call.perform, pop_of_used_ok hused hcell]

theorem perform_peek (address : Word) :
    ∃ b, m.cell? address.toNat = some b ∧
      (Call.peek address).perform s m =
        (if start ≤ address.toNat ∧ address.toNat < start + size then .ok (some b)
          else .error (.stackFault .outOfRange s.pointer), s, m) := by
  obtain ⟨b, hb⟩ := Option.isSome_iff_exists.1 (Memory.isSome_cell?_iff.2 (h.lt_size address))
  refine ⟨b, hb, ?_⟩
  have hcontains : s.contains address.toNat = true ↔
      start ≤ address.toNat ∧ address.toNat < start + size := by
    rw [contains_iff, h.start_eq, h.top_eq]
    omega
  rw [Call.perform, peek, visible]
  by_cases hin : start ≤ address.toNat ∧ address.toNat < start + size
  · rw [if_pos hin, if_pos (hcontains.2 hin)]
    change ((m.read address).map some, s, m) = _
    rw [Memory.read, hb]
    rfl
  · rw [if_neg hin, if_neg fun hcontained => hin (hcontains.1 hcontained)]
    rfl

/-- **Every call keeps to the list.** -/
theorem call (hsize : size ≤ 65536) (call : Call) :
    Represents start size (call.apply size bytes) (call.perform s m).2.1
      (call.perform s m).2.2 := by
  cases call with
  | push v =>
    by_cases hlt : bytes.length < size
    · rw [h.perform_push_of_lt hlt, Call.apply, if_pos hlt]
      exact h.pushed hsize hlt v
    · rw [h.perform_push_of_not_lt hlt, Call.apply, if_neg hlt]
      exact h
  | pop =>
    rw [Call.apply]
    cases hbytes : bytes with
    | nil =>
      rw [h.perform_pop_nil hbytes, List.tail_nil, ← hbytes]
      exact h
    | cons v rest =>
      rw [h.perform_pop_cons hbytes, ← hbytes]
      exact h.tail hsize (hbytes ▸ List.cons_ne_nil v rest) 0
  | peek address => exact h
  | reset => exact h.reset

end Represents

/-- A new stack represents the empty list. -/
theorem represents_new {start size : Nat} {m : Memory} (hsize : size ≤ 65536)
    (hstop : start + size < 0x80000000) (hm : addressSpace ≤ m.size) :
    Represents start size [] (new start size) m where
  stack := by
    rw [new_eq (by omega) (by omega), mk.injEq, List.length_nil]
    refine ⟨rfl, rfl, ?_⟩
    omega
  length := Nat.zero_le _
  memory := hm
  cells i hi := absurd hi (Nat.not_lt_zero i)

/-- **A stack at work represents its list.** -/
theorem Serves.represents {start size : Nat} (hsize : size ≤ 65536)
    (hstop : start + size < 0x80000000) {bytes : List Byte} {s : Stack} {m : Memory}
    (h : Serves start size bytes s m) : Represents start size bytes s m := by
  induction h with
  | new hm => exact represents_new hsize hstop hm
  | call call _ ih => exact ih.call hsize call
  | write _ hm' hcells ih => exact ih.write hm' hcells

/-- **A stack at work answers like its list.** There is room for a push exactly if the list
is not full, and the byte goes to a cell that is not taken; a pop hands over the front
byte and leaves a zero behind; and a cell of the stack can be looked at whatever stands
there. No call changes any other cell than the one it pushes to or pops from, and one
that fails changes nothing. -/
theorem answers_like_list {start size : Nat} (hsize : size ≤ 65536)
    (hstop : start + size < 0x80000000) {bytes : List Byte} {s : Stack} {m : Memory}
    (h : Serves start size bytes s m) :
    bytes.length ≤ size ∧ s.depth = bytes.length ∧
      (∀ v, if bytes.length < size then
          ¬s.Occupies (UInt16.ofInt s.pointer).toNat ∧ ∃ m' : Memory,
            (Call.push v).perform s m = (.ok none, s.down, m') ∧ m'.size = m.size ∧
              ∀ address, m'.cell? address =
                if address = (UInt16.ofInt s.pointer).toNat then some v else m.cell? address
        else (Call.push v).perform s m = (.error (.stackFault .overflow s.pointer), s, m)) ∧
      (bytes = [] → Call.pop.perform s m = (.error (.stackFault .underflow s.pointer), s, m)) ∧
      (∀ v rest, bytes = v :: rest → ∃ m' : Memory,
        Call.pop.perform s m = (.ok (some v), s.up, m') ∧ m'.size = m.size ∧
          ∀ address, m'.cell? address =
            if address = (s.cellAt 0).toNat then some 0 else m.cell? address) ∧
      (∀ address : Word, ∃ b, m.cell? address.toNat = some b ∧
        (Call.peek address).perform s m =
          (if start ≤ address.toNat ∧ address.toNat < start + size then .ok (some b)
            else .error (.stackFault .outOfRange s.pointer), s, m)) ∧
      Call.reset.perform s m = (.ok none, s.reset, m) := by
  have hrep := h.represents hsize hstop
  -- A byte put down in a cell changes this cell only.
  have hput : ∀ (cell : Word) (v : Byte) (address : Nat), (m.put cell.toNat v).cell? address =
      if address = cell.toNat then some v else m.cell? address := by
    intro cell v address
    rw [Memory.cell?_put]
    by_cases heq : address = cell.toNat
    · rw [if_pos heq, if_pos ⟨heq.symm, heq ▸ hrep.lt_size cell⟩]
    · rw [if_neg heq, if_neg fun hand => heq hand.1.symm]
  refine ⟨hrep.length, hrep.depth_eq, fun v => ?_, hrep.perform_pop_nil, fun v rest hcons => ?_,
    hrep.perform_peek, rfl⟩
  · by_cases hlt : bytes.length < size
    · rw [if_pos hlt, ← cellAt_down_zero]
      exact ⟨hrep.not_occupies hsize hlt, _, hrep.perform_push_of_lt hlt v,
        Memory.size_put _ _ _, hput _ v⟩
    · rw [if_neg hlt]
      exact hrep.perform_push_of_not_lt hlt v
  · exact ⟨_, hrep.perform_pop_cons hcons, Memory.size_put _ _ _, hput _ 0⟩

/-- A stack of four cells that begins two cells before the end of the address space goes on
at its beginning. After two pushes the second byte is popped. -/
theorem answers_like_list_across_the_end :
    4 ≤ 65536 ∧ 65534 + 4 < 0x80000000 ∧ ∃ s m, Serves 65534 4 [2, 1] s m ∧
      (s.cellAt 1).toNat = 1 ∧ s.depth = 2 ∧
      ∃ m' : Memory, Call.pop.perform s m = (.ok (some 2), s.up, m') ∧ m'.cell? 0 = some 0 := by
  have hserves : Serves 65534 4 [2, 1] _ _ :=
    .call (.push 2) (.call (.push 1) (.new (m := Memory.zeros addressSpace) (Nat.le_refl _)))
  obtain ⟨-, hdepth, -, -, hpops, -⟩ := answers_like_list (by decide) (by decide) hserves
  obtain ⟨m', hpop, -, hcells⟩ := hpops 2 [1] rfl
  refine ⟨by decide, by decide, _, _, hserves, rfl, hdepth, m', hpop, ?_⟩
  rw [hcells]
  rfl

end Stack

/-! ### The stack of a machine -/

namespace Action

/-- **A machine pushes as its stack does**, and nothing changes if it cannot. -/
theorem push_eq (v : Byte) (m : Machine) :
    (push v m).result = (m.stack.push m.memory v).map (fun _ => ()) ∧
      (push v m).machine = match m.stack.push m.memory v with
        | .ok (stack, memory) => Machine.showStack { m with stack, memory }
        | .error _ => m := by
  obtain ⟨f, hfree, heq⟩ | ⟨cell, hfree, hcell, heq⟩ | ⟨cell, hfree, hcell, heq⟩ := push_cases v m
  · rw [heq, Stack.push_of_free_error hfree]
    exact ⟨rfl, rfl⟩
  · rw [heq, Stack.push_of_missing hfree hcell]
    exact ⟨rfl, rfl⟩
  · rw [heq, Stack.push_of_free_ok hfree hcell]
    exact ⟨rfl, rfl⟩

/-- **A machine pops as its stack does**, and nothing changes if it cannot. -/
theorem pop_eq (m : Machine) :
    (pop m).result = (m.stack.pop m.memory).map (fun popped => popped.1) ∧
      (pop m).machine = match m.stack.pop m.memory with
        | .ok (_, stack, memory) => Machine.showStack { m with stack, memory }
        | .error _ => m := by
  obtain ⟨f, hused, heq⟩ | ⟨cell, hused, hcell, heq⟩ | ⟨cell, v, hused, hcell, heq⟩ := pop_cases m
  · rw [heq, Stack.pop_of_used_error hused]
    exact ⟨rfl, rfl⟩
  · rw [heq, Stack.pop_of_missing hused hcell]
    exact ⟨rfl, rfl⟩
  · rw [heq, Stack.pop_of_used_ok hused hcell]
    exact ⟨rfl, rfl⟩

end Action

end EightBit
